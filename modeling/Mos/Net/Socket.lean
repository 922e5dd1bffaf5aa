import Mathlib

namespace Mos.Tcp

structure Flags where
  fin : Bool := false
  syn : Bool := false
  rst : Bool := false
  psh : Bool := false
  ack : Bool := false
  deriving DecidableEq, Repr

/-- `enum tcp_state`, and `unset` for the zeroed field of a socket that has
never been connected. -/
inductive TcpState where
  | unset | established | synSent | synRecv | finWait1 | finWait2 | timeWait
  | close | closeWait | lastAck | listen | closing
  deriving DecidableEq, Repr

inductive SocketState where
  | unconnected | connecting | connected | disconnecting | disconnected
  deriving DecidableEq, Repr

/-- A received segment that passed `tcp_handler`'s checks: header fields in host
order, the option bytes and the payload. The source keeps either length in 16 bits. -/
structure Segment where
  seq : UInt32
  ackNumber : UInt32
  flags : Flags
  window : UInt16
  options : List UInt8 := []
  payload : List UInt8 := []
  fits : options.length < 65536 ∧ payload.length < 65536 := by decide
  deriving DecidableEq, Repr

def Segment.payloadLen (seg : Segment) : UInt32 := UInt32.ofNat seg.payload.length

theorem Segment.payload_length_lt (seg : Segment) : seg.payload.length < 65536 := seg.fits.2

/-- An outgoing buffer. `addr` is the pointer to it; `seq`, `flags` and `endSeq`
are the immutable part of its control block `tcp_skb_cb`. -/
structure SkBuff where
  addr : Nat
  seq : UInt32
  ackNumber : UInt32
  flags : Flags
  window : UInt16
  options : List UInt8
  payload : List UInt8
  endSeq : UInt32
  deriving DecidableEq, Repr

structure Stamp where
  when : Nat := 0
  expires : Nat := 0
  deriving DecidableEq, Repr

/-- The assertions of the TCP sources, and the two other ways the kernel stops.
A failed `assert` raises `int 1`, whose handler panics with interrupts off. -/
inductive Panic where
  | sendHeadRemoved
  | expiresUnset
  | rttNotFirst
  | probeUnacked
  | probeWindow
  | chunkPastEnd
  | receivedPastEnd
  | retransmitEmpty
  | rttMismatch
  | persistProbe
  | mslState
  | fastRetransmitEmpty
  | wildSendHead
  | optionLoop
  deriving DecidableEq, Repr

/-- One TCP socket: `struct socket`, `struct sock` and `struct tcp_sock` together.
A timer is `none` while it is not linked in the timer list. -/
structure Sock where
  sockState : SocketState := .unconnected
  /-- `owner_thread` is not `THREAD_WAITING`. -/
  ownerReady : Bool := true
  rxQueue : List Segment := []
  txQueue : List SkBuff := []
  sendHead : Option Nat := none
  state : TcpState := .unset
  sndMss : UInt32 := 0
  sndIss : UInt32 := 0
  sndUna : UInt32 := 0
  sndNxt : UInt32 := 0
  sndWnd : UInt32 := 0
  sndWl1 : UInt32 := 0
  sndWl2 : UInt32 := 0
  sndWds : UInt8 := 0
  rcvMss : UInt32 := 0
  rcvIrs : UInt32 := 0
  rcvNxt : UInt32 := 0
  rcvWnd : UInt32 := 0
  ssthresh : UInt32 := 0
  cwnd : UInt32 := 0
  numberOfDupAcks : UInt8 := 0
  flightSize : UInt32 := 0
  rto : UInt32 := 0
  srtt : UInt32 := 0
  rttvar : UInt32 := 0
  persistBackoff : UInt16 := 0
  rttEndSeq : UInt32 := 0
  rttTime : Nat := 0
  synRetries : UInt8 := 0
  retransmitTimer : Option Nat := none
  persistTimer : Option Nat := none
  mslTimer : Option Nat := none
  /-- `when` and `expires` of the control block at each address. -/
  cb : Nat → Stamp := fun _ => {}
  nextAddr : Nat := 0
  now : Nat := 0
  /-- Buffers handed to `ethernet_sendmsg` since the TCB was created, latest first. -/
  wire : List SkBuff := []

end Mos.Tcp

import Mos.Machine.Checked
import Mos.Net.Neighbour
import Mos.Net.TcpInput

namespace Mos.Frames
open Machine Arp

/-- What the handling of a frame must not do: read behind the frame, follow a pointer that
was never set, or fail one of the assertions. -/
inductive Fault where
  | outside
  | wildPointer
  | payloadLength
  | assertion (p : Tcp.Panic)
  deriving DecidableEq

structure Frame where
  bytes : List UInt8
  size : bytes.length < 2 ^ 32

namespace Frame

def len (f : Frame) : Nat := f.bytes.length

/-- The fields at an offset, as they are loaded; 0 behind the frame. -/
def u8 (f : Frame) (i : Nat) : UInt8 := f.bytes.getD i 0

def u16 (f : Frame) (i : Nat) : UInt16 := (f.u8 i).toUInt16 ||| (f.u8 (i + 1)).toUInt16 <<< 8

def u32 (f : Frame) (i : Nat) : UInt32 := (f.u16 i).toUInt32 ||| (f.u16 (i + 2)).toUInt32 <<< 16

def slice (f : Frame) (i n : Nat) : List UInt8 := (List.range n).map fun k => f.u8 (i + k)

def read8 (f : Frame) (i : Nat) : Except Fault UInt8 := within .outside f.bytes i 1 (f.u8 i)
def read16 (f : Frame) (i : Nat) : Except Fault UInt16 := within .outside f.bytes i 2 (f.u16 i)
def read32 (f : Frame) (i : Nat) : Except Fault UInt32 := within .outside f.bytes i 4 (f.u32 i)

def readBytes (f : Frame) (i n : Nat) : Except Fault (List UInt8) :=
  within .outside f.bytes i n (f.slice i n)

end Frame

/-! ### Checksums -/

def sumWords : List UInt8 → UInt32 → UInt32
  | a :: b :: rest, checksum =>
    sumWords rest (checksum + (a.toUInt16 ||| b.toUInt16 <<< 8).toUInt32)
  | [a], checksum => checksum + a.toUInt32
  | [], checksum => checksum

/-- `while (checksum > CHECKSUM_MASK)`: the first round leaves 17 bits at most and the
second one 16. -/
def foldChecksum : Nat → UInt32 → UInt32
  | 0, checksum => checksum
  | rounds + 1, checksum =>
    if checksum > 0xFFFF then foldChecksum rounds ((checksum &&& (0xFFFF : UInt32)) + (checksum >>> (16 : UInt32)))
    else checksum

def packetChecksumStart (packet : List UInt8) : UInt32 := foldChecksum 3 (sumWords packet 0)

/-- `transport_calculate_checksum`; the addresses are as in the frame. -/
def transportCalculateChecksum (segment : List UInt8) (protocal : UInt8) (addresses : List UInt8) :
    UInt16 :=
  let length := UInt16.ofNat segment.length
  let pseudo := addresses ++ [0, protocal, (length >>> 8).toUInt8, length.toUInt8]
  (foldChecksum 3 (packetChecksumStart pseudo + packetChecksumStart segment)).toUInt16 ^^^ 0xFFFF

/-- The checksum of a segment whose own field for it, at `field`, is set to 0. -/
def segmentChecksum (f : Frame) (segment : List UInt8) (protocal : UInt8) (field : Nat) : UInt16 :=
  transportCalculateChecksum ((segment.set field 0).set (field + 1) 0) protocal (f.slice 26 8)

/-! ### `net_default_rx_handler` -/

def icmpReply (f : Frame) (payloadLen : UInt32) : Except Fault Unit := do
  let _ ← f.readBytes 6 6
  let _ ← f.read32 26
  let _ ← f.read16 18
  let _ ← f.read32 38
  if payloadLen > 0 then
    let _ ← f.readBytes 42 payloadLen.toNat
    pure ()

def rxIcmp (d : NetDevice) (f : Frame) : Except Fault Unit := do
  let code ← f.read8 35
  if code = 0 then
    let type ← f.read8 34
    if type = 8 then
      let destIp ← f.read32 30
      if destIp = htonl d.localIp then
        let totalLength ← f.read16 16
        icmpReply f ((htons totalLength).toUInt32 - 20 - 8)

/-- `arp_validate_packet`: each field is read if those before it are right. -/
def arpValidatePacket (f : Frame) : Except Fault Bool := do
  let htype ← f.read16 14
  if htype = htons 1 then
    let ptype ← f.read16 16
    if ptype = htons 0x0800 then
      let hlen ← f.read8 18
      if hlen = 6 then
        let plen ← f.read8 19
        pure (plen == 4)
      else pure false
    else pure false
  else pure false

def macAt (f : Frame) (i : Nat) : Mac := Vector.ofFn fun k => f.u8 (i + k)

/-- The ARP branch; `prevNb` is what is on the stack where `neighbour_update_mapping` has
`prev_nb`. -/
def rxArp (s : Stack) (prevNb : Option Nat) (f : Frame) : Except Fault Stack := do
  let valid ← arpValidatePacket f
  if valid then
    let tpa ← f.read32 38
    if tpa = htonl s.netdev.localIp then
      let _ ← f.readBytes 22 6
      let _ ← f.read32 28
      pure s
    else
      let spa ← f.read32 28
      if tpa = spa then
        let _ ← f.readBytes 32 6
        if isBroadcastMacAddress s (macAt f 32) then
          let _ ← f.readBytes 22 6
          (neighbourUpdateMapping s prevNb (macAt f 22) spa).elim (throw .wildPointer) pure
        else pure s
      else pure s
  else pure s

def netDefaultRxHandler (s : Stack) (prevNb : Option Nat) (f : Frame) : Except Fault Stack := do
  let type ← f.read16 12
  if type = htons 0x0800 then
    let protocal ← f.read8 23
    if protocal = 1 then
      rxIcmp s.netdev f
      pure s
    else pure s
  else if type = htons 0x0806 then rxArp s prevNb f
  else pure s

/-! ### `udp_handler` and `udp_recvmsg` -/

structure SockaddrIn where
  port : UInt16 := 0
  addr : UInt32 := 0
  deriving DecidableEq, Repr

structure UdpSock where
  state : Tcp.SocketState := .connected
  ssin : SockaddrIn := {}
  dsin : SockaddrIn := {}

/-- The test of both handlers whether a segment is for the socket; the ports follow the IP
header. -/
def addressed (f : Frame) (ssin dsin : SockaddrIn) : Bool :=
  htonl (f.u32 30) == ssin.addr && htons (f.u16 36) == ssin.port &&
    htonl (f.u32 26) == dsin.addr && htons (f.u16 34) == dsin.port

def udpValidateHeader (f : Frame) : Except Fault Bool := do
  let receivedChecksum ← f.read16 40
  if receivedChecksum = 0 then pure true
  else
    let length ← f.read16 38
    let segment ← f.readBytes 34 (htons length).toNat
    pure (segmentChecksum f segment 17 6 == receivedChecksum)

def udpRecvmsg (f : Frame) (msgLen : UInt32) : Except Fault (List UInt8) := do
  let length ← f.read16 38
  f.readBytes 42 (min msgLen ((htons length).toUInt32 - 8)).toNat

/-- `udp_handler`, and `udp_recvmsg` if it puts the frame into the queue. -/
def udpReceive (u : UdpSock) (msgLen : UInt32) (f : Frame) : Except Fault (Option (List UInt8)) :=
  if u.state = .disconnected then pure none
  else do
    let type ← f.read16 12
    if type = htons 0x0800 then
      let protocal ← f.read8 23
      if protocal = 17 then
        let _ ← f.readBytes 26 8
        let valid ← udpValidateHeader f
        if valid then
          let _ ← f.readBytes 34 4
          if addressed f u.ssin u.dsin then some <$> udpRecvmsg f msgLen else pure none
        else pure none
      else pure none
    else pure none

/-! ### `tcp_handler` -/

structure TcpSock where
  sk : Tcp.Sock
  ssin : SockaddrIn := {}
  dsin : SockaddrIn := {}

/-- The fields of the headers that give lengths: the 4 bits in front come first. -/
def ihl (f : Frame) : Nat := (f.u8 14).toNat % 16
def dataOffset (f : Frame) : Nat := (f.u8 46).toNat / 16
def totalLength (f : Frame) : UInt16 := htons (f.u16 16)

def tcpOptionLength (f : Frame) : UInt16 := UInt16.ofNat (dataOffset f * 4) - 20

def payloadFits (f : Frame) : Bool := (ihl f + dataOffset f) * 4 ≤ (totalLength f).toNat

def tcpPayloadLenth (f : Frame) : Nat := (totalLength f).toNat - (ihl f + dataOffset f) * 4

def flag (f : Frame) (bit : UInt8) : Bool := f.u8 47 &&& bit != 0

/-- How many bytes behind the options belong to the segment; in `TCP_SYN_SENT` the length of
the payload is not computed, and the options may be read past their end. -/
def payloadCount (s : Tcp.Sock) (f : Frame) : Nat :=
  if s.state = .synSent then min 65535 (f.len - (54 + (tcpOptionLength f).toNat))
  else tcpPayloadLenth f

def segment (s : Tcp.Sock) (f : Frame) : Tcp.Segment where
  seq := htonl (f.u32 38)
  ackNumber := htonl (f.u32 42)
  flags := {
    fin := flag f 0x01
    syn := flag f 0x02
    rst := flag f 0x04
    psh := flag f 0x08
    ack := flag f 0x10 }
  window := htons (f.u16 48)
  options := f.slice 54 (tcpOptionLength f).toNat
  payload := f.slice (54 + (tcpOptionLength f).toNat) (payloadCount s f)
  fits := by
    have h₁ := (tcpOptionLength f).toNat_lt
    have h₂ := (totalLength f).toNat_lt
    simp only [Frame.slice, List.length_map, List.length_range]
    unfold payloadCount tcpPayloadLenth
    refine ⟨by omega, ?_⟩
    split <;> omega

def parsesOptions (s : Tcp.Sock) (seg : Tcp.Segment) : Bool :=
  seg.flags.ack && !(seg.ackNumber ≤ s.sndIss || seg.ackNumber > s.sndNxt) && !seg.flags.rst &&
    seg.flags.syn && s.sndUna ≤ seg.ackNumber && seg.ackNumber ≤ s.sndNxt && !seg.options.isEmpty

/-- The reads of `tcp_parse_syn_options`, of which `avail` bytes from the options on are in
the frame. An option of length 0 is read again and again. -/
def optionsInside (byte : Nat → UInt8) (len avail : Nat) : Nat → Nat → Bool
  | 0, _ => true
  | rounds + 1, i =>
    if len ≤ i then true
    else i < avail &&
      if byte i = 0 ∨ byte i = 1 then optionsInside byte len avail rounds (i + 1)
      else
        (byte i != 2 || i + 3 < avail) && (byte i != 3 || i + 2 < avail) && i + 1 < avail &&
          (byte (i + 1) == 0 || optionsInside byte len avail rounds (i + (byte (i + 1)).toNat))

def synOptionsInside (f : Frame) : Bool :=
  let len := (tcpOptionLength f).toNat
  optionsInside (fun i => f.u8 (54 + i)) len (f.len - 54) len 0

/-- What can go wrong before the segment is handled: options that are read behind the
frame, or the assertion of `tcp_payload_lenth`. -/
def earlyChecks (s : Tcp.Sock) (f : Frame) : Except Fault Unit :=
  if s.state = .synSent then
    if parsesOptions s (segment s f) && !synOptionsInside f then throw .outside else pure ()
  else if payloadFits f then pure ()
  else throw .payloadLength

/-- An option of length 0 makes the handler run for ever, which is none of the faults. -/
def outcome : Except Tcp.Panic Tcp.Sock → Except Fault (Option Tcp.Sock)
  | .ok sk => pure (some sk)
  | .error .optionLoop => pure none
  | .error p => throw (.assertion p)

def tcpSwitch (t : TcpSock) (garbage : UInt16 × UInt8) (f : Frame) : Except Fault (Option Tcp.Sock) :=
  if t.sk.state = .unset ∨ t.sk.state = .listen then pure (some t.sk)
  else do
    earlyChecks t.sk f
    outcome (Tcp.tcpHandler t.sk (segment t.sk f) garbage)

def tcpHandler (t : TcpSock) (garbage : UInt16 × UInt8) (f : Frame) : Except Fault (Option Tcp.Sock) :=
  if t.sk.sockState = .disconnected then pure (some t.sk)
  else do
    let type ← f.read16 12
    if type = htons 0x0800 then
      let protocal ← f.read8 23
      if protocal = 6 then
        let totalLength ← f.read16 16
        let _ ← f.readBytes 26 8
        let receivedChecksum ← f.read16 50
        let segment ← f.readBytes 34 (htons totalLength - 20).toNat
        if segmentChecksum f segment 6 16 = receivedChecksum then
          if addressed f t.ssin t.dsin then tcpSwitch t garbage f else pure (some t.sk)
        else pure (some t.sk)
      else pure (some t.sk)
    else pure (some t.sk)

end Mos.Frames

import Mos.Net.Socket

namespace Mos.Tcp

def ethDataLen : UInt32 := 1500
def ethMaxMtu : UInt32 := 0xffff
def maxSegmentLifetime : Nat := 15

/-- `tcp_set_option_value`: kind, length including the two header bytes, value. -/
def tcpSetOptionValue (code : UInt8) (value : List UInt8) : List UInt8 :=
  code :: UInt8.ofNat (value.length + 2) :: value

/-- `tcp_build_syn_options`: the MSS and a zero window scale, padded to a word. -/
def tcpBuildSynOptions (s : Sock) : List UInt8 :=
  tcpSetOptionValue 2 [(s.sndMss >>> 8).toUInt8, s.sndMss.toUInt8] ++ tcpSetOptionValue 3 [0] ++ [0]

/-- `tcp_create_tcb`. The smoothed round-trip variables are not reset, and
neither is the transmission queue. -/
def tcpCreateTcb (s : Sock) : Sock :=
  let mss := (ethDataLen - (20 + 20)) / 4 * 4
  { s with
    state := .close
    mslTimer := none
    sndMss := mss
    sndIss := 0
    sndUna := 0
    sndNxt := 1
    sndWl1 := 0
    sndWl2 := 0
    sndWnd := ethMaxMtu
    sndWds := 0
    rcvMss := mss
    rcvIrs := 0
    rcvNxt := 0
    rcvWnd := ethMaxMtu
    ssthresh := ethMaxMtu
    cwnd := mss
    flightSize := 0
    numberOfDupAcks := 0
    rto := 1000
    retransmitTimer := none
    persistBackoff := 1000
    persistTimer := none
    rttEndSeq := 0
    rttTime := 0
    synRetries := 0
    wire := [] }

def tcpDeleteTcb (s : Sock) : Sock :=
  { s with
    mslTimer := none
    rto := 1000
    retransmitTimer := none
    persistBackoff := 1000
    persistTimer := none
    rttEndSeq := 0
    rttTime := 0
    synRetries := 0 }

/-- `tcp_enter_close_state` deletes the retransmission timer twice and leaves
the other two alone. -/
def tcpEnterCloseState (s : Sock) : Sock :=
  { s with state := .close, retransmitTimer := none }

def tcpFlushTx (s : Sock) : Sock := { s with txQueue := [], sendHead := none }

def tcpFlushRx (s : Sock) : Sock := { s with rxQueue := [] }

/-- The switch of `tcp_state_transition`: the state after sending `flags`. -/
def nextState (state : TcpState) (flags : Flags) : TcpState :=
  match state with
  | .close | .listen => if flags = { syn := true } then .synSent else state
  | .synSent =>
    if flags = { ack := true, syn := true } then .synRecv
    else if flags = { ack := true } then .established
    else if flags = { rst := true } then .close
    else .synSent
  | .established => if flags.fin then .finWait1 else .established
  | .closeWait => if flags.fin then .lastAck else .closeWait
  | _ => state

def tcpStateTransition (s : Sock) (flags : Flags) : Sock :=
  let state := nextState s.state flags
  let retried := s.state ≠ state ∧ state = .established ∧ 0 < s.synRetries
  { s with
    state := state
    rto := if retried then 3 else s.rto
    cwnd := if retried then s.sndMss else s.cwnd }

/-- The conversion of a length to the `int` that a call returns. -/
def asInt (n : Nat) : Int := Int.bmod n (2 ^ 32)

def tcpReturnCode (s : Sock) (successCode : Int) : Int :=
  match s.state with
  | .established | .finWait1 => successCode
  | _ => -1

/-- `tcp_calculate_rto`. The weights 1/4 and 1/8 are exact in floating point, so
the products are computed here as truncated quotients. -/
def tcpCalculateRto (s : Sock) (rtt : UInt32) : Sock :=
  let deviation := (s.srtt - rtt).toBitVec.toInt.natAbs
  let rttvar := if s.srtt = 0 then rtt / 2
    else UInt32.ofNat ((3 * s.rttvar.toNat + deviation) / 4)
  let srtt := if s.srtt = 0 then rtt else UInt32.ofNat ((7 * s.srtt.toNat + rtt.toNat) / 8)
  { s with rttvar := rttvar, srtt := srtt, rto := max (srtt + max 100 (4 * rttvar)) 1000 }

def tcpCalculateCongestion (s : Sock) (segAck : UInt32) : Sock :=
  let cwnd := if s.cwnd ≤ s.ssthresh then s.cwnd + min (segAck - s.sndUna) s.sndMss
    else s.cwnd + s.sndMss * s.sndMss / s.cwnd
  { s with cwnd := min cwnd ethMaxMtu }

def tcpSenderAvailableWindow (s : Sock) : UInt32 := s.sndUna + s.sndWnd - s.sndNxt

def wakeOwner (s : Sock) : Sock := { s with ownerReady := true }

end Mos.Tcp

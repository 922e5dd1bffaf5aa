import Mos.Net.TcpOutput

namespace Mos.Tcp

/-- The loop of `tcp_parse_syn_options`; `byte i` is the `i`-th byte after the TCP
header and the first `len` of them are options. It never ends on an option of length zero, which is
the `none` here; otherwise `i` grows, so `len` rounds are enough. The two locals
hold whatever the stack held until an option sets them. -/
def parseSynOptions (byte : Nat → UInt8) (len : Nat) (rmms : UInt16) (scale : UInt8) :
    Nat → Nat → Option (UInt16 × UInt8)
  | 0, _ => some (rmms, scale)
  | rounds + 1, i =>
    if len ≤ i then some (rmms, scale)
    else if byte i = 0 ∨ byte i = 1 then parseSynOptions byte len rmms scale rounds (i + 1)
    else if byte (i + 1) = 0 then none
    else
      let rmms := if byte i = 2 then (byte (i + 2)).toUInt16 + (byte (i + 3)).toUInt16 <<< 8 else rmms
      let scale := if byte i = 3 then byte (i + 2) else scale
      parseSynOptions byte len rmms scale rounds (i + (byte (i + 1)).toNat)

def ntohs (x : UInt16) : UInt16 := x <<< 8 ||| x >>> 8

/-- `tcp_parse_syn_options` on a segment. Past the segment the cloned buffer is
zero. `garbage` is the initial content of the two locals. -/
def tcpParseSynOptions (seg : Segment) (garbage : UInt16 × UInt8) : Option (UInt32 × UInt8) :=
  let bytes := seg.options ++ seg.payload
  (parseSynOptions (fun i => bytes.getD i 0) seg.options.length garbage.1 garbage.2
    seg.options.length 0).map fun (rmms, scale) => ((ntohs rmms).toUInt32, scale)

/-- `send_head` is at the first queued buffer and no round trip is being timed:
the first segment was retransmitted. -/
def ackFromRetransmitted (s : Sock) : Bool :=
  s.sendHead.isSome && s.sendHead == s.txQueue.head?.map SkBuff.addr && s.rttTime == 0

def ackSendHead (s : Sock) : Option Nat :=
  if ackFromRetransmitted s then s.txQueue.tail.head?.map SkBuff.addr else s.sendHead

def ackRemoves (ackNumber : UInt32) (isAckedAll : Bool) (skb : SkBuff) : Bool :=
  skb.endSeq < ackNumber || isAckedAll

def ackTimer (s : Sock) (retransmitted : Bool) : Except Panic Sock :=
  match s.txQueue.head? with
  | some skb =>
    if retransmitted then .ok { s with retransmitTimer := none }
    else if (s.cb skb.addr).expires = 0 then .error .expiresUnset
    else .ok { s with retransmitTimer := some (s.cb skb.addr).expires }
  | none => .ok { s with retransmitTimer := none }

def ackRtt (s : Sock) (ackNumber : UInt32) : Sock :=
  if s.rttTime ≠ 0 ∧ s.rttEndSeq < ackNumber then
    { tcpCalculateRto s (UInt32.ofNat (s.now - s.rttTime)) with rttTime := 0 }
  else s

/-- `tcp_accept_ack`. Unlinked buffers are not freed. -/
def tcpAcceptAck (s : Sock) (ackNumber : UInt32) (isAckedAll : Bool) : Except Panic Sock :=
  let retransmitted := ackFromRetransmitted s
  let head := ackSendHead s
  if s.txQueue.any (fun x => ackRemoves ackNumber isAckedAll x && head == some x.addr) then
    .error .sendHeadRemoved
  else do
    let s ← ackTimer
      { s with
        sndUna := ackNumber
        flightSize := s.sndNxt - ackNumber
        numberOfDupAcks := 0
        cwnd := if retransmitted then s.ssthresh else s.cwnd
        sendHead := head
        txQueue := s.txQueue.filter (fun x => !ackRemoves ackNumber isAckedAll x) }
      retransmitted
    pure (ackRtt s ackNumber)

def tcpIsFinAcked (s : Sock) : Bool := s.txQueue.all (fun x => !x.flags.fin)

def tcpHandlerClose (s : Sock) (seg : Segment) : Sock :=
  if seg.flags.rst then s
  else if !seg.flags.ack then
    tcpSendSkb s (tcpCreateSkb s 0 (seg.seq + seg.payloadLen) { ack := true, rst := true } [] []) false
  else
    tcpSendSkb s (tcpCreateSkb s seg.ackNumber s.rcvNxt { rst := true } [] []) false

/-- A reset answering `seg`, with the sequence number it acknowledges. -/
def sendRst (s : Sock) (seg : Segment) (ackNumber : UInt32) : Sock :=
  tcpSendSkb s (tcpCreateSkb s seg.ackNumber ackNumber { rst := true } [] []) false

def initialWindow (mss : UInt32) : UInt32 :=
  if mss > 2190 then 2 else if mss > 1095 then 3 else 4

/-- The end of `tcp_handler_sync`, once the peer's options and numbers are in. -/
def synAccepted (s : Sock) (seg : Segment) : Sock :=
  if s.sndUna > s.sndIss then
    wakeOwner (sendAck
      { s with cwnd := initialWindow s.sndMss * s.sndMss, ssthresh := seg.window.toUInt32 })
  else
    tcpSendSkb s (tcpCreateSkb s s.sndIss s.rcvNxt { ack := true, syn := true } [] []) false

def tcpHandlerSync (s : Sock) (seg : Segment) (garbage : UInt16 × UInt8) : Except Panic Sock :=
  if seg.flags.ack ∧ (seg.ackNumber ≤ s.sndIss ∨ seg.ackNumber > s.sndNxt) then
    if seg.flags.rst then .ok s else .ok (wakeOwner (sendRst s seg 0))
  else
    let acceptableAck := seg.flags.ack ∧ s.sndUna ≤ seg.ackNumber ∧ seg.ackNumber ≤ s.sndNxt
    if seg.flags.rst then
      if acceptableAck then .ok (tcpDeleteTcb (tcpEnterCloseState s)) else .ok s
    else if seg.flags.syn ∧ acceptableAck then
      match (if seg.options.isEmpty then some (s.rcvMss, s.sndWds)
          else tcpParseSynOptions seg garbage) with
      | none => .error .optionLoop
      | some (rcvMss, sndWds) => do
        let s ← tcpAcceptAck
          { s with
            rcvMss := rcvMss
            sndWds := sndWds
            rcvIrs := seg.seq
            rcvNxt := seg.seq + 1
            sndNxt := seg.ackNumber
            sndWnd := seg.window.toUInt32 } seg.ackNumber false
        pure (synAccepted s seg)
    else .ok s

def segWnd (s : Sock) (seg : Segment) : UInt32 := seg.window.toUInt32 <<< s.sndWds.toUInt32

def acceptableSegment (s : Sock) (seg : Segment) : Bool :=
  if s.rcvWnd ≠ 0 then
    if seg.payload ≠ [] then
      decide (s.rcvNxt ≤ seg.seq ∧ seg.seq < s.rcvNxt + s.rcvWnd) ||
        decide (s.rcvNxt ≤ seg.seq + seg.payloadLen ∧
          seg.seq + seg.payloadLen < s.rcvNxt + s.rcvWnd)
    else decide (s.rcvNxt ≤ seg.seq ∧ seg.seq < s.rcvNxt + s.rcvWnd)
  else if seg.payload ≠ [] then false
  else decide (seg.seq = s.rcvNxt)

def refuse (s : Sock) (seg : Segment) : Sock :=
  wakeOwner (if seg.flags.rst then s else sendAck s)

/-- Step two: an acceptable reset. `none` where the code falls through, as it
does in `TCP_CLOSE_WAIT`. -/
def stepReset (s : Sock) : Option (Except Panic Sock) :=
  match s.state with
  | .synRecv => some ((tcpAcceptAck s 0 true).map fun s => wakeOwner (tcpEnterCloseState s))
  | .established | .finWait1 | .finWait2 =>
    some (.ok (wakeOwner (tcpEnterCloseState (tcpFlushRx (tcpFlushTx s)))))
  | .closing | .lastAck | .timeWait => some (.ok (wakeOwner (tcpEnterCloseState s)))
  | _ => none

def stepSyn (s : Sock) (seg : Segment) : Sock :=
  wakeOwner (tcpEnterCloseState (tcpFlushRx (tcpFlushTx (sendRst s seg s.rcvNxt))))

def takesAcks (state : TcpState) : Bool :=
  match state with
  | .established | .closeWait | .finWait1 | .finWait2 | .closing => true
  | _ => false

def newAck (s : Sock) (seg : Segment) : Bool :=
  decide (s.sndUna < seg.ackNumber ∧ seg.ackNumber ≤ s.sndNxt)

def newerWindow (s : Sock) (seg : Segment) : Bool :=
  decide (s.sndWl1 < seg.seq ∨ (s.sndWl1 = seg.seq ∧ s.sndWl2 ≤ seg.ackNumber))

def takeWindow (s : Sock) (seg : Segment) : Sock :=
  if newerWindow s seg then
    { s with sndWnd := segWnd s seg, sndWl1 := seg.seq, sndWl2 := seg.ackNumber }
  else s

def windowUpdate (s : Sock) (seg : Segment) : Bool :=
  s.sndUna = seg.ackNumber ∧ s.rcvNxt = seg.seq ∧ s.sndWnd ≠ segWnd s seg ∧ seg.payload = []

/-- A window update that reopens a closed window; the queue is flushed then. -/
def reopens (s : Sock) (seg : Segment) : Bool := s.sndWnd = 0 ∧ segWnd s seg ≠ 0

def updateWindow (s : Sock) (seg : Segment) : Sock :=
  { (if reopens s seg then tcpFlushTx s else s) with sndWnd := segWnd s seg }

def duplicateAck (s : Sock) (seg : Segment) : Bool :=
  0 < s.flightSize ∧ !seg.flags.syn ∧ !seg.flags.fin ∧ s.sndUna = seg.ackNumber ∧ 0 < segWnd s seg

/-- Fast retransmit on the third duplicate acknowledgement, fast recovery after it. -/
def countDuplicateAck (s : Sock) : Except Panic Sock :=
  let s := { s with numberOfDupAcks := s.numberOfDupAcks + 1 }
  if s.numberOfDupAcks = 3 then
    let ssthresh := max (s.flightSize / 2) (2 * s.sndMss)
    match s.txQueue with
    | [] => .error .fastRetransmitEmpty
    | skb :: _ =>
      .ok (tcpSendSkb { s with ssthresh := ssthresh, cwnd := ssthresh + 3 * s.sndMss } skb true)
  else if s.numberOfDupAcks > 3 then .ok { s with cwnd := s.cwnd + s.sndMss }
  else .ok s

/-- Step five up to the closing states. The flag says that the handler returns. -/
def stepAck (s : Sock) (seg : Segment) : Except Panic (Sock × Bool) :=
  if s.state = .synRecv then
    .ok (if newAck s seg then { s with state := .established } else s, false)
  else if takesAcks s.state then
    if newAck s seg then do
      let s ← tcpAcceptAck (tcpCalculateCongestion s seg.ackNumber) seg.ackNumber false
      pure (takeWindow s seg, false)
    else if windowUpdate s seg then .ok (updateWindow s seg, false)
    else if duplicateAck s seg then do
      let s ← countDuplicateAck s
      pure (s, false)
    else if seg.ackNumber > s.sndNxt then .ok (sendAck s, true)
    else .ok (s, false)
  else .ok (s, false)

/-- The end of step five: what an acknowledged FIN leads to. The flag says that
the handler returns. -/
def stepFinAcked (s : Sock) : Sock × Bool :=
  match s.state with
  | .finWait1 => (if tcpIsFinAcked s then { s with state := .finWait2 } else s, false)
  | .closing => (if tcpIsFinAcked s then { s with state := .timeWait } else s, false)
  | .lastAck => if tcpIsFinAcked s then (wakeOwner (tcpEnterCloseState s), true) else (s, false)
  | .timeWait => (sendAck s, false)
  | _ => (s, false)

def takesData (state : TcpState) : Bool :=
  match state with
  | .established | .finWait1 | .finWait2 => true
  | _ => false

/-- Step seven: the payload is queued and acknowledged wherever it starts. -/
def stepData (s : Sock) (seg : Segment) : Sock :=
  if takesData s.state then
    let s := if seg.payload ≠ [] ∨ seg.flags.psh then { s with rxQueue := s.rxQueue ++ [seg] } else s
    if seg.payload ≠ [] then sendAck { s with rcvNxt := s.rcvNxt + seg.payloadLen } else s
  else s

def enterTimeWait (s : Sock) : Sock :=
  { s with
    state := .timeWait
    retransmitTimer := none
    persistTimer := none
    mslTimer := some (s.now + maxSegmentLifetime * 2) }

def finState (s : Sock) : Sock :=
  match s.state with
  | .synRecv | .established => { s with state := .closeWait }
  | .finWait1 => if tcpIsFinAcked s then enterTimeWait s else { s with state := .closing }
  | .finWait2 => enterTimeWait s
  | .timeWait => { s with mslTimer := some (s.now + maxSegmentLifetime * 2) }
  | _ => s

/-- Step eight, the answer, unless step seven already sent one. A passive close
sends its own FIN at once, without queueing it. -/
def finReply (s : Sock) : Sock :=
  let s := { s with rcvNxt := s.rcvNxt + 1 }
  tcpSendSkb s (tcpCreateSkb s s.sndNxt s.rcvNxt
    { fin := s.state = .closeWait, ack := true } [] []) false

def stepDataFin (s : Sock) (seg : Segment) : Sock :=
  let isSentAck := takesData s.state && seg.payload ≠ []
  let s := stepData s seg
  if seg.flags.fin then
    if s.state = .close ∨ s.state = .listen ∨ s.state = .synSent then s
    else
      let s := finState s
      wakeOwner (if isSentAck then s else finReply s)
  else wakeOwner s

def stepRest (s : Sock) (seg : Segment) : Except Panic Sock := do
  let (s, returns) ← stepAck s seg
  if returns then pure s
  else
    let (s, returns) := stepFinAcked s
    if returns then pure s else pure (stepDataFin s seg)

def synchronized (state : TcpState) : Bool :=
  match state with
  | .synRecv | .established | .finWait1 | .finWait2 | .closeWait | .closing | .lastAck | .timeWait => true
  | _ => false

def tcpHandlerEstablished (s : Sock) (seg : Segment) : Except Panic Sock :=
  if !acceptableSegment s seg then .ok (refuse s seg)
  else
    match (if seg.flags.rst then stepReset s else none) with
    | some outcome => outcome
    | none =>
      if seg.flags.syn ∧ synchronized s.state then .ok (stepSyn s seg)
      else if !seg.flags.ack then .ok s
      else stepRest s seg

def tcpHandler (s : Sock) (seg : Segment) (garbage : UInt16 × UInt8) : Except Panic Sock :=
  if s.sockState = .disconnected then .ok s
  else
    match s.state with
    | .close => .ok (tcpHandlerClose s seg)
    | .synSent => tcpHandlerSync s seg garbage
    | .unset | .listen => .ok s
    | _ => tcpHandlerEstablished s seg

end Mos.Tcp

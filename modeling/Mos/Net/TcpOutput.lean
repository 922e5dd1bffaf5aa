import Mos.Net.Tcp

namespace Mos.Tcp

/-- `tcp_create_skb`. The payload length parameter has 16 bits. -/
def tcpCreateSkb (s : Sock) (seq ackNumber : UInt32) (flags : Flags)
    (options payload : List UInt8) : SkBuff :=
  let payload := payload.take (payload.length % 65536)
  { addr := s.nextAddr
    seq := seq
    ackNumber := ackNumber
    flags := flags
    window := s.rcvWnd.toUInt16
    options := options
    payload := payload
    endSeq := seq + UInt32.ofNat (payload.length - 1) }

/-- A transmission that moves `snd_nxt` on: not a retransmission, and carrying
data, SYN or FIN. -/
def activedSend (skb : SkBuff) (isRetransmitted : Bool) : Bool :=
  !isRetransmitted && (!skb.payload.isEmpty || skb.flags.syn || skb.flags.fin)

def tcpSendSkb (s : Sock) (skb : SkBuff) (isRetransmitted : Bool) : Sock :=
  let stamp : Stamp := ⟨s.now, s.now + s.rto.toNat⟩
  let sent : Sock :=
    { s with
      flightSize := s.flightSize + UInt32.ofNat skb.payload.length
      sndNxt := if activedSend skb isRetransmitted then skb.endSeq + 1 else s.sndNxt
      cb := Function.update s.cb skb.addr stamp }
  { tcpStateTransition sent skb.flags with
    retransmitTimer := if s.retransmitTimer.isNone && activedSend skb isRetransmitted then
      some stamp.expires else s.retransmitTimer
    wire := skb :: s.wire }

def sendAck (s : Sock) : Sock :=
  tcpSendSkb s (tcpCreateSkb s s.sndNxt s.rcvNxt { ack := true } [] []) false

/-- `tcp_tx_queue_add_skb`. Queueing makes the address `skb` was created at taken. -/
def tcpTxQueueAddSkb (s : Sock) (skb : SkBuff) : Sock :=
  { s with
    sendHead := if s.sendHead.isNone then some skb.addr else s.sendHead
    txQueue := s.txQueue ++ [skb]
    nextAddr := s.nextAddr + 1 }

def following (queue : List SkBuff) (h : Nat) : Option SkBuff :=
  (queue.dropWhile (fun x => x.addr != h)).tail.head?

/-- One pass of the inner loop of `tcp_transmit`, entered with a positive window
and `send_head` at `h`. -/
def transmitHead (s : Sock) (h : Nat) : Except Panic Sock :=
  match s.txQueue.find? (fun x => x.addr == h) with
  | none => .error .wildSendHead
  | some skb =>
    let s := tcpSendSkb s skb false
    let s := { s with sendHead := (following s.txQueue h).map SkBuff.addr }
    if s.rttTime ≠ 0 then .ok s
    else if s.txQueue.head?.map SkBuff.addr ≠ some h then .error .rttNotFirst
    else .ok { s with rttEndSeq := skb.endSeq, rttTime := (s.cb h).when }

end Mos.Tcp

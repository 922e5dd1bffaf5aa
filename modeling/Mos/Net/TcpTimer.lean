import Mos.Net.TcpInput

namespace Mos.Tcp

def tcpRetransmitTimer (s : Sock) : Except Panic Sock :=
  let rto := s.rto * 2
  match s.txQueue with
  | [] => .error .retransmitEmpty
  | skb :: _ =>
    let s := tcpSendSkb { s with rto := rto, retransmitTimer := some (s.now + rto.toNat) } skb true
    let firstLoss := s.sendHead ≠ some skb.addr
    let s :=
      { s with
        ssthresh := if firstLoss then max (s.flightSize / 2) (2 * s.sndMss) else s.ssthresh
        cwnd := if firstLoss then s.sndMss else s.cwnd
        sendHead := some skb.addr
        synRetries := if skb.flags.syn then s.synRetries + 1 else s.synRetries }
    if s.rttTime ≠ 0 ∧ skb.endSeq ≠ s.rttEndSeq then .error .rttMismatch
    else
      .ok { s with
        rttTime := 0
        srtt := if s.rto ≥ 128 * 1000 then 0 else s.srtt
        rttvar := if s.rto ≥ 128 * 1000 then 0 else s.rttvar }

def tcpPersistTimer (s : Sock) : Except Panic Sock :=
  if s.sndWnd ≠ 0 then .ok { s with persistTimer := none, persistBackoff := 1000 }
  else
    let backoff := s.persistBackoff * 2
    match s.txQueue with
    | [] => .error .persistProbe
    | skb :: _ =>
      if skb.payload.length ≠ 1 then .error .persistProbe
      else
        .ok (tcpSendSkb
          { s with persistBackoff := backoff, persistTimer := some (s.now + backoff.toNat) } skb true)

def tcpMslTimer (s : Sock) : Except Panic Sock :=
  if s.state = .timeWait ∨ s.state = .lastAck then
    .ok (wakeOwner (tcpDeleteTcb { s with mslTimer := none, state := .close }))
  else .error .mslState

end Mos.Tcp

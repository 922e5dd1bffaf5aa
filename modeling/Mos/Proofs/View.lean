import Mos.Net.TcpSystem

namespace Mos.Tcp
open Machine

/-- What the sending half of a socket consists of. Everything the send-side
results speak about is a function of this record and of the wire. -/
structure SendView where
  state : TcpState
  una : UInt32
  nxt : UInt32
  wnd : UInt32
  iss : UInt32
  mss : UInt32
  queue : List SkBuff
  head : Option Nat
  addr : Nat
  retransmit : Option Nat
  persist : Option Nat
  msl : Option Nat
  rttTime : Nat
  rttEnd : UInt32

def Sock.view (s : Sock) : SendView where
  state := s.state
  una := s.sndUna
  nxt := s.sndNxt
  wnd := s.sndWnd
  iss := s.sndIss
  mss := s.sndMss
  queue := s.txQueue
  head := s.sendHead
  addr := s.nextAddr
  retransmit := s.retransmitTimer
  persist := s.persistTimer
  msl := s.mslTimer
  rttTime := s.rttTime
  rttEnd := s.rttEndSeq

variable {s t : Sock} {skb : SkBuff} {w w' : List SkBuff} {b : Bool} {seg : Segment}

theorem first_mem {rest : List SkBuff} (h : s.txQueue = skb :: rest) :
    skb ∈ s.view.queue := by
  change skb ∈ s.txQueue
  rw [h]
  exact .head _

def SkBuff.occupies (x : SkBuff) : Bool := !x.payload.isEmpty || x.flags.syn || x.flags.fin

theorem activedSend_eq (skb : SkBuff) (b : Bool) : activedSend skb b = (!b && skb.occupies) := rfl

/-- Only buffers that take up no sequence numbers were sent in between. -/
def Mute (wire wire' : List SkBuff) : Prop :=
  ∃ l, wire' = l ++ wire ∧ ∀ x ∈ l, x.occupies = false

theorem Mute.refl (w : List SkBuff) : Mute w w := ⟨[], rfl, by simp⟩

theorem Mute.trans {w'' : List SkBuff} (h : Mute w w') (k : Mute w' w'') : Mute w w'' := by
  obtain ⟨l, rfl, ho⟩ := h
  obtain ⟨m, rfl, hp⟩ := k
  refine ⟨m ++ l, (List.append_assoc m l w).symm, ?_⟩
  intro x hx
  rcases List.mem_append.mp hx with hx | hx
  · exact hp x hx
  · exact ho x hx

theorem Mute.mem {x : SkBuff} (h : Mute w w') (hx : x ∈ w')
    (ho : x.occupies = true) : x ∈ w := by
  obtain ⟨l, rfl, hl⟩ := h
  rcases List.mem_append.mp hx with hx | hx
  · rw [hl x hx] at ho
    cases ho
  · exact hx

theorem Mute.mono {x : SkBuff} (h : Mute w w') (hx : x ∈ w) : x ∈ w' := by
  obtain ⟨l, rfl, _⟩ := h
  exact List.mem_append_right l hx

/-- `t` has the sending half of `s`, and has sent only buffers that take up no
sequence numbers. -/
structure Quiet (s t : Sock) : Prop where
  view : t.view = s.view
  wire : Mute s.wire t.wire

theorem Quiet.of_view (hv : t.view = s.view) (hw : t.wire = s.wire) : Quiet s t :=
  ⟨hv, [], hw, by simp⟩

theorem Quiet.refl (s : Sock) : Quiet s s := .of_view rfl rfl

theorem Quiet.trans {u : Sock} (h : Quiet s t) (k : Quiet t u) : Quiet s u :=
  ⟨k.view.trans h.view, h.wire.trans k.wire⟩

theorem Quiet.state (h : Quiet s t) : t.state = s.state :=
  congrArg SendView.state h.view

def SendView.send (v : SendView) (skb : SkBuff) (isRetransmitted : Bool) (expires : Nat) : SendView :=
  { v with
    nxt := if activedSend skb isRetransmitted then skb.endSeq + 1 else v.nxt
    state := nextState v.state skb.flags
    retransmit := if v.retransmit.isNone && activedSend skb isRetransmitted then some expires
      else v.retransmit }

theorem view_send (s : Sock) (skb : SkBuff) (b : Bool) :
    (tcpSendSkb s skb b).view = s.view.send skb b (s.now + s.rto.toNat) := rfl

theorem SendView.send_mute {v : SendView} {n : Nat}
    (ho : skb.occupies = false) : v.send skb b n = { v with state := nextState v.state skb.flags } := by
  simp [SendView.send, activedSend_eq, ho]

theorem SendView.send_again {v : SendView} {n : Nat} :
    v.send skb true n = { v with state := nextState v.state skb.flags } := by
  simp [SendView.send, activedSend]

theorem mute_send (ho : skb.occupies = false) :
    Mute s.wire (tcpSendSkb s skb b).wire := ⟨[skb], rfl, by simpa using ho⟩

theorem quiet_send (ho : skb.occupies = false)
    (hs : nextState s.state skb.flags = s.state) : Quiet s (tcpSendSkb s skb b) := by
  refine ⟨?_, mute_send ho⟩
  rw [view_send, SendView.send_mute ho]
  change { s.view with state := nextState s.state skb.flags } = s.view
  rw [hs]
  rfl

theorem create_occupies (s : Sock) (seq ack : UInt32) (flags : Flags) (options : List UInt8) :
    (tcpCreateSkb s seq ack flags options []).occupies = (flags.syn || flags.fin) := by
  simp [SkBuff.occupies, tcpCreateSkb]

theorem next_state_ack {st : TcpState} (h : st ≠ .synSent) : nextState st { ack := true } = st := by
  cases st <;> first | rfl | exact absurd rfl h

theorem next_state_rst {st : TcpState} (h : st ≠ .synSent) : nextState st { rst := true } = st := by
  cases st <;> first | rfl | exact absurd rfl h

theorem quiet_sendAck (h : s.state ≠ .synSent) : Quiet s (sendAck s) :=
  quiet_send (by simp [create_occupies]) (next_state_ack h)

theorem quiet_sendRst {a : UInt32} (h : s.state ≠ .synSent) :
    Quiet s (sendRst s seg a) :=
  quiet_send (by simp [create_occupies]) (next_state_rst h)

theorem quiet_wake (s : Sock) : Quiet s (wakeOwner s) := .of_view rfl rfl

theorem quiet_refuse (h : s.state ≠ .synSent) : Quiet s (refuse s seg) := by
  unfold refuse
  split
  · exact quiet_wake s
  · exact (quiet_sendAck h).trans (quiet_wake _)

theorem quiet_close (h : s.state = .close) :
    Quiet s (tcpHandlerClose s seg) := by
  unfold tcpHandlerClose
  split
  · exact .refl s
  · split
    · refine quiet_send (by simp [create_occupies]) ?_
      rw [h]
      rfl
    · refine quiet_send (by simp [create_occupies]) (next_state_rst ?_)
      simp [h]

theorem quiet_data : Quiet s (stepData s seg) := by
  unfold stepData
  split
  · rename_i ht
    have hs : s.state ≠ .synSent := by
      intro he
      simp [he, takesData] at ht
    dsimp only
    split
    · refine Quiet.trans (t := { (if seg.payload ≠ [] ∨ seg.flags.psh then
        { s with rxQueue := s.rxQueue ++ [seg] } else s) with rcvNxt := _ }) ?_ (quiet_sendAck ?_)
      · split <;> exact .of_view rfl rfl
      · split <;> exact hs
    · split
      · exact .of_view rfl rfl
      · exact .refl s
  · exact .refl s

end Mos.Tcp

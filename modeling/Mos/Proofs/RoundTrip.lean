import Mos.Proofs.CloseHandshake
import Mos.Proofs.NextNumber
import Mos.Proofs.StepFive

namespace Mos.Tcp
open Machine

/-! ### The retransmission timeout -/

def Slow (s : Sock) : Prop := 1000 ≤ s.rto

theorem le_max_right_word (a b : UInt32) : b ≤ max a b := by
  change b ≤ if a ≤ b then b else a
  split
  · exact UInt32.le_refl b
  · rename_i h
    exact UInt32.le_of_lt (UInt32.not_le.mp h)

theorem slow_calculate (s : Sock) (rtt : UInt32) : Slow (tcpCalculateRto s rtt) :=
  le_max_right_word _ _

variable {s t : Sock} {b : Bool} {seg : Segment} {pc : Pc}

theorem Slow.send {skb : SkBuff} (h : Slow s)
    (quick : s.state = .synSent → nextState .synSent skb.flags = .established → s.synRetries = 0) :
    Slow (tcpSendSkb s skb b) := by
  change 1000 ≤ if s.state ≠ nextState s.state skb.flags ∧ nextState s.state skb.flags = .established ∧
    0 < s.synRetries then 3 else s.rto
  rw [if_neg]
  · exact h
  · rintro ⟨hne, he, hpos⟩
    rcases next_state_established he with hs | hs
    · rw [quick hs (hs ▸ he)] at hpos
      exact absurd hpos (by decide)
    · exact hne (hs.trans he.symm)

theorem Slow.resend {skb : SkBuff} (h : Slow s) (hs : s.state ≠ .synSent) :
    Slow (tcpSendSkb s skb b) := h.send fun he => absurd he hs

theorem Slow.ackRtt {a : UInt32} (h : Slow s) : Slow (ackRtt s a) := by
  unfold Tcp.ackRtt
  split
  · exact slow_calculate s _
  · exact h

theorem Slow.accept {a : UInt32} {all : Bool} (h : Slow s)
    (ok : tcpAcceptAck s a all = .ok t) : Slow t := by
  unfold tcpAcceptAck at ok
  dsimp only at ok
  split at ok
  · cases ok
  · obtain ⟨u, hu, hp⟩ := bind_ok.mp ok
    obtain ⟨r, rfl, -⟩ := ackTimer_ok hu
    cases hp
    exact Slow.ackRtt h

theorem Slow.count (h : Slow s) (hs : s.state ≠ .synSent)
    (ok : countDuplicateAck s = .ok t) : Slow t := by
  unfold countDuplicateAck at ok
  dsimp only at ok
  split at ok
  · split at ok
    · cases ok
    · cases ok
      exact Slow.resend h hs
  · split at ok <;> exact Except.ok.inj ok ▸ h

theorem Slow.stepAck (h : Slow s) (hs : s.state ≠ .synSent)
    (ok : stepAck s seg = .ok (t, b)) : Slow t := by
  unfold Tcp.stepAck at ok
  split at ok
  · cases ok
    split <;> exact h
  · split at ok
    · split at ok
      · obtain ⟨u, hu, hp⟩ := bind_ok.mp ok
        cases hp
        have := Slow.accept (s := tcpCalculateCongestion s seg.ackNumber) h hu
        unfold takeWindow
        split <;> exact this
      · split at ok
        · cases ok
          unfold updateWindow
          split <;> exact h
        · split at ok
          · obtain ⟨u, hu, hp⟩ := bind_ok.mp ok
            cases hp
            exact h.count hs hu
          · split at ok
            · cases ok
              exact h.resend hs
            · cases ok
              exact h
    · cases ok
      exact h

theorem rto_stepFiveOnly : StepFiveOnly Sock.rto := by
  refine ⟨fun _ _ _ _ _ _ _ _ _ _ => rfl, fun s seq ack flags hs => ?_⟩
  change (if s.state ≠ nextState s.state flags ∧ nextState s.state flags = .established ∧
    0 < s.synRetries then 3 else s.rto) = s.rto
  rw [if_neg]
  intro ⟨hne, he, _⟩
  rcases next_state_established he with hsyn | hest
  · exact hs hsyn
  · exact hne (hest.trans he.symm)

theorem Slow.established (h : Slow s) (hc : connected s.state = true)
    (ok : tcpHandlerEstablished s seg = .ok t) : Slow t := by
  change 1000 ≤ t.rto
  rcases rto_stepFiveOnly.established hc ok with ⟨-, hr⟩ | ⟨-, u, b, hu, hr⟩
  · rw [hr]
    exact h
  · rw [hr]
    exact h.stepAck (connected_ne_synSent hc) hu

def completes (s : Sock) (seg : Segment) : Bool :=
  s.state == .synSent && seg.flags.ack && seg.flags.syn && !seg.flags.rst &&
    decide (s.sndIss < seg.ackNumber ∧ seg.ackNumber ≤ s.sndNxt)

theorem Slow.sync {garbage : UInt16 × UInt8} (h : Slow s)
    (hs : s.state = .synSent) (quick : completes s seg = true → s.synRetries = 0)
    (ok : tcpHandlerSync s seg garbage = .ok t) : Slow t := by
  unfold tcpHandlerSync at ok
  split at ok
  · split at ok
    · exact Except.ok.inj ok ▸ h
    · cases ok
      exact Slow.send h fun _ hr => by cases hr
  · rename_i hbad
    dsimp only at ok
    split at ok
    · split at ok
      · cases ok
        exact UInt32.le_refl 1000
      · exact Except.ok.inj ok ▸ h
    · rename_i hrst
      split at ok
      · rename_i hsyn
        obtain ⟨hsyn, hflag, -, hle⟩ := hsyn
        have hiss : s.sndIss < seg.ackNumber :=
          UInt32.not_le.mp fun hh => hbad ⟨hflag, .inl hh⟩
        have hq : s.synRetries = 0 := quick (by simp [completes, hs, hflag, hsyn, hrst, hiss, hle])
        split at ok
        · cases ok
        · obtain ⟨u, hu, hp⟩ := bind_ok.mp ok
          cases hp
          have hsu := Slow.accept (by exact h) hu
          obtain ⟨-, r, rto, srtt, rttvar, rfl, -⟩ := accept_ok hu
          unfold synAccepted
          split
          · exact Slow.send hsu fun _ _ => hq
          · exact Slow.send hsu fun _ _ => hq
      · exact Except.ok.inj ok ▸ h

theorem Slow.handler {garbage : UInt16 × UInt8} (h : Slow s)
    (hs : s.state ≠ .synRecv) (quick : completes s seg = true → s.synRetries = 0)
    (ok : tcpHandler s seg garbage = .ok t) : Slow t := by
  unfold tcpHandler at ok
  split at ok
  · exact Except.ok.inj ok ▸ h
  · split at ok
    · rename_i he
      cases ok
      unfold tcpHandlerClose
      split
      · exact h
      · split <;> exact h.resend (by simp [he])
    · rename_i he
      exact h.sync he quick ok
    · exact Except.ok.inj ok ▸ h
    · exact Except.ok.inj ok ▸ h
    · refine h.established ?_ ok
      cases he : s.state <;> simp_all [connected, synchronized]

/-- No handshake ends with a retransmitted SYN, and no timeout doubles past 32 bits. -/
def timesSlowly (s : Sys) : Event → Bool
  | .receive seg _ => !completes s.sk seg || s.sk.synRetries == 0
  | .retransmitTimer => s.sk.rto < 0x80000000
  | _ => true

/-- A socket that has had a TCB has a timeout of a second or more. -/
def Unhurried (s : Sock) : Prop := s.state = .unset ∨ Slow s

theorem Unhurried.send {u : Sock} {x : SkBuff} (h : Unhurried s)
    (hw : Wf u.view pc) (hx : x ∈ u.txQueue) (state : u.state = s.state) (slower : Slow s → Slow u) :
    Unhurried (tcpSendSkb u x b) := by
  rcases h with hu | hs
  · left
    change nextState u.state x.flags = .unset
    rw [state, hu]
    rfl
  · refine .inr ((slower hs).send fun he hn => ?_)
    have hsent := hw.handshake_send hx he
    rw [show u.view.state = .synSent from he, hn] at hsent
    cases hsent

theorem Unhurried.transmit {a : Nat} (h : Unhurried s) (hw : Wf s.view pc)
    (ok : transmitHead s a = .ok t) : Unhurried t := by
  unfold transmitHead at ok
  split at ok
  · cases ok
  · rename_i x hf
    have hx := h.send (b := false) hw (List.mem_of_find?_eq_some hf) rfl id
    dsimp only at ok
    split at ok
    · exact Except.ok.inj ok ▸ hx
    · split at ok
      · cases ok
      · exact Except.ok.inj ok ▸ hx

theorem double_slow {r : UInt32} (h : 1000 ≤ r) (lt : r < 0x80000000) : 1000 ≤ r * 2 := by
  rw [UInt32.le_iff_toNat_le] at h ⊢
  rw [UInt32.lt_iff_toNat_lt] at lt
  have h2 : (r * 2).toNat = r.toNat * 2 % 2 ^ 32 := rfl
  have hb : (0x80000000 : UInt32).toNat = 2147483648 := rfl
  omega

theorem Unhurried.retransmit (h : Unhurried s) (hw : Wf s.view pc)
    (lt : s.rto < 0x80000000) (ok : tcpRetransmitTimer s = .ok t) : Unhurried t := by
  unfold tcpRetransmitTimer at ok
  dsimp only at ok
  split at ok
  · cases ok
  · rename_i x rest hq
    have hx : x ∈ s.txQueue := by
      rw [hq]
      exact .head _
    have hsend := h.send (u := { s with
        rto := s.rto * 2
        retransmitTimer := some (s.now + (s.rto * 2).toNat) }) (b := true) (hw.congr rfl) hx rfl
      fun hs => double_slow hs lt
    split at ok
    · cases ok
    · exact Except.ok.inj ok ▸ hsend

theorem Unhurried.persist (h : Unhurried s) (hw : Wf s.view pc)
    (ok : tcpPersistTimer s = .ok t) : Unhurried t := by
  unfold tcpPersistTimer at ok
  split at ok
  · exact Except.ok.inj ok ▸ h
  · split at ok
    · cases ok
    · rename_i x rest hq
      have hx : x ∈ s.txQueue := by
        rw [hq]
        exact .head _
      split at ok
      · cases ok
      · refine Except.ok.inj ok ▸ h.send (hw.congr rfl) hx rfl id

/-- The timeout stays at a second or more. -/
theorem Unhurried.step {s t : Sys} {e : Event} (h : Unhurried s.sk) (hw : Wf s.sk.view s.pc)
    (ok : timesSlowly s e = true) (hm : Moves s e t) : Unhurried t.sk := by
  cases hm with
  | connect seed hp => exact .inr (UInt32.le_refl 1000)
  | probe hp more hs ok' =>
    obtain ⟨-, -, rfl⟩ := queueProbe_ok ok'
    exact h
  | @transmitReturn k hp empty => cases k <;> exact h
  | transmit hp head avail ok' => exact h.transmit hw ok'
  | receive unlocked ok' =>
    rcases h with hu | hs
    · left
      simp only [tcpHandler, hu] at ok'
      split at ok' <;> exact Except.ok.inj ok' ▸ hu
    · refine .inr (hs.handler hw.reached (fun hc => ?_) ok')
      simpa [timesSlowly, hc] using ok
  | retransmitTimer unlocked armed ok' => exact h.retransmit hw (of_decide_eq_true ok) ok'
  | persistTimer unlocked armed ok' => exact h.persist hw ok'
  | mslTimer unlocked armed ok' =>
    unfold tcpMslTimer at ok'
    split at ok'
    · cases ok'
      exact .inr (UInt32.le_refl 1000)
    · cases ok'
  | _ => exact h

/-- In a run in which no handshake ends with a retransmitted SYN and no timeout doubles past
32 bits, the retransmission timeout of a connection is never below a second. -/
theorem rto_at_least_second {s : Sys} (run : Run advance (fun a e => timesSlowly a e = true) {} s)
    (hs : s.sk.state ≠ .unset) : 1000 ≤ s.sk.rto := by
  have h : Unhurried s.sk ∧ Wf s.sk.view s.pc := by
    refine run.invariant (I := fun s => Unhurried s.sk ∧ Wf s.sk.view s.pc) ⟨.inl rfl, Wf.start⟩ ?_
    intro a e b ⟨ha, hw⟩ hok hb
    have hm := moves_of_advance hb
    exact ⟨ha.step hw hok hm, hw.moves hm⟩
  exact h.1.resolve_left hs

theorem rto_at_least_second_timeout : ∃ s : Sys,
    Run advance (fun a e => timesSlowly a e = true) {} s ∧ s.sk.rto = 2000 ∧ 1000 ≤ s.sk.rto := by
  obtain ⟨s, run, hs, hr⟩ := replay_reaches advance (fun a e => timesSlowly a e = true) {}
    [.tick 1000, .connect 1, .app, .app, .app, .tick 1000, .retransmitTimer]
    (P := fun s => s.sk.state = .synSent ∧ s.sk.rto = 2000) (by decide)
  exact ⟨s, run, hr, rto_at_least_second run (by simp [hs])⟩

/-- One lost SYN: the timeout of the open connection is three milliseconds. -/
theorem rto_of_retransmitted_syn : ∃ s : Sys, Run advance (fun _ _ => True) {} s ∧
    s.sk.state = .established ∧ s.sk.rto = 3 := by
  obtain ⟨s, run, hs⟩ := replay_reaches advance (fun _ _ => True) {}
    [.tick 1000, .connect 1, .app, .app, .app, .tick 1000, .retransmitTimer,
      .receive (synAck 1000) (0, 0)]
    (P := fun s => s.sk.state = .established ∧ s.sk.rto = 3) (by decide)
  exact ⟨s, run, hs⟩

end Mos.Tcp

import Mos.Proofs.Inversion

namespace Mos.Tcp
open Machine

/-- A part of the socket that `tcp_handler_established` changes in step five only: it sees
neither the state nor the timers, the queues or the receiving half, nor a reply without
payload. -/
structure StepFiveOnly {α : Type} (f : Sock → α) : Prop where
  fields : ∀ (s : Sock) state retransmit persist msl tx head rx next ready,
    f { s with
      state := state
      retransmitTimer := retransmit
      persistTimer := persist
      mslTimer := msl
      txQueue := tx
      sendHead := head
      rxQueue := rx
      rcvNxt := next
      ownerReady := ready } = f s
  reply : ∀ (s : Sock) seq ack flags, s.state ≠ .synSent →
    f (tcpSendSkb s (tcpCreateSkb s seq ack flags [] []) false) = f s

def reachesStepFive (s : Sock) (seg : Segment) : Bool :=
  acceptableSegment s seg && seg.flags.ack && !seg.flags.syn &&
    (!seg.flags.rst || s.state == .closeWait)

section Steps

variable {α : Type} {f : Sock → α} {s t : Sock} {seg : Segment}

theorem finState_sync (hs : s.state ≠ .synSent) : (finState s).state ≠ .synSent := by
  unfold finState
  split
  · simp
  · simp
  · split <;> simp [enterTimeWait]
  · simp [enterTimeWait]
  · exact hs
  · exact hs

namespace StepFiveOnly

theorem wake (h : StepFiveOnly f) : f (wakeOwner s) = f s := h.fields s _ _ _ _ _ _ _ _ true

theorem finAcked (h : StepFiveOnly f) : f (stepFinAcked s).1 = f s := by
  unfold stepFinAcked
  split
  · split
    · exact h.fields s .finWait2 _ _ _ _ _ _ _ _
    · rfl
  · split
    · exact h.fields s .timeWait _ _ _ _ _ _ _ _
    · rfl
  · split
    · exact h.fields s .close none _ _ _ _ _ _ true
    · rfl
  · rename_i hs
    exact h.reply s _ _ _ (by simp [hs])
  · rfl

theorem data (h : StepFiveOnly f) (hs : s.state ≠ .synSent) : f (stepData s seg) = f s := by
  have queued : f (if seg.payload ≠ [] ∨ seg.flags.psh then { s with rxQueue := s.rxQueue ++ [seg] }
      else s) = f s := by
    split
    · exact h.fields s _ _ _ _ _ _ _ _ _
    · rfl
  unfold stepData
  split
  · dsimp only
    split
    · refine (h.reply _ _ _ _ ?_).trans ((h.fields _ _ _ _ _ _ _ _ _ _).trans queued)
      split <;> exact hs
    · exact queued
  · rfl

theorem finStep (h : StepFiveOnly f) : f (finState s) = f s := by
  unfold finState
  split
  · exact h.fields s .closeWait _ _ _ _ _ _ _ _
  · exact h.fields s .closeWait _ _ _ _ _ _ _ _
  · split
    · exact h.fields s .timeWait none none _ _ _ _ _ _
    · exact h.fields s .closing _ _ _ _ _ _ _ _
  · exact h.fields s .timeWait none none _ _ _ _ _ _
  · exact h.fields s _ _ _ _ _ _ _ _ _
  · rfl

theorem dataFin (h : StepFiveOnly f) (hs : s.state ≠ .synSent) : f (stepDataFin s seg) = f s := by
  have hd : f (stepData s seg) = f s := h.data hs
  have hn : (stepData s seg).state ≠ .synSent := by
    rw [quiet_data.state]
    exact hs
  unfold stepDataFin
  dsimp only
  split
  · split
    · exact hd
    · refine h.wake.trans ?_
      split
      · exact h.finStep.trans hd
      · have hr := h.reply { finState (stepData s seg) with rcvNxt := (finState (stepData s seg)).rcvNxt + 1 }
        refine (hr _ _ _ (finState_sync hn)).trans ?_
        exact (h.fields _ _ _ _ _ _ _ _ _ _).trans (h.finStep.trans hd)
  · exact h.wake.trans hd

theorem rest (h : StepFiveOnly f) (hc : connected s.state = true) (ok : stepRest s seg = .ok t) :
    ∃ u b, stepAck s seg = .ok (u, b) ∧ f t = f u := by
  obtain ⟨⟨u, b⟩, hu, hp⟩ := bind_ok.mp ok
  have hcu := (stepAck_move (connected_iff.mp hc).2 hu).1.keeps_connected hc
  refine ⟨u, b, hu, ?_⟩
  dsimp only at hp
  split at hp
  · exact Except.ok.inj hp ▸ rfl
  · have hf : f (stepFinAcked u).1 = f u := h.finAcked
    rcases stepFinAcked_move u with ⟨w, hw, hfin⟩ | ⟨-, -, hw⟩
    · rw [hw] at hp hf
      cases hp
      exact (h.dataFin (connected_ne_synSent (hfin.keeps_connected hcu))).trans hf
    · rw [hw] at hp hf
      cases hp
      exact hf

theorem reset (h : StepFiveOnly f) (hs : s.state ≠ .synRecv) (ok : stepReset s = some (.ok t)) :
    f t = f s := by
  unfold stepReset at ok
  split at ok
  · rename_i he
    exact absurd he hs
  all_goals
    first
    | exact Except.ok.inj (Option.some.inj ok) ▸ h.fields s .close none _ _ _ _ _ _ true
    | cases ok

theorem established (h : StepFiveOnly f) (hc : connected s.state = true)
    (ok : tcpHandlerEstablished s seg = .ok t) :
    reachesStepFive s seg = false ∧ f t = f s ∨
      reachesStepFive s seg = true ∧ ∃ u b, stepAck s seg = .ok (u, b) ∧ f t = f u := by
  have hs := connected_ne_synSent hc
  unfold tcpHandlerEstablished at ok
  split at ok
  · rename_i hacc
    rw [Bool.not_eq_true'] at hacc
    cases ok
    refine .inl ⟨by simp [reachesStepFive, hacc], ?_⟩
    refine h.wake.trans ?_
    split
    · rfl
    · exact h.reply s _ _ _ hs
  · rename_i hacc
    have hacc : acceptableSegment s seg = true := by simpa using hacc
    split at ok
    · rename_i outcome ho
      split at ho
      · rename_i hrst
        subst ok
        have hne : s.state ≠ .closeWait := by
          intro he
          simp [stepReset, he] at ho
        refine .inl ⟨by simp [reachesStepFive, hrst, hne], ?_⟩
        exact h.reset (connected_iff.mp hc).2 ho
      · cases ho
    · rename_i ho
      have hrst : (!seg.flags.rst || s.state == .closeWait) = true := by
        cases hrs : seg.flags.rst with
        | false => rfl
        | true =>
          rw [if_pos hrs] at ho
          simp [stepReset_none ho hc]
      split at ok
      · rename_i hsyn
        cases ok
        refine .inl ⟨by simp [reachesStepFive, hsyn.1], ?_⟩
        exact (h.fields (sendRst s seg s.rcvNxt) .close none _ _ _ _ _ _ true).trans
          (h.reply s _ _ _ hs)
      · rename_i hsyn
        have hsyn : seg.flags.syn = false := by
          simpa [(connected_iff.mp hc).1] using hsyn
        split at ok
        · rename_i hflag
          rw [Bool.not_eq_true'] at hflag
          cases ok
          exact .inl ⟨by simp [reachesStepFive, hflag], rfl⟩
        · rename_i hflag
          have hflag : seg.flags.ack = true := by simpa using hflag
          refine .inr ⟨?_, h.rest hc ok⟩
          simp only [reachesStepFive, hacc, hflag, hsyn, hrst, Bool.true_and, Bool.not_false]

end StepFiveOnly

end Steps

end Mos.Tcp

import Mos.Proofs.WellFormed

namespace Mos.Tcp
open Machine

/-- What a received segment leaves alone: nothing is queued, and no probe timer is
started. -/
structure Framed (v w : SendView) : Prop where
  iss : w.iss = v.iss
  addr : w.addr = v.addr
  queue : w.queue.Sublist v.queue
  persist : w.persist ≠ none → v.persist ≠ none

theorem Framed.refl (v : SendView) : Framed v v := ⟨rfl, rfl, .refl _, id⟩

theorem Framed.of_eq {v w : SendView} (iss : w.iss = v.iss) (addr : w.addr = v.addr)
    (queue : w.queue = v.queue) (persist : w.persist = v.persist ∨ w.persist = none) : Framed v w := by
  refine ⟨iss, addr, queue ▸ .refl _, fun hn => ?_⟩
  rcases persist with he | he
  · rwa [← he]
  · exact absurd he hn

theorem Framed.trans {u v w : SendView} (h : Framed u v) (k : Framed v w) : Framed u w :=
  ⟨k.iss.trans h.iss, k.addr.trans h.addr, k.queue.trans h.queue, fun hn => h.persist (k.persist hn)⟩

variable {s t : Sock} {seg : Segment}

theorem Quiet.framed (h : Quiet s t) : Framed s.view t.view := h.view ▸ .refl _

theorem accept_framed {a : UInt32} (h : tcpAcceptAck s a false = .ok t) :
    Framed s.view t.view := by
  obtain ⟨-, r, rto, srtt, rttvar, rfl, -⟩ := accept_ok h
  exact ⟨rfl, rfl, List.filter_sublist, id⟩

theorem AckMove.framed {u : Sock} (h : AckMove s seg u) : Framed s.view u.view := by
  cases h with
  | idle same => exact same.framed
  | accepted takes new ok =>
    have hf := accept_framed ok
    unfold takeWindow
    split
    · exact hf.trans (.of_eq rfl rfl rfl (.inl rfl))
    · exact hf
  | updated takes old update =>
    unfold updateWindow
    split
    · exact ⟨rfl, rfl, List.nil_sublist _, id⟩
    · exact .of_eq rfl rfl rfl (.inl rfl)
  | resent third same first => exact same.framed.trans (.of_eq rfl rfl rfl (.inl rfl))

theorem FinMove.framed (h : FinMove s t) : Framed s.view t.view := by
  cases h with
  | idle same => exact same.framed
  | finWait2 | timeWait => exact .of_eq rfl rfl rfl (.inl rfl)

theorem ReplyMove.framed (h : ReplyMove s seg t) :
    Framed s.view t.view := by
  cases h with
  | quiet same => exact same.framed
  | passive _ _ _ view | answered _ _ _ _ view | closing _ _ view | again _ _ view =>
    rw [view]
    exact .of_eq rfl rfl rfl (.inl rfl)
  | timeWait _ _ view =>
    rw [view]
    exact .of_eq rfl rfl rfl (.inr rfl)

theorem Handled.framed (h : Handled s seg t) : Framed s.view t.view := by
  cases h with
  | quiet same => exact same.framed
  | refused hs => exact .of_eq rfl rfl rfl (.inr rfl)
  | opened hs after sent base wire ok view mute =>
    have hf := accept_framed ok
    rw [base] at hf
    rw [view]
    exact ⟨hf.iss, hf.addr, hf.queue, hf.persist⟩
  | flushed _ _ view =>
    rw [view]
    exact ⟨rfl, rfl, List.nil_sublist _, id⟩
  | rejected _ view | aborted _ _ view | closed _ _ _ _ _ _ view =>
    rw [view]
    exact .of_eq rfl rfl rfl (.inl rfl)
  | processed hs acceptable flag syn rst ack fin reply =>
    exact ack.framed.trans (fin.framed.trans reply.framed)

theorem Handled.synSent (h : Handled s seg t)
    (ht : t.state = .synSent) : t.view = s.view := by
  have hst : t.view.state = .synSent := ht
  cases h with
  | quiet same => exact same.view
  | refused hs => cases hst
  | opened _ _ _ _ _ _ view | flushed _ _ view | rejected _ view | aborted _ _ view
  | closed _ _ _ _ _ _ view =>
    rw [view] at hst
    cases hst
  | processed hs acceptable flag syn rst ack fin reply =>
    have hc := fin.keeps_connected (ack.keeps_connected hs)
    cases reply with
    | quiet same =>
      rw [← same.state, ht] at hc
      cases hc
    | again _ hs' view =>
      rw [view] at hst
      have := hs'.symm.trans hst
      cases this
    | passive _ _ _ view | answered _ _ _ _ view | closing _ _ view | timeWait _ _ view =>
      rw [view] at hst
      cases hst

def Caller.probing : Caller → Bool
  | .probe _ => true
  | _ => false

/-- The thread waits for the answer to a zero window probe. -/
def Pc.probing : Pc → Bool
  | .transmit k | .transmitLocked k | .transmitSleep k => k.probing
  | _ => false

theorem Pc.probing_phase {pc : Pc} (h : pc.probing = true) : pc.phase = .sending := by
  cases pc with
  | transmit k | transmitLocked k | transmitSleep k =>
    cases k with
    | probe l => rfl
    | _ => cases h
  | _ => cases h

/-- A move starts the persist timer only for a call that probes. -/
theorem persist_step {s t : Sys} {e : Event} (h : s.sk.persistTimer ≠ none → s.pc.probing = true)
    (hw : Wf s.sk.view s.pc) (hm : Moves s e t) : t.sk.persistTimer ≠ none → t.pc.probing = true := by
  cases hm with
  | refused hp => exact h
  | connect seed hp => exact absurd rfl
  | probe hp more hs ok => exact fun _ => rfl
  | @transmitReturn k hp empty =>
    cases k with
    | probe l => exact absurd rfl
    | connect | chunks l | shutdown =>
      intro hn
      have := h hn
      rw [hp] at this
      cases this
  | lock hp full | sleep hp | awake hp =>
    intro hn
    have := h hn
    rw [hp] at this
    exact this
  | transmit hp head avail ok =>
    obtain ⟨skb, -, -, hv, -⟩ := transmitHead_ok ok
    intro hn
    refine h fun he => hn ?_
    exact (congrArg SendView.persist hv).trans he
  | receive unlocked ok =>
    exact fun hn => h ((handler_handled hw.reached ok).framed.persist hn)
  | retransmitTimer unlocked armed ok =>
    obtain ⟨skb, rest, n, -, -, hv, -⟩ := retransmit_ok ok
    exact fun hn => h fun he => hn ((congrArg SendView.persist hv).trans he)
  | persistTimer unlocked armed ok => exact fun _ => h armed
  | mslTimer unlocked armed ok =>
    obtain ⟨-, hv, -⟩ := msl_ok ok
    exact fun hn => absurd (congrArg SendView.persist hv) hn
  | tick | wake => exact h
  | sendmsg _ hp | recvmsg _ hp | shutdown hp | sendReturn hp | round hp | chunk hp | chunksDone hp
  | recvReturn hp | recvWait hp | recvAwake hp | shutdownReturn hp | shutdownWait hp
  | shutdownAwake hp =>
    intro hn
    have := h hn
    rw [hp] at this
    cases this

end Mos.Tcp

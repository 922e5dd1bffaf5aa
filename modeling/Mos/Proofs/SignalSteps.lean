import Mos.Machine.Run
import Mos.Ipc.Signal

namespace Mos.Signal
open Machine

theorem ffz_not {x : SigSet} (h : x ≠ 0) : ffz (~~~x) < 32 ∧ x.getLsbD (ffz (~~~x)) = true := by
  unfold ffz
  cases hf : (List.range 32).find? fun i => !(~~~x).getLsbD i with
  | none =>
    refine absurd (BitVec.eq_of_getLsbD_eq ?_) h
    intro i hi
    have hn := List.find?_eq_none.mp hf i (List.mem_range.mpr hi)
    simpa [hi] using hn
  | some i =>
    have hi : i < 32 := List.mem_range.mp (List.mem_of_find?_eq_some hf)
    have hp := List.find?_some hf
    exact ⟨hi, by simpa [hi] using hp⟩

variable {pending blocked : SigSet} {i : Nat} {p p' p'' : Process} {s' : Kernel} {t t' : Trap}

theorem unblocked_bit {set : SigSet}
    (h : (pending &&& ~~~blocked &&& set).getLsbD i = true) :
    pending.getLsbD i = true ∧ blocked.getLsbD i = false ∧ set.getLsbD i = true := by
  simp only [BitVec.getLsbD_and, BitVec.getLsbD_not, Bool.and_eq_true, Bool.not_eq_true',
    decide_eq_true_eq] at h
  exact ⟨h.1.1, h.1.2.2, h.2⟩

theorem sigmask_bit (sig i : Nat) :
    (sigmask sig).getLsbD i = (decide (i < 32) && decide (sig - 1 = i)) := by
  rw [sigmask, BitVec.getLsbD_twoPow]
  by_cases h : sig - 1 = i
  · simp [h]
  · simp [h]

theorem next_signal_pending (h : nextSignal pending blocked ≠ 0) :
    ∃ i < 32, nextSignal pending blocked = i + 1 ∧ pending.getLsbD i = true ∧
      blocked.getLsbD i = false := by
  unfold nextSignal at h ⊢
  simp only at h ⊢
  split at h
  · rename_i hm
    obtain ⟨hi, hb⟩ := ffz_not hm
    obtain ⟨hp, hn, _⟩ := unblocked_bit hb
    rw [if_pos hm]
    exact ⟨_, hi, rfl, hp, hn⟩
  · rename_i hc
    rw [if_neg hc]
    split at h
    · rename_i hm
      obtain ⟨hi, hb⟩ := ffz_not hm
      obtain ⟨hp, hn, _⟩ := unblocked_bit hb
      rw [if_pos hm]
      exact ⟨_, hi, rfl, hp, hn⟩
    · rename_i hn
      rw [if_neg hn]
      split at h
      · rename_i hm
        obtain ⟨hi, hb⟩ := ffz_not hm
        obtain ⟨hp, hn, hc⟩ := unblocked_bit hb
        rw [sigmask_bit, Bool.and_eq_true, decide_eq_true_eq, decide_eq_true_eq] at hc
        rw [if_pos hm]
        refine ⟨_, hi, ?_, hp, hn⟩
        rw [← hc.2]
        rfl
      · exact absurd rfl h

section Modify
variable (s : Kernel) (pid : Int) (f g : Process → Process)

@[simp] theorem modify_current : (s.modify pid f).current = s.current := rfl

@[simp] theorem modify_mprocess : (s.modify pid f).mprocess = s.mprocess := rfl

@[simp] theorem modify_same : (s.modify pid f).proc pid = f (s.proc pid) := by
  simp [Kernel.modify]

theorem modify_of {q : Int} (h : q ≠ pid) : (s.modify pid f).proc q = s.proc q := by
  simp [Kernel.modify, h]

theorem modify_modify : (s.modify pid f).modify pid g = s.modify pid fun p => g (f p) := by
  simp [Kernel.modify]

end Modify

/-- What sending signals can do to a process: its mask and handlers stay, and a signal
becomes pending only if it is not ignored and neither stops nor continues. -/
structure Sent (p p' : Process) : Prop where
  blocked : p'.thread.blocked = p.thread.blocked
  sighand : p'.sighand = p.sighand
  pending : ∀ i < 32, p'.thread.pending.getLsbD i = true → p.thread.pending.getLsbD i = true ∨
    (sigIgnored p (i + 1) = false ∧ sigKernelStop (i + 1) = false ∧ i + 1 ≠ sigcont)

theorem Sent.ignored (h : Sent p p') (sig : Nat) :
    sigIgnored p' sig = sigIgnored p sig := by
  simp only [sigIgnored, sigHandler, h.blocked, h.sighand]

theorem Sent.refl (p : Process) : Sent p p := ⟨rfl, rfl, fun _ _ h => .inl h⟩

theorem Sent.trans (h : Sent p p') (h' : Sent p' p'') : Sent p p'' := by
  refine ⟨h'.blocked.trans h.blocked, h'.sighand.trans h.sighand, ?_⟩
  intro i hi hb
  rcases h'.pending i hi hb with hp | hn
  · exact h.pending i hi hp
  · rw [h.ignored] at hn
    exact .inr hn

structure Kept (p p' : Process) : Prop where
  blocked : p'.thread.blocked = p.thread.blocked
  sighand : p'.sighand = p.sighand
  pending : ∀ i, p'.thread.pending.getLsbD i = true → p.thread.pending.getLsbD i = true

theorem Kept.sent (h : Kept p p') : Sent p p' :=
  ⟨h.blocked, h.sighand, fun i _ hb => .inl (h.pending i hb)⟩

theorem Kept.refl (p : Process) : Kept p p := ⟨rfl, rfl, fun _ h => h⟩

theorem Kept.trans (h : Kept p p') (h' : Kept p' p'') : Kept p p'' :=
  ⟨h'.blocked.trans h.blocked, h'.sighand.trans h.sighand, fun i hb => h.pending i (h'.pending i hb)⟩

theorem and_bit {a b : SigSet} (h : (a &&& b).getLsbD i = true) : a.getLsbD i = true := by
  rw [BitVec.getLsbD_and, Bool.and_eq_true] at h
  exact h.1

theorem kept_updateThread (state : ThreadState) (p : Process) : Kept p (updateThread state p) :=
  ⟨rfl, rfl, fun _ h => h⟩

theorem kept_wakeUp (p : Process) : Kept p p.wakeUp := by
  unfold Process.wakeUp
  split
  · exact kept_updateThread _ p
  · exact .refl p

theorem kept_continued (p : Process) : Kept p p.continued := ⟨rfl, rfl, fun _ h => and_bit h⟩

theorem kept_stoped (p : Process) : Kept p p.stoped := ⟨rfl, rfl, fun _ h => and_bit h⟩

theorem kept_interrupted (regs : Registers) (sig : Nat) (p : Process) :
    Kept p (p.interrupted regs sig) := ⟨rfl, rfl, fun _ h => and_bit h⟩

theorem kept_terminated (sig : Nat) (p : Process) : Kept p (p.terminated sig) :=
  ⟨rfl, rfl, fun i h => by simp [Process.terminated] at h⟩

theorem sent_addPending {sig : Nat} (pos : 0 < sig) (h : sigIgnored p sig = false)
    (hs : sigKernelStop sig = false) (hc : sig ≠ sigcont) : Sent p (p.addPending sig) := by
  refine ⟨rfl, rfl, ?_⟩
  intro i hi hb
  have hb : (p.thread.pending ||| sigmask sig).getLsbD i = true := hb
  rw [BitVec.getLsbD_or, Bool.or_eq_true, sigmask_bit, Bool.and_eq_true, decide_eq_true_eq,
    decide_eq_true_eq] at hb
  rcases hb with hb | hb
  · exact .inl hb
  · obtain rfl : sig = i + 1 := by omega
    exact .inr ⟨h, hs, hc⟩

structure SentAll (s s' : Kernel) : Prop where
  current : s'.current = s.current
  each : ∀ q, Sent (s.proc q) (s'.proc q)

theorem SentAll.refl (s : Kernel) : SentAll s s := ⟨rfl, fun _ => .refl _⟩

theorem SentAll.trans {s s'' : Kernel} (h : SentAll s s') (h' : SentAll s' s'') :
    SentAll s s'' := ⟨h'.current.trans h.current, fun q => (h.each q).trans (h'.each q)⟩

theorem modify_each {R : Process → Process → Prop} {s : Kernel} {pid : Int}
    {f : Process → Process} (refl : ∀ p, R p p) (h : R (s.proc pid) (f (s.proc pid))) (q : Int) :
    R (s.proc q) ((s.modify pid f).proc q) := by
  by_cases hq : q = pid
  · subst q
    rwa [modify_same]
  · rw [modify_of _ _ _ hq]
    exact refl _

theorem sent_modify {s : Kernel} {pid : Int} {f : Process → Process}
    (h : Sent (s.proc pid) (f (s.proc pid))) : SentAll s (s.modify pid f) :=
  ⟨rfl, modify_each Sent.refl h⟩

theorem kept_modify {s : Kernel} {pid : Int} {f : Process → Process}
    (h : Kept (s.proc pid) (f (s.proc pid))) (q : Int) :
    Kept (s.proc q) ((s.modify pid f).proc q) := modify_each Kept.refl h q

/-- A function that sends signals as `do_kill` does. -/
def Sends (kill : Kill) : Prop := ∀ {s pid sig r}, kill s pid sig = .ok r → SentAll s r.1

variable {kill : Kill}

theorem notifyParent_sent (hk : Sends kill) {s : Kernel} (h : notifyParent kill s = .ok s') :
    SentAll s s' := by
  unfold notifyParent at h
  split at h
  · cases h
  · obtain ⟨r, hr, rfl⟩ := map_ok.mp h
    exact (hk hr).trans (sent_modify (kept_wakeUp _).sent)

theorem killProcess_sent (hk : Sends kill) {s : Kernel} {pid : Int} {sig : Nat} (pos : 0 < sig)
    (h : killProcess kill s pid sig = .ok s') : SentAll s s' := by
  unfold killProcess findProcessByPid at h
  split at h
  · cases h
  · rename_i proc hp
    split at hp
    · cases hp
      split at h
      · refine (sent_modify (kept_continued (s.proc s.current)).sent).trans (.trans ?_ (notifyParent_sent hk h))
        split
        · exact sent_modify (kept_updateThread _ _).sent
        · exact .refl _
      · rename_i hc
        split at h
        · exact (sent_modify (kept_stoped (s.proc s.current)).sent).trans
            ((sent_modify (kept_updateThread _ _).sent).trans (notifyParent_sent hk h))
        · rename_i hs
          split at h
          · cases h
            exact .refl _
          · rename_i hi
            cases h
            refine (sent_modify (sent_addPending pos (Bool.eq_false_iff.mpr hi)
              (Bool.eq_false_iff.mpr hs) hc)).trans ?_
            split
            · exact sent_modify (kept_updateThread _ _).sent
            · exact .refl _
    · cases hp

theorem killEach_sent (hk : Sends kill) {pid sig : Int} {keys : List Int} {s : Kernel}
    (h : keys.foldlM (killEach kill pid sig) s = .ok s') : SentAll s s' := by
  induction keys generalizing s with
  | nil =>
    cases h
    exact .refl _
  | cons key keys ih =>
    obtain ⟨m, hm, h⟩ := bind_ok.mp h
    refine .trans ?_ (ih h)
    unfold killEach at hm
    split at hm
    · obtain ⟨r, hr, rfl⟩ := map_ok.mp hm
      exact hk hr
    · cases hm
      exact .refl _

theorem killWith_sends (hk : Sends kill) : Sends (killWith kill) := by
  intro s pid sig r h
  unfold killWith at h
  split at h
  · cases h
    exact .refl _
  · rename_i hv
    split at h
    · cases h
      exact .refl _
    · have pos : 0 < sig.toNat := by
        simp only [validSignal, Bool.not_eq_false, Bool.and_eq_true, decide_eq_true_eq] at hv
        omega
      split at h
      · obtain ⟨t, ht, rfl⟩ := map_ok.mp h
        exact killProcess_sent hk pos ht
      · obtain ⟨t, ht, rfl⟩ := map_ok.mp h
        exact killEach_sent hk ht

theorem doKill_sends (fuel : Nat) : Sends (doKill fuel) := by
  induction fuel with
  | zero =>
    intro s pid sig r h
    cases h
  | succ fuel ih => exact killWith_sends ih

theorem reparent_sent (s : Kernel) : SentAll s (reparent s) := by
  refine ⟨rfl, fun q => ?_⟩
  simp only [reparent]
  split
  · exact Kept.sent ⟨rfl, rfl, fun _ h => h⟩
  · exact .refl _

theorem hangup_sent (hk : Sends kill) {s : Kernel} (h : hangup kill s = .ok s') :
    SentAll s s' := by
  unfold hangup at h
  simp only at h
  split at h
  · cases h
    exact .refl _
  · split at h
    · obtain ⟨r, hr, rfl⟩ := map_ok.mp h
      have hs := hk hr
      exact ⟨hs.current, hs.each⟩
    · cases h
      exact .refl _

theorem exitNotify_sent (hk : Sends kill) {s : Kernel} (h : exitNotify kill s = .ok s') :
    SentAll s s' := by
  obtain ⟨m, hm, h⟩ := bind_ok.mp h
  refine (reparent_sent s).trans (.trans ?_ ((hangup_sent hk hm).trans (notifyParent_sent hk h)))
  split
  · exact sent_modify (Kept.sent ⟨rfl, rfl, fun _ h => h⟩)
  · exact .refl _

theorem doExit_sent (hk : Sends kill) {s : Kernel} {code : Int}
    (h : doExit kill s code = .ok s') : SentAll s s' :=
  (sent_modify (Kept.sent ⟨rfl, rfl, fun _ h => h⟩)).trans (exitNotify_sent hk h)

/-- The mask under which the handler of the next signal runs, if there is one. -/
def Process.handlerMask (p : Process) : Option SigSet :=
  let sig := nextSignal p.thread.pending p.thread.blocked
  if sig ≠ 0 ∧ sigUserDefined p sig = true then
    some (p.thread.blocked ||| (sigmask sig ||| (p.sighand (sig - 1)).saMask))
  else none

/-- Besides what keeps masks and handlers, `f` was applied to one process. -/
def Changed (s s' : Kernel) (pid : Int) (f : Process → Process) : Prop :=
  ∃ m : Kernel, (∀ q, Kept (s.proc q) (m.proc q)) ∧ s'.proc = (m.modify pid f).proc

theorem handleSignal_shape (hk : Sends kill) {s : Kernel} {restored : SigSet}
    (h : handleSignal kill s t restored = .ok (s', t')) :
    SentAll s s' ∨ ∃ mask, (s.proc s.current).handlerMask = some mask ∧
      Changed s s' s.current (Process.block mask) := by
  unfold handleSignal at h
  simp only at h
  split at h
  · cases h
    exact .inl (.refl _)
  · rename_i hn
    rw [not_or] at hn
    have hi := kept_interrupted (savedRegisters t.regs)
      (nextSignal (s.proc s.current).thread.pending (s.proc s.current).thread.blocked)
      (s.proc s.current)
    split at h
    · cases h
    · split at h
      · split at h
        · obtain ⟨m, hm, he⟩ := map_ok.mp h
          cases he
          exact .inl ((sent_modify hi.sent).trans ((sent_modify (kept_terminated _ _).sent).trans (doExit_sent hk hm)))
        · cases h
      · split at h
        · rename_i hu
          rw [modify_current, modify_same] at hu
          obtain ⟨he, _⟩ := Prod.mk.inj (Except.ok.inj h)
          simp only [modify_current, modify_same, modify_modify] at he
          refine .inr ⟨_, if_pos ⟨hn.2, hu⟩, _, kept_modify hi, ?_⟩
          rw [← he, modify_modify]
          rfl
        · cases h
          exact .inl (sent_modify hi.sent)

/-- The process whose thread a step lets run. -/
def Kernel.runner (s : Kernel) : Event → Int
  | .schedule next _ => if (s.proc s.current).thread.state = .running then s.current else next
  | _ => s.current

/-- The mask a step gives to that thread; `none` when it gives none. -/
def Kernel.newBlocked (s : Kernel) : Event → Option SigSet
  | .sigprocmask how (some set) => newMask how set (s.proc s.current).thread.blocked
  | .sigsuspend set => some set
  | .pageFault t faultAddr => if faultAddr = s.sigreturnAt then some (frameBlocked t) else none
  | .suspended _ => (s.proc s.current).handlerMask
  | .interrupt _ =>
    if (s.proc s.current).thread.signaling = true then none else (s.proc s.current).handlerMask
  | .schedule next _ =>
    if (s.proc s.current).thread.state = .running ∨
        (s.proc next).thread.flags &&& tifSignalManual ≠ 0 then none
    else (s.proc next).handlerMask
  | _ => none

inductive Effect (s s' : Kernel) (e : Event) : Prop where
  | sent (each : ∀ q, Sent (s.proc q) (s'.proc q))
  | masked (mask : SigSet) (set : s.newBlocked e = some mask)
      (changed : Changed s s' (s.runner e) (Process.block mask))
  | installed (signum : Int) (action : SigAction) (event : e = .sigaction signum (some action))
      (valid : sigactionValid signum = true)
      (changed : Changed s s' s.current (Process.install signum.toNat action))

theorem changed_modify {s : Kernel} {pid : Int} {f g : Process → Process}
    (h : Kept (s.proc pid) (f (s.proc pid))) : Changed s (s.modify pid fun p => g (f p)) pid g :=
  ⟨s.modify pid f, kept_modify h, by rw [modify_modify]⟩

theorem Changed.after {s m : Kernel} {pid : Int} {f : Process → Process}
    (h : ∀ q, Kept (s.proc q) (m.proc q)) (h' : Changed m s' pid f) : Changed s s' pid f := by
  obtain ⟨u, hu, he⟩ := h'
  exact ⟨u, fun q => (h q).trans (hu q), he⟩

theorem sigaction_effect {s : Kernel} {signum : Int} {action : Option SigAction} :
    Effect s (doSigaction s signum action) (.sigaction signum action) := by
  unfold doSigaction
  split
  · split
    · rename_i hv
      exact .installed _ _ rfl hv (changed_modify (f := id) (.refl _))
    · exact .sent fun _ => .refl _
  · exact .sent fun _ => .refl _

theorem sigprocmask_effect {s : Kernel} {how : Int} {set : Option SigSet} :
    Effect s (doSigprocmask s how set) (.sigprocmask how set) := by
  unfold doSigprocmask
  split
  · rename_i mask hm
    obtain ⟨set, rfl, hm⟩ := Option.bind_eq_some_iff.mp hm
    exact .masked mask hm (changed_modify (f := id) (.refl _))
  · exact .sent fun _ => .refl _

theorem sigsuspend_effect {s : Kernel} {set : SigSet} :
    Effect s (doSigsuspend s set) (.sigsuspend set) := by
  refine .masked set rfl ⟨s.modify s.current fun p => p.onThread fun th =>
    { th with flags := th.flags ||| tifSignalManual, saveset := some th.blocked }, ?_, ?_⟩
  · exact kept_modify ⟨rfl, rfl, fun _ h => h⟩
  · change _ = (Kernel.modify _ s.current _).proc
    rw [modify_modify]
    rfl

theorem pageFault_effect {s : Kernel} {faultAddr : UInt32}
    (h : threadPageFault s t faultAddr = .ok (s', t')) : Effect s s' (.pageFault t faultAddr) := by
  unfold threadPageFault at h
  split at h
  · split at h
    · rename_i ha
      cases h
      refine .masked _ (if_pos ha) ⟨s.modify s.current fun p => p.onThread fun th =>
        { th with
          uregs := frameRegisters t
          signaling := t.mem (frameAt t.regs + 8) != 0
          flags := th.flags &&& ~~~tifSignalManual }, ?_, ?_⟩
      · exact kept_modify ⟨rfl, rfl, fun _ h => h⟩
      · change _ = (Kernel.modify _ s.current _).proc
        rw [modify_modify]
        rfl
    · cases h
      exact .sent fun _ => .refl _
  · cases h

theorem interrupt_effect (hk : Sends kill) {s : Kernel}
    (h : signalHandler kill s t = .ok s') : Effect s s' (.interrupt t) := by
  unfold signalHandler at h
  simp only at h
  split at h
  · cases h
    exact .sent fun _ => .refl _
  · rename_i hn
    obtain ⟨r, hr, rfl⟩ := map_ok.mp h
    rcases handleSignal_shape hk hr with hs | ⟨mask, hm, hc⟩
    · exact .sent hs.each
    · exact .masked mask ((if_neg (not_or.mp hn).2).trans hm) hc

theorem suspended_effect (hk : Sends kill) {s : Kernel}
    (h : endSuspend kill s t = .ok s') : Effect s s' (.suspended t) := by
  unfold endSuspend at h
  simp only at h
  split at h
  · cases h
  · split at h
    · cases h
    · obtain ⟨r, hr, rfl⟩ := map_ok.mp h
      have hf : ∀ q, Kept (s.proc q) ((s.modify s.current fun p => p.onThread fun th =>
          { th with saveset := none }).proc q) := kept_modify ⟨rfl, rfl, fun _ h => h⟩
      rcases handleSignal_shape hk hr with hs | ⟨mask, hm, hc⟩
      · exact .sent fun q => (hf q).sent.trans (hs.each q)
      · rw [modify_current, modify_same] at hm
        exact .masked mask hm (.after hf hc)

theorem schedule_effect (hk : Sends kill) {s : Kernel} {next : Int}
    (h : schedule kill s next t = .ok s') : Effect s s' (.schedule next t) := by
  unfold schedule at h
  split at h
  · cases h
    exact .sent fun _ => .refl _
  · rename_i hr
    split at h
    · have hf : ∀ q, Kept (s.proc q)
          (({ s with current := next }.modify next (updateThread .running)).proc q) :=
        kept_modify (kept_updateThread _ (s.proc next))
      simp only at h
      split at h
      · rename_i hp
        obtain ⟨r, hh, rfl⟩ := map_ok.mp h
        rcases handleSignal_shape hk hh with hs | ⟨mask, hm, hc⟩
        · exact .sent fun q => (hf q).sent.trans (hs.each q)
        · rw [modify_same] at hp
          rw [modify_current, modify_same] at hm
          refine .masked mask ?_ ?_
          · exact (if_neg (not_or.mpr ⟨hr, not_not.mpr hp.2⟩)).trans hm
          · rw [Kernel.runner, if_neg hr]
            exact .after hf hc
      · cases h
        exact .sent fun q => (hf q).sent
    · cases h

/-- Every step sends signals, and changes besides at most one mask or one handler. -/
theorem step_effect {fuel : Nat} {s : Kernel} {e : Event} (h : step fuel s e = .ok s') :
    Effect s s' e := by
  have hk : Sends (doKill fuel) := doKill_sends fuel
  cases e with
  | kill pid signum =>
    simp only [step] at h
    split at h
    · obtain ⟨r, hr, rfl⟩ := map_ok.mp h
      exact .sent (hk hr).each
    · cases h
  | sigaction signum action =>
    simp only [step] at h
    split at h
    · cases h
      exact sigaction_effect
    · cases h
  | sigprocmask how set =>
    simp only [step] at h
    split at h
    · cases h
      exact sigprocmask_effect
    · cases h
  | sigsuspend set =>
    simp only [step] at h
    split at h
    · cases h
      exact sigsuspend_effect
    · cases h
  | suspended t => exact suspended_effect hk h
  | interrupt t =>
    simp only [step] at h
    split at h
    · exact interrupt_effect hk h
    · cases h
  | pageFault t faultAddr =>
    simp only [step] at h
    split at h
    · obtain ⟨r, hr, rfl⟩ := map_ok.mp h
      exact pageFault_effect hr
    · cases h
  | yield state =>
    simp only [step] at h
    split at h
    · cases h
      exact .sent (sent_modify (kept_updateThread _ _).sent).each
    · cases h
  | wakeUp pid =>
    simp only [step] at h
    split at h
    · cases h
      exact .sent (sent_modify (kept_updateThread _ _).sent).each
    · cases h
  | schedule next t => exact schedule_effect hk h

end Mos.Signal

import Mos.Proofs.SignalSteps

namespace Mos.Signal
open Machine

theorem next_some {fuel : Nat} {s s' : Kernel} {e : Event} (h : next fuel s e = some s') :
    step fuel s e = .ok s' := by
  unfold next at h
  cases hs : step fuel s e with
  | error f =>
    rw [hs] at h
    cases h
  | ok t =>
    rw [hs] at h
    cases h
    rfl

theorem Changed.each {I : Process → Prop} {s s' : Kernel} {pid : Int} {f : Process → Process}
    (h : Changed s s' pid f) (hI : ∀ p p', Sent p p' → I p → I p') (hs : ∀ q, I (s.proc q))
    (hf : ∀ p, Kept (s.proc pid) p → I p → I (f p)) (q : Int) : I (s'.proc q) := by
  obtain ⟨m, hm, he⟩ := h
  have hi : I (m.proc q) := hI _ _ (hm q).sent (hs q)
  rw [he]
  by_cases hq : q = pid
  · subst q
    rw [modify_same]
    exact hf _ (hm pid) hi
  · rwa [modify_of _ _ _ hq]

section Unblockable

def lacksKernelOnly (set : SigSet) : Bool := set &&& sigKernelOnlyMask == 0

def Process.nextSaMask (p : Process) : SigSet :=
  (p.sighand (nextSignal p.thread.pending p.thread.blocked - 1)).saMask

/-- The step runs no user function whose mask has `SIGKILL` or `SIGSTOP`. -/
def runsLacking (s : Kernel) (e : Event) : Bool :=
  (s.newBlocked e).isNone || lacksKernelOnly (s.proc (s.runner e)).nextSaMask

/-- Neither the set given to `sigsuspend`, nor the `sa_mask` of a user function that is
run, nor the mask in a frame that `sigreturn` finds has `SIGKILL` or `SIGSTOP`. -/
def keepsUnblockable (s : Kernel) : Event → Bool
  | .sigsuspend set => lacksKernelOnly set
  | .pageFault t faultAddr => faultAddr != s.sigreturnAt || lacksKernelOnly (frameBlocked t)
  | .suspended t => runsLacking s (.suspended t)
  | .interrupt t => runsLacking s (.interrupt t)
  | .schedule next t => runsLacking s (.schedule next t)
  | _ => true

/-- `SIGKILL` and `SIGSTOP` are not blocked and have no handler. -/
structure Unblockable (p : Process) : Prop where
  mask : lacksKernelOnly p.thread.blocked = true
  handler : ∀ i < 32, sigKernelOnly (i + 1) = true → (p.sighand i).saHandler = sigDfl

variable {p : Process} {mask : SigSet}

theorem Unblockable.sent {p' : Process} (h : Sent p p') (hp : Unblockable p) :
    Unblockable p' := by
  refine ⟨?_, ?_⟩
  · rw [h.blocked]
    exact hp.mask
  · rw [h.sighand]
    exact hp.handler

theorem Unblockable.block (hp : Unblockable p)
    (h : lacksKernelOnly mask = true) : Unblockable (p.block mask) := ⟨h, hp.handler⟩

theorem lacks_or {a b : SigSet} (ha : lacksKernelOnly a = true) (hb : lacksKernelOnly b = true) :
    lacksKernelOnly (a ||| b) = true := by
  unfold lacksKernelOnly at *
  rw [beq_iff_eq] at *
  rw [BitVec.and_comm, BitVec.and_or_distrib_left, BitVec.and_comm _ a, BitVec.and_comm _ b, ha, hb]
  rfl

theorem lacks_and_not (a : SigSet) : lacksKernelOnly (a &&& ~~~sigKernelOnlyMask) = true := by
  unfold lacksKernelOnly
  rw [beq_iff_eq, BitVec.and_assoc, BitVec.and_comm (~~~_), BitVec.and_not_self]
  simp

theorem newMask_lacks {how : Int} {set blocked : SigSet}
    (h : newMask how set blocked = some mask) : lacksKernelOnly mask = true := by
  unfold newMask at h
  split at h
  · cases h
    exact lacks_and_not _
  · split at h
    · cases h
      exact lacks_and_not _
    · split at h
      · cases h
        exact lacks_and_not _
      · cases h

theorem sigmask_lacks : ∀ i < 32, sigKernelOnly (i + 1) = false →
    lacksKernelOnly (sigmask (i + 1)) = true := by decide

theorem Unblockable.handlerMask (hp : Unblockable p)
    (h : p.handlerMask = some mask) (hs : lacksKernelOnly p.nextSaMask = true) :
    lacksKernelOnly mask = true := by
  unfold Process.handlerMask at h
  simp only at h
  split at h
  · rename_i hu
    cases h
    obtain ⟨i, hi, hn, _⟩ := next_signal_pending hu.1
    refine lacks_or hp.mask (lacks_or ?_ hs)
    rw [hn] at hu ⊢
    refine sigmask_lacks i hi (Bool.eq_false_iff.mpr fun ho => ?_)
    have hd := hp.handler i hi ho
    simp [sigUserDefined, sigHandler, hd] at hu
  · cases h

theorem sigaction_spares {signum : Int} (h : sigactionValid signum = true) (i : Nat)
    (ho : sigKernelOnly (i + 1) = true) : i ≠ signum.toNat - 1 := by
  simp only [sigactionValid, Bool.and_eq_true, decide_eq_true_eq, Bool.not_eq_true'] at h
  rintro rfl
  have : signum.toNat - 1 + 1 = signum.toNat := by omega
  rw [this, h.2] at ho
  cases ho

theorem newBlocked_lacks {s : Kernel} {e : Event}
    (hs : ∀ q, Unblockable (s.proc q)) (ok : keepsUnblockable s e = true)
    (h : s.newBlocked e = some mask) : lacksKernelOnly mask = true := by
  have runs : ∀ {p : Process}, Unblockable p → p.handlerMask = some mask →
      ((some mask).isNone || lacksKernelOnly p.nextSaMask) = true → lacksKernelOnly mask = true :=
    fun hp hm ok => hp.handlerMask hm (by simpa using ok)
  cases e with
  | sigprocmask how set =>
    cases set with
    | none => cases h
    | some set => exact newMask_lacks h
  | sigsuspend set =>
    cases h
    exact ok
  | pageFault t faultAddr =>
    simp only [Kernel.newBlocked] at h
    split at h
    · rename_i ha
      cases h
      simpa [keepsUnblockable, ha] using ok
    · cases h
  | suspended t =>
    rw [keepsUnblockable, runsLacking, h] at ok
    exact runs (hs s.current) h ok
  | interrupt t =>
    rw [keepsUnblockable, runsLacking, h] at ok
    simp only [Kernel.newBlocked] at h
    split at h
    · cases h
    · exact runs (hs s.current) h ok
  | schedule next t =>
    rw [keepsUnblockable, runsLacking, h] at ok
    simp only [Kernel.newBlocked] at h
    split at h
    · cases h
    · rename_i hn
      rw [Kernel.runner, if_neg (not_or.mp hn).1] at ok
      exact runs (hs next) h ok
  | kill pid signum => cases h
  | sigaction signum action => cases h
  | yield state => cases h
  | wakeUp pid => cases h

/-- A call keeps SIGKILL and SIGSTOP unblocked and without a handler. -/
theorem unblockable_step {fuel : Nat} {s s' : Kernel} {e : Event}
    (hs : ∀ q, Unblockable (s.proc q)) (ok : keepsUnblockable s e = true)
    (h : step fuel s e = .ok s') : ∀ q, Unblockable (s'.proc q) := by
  cases step_effect h with
  | sent each => exact fun q => (hs q).sent (each q)
  | masked mask set changed =>
    apply changed.each (fun _ _ hp => Unblockable.sent hp) hs
    intro p _ hp
    exact hp.block (newBlocked_lacks hs ok set)
  | installed signum action event valid changed =>
    apply changed.each (fun _ _ hp => Unblockable.sent hp) hs
    intro p _ hp
    refine ⟨hp.mask, fun i hi ho => ?_⟩
    change ((Function.update p.sighand _ action) i).saHandler = sigDfl
    rw [Function.update_of_ne (sigaction_spares valid i ho)]
    exact hp.handler i hi ho

theorem initialHandlers_only : ∀ i < 32, sigKernelOnly (i + 1) = true →
    (initialHandlers i).saHandler = sigDfl := by decide

theorem Process.Fresh.unblockable (h : p.Fresh) : Unblockable p := by
  refine ⟨by rw [h.blocked]; rfl, ?_⟩
  rw [h.sighand]
  exact initialHandlers_only

/-- In a run whose steps keep the two signals out of the masks they take from the user,
no thread ever blocks one of them. -/
theorem kernel_signals_unblocked {fuel : Nat} {s₀ s : Kernel} (fresh : ∀ q, (s₀.proc q).Fresh)
    (h : Run (next fuel) (fun s e => keepsUnblockable s e = true) s₀ s) (q : Int) :
    sigismember (s.proc q).thread.blocked sigkill = false ∧
      sigismember (s.proc q).thread.blocked sigstop = false := by
  have hu : ∀ q, Unblockable (s.proc q) := by
    apply h.invariant (I := fun s => ∀ q, Unblockable (s.proc q)) fun q => (fresh q).unblockable
    intro a e b ha ok hn
    exact unblockable_step ha ok (next_some hn)
  have hm := (hu q).mask
  unfold lacksKernelOnly at hm
  rw [beq_iff_eq] at hm
  have bit : ∀ i, sigKernelOnlyMask.getLsbD i = true →
      (s.proc q).thread.blocked.getLsbD i = false := by
    intro i hi
    have hb := congrArg (fun x : SigSet => x.getLsbD i) hm
    simpa [hi] using hb
  exact ⟨bit 8 (by decide), bit 18 (by decide)⟩

def booted : Kernel where
  mprocess := [1, 2]
  distinct := by decide
  proc pid := { gid := pid, sid := pid, parent := some 1,
                thread := { state := if pid = 2 then .running else .ready } }
  current := 2

theorem booted_fresh (q : Int) : (booted.proc q).Fresh := ⟨rfl, rfl, rfl⟩

theorem kernel_signals_unblocked_full :
    ∃ s, Run (next 3) (fun s e => keepsUnblockable s e = true) booted s ∧
      (s.proc 2).thread.blocked = 0xFFFBFEFF ∧
      sigismember (s.proc 2).thread.blocked sigkill = false ∧
      sigismember (s.proc 2).thread.blocked sigstop = false := by
  obtain ⟨s, hr, hs⟩ := replay_reaches (next 3) (fun s e => keepsUnblockable s e = true) booted
    [.sigprocmask 2 (some 0xFFFFFFFF)] (P := fun s => (s.proc 2).thread.blocked = 0xFFFBFEFF)
    (by decide +kernel)
  exact ⟨s, hr, hs, kernel_signals_unblocked booted_fresh hr 2⟩

/-- A handler installed with a full mask, as `sys_signal` does, runs with `SIGKILL` and
`SIGSTOP` blocked. -/
theorem handler_blocks_sigkill :
    ∃ s, Run (next 3) (fun _ _ => True) booted s ∧
      sigismember (s.proc 2).thread.blocked sigkill = true ∧
      sigismember (s.proc 2).thread.blocked sigstop = true :=
  replay_reaches (next 3) (fun _ _ => True) booted
    [.sigaction 10 (some { saHandler := 0x8048000, saMask := 0xFFFFFFFF }), .kill 2 10,
      .interrupt {}]
    (P := fun s => sigismember (s.proc 2).thread.blocked sigkill = true ∧
      sigismember (s.proc 2).thread.blocked sigstop = true) (by decide +kernel)

end Unblockable

section Heeded

def exposesIgnored (p : Process) (mask : SigSet) : Bool :=
  (List.range 32).any fun i =>
    p.thread.pending.getLsbD i && !mask.getLsbD i && ignores (p.sighand i).saHandler (i + 1)

/-- No step lets a pending signal through that the process ignores: neither a handler
set for a pending signal, nor a mask under which a pending signal is no longer blocked. -/
def keepsHeeded (s : Kernel) : Event → Bool
  | .sigaction signum (some action) =>
    !sigactionValid signum || !sigismember (s.proc s.current).thread.pending signum.toNat ||
      sigismember (s.proc s.current).thread.blocked signum.toNat ||
      !ignores action.saHandler signum.toNat
  | .sigprocmask how (some set) =>
    ((newMask how set (s.proc s.current).thread.blocked).map
      (exposesIgnored (s.proc s.current))) != some true
  | .sigsuspend set => !exposesIgnored (s.proc s.current) set
  | .pageFault t faultAddr =>
    faultAddr != s.sigreturnAt || !exposesIgnored (s.proc s.current) (frameBlocked t)
  | _ => true

/-- What is pending neither stops nor continues, and is not ignored unless blocked. -/
structure Heeded (p : Process) : Prop where
  plain : ∀ i < 32, p.thread.pending.getLsbD i = true →
    sigKernelStop (i + 1) = false ∧ i + 1 ≠ sigcont
  heeded : exposesIgnored p p.thread.blocked = false

variable {p : Process} {mask : SigSet} {s : Kernel}

theorem exposes_iff : exposesIgnored p mask = false ↔
    ∀ i < 32, p.thread.pending.getLsbD i = true → mask.getLsbD i = false →
      ignores (p.sighand i).saHandler (i + 1) = false := by
  simp only [exposesIgnored, List.any_eq_false, List.mem_range, Bool.and_eq_true,
    Bool.not_eq_true', not_and, Bool.not_eq_true, and_imp]

theorem ignored_iff {i : Nat} : sigIgnored p (i + 1) = false ↔
    (p.thread.blocked.getLsbD i = false → ignores (p.sighand i).saHandler (i + 1) = false) := by
  simp only [sigIgnored, sigismember, sigHandler, Nat.add_sub_cancel]
  cases p.thread.blocked.getLsbD i <;> simp

theorem Heeded.sent {p' : Process} (h : Sent p p') (hp : Heeded p) : Heeded p' := by
  refine ⟨?_, exposes_iff.mpr ?_⟩
  · intro i hi hb
    rcases h.pending i hi hb with ho | hn
    · exact hp.plain i hi ho
    · exact hn.2
  · intro i hi hb hm
    rw [h.blocked] at hm
    rw [h.sighand]
    rcases h.pending i hi hb with ho | hn
    · exact exposes_iff.mp hp.heeded i hi ho hm
    · exact ignored_iff.mp hn.1 hm

theorem exposes_kept {p' : Process} (h : Kept p p')
    (hp : exposesIgnored p mask = false) : exposesIgnored p' mask = false := by
  refine exposes_iff.mpr fun i hi hb hm => ?_
  rw [h.sighand]
  exact exposes_iff.mp hp i hi (h.pending i hb) hm

theorem Heeded.handlerMask (hp : Heeded p)
    (h : p.handlerMask = some mask) : exposesIgnored p mask = false := by
  unfold Process.handlerMask at h
  simp only at h
  split at h
  · cases h
    refine exposes_iff.mpr fun i hi hb hm => ?_
    rw [BitVec.getLsbD_or, Bool.or_eq_false_iff] at hm
    exact exposes_iff.mp hp.heeded i hi hb hm.1
  · cases h

theorem newBlocked_heeded {e : Event}
    (hs : ∀ q, Heeded (s.proc q)) (ok : keepsHeeded s e = true)
    (h : s.newBlocked e = some mask) : exposesIgnored (s.proc (s.runner e)) mask = false := by
  cases e with
  | sigprocmask how set =>
    cases set with
    | none => cases h
    | some set =>
      simp only [Kernel.newBlocked] at h
      simpa [keepsHeeded, h, Kernel.runner] using ok
  | sigsuspend set =>
    cases h
    simpa [keepsHeeded, Kernel.runner] using ok
  | pageFault t faultAddr =>
    simp only [Kernel.newBlocked] at h
    split at h
    · rename_i ha
      cases h
      simpa [keepsHeeded, ha, Kernel.runner] using ok
    · cases h
  | suspended t => exact (hs _).handlerMask h
  | interrupt t =>
    simp only [Kernel.newBlocked] at h
    split at h
    · cases h
    · exact (hs _).handlerMask h
  | schedule next t =>
    simp only [Kernel.newBlocked] at h
    split at h
    · cases h
    · rename_i hn
      rw [Kernel.runner, if_neg (not_or.mp hn).1]
      exact (hs next).handlerMask h
  | kill pid signum => cases h
  | sigaction signum action => cases h
  | yield state => cases h
  | wakeUp pid => cases h

theorem Heeded.install {signum : Int} {action : SigAction}
    (valid : sigactionValid signum = true)
    (ok : keepsHeeded s (.sigaction signum (some action)) = true)
    (kept : Kept (s.proc s.current) p) (hp : Heeded p) : Heeded (p.install signum.toNat action) := by
  refine ⟨hp.plain, exposes_iff.mpr fun i hi hb hm => ?_⟩
  change ignores ((Function.update p.sighand (signum.toNat - 1) action) i).saHandler _ = false
  by_cases he : i = signum.toNat - 1
  · subst i
    have hm : (s.proc s.current).thread.blocked.getLsbD (signum.toNat - 1) = false := by
      rw [← kept.blocked]
      exact hm
    simp only [keepsHeeded, valid, sigismember, kept.pending _ hb, hm] at ok
    simp only [sigactionValid, Bool.and_eq_true, decide_eq_true_eq] at valid
    have hn : signum.toNat - 1 + 1 = signum.toNat := by omega
    rw [Function.update_self, hn]
    simpa using ok
  · rw [Function.update_of_ne he]
    exact exposes_iff.mp hp.heeded i hi hb hm

/-- A call keeps what is pending from being ignored. -/
theorem heeded_step {fuel : Nat} {s' : Kernel} {e : Event} (hs : ∀ q, Heeded (s.proc q))
    (ok : keepsHeeded s e = true) (h : step fuel s e = .ok s') : ∀ q, Heeded (s'.proc q) := by
  cases step_effect h with
  | sent each => exact fun q => (hs q).sent (each q)
  | masked mask set changed =>
    apply changed.each (fun _ _ hp => Heeded.sent hp) hs
    intro p kept hp
    have hm : exposesIgnored p mask = false := exposes_kept kept (newBlocked_heeded hs ok set)
    exact ⟨hp.plain, hm⟩
  | installed signum action event valid changed =>
    subst event
    apply changed.each (fun _ _ hp => Heeded.sent hp) hs
    intro p kept hp
    exact hp.install valid ok kept

/-- A function that fails none of the assertions in `handle_signal`. -/
def Unasserting (kill : Kill) : Prop := ∀ s pid sig, kill s pid sig ≠ .error .assertion

variable {kill : Kill}

theorem notifyParent_unasserting (hk : Unasserting kill) (s : Kernel) :
    notifyParent kill s ≠ .error .assertion := by
  intro h
  unfold notifyParent at h
  split at h
  · cases h
  · exact hk _ _ _ (map_error.mp h)

theorem killProcess_unasserting (hk : Unasserting kill) (s : Kernel) (pid : Int) (sig : Nat) :
    killProcess kill s pid sig ≠ .error .assertion := by
  intro h
  unfold killProcess at h
  split at h
  · cases h
  · split at h
    · exact notifyParent_unasserting hk _ h
    · split at h
      · exact notifyParent_unasserting hk _ h
      · split at h
        · cases h
        · cases h

theorem killEach_unasserting (hk : Unasserting kill) (pid sig : Int) (keys : List Int)
    (s : Kernel) : keys.foldlM (killEach kill pid sig) s ≠ .error .assertion := by
  induction keys generalizing s with
  | nil =>
    intro h
    cases h
  | cons key keys ih =>
    intro h
    rcases bind_error.mp h with h | ⟨m, _, h⟩
    · unfold killEach at h
      split at h
      · exact hk _ _ _ (map_error.mp h)
      · cases h
    · exact ih m h

theorem doKill_unasserting (fuel : Nat) : Unasserting (doKill fuel) := by
  induction fuel with
  | zero =>
    intro s pid sig h
    cases h
  | succ fuel ih =>
    intro s pid sig h
    simp only [doKill, killWith] at h
    split at h
    · cases h
    · split at h
      · cases h
      · split at h
        · exact killProcess_unasserting ih _ _ _ (map_error.mp h)
        · exact killEach_unasserting ih _ _ _ _ (map_error.mp h)

theorem hangup_unasserting (hk : Unasserting kill) (s : Kernel) :
    hangup kill s ≠ .error .assertion := by
  intro h
  unfold hangup at h
  simp only at h
  split at h
  · cases h
  · split at h
    · exact hk _ _ _ (map_error.mp h)
    · cases h

theorem doExit_unasserting (hk : Unasserting kill) (s : Kernel) (code : Int) :
    doExit kill s code ≠ .error .assertion := by
  intro h
  rcases bind_error.mp h with h | ⟨m, _, h⟩
  · exact hangup_unasserting hk _ h
  · exact notifyParent_unasserting hk _ h

theorem fatal_of_default {i : Nat} (hi : i < 32)
    (plain : sigKernelStop (i + 1) = false) (heeded : sigIgnored p (i + 1) = false)
    (blocked : p.thread.blocked.getLsbD i = false) (default : sigDefaultAction p (i + 1) = true) :
    sigFatal p (i + 1) = true := by
  have masks : ∀ i < 32, sigKernelStop (i + 1) = false → sigKernelIgnore (i + 1) = false →
      siginmask (i + 1) (sigKernelIgnoreMask ||| sigKernelStopMask) = false := by decide
  have hd : sigHandler p (i + 1) = sigDfl := beq_iff_eq.mp default
  have hn := ignored_iff.mp heeded blocked
  have hh : (p.sighand i).saHandler = sigDfl := hd
  rw [hh, ignores, Bool.or_eq_false_iff] at hn
  rw [sigFatal, masks i hi plain (by simpa using hn.2), hd]
  rfl

theorem handleSignal_unasserting (hk : Unasserting kill) {t : Trap}
    {restored : SigSet} (hs : Heeded (s.proc s.current)) :
    handleSignal kill s t restored ≠ .error .assertion := by
  intro h
  unfold handleSignal at h
  simp only at h
  split at h
  · cases h
  · rename_i hn
    obtain ⟨i, hi, he, hp, hb⟩ := next_signal_pending (not_or.mp hn).2
    rw [he, modify_current, modify_same] at h
    have heeded : sigIgnored ((s.proc s.current).interrupted (savedRegisters t.regs) (i + 1))
        (i + 1) = false :=
      ignored_iff.mpr fun _ => exposes_iff.mp hs.heeded i hi hp hb
    rw [heeded] at h
    split at h
    · rename_i hf
      cases hf
    · split at h
      · rename_i hd
        rw [fatal_of_default hi (hs.plain i hi hp).1 heeded hb hd] at h
        exact doExit_unasserting hk _ _ (map_error.mp h)
      · split at h
        · cases h
        · cases h

/-- The assertion on ignored signals is not reached. -/
theorem step_unasserting {fuel : Nat} (hs : ∀ q, Heeded (s.proc q)) (e : Event) :
    step fuel s e ≠ .error .assertion := by
  have hk : Unasserting (doKill fuel) := doKill_unasserting fuel
  intro h
  cases e with
  | kill pid signum =>
    simp only [step] at h
    split at h
    · exact hk _ _ _ (map_error.mp h)
    · cases h
  | suspended t =>
    simp only [step, endSuspend] at h
    split at h
    · cases h
    · split at h
      · cases h
      · refine handleSignal_unasserting hk ?_ (map_error.mp h)
        rw [modify_current, modify_same]
        exact (hs s.current).sent (Kept.sent (p := s.proc s.current) ⟨rfl, rfl, fun _ h => h⟩)
  | interrupt t =>
    simp only [step, signalHandler] at h
    split at h
    · split at h
      · cases h
      · exact handleSignal_unasserting hk (hs s.current) (map_error.mp h)
    · cases h
  | schedule next t =>
    simp only [step, schedule] at h
    split at h
    · cases h
    · split at h
      · split at h
        · refine handleSignal_unasserting hk ?_ (map_error.mp h)
          rw [modify_current, modify_same]
          exact (hs next).sent (kept_updateThread _ _).sent
        · cases h
      · cases h
  | pageFault t faultAddr =>
    simp only [step] at h
    split at h
    · unfold threadPageFault at h
      split at h
      · cases h
      · cases h
    · cases h
  | sigaction signum action =>
    simp only [step] at h
    split at h <;> cases h
  | sigprocmask how set =>
    simp only [step] at h
    split at h <;> cases h
  | sigsuspend set =>
    simp only [step] at h
    split at h <;> cases h
  | yield state =>
    simp only [step] at h
    split at h <;> cases h
  | wakeUp pid =>
    simp only [step] at h
    split at h <;> cases h

theorem Process.Fresh.heeded (h : p.Fresh) : Heeded p := by
  refine ⟨fun i hi hb => ?_, exposes_iff.mpr fun i hi hb => ?_⟩ <;> simp [h.pending] at hb

/-- In a run whose steps never let an ignored signal through, the assertions of
`handle_signal` hold at every delivery. -/
theorem delivery_never_asserts {fuel : Nat} {s₀ s : Kernel} (fresh : ∀ q, (s₀.proc q).Fresh)
    (h : Run (next fuel) (fun s e => keepsHeeded s e = true) s₀ s) (e : Event) :
    step fuel s e ≠ .error .assertion := by
  apply step_unasserting
  apply h.invariant (I := fun s => ∀ q, Heeded (s.proc q)) fun q => (fresh q).heeded
  intro a e b ha ok hn
  exact heeded_step ha ok (next_some hn)

theorem delivery_never_asserts_sigterm :
    ∃ s, Run (next 3) (fun s e => keepsHeeded s e = true) booted s ∧
      (s.proc 2).thread.pending = sigmask 15 ∧ step 3 s (.interrupt {}) ≠ .error .assertion := by
  obtain ⟨s, hr, hs⟩ := replay_reaches (next 3) (fun s e => keepsHeeded s e = true) booted
    [.kill 2 15] (P := fun s => (s.proc 2).thread.pending = sigmask 15) (by decide +kernel)
  exact ⟨s, hr, hs, delivery_never_asserts booted_fresh hr _⟩

/-- `SIGCHLD`, which is ignored, is sent while it is blocked and then unblocked. -/
theorem unblocked_sigchld_asserts :
    ∃ s, Run (next 3) (fun _ _ => True) booted s ∧ step 3 s (.interrupt {}) = .error .assertion := by
  have hr := replay_reaches (next 3) (fun _ _ => True) booted
    [.sigprocmask 0 (some (sigmask sigchld)), .kill 2 sigchld,
      .sigprocmask 1 (some (sigmask sigchld))]
    (P := fun s => (match step 3 s (.interrupt {}) with
      | .error .assertion => true
      | _ => false) = true) (by decide +kernel)
  obtain ⟨s, hr, hs⟩ := hr
  refine ⟨s, hr, ?_⟩
  split at hs
  · assumption
  · cases hs

end Heeded

theorem Changed.other {s s' : Kernel} {pid q : Int} {f : Process → Process}
    (h : Changed s s' pid f) (hq : q ≠ pid) : Sent (s.proc q) (s'.proc q) := by
  obtain ⟨m, hk, he⟩ := h
  rw [he, modify_of _ _ _ hq]
  exact (hk q).sent

/-- While a process does not run, its mask and its handlers stay as they are whatever the others
do, and a signal becomes pending only if it is not ignored and neither stops nor continues. -/
theorem masks_private {fuel : Nat} {s t : Kernel} {q : Int}
    (run : Run (next fuel) (fun a e => a.current ≠ q ∧ a.runner e ≠ q) s t) :
    Sent (s.proc q) (t.proc q) := by
  induction run with
  | refl => exact .refl _
  | tail before meets hn ih =>
    refine ih.trans ?_
    cases step_effect (next_some hn) with
    | sent each => exact each q
    | masked mask set changed => exact changed.other meets.2.symm
    | installed signum action event valid changed => exact changed.other meets.1.symm

theorem masks_private_of_parent : ∃ t,
    Run (next 3) (fun a e => a.current ≠ 1 ∧ a.runner e ≠ 1) booted t ∧
      (t.proc 1).thread.pending = sigmask 15 ∧ Sent (booted.proc 1) (t.proc 1) := by
  obtain ⟨t, run, ht⟩ := replay_reaches (next 3) (fun a e => a.current ≠ 1 ∧ a.runner e ≠ 1) booted
    [.sigprocmask 0 (some (sigmask 2)), .kill 1 15]
    (P := fun t => (t.proc 1).thread.pending = sigmask 15) (by decide +kernel)
  exact ⟨t, run, ht, masks_private run⟩

end Mos.Signal

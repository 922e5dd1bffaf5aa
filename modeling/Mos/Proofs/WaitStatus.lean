import Mos.Proofs.SignalFrame
import Mos.Proc.Wait

namespace Mos.Proc
open Signal

inductive Outcome where
  | exited (code : Nat)
  | killed (sig : Nat)
  | stopped (sig : Nat)
  | continued
  deriving DecidableEq, Repr

def fatal (sig : Nat) : Bool :=
  decide (0 < sig) && decide (sig < 33) && !siginmask sig (sigKernelIgnoreMask ||| sigKernelStopMask)

/-- How the kernel leaves a child to which this has happened. -/
def Outcome.Shows : Outcome → Process → Prop
  | exited code, p =>
    code < 256 ∧ p.flags &&& signalTerminated = 0 ∧ p.flags &&& exitTerminated ≠ 0 ∧
      p.causedSignal = 0 ∧ p.exitCode = code
  | killed sig, p => fatal sig = true ∧ p.flags &&& signalTerminated ≠ 0 ∧ p.causedSignal = sig
  | stopped sig, p =>
    sigKernelStop sig = true ∧ p.flags &&& endedFlags = 0 ∧ p.causedSignal = 0 ∧
      p.thread.state = .waiting
  | continued, p => p.flags &&& endedFlags = 0 ∧ p.causedSignal = 0

theorem flag_of_masked {f g flag : UInt32} (h : f &&& endedFlags = g &&& endedFlags)
    (hf : endedFlags &&& flag = flag) : f &&& flag = g &&& flag := by
  rw [← hf, ← UInt32.and_assoc, ← UInt32.and_assoc, h]

theorem or_and_self (f flag : UInt32) : (f ||| flag) &&& flag = flag := by
  apply UInt32.toBitVec_inj.mp
  rw [UInt32.toBitVec_and, UInt32.toBitVec_or]
  ext i
  grind

theorem exit_shows {fuel : Nat} {s s' : Kernel} {code : Nat} (hc : code < 256)
    (hs : (s.proc s.current).causedSignal = 0)
    (ht : (s.proc s.current).flags &&& signalTerminated = 0)
    (h : doExit (doKill fuel) s code = .ok s') :
    (Outcome.exited code).Shows (s'.proc s.current) := by
  obtain ⟨hs', hx, hf⟩ := doExit_self (doKill_signalled fuel) h
  rw [if_pos hs] at hf
  refine ⟨hc, ?_, ?_, hs'.trans hs, hx⟩
  · rw [flag_of_masked hf (by decide), or_and_of_disjoint (by decide), ht]
  · rw [flag_of_masked hf (by decide), or_and_self]
    decide

theorem killed_shows {fuel : Nat} {s s' : Kernel} {sig : Nat} (hf : fatal sig = true)
    (h : doExit (doKill fuel) (s.modify s.current (Process.terminated sig)) sig = .ok s') :
    (Outcome.killed sig).Shows (s'.proc s.current) := by
  obtain ⟨hs, _, hm⟩ := doExit_self (doKill_signalled fuel) h
  rw [modify_current, modify_same] at hs hm
  have hn : (Process.terminated sig (s.proc s.current)).causedSignal ≠ 0 := by
    rintro rfl
    exact absurd hf (by decide)
  refine ⟨hf, ?_, hs⟩
  rw [if_neg hn] at hm
  rw [flag_of_masked hm (by decide), Process.terminated, UInt32.and_assoc,
    show ~~~(signalContinued ||| signalStoped) &&& signalTerminated = signalTerminated by decide,
    or_and_self]
  decide

/-- The macros of the library tell this outcome and no other. -/
def Outcome.Decodes : Outcome → UInt32 → Prop
  | exited code, w =>
    wifexited w ≠ 0 ∧ (wexitstatus w).toNat = code ∧ wifsignaled w = 0 ∧ wifstopped w = 0 ∧
      wifcontinued w = 0
  | killed sig, w =>
    wifsignaled w ≠ 0 ∧ (wtermsig w).toNat = sig ∧
      (wcoredump w ≠ 0 ↔ sigKernelCoredump sig = true) ∧ wifexited w = 0 ∧ wifstopped w = 0 ∧
      wifcontinued w = 0
  | stopped sig, w =>
    wifstopped w ≠ 0 ∧ (wstopsig w).toNat = sig ∧ wifexited w = 0 ∧ wifsignaled w = 0 ∧
      wifcontinued w = 0
  | continued, w =>
    wifcontinued w ≠ 0 ∧ wifexited w = 0 ∧ wifsignaled w = 0 ∧ wifstopped w = 0

instance (o : Outcome) (w : UInt32) : Decidable (o.Decodes w) := by
  cases o <;> unfold Outcome.Decodes <;> infer_instance

section Frame
variable (s : Kernel) (waiting : Bool)

theorem enter_proc (q : Int) :
    ∃ w, (s.modify s.current (inWaitChld waiting)).proc q = inWaitChld w (s.proc q) := by
  by_cases hq : q = s.current
  · subst q
    exact ⟨waiting, modify_same ..⟩
  · exact ⟨(s.proc q).waitChld, modify_of _ _ _ hq⟩

theorem enter_selects (c : WaitCall) (q : Int) :
    c.selects (s.modify s.current (inWaitChld waiting)) q = c.selects s q := by
  obtain ⟨w, hw⟩ := enter_proc s waiting q
  simp only [WaitCall.selects, hw, inWaitChld]

theorem enter_available (options : UInt32) (q : Int) :
    available options ((s.modify s.current (inWaitChld waiting)).proc q) =
      available options (s.proc q) := by
  obtain ⟨w, hw⟩ := enter_proc s waiting q
  simp only [available, hw, inWaitChld]

theorem enter_childStatus (pid q : Int) :
    childStatus pid ((s.modify s.current (inWaitChld waiting)).proc q) =
      childStatus pid (s.proc q) := by
  obtain ⟨w, hw⟩ := enter_proc s waiting q
  simp only [childStatus, hw, inWaitChld]

theorem enter_findChild (q : Int) (c : WaitCall) :
    findChild (s.modify s.current (inWaitChld waiting)) q c = findChild s q c := by
  obtain ⟨w, hw⟩ := enter_proc s waiting q
  simp only [findChild, enter_selects, enter_available, hw, inWaitChld]

end Frame

variable {child pid : Int} {options w : UInt32} {p : Process}

theorem findChild_only {s : Kernel} {q : Int} {c : WaitCall}
    (only : ∀ k, k ∈ (s.proc q).children ∧ c.selects s k = true ↔ k = child) :
    findChild s q c = if available c.options (s.proc child) = true then some child else none := by
  obtain ⟨hm, hs⟩ := (only child).mpr rfl
  cases hf : findChild s q c with
  | none =>
    have hn := List.find?_eq_none.mp hf child hm
    rw [hs, Bool.true_and] at hn
    rw [if_neg hn]
  | some k =>
    have hp := List.find?_some hf
    rw [Bool.and_eq_true] at hp
    obtain rfl := (only k).mp ⟨List.mem_of_find?_eq_some hf, hp.1⟩
    rw [if_pos hp.2]

/-- The options of the calls in question, as `sys_waitpid` passes them on. -/
def Listed (options : UInt32) : Prop :=
  options = 0 ∨ options = wuntraced ∨ options = wuntraced ||| wcontinued

theorem waitpidCall_options (s : Kernel) (pid : Int) (options : UInt32) :
    (waitpidCall s pid options).options = if options &&& wuntraced ≠ 0 then
      (options &&& ~~~wuntraced) ||| (wexited ||| wstopped) else options := by
  unfold waitpidCall
  simp only
  split <;> (try split) <;> (try split) <;> rfl

theorem Listed.hangs {s : Kernel} (h : Listed options) :
    (waitpidCall s pid options).options &&& wnohang = 0 := by
  rw [waitpidCall_options]
  rcases h with rfl | rfl | rfl <;> decide

theorem childStatus_pid (pid : Int) (p : Process) : (childStatus pid p).siPid = pid := by
  unfold childStatus
  split <;> (try split) <;> (try split) <;> rfl

theorem sysWaitpid_only {s : Kernel} (h : Listed options)
    (only : ∀ k, k ∈ (s.proc s.current).children ∧
      (waitpidCall s pid options).selects s k = true ↔ k = child) :
    sysWaitpid s pid options =
      if available (waitpidCall s pid options).options (s.proc child) = true then
        some (child, wstatus (childStatus child (s.proc child)))
      else none := by
  unfold sysWaitpid doWait doWaitRound
  rw [modify_current, enter_findChild, findChild_only only]
  by_cases ha : available (waitpidCall s pid options).options (s.proc child) = true
  · rw [if_pos ha, if_pos ha]
    simp only [enter_childStatus]
    simp [childStatus_pid]
  · rw [if_neg ha, if_neg ha, if_neg (not_not.mpr h.hangs)]

theorem exited_decodes : ∀ code < 256,
    ((Outcome.exited code).Decodes (wsexited ||| UInt32.ofInt code <<< 8) ↔ code ≤ 1) ∧
    ((Outcome.exited code).Decodes (wsexited ||| UInt32.ofInt 0 <<< 8) ↔ code = 0) ∧
    ¬ (Outcome.exited code).Decodes (wssignaled ||| UInt32.ofInt 0 <<< 8 ||| wscoredump) := by
  decide +kernel

theorem killed_garbled : ∀ sig < 33, fatal sig = true →
    ¬ (Outcome.killed sig).Decodes (wsexited ||| UInt32.ofInt sig <<< 8) ∧
    ¬ (Outcome.killed sig).Decodes (wssignaled ||| UInt32.ofInt sig <<< 8 ||| wscoredump) := by
  decide +kernel

theorem wstatus_odd {status : Int} {code : UInt32} (h : code &&& cldExited ≠ 0) :
    wstatus ⟨pid, status, code⟩ = some (wsexited ||| UInt32.ofInt status <<< 8) := if_pos h

theorem wstatus_even {status : Int} {code : UInt32} (h : code &&& cldExited = 0)
    (hk : code &&& cldKilled ≠ 0) (hd : code &&& cldDumped ≠ 0) :
    wstatus ⟨pid, status, code⟩ =
      some (wssignaled ||| UInt32.ofInt status <<< 8 ||| wscoredump) := by
  simp only [wstatus, h, hk, hd, ne_eq, not_true_eq_false, not_false_eq_true, if_true, if_false,
    or_self]

/-- The words in which `sys_waitpid` packs what `do_wait` says. The tests of single bits take
a dumped or stopped child for one that exited, and a continued one for one that was killed. -/
theorem wstatus_childStatus (pid : Int) (p : Process) :
    wstatus (childStatus pid p) = some (
      if p.flags &&& signalStoped ≠ 0 then wsexited ||| UInt32.ofInt p.causedSignal <<< 8
      else if p.flags &&& signalContinued ≠ 0 then
        wssignaled ||| UInt32.ofInt p.causedSignal <<< 8 ||| wscoredump
      else if p.flags &&& signalTerminated ≠ 0 then
        if sigKernelCoredump p.causedSignal then wsexited ||| UInt32.ofInt p.causedSignal <<< 8
        else wssignaled ||| UInt32.ofInt p.causedSignal <<< 8 ||| wscoredump
      else wsexited ||| UInt32.ofInt p.exitCode <<< 8) := by
  unfold childStatus
  split
  · exact wstatus_odd (by decide)
  · split
    · exact wstatus_even (by decide) (by decide) (by decide)
    · split
      · split
        · exact wstatus_odd (by decide)
        · exact wstatus_even (by decide) (by decide) (by decide)
      · exact wstatus_odd (by decide)

/-- The value a caller of `waitpid` decodes is the child's outcome. -/
def RoundTrip (s : Kernel) (pid : Int) (options : UInt32) (child : Int) (o : Outcome) : Prop :=
  ∃ w, sysWaitpid s pid options = some (child, some w) ∧ o.Decodes w

/-- The outcomes that survive: with `WUNTRACED`, an exit with 0 or 1 of a child that is not
marked as stopped or continued, and an exit with 0 of one that is marked as stopped. -/
def Survives (options : UInt32) (p : Process) (o : Outcome) : Prop :=
  options &&& wuntraced ≠ 0 ∧ ∃ code, o = .exited code ∧
    if p.flags &&& signalStoped ≠ 0 then code = 0
    else p.flags &&& signalContinued = 0 ∧ code ≤ 1

theorem available_zero (p : Process) : available 0 p = false := by
  simp [available]

theorem flag_of_ended {f : UInt32} (h : f &&& endedFlags = 0) (flag : UInt32)
    (hf : endedFlags &&& flag = flag) :
    f &&& flag = 0 := by
  rw [← hf, ← UInt32.and_assoc, h, UInt32.zero_and]

theorem available_marked (h : p.flags &&& endedFlags = 0)
    (ha : available options p = true) :
    p.flags &&& signalStoped ≠ 0 ∨ p.flags &&& signalContinued ≠ 0 := by
  have ht := flag_of_ended h signalTerminated (by decide)
  have he := flag_of_ended h exitTerminated (by decide)
  simp only [available, ht, he, bne_self_eq_false, Bool.or_self, Bool.and_false, Bool.false_or,
    Bool.or_eq_true, Bool.and_eq_true, bne_iff_ne] at ha
  exact ha.imp And.right And.right

/-- Of the exit codes only 0 and 1 decode, and 1 only where no stop is recorded. -/
theorem exited_decodes_iff {code : Nat}
    (h : (Outcome.exited code).Shows p) (hw : wstatus (childStatus pid p) = some w) :
    (Outcome.exited code).Decodes w ↔
      if p.flags &&& signalStoped ≠ 0 then code = 0
      else p.flags &&& signalContinued = 0 ∧ code ≤ 1 := by
  obtain ⟨hc, hn, _, hs, he⟩ := h
  obtain ⟨h₁, h₂, h₃⟩ := exited_decodes code hc
  rw [wstatus_childStatus, hs, he] at hw
  cases hw
  by_cases hst : p.flags &&& signalStoped ≠ 0
  · rw [if_pos hst, if_pos hst]
    exact h₂
  · rw [if_neg hst, if_neg hst]
    by_cases hco : p.flags &&& signalContinued ≠ 0
    · rw [if_pos hco]
      exact iff_of_false h₃ fun h => hco h.1
    · rw [if_neg hco, if_neg (not_not.mpr hn), h₁]
      exact (and_iff_right (not_not.mp hco)).symm

theorem killed_not_decoded {sig : Nat}
    (h : (Outcome.killed sig).Shows p) (hw : wstatus (childStatus pid p) = some w) :
    ¬ (Outcome.killed sig).Decodes w := by
  obtain ⟨hf, ht, hs⟩ := h
  have hlt : sig < 33 := by
    simp only [fatal, Bool.and_eq_true, decide_eq_true_eq] at hf
    exact hf.1.2
  obtain ⟨h₁, h₂⟩ := killed_garbled sig hlt hf
  rw [wstatus_childStatus, hs, if_pos ht] at hw
  cases hw
  split
  · exact h₁
  · split
    · exact h₂
    · split
      · exact h₁
      · exact h₂

theorem unended_not_decoded {o : Outcome}
    (ho : o = .continued ∨ ∃ sig, o = .stopped sig) (hs : p.causedSignal = 0)
    (hm : p.flags &&& signalStoped ≠ 0 ∨ p.flags &&& signalContinued ≠ 0)
    (hw : wstatus (childStatus pid p) = some w) : ¬ o.Decodes w := by
  have garbled : ¬ o.Decodes (wsexited ||| UInt32.ofInt 0 <<< 8) ∧
      ¬ o.Decodes (wssignaled ||| UInt32.ofInt 0 <<< 8 ||| wscoredump) := by
    rcases ho with rfl | ⟨sig, rfl⟩
    · decide
    · exact ⟨fun h => absurd h.1 (by decide), fun h => absurd h.1 (by decide)⟩
  rw [wstatus_childStatus, hs] at hw
  cases hw
  split
  · exact garbled.1
  · rename_i hn
    rw [if_pos (hm.resolve_left hn)]
    exact garbled.2

/-- With one child to choose from, what counts is the flags that it has. -/
theorem roundTrip_iff {s : Kernel} {o : Outcome}
    (listed : Listed options) (only : ∀ k, k ∈ (s.proc s.current).children ∧
      (waitpidCall s pid options).selects s k = true ↔ k = child) :
    RoundTrip s pid options child o ↔
      available (waitpidCall s pid options).options (s.proc child) = true ∧
        ∃ w, wstatus (childStatus child (s.proc child)) = some w ∧ o.Decodes w := by
  rw [RoundTrip, sysWaitpid_only listed only]
  by_cases ha : available (waitpidCall s pid options).options (s.proc child) = true
  · simp [ha]
  · simp [ha]

/-- What `waitpid` stores is decoded to the child's outcome just for the outcomes above. -/
theorem wait_status_round_trip (s : Kernel) (pid child : Int) (options : UInt32) (o : Outcome)
    (listed : Listed options) (shows : o.Shows (s.proc child))
    (only : ∀ k, k ∈ (s.proc s.current).children ∧
      (waitpidCall s pid options).selects s k = true ↔ k = child) :
    RoundTrip s pid options child o ↔ Survives options (s.proc child) o := by
  rw [roundTrip_iff listed only]
  cases o with
  | exited code =>
    obtain ⟨w, hw⟩ : ∃ w, wstatus (childStatus child (s.proc child)) = some w :=
      ⟨_, wstatus_childStatus ..⟩
    have hd := exited_decodes_iff shows hw
    constructor
    · rintro ⟨ha, w', hw', h⟩
      obtain rfl := Option.some.inj (hw.symm.trans hw')
      refine ⟨?_, code, rfl, hd.mp h⟩
      intro hu
      have hz : options = 0 := by
        rcases listed with rfl | rfl | rfl
        · rfl
        · exact absurd hu (by decide)
        · exact absurd hu (by decide)
      rw [waitpidCall_options, hz] at ha
      exact Bool.false_ne_true ((available_zero _).symm.trans ha)
    · rintro ⟨hu, code', hc, h⟩
      obtain rfl := Outcome.exited.inj hc
      refine ⟨?_, w, hw, hd.mpr h⟩
      have hx : (waitpidCall s pid options).options &&& wexited ≠ 0 := by
        rw [waitpidCall_options, if_pos hu]
        rcases listed with rfl | rfl | rfl <;> decide
      simp [available, hx, shows.2.2.1]
  | killed sig =>
    apply iff_of_false
    · rintro ⟨_, w, hw, h⟩
      exact killed_not_decoded shows hw h
    · rintro ⟨_, code, hc, _⟩
      cases hc
  | stopped sig =>
    apply iff_of_false
    · rintro ⟨ha, w, hw, h⟩
      exact unended_not_decoded (.inr ⟨sig, rfl⟩) shows.2.2.1 (available_marked shows.2.1 ha) hw h
    · rintro ⟨_, code, hc, _⟩
      cases hc
  | continued =>
    apply iff_of_false
    · rintro ⟨ha, w, hw, h⟩
      exact unended_not_decoded (.inl rfl) shows.2 (available_marked shows.1 ha) hw h
    · rintro ⟨_, code, hc, _⟩
      cases hc

theorem pair_distinct : ([1, 2] : List Int).Nodup := by decide

def parentOf (child : Process) : Kernel where
  mprocess := [1, 2]
  distinct := pair_distinct
  proc := fun pid => if pid = 1 then { children := [2] } else child
  current := 1

theorem parentOf_only (child : Process) (options : UInt32) (k : Int) :
    k ∈ ((parentOf child).proc (parentOf child).current).children ∧
      (waitpidCall (parentOf child) 2 options).selects (parentOf child) k = true ↔ k = 2 := by
  simp [parentOf, waitpidCall, WaitCall.selects]

def exitedChild (code : Nat) : Process :=
  { flags := exitTerminated, exitCode := code, thread := { state := .terminated } }

theorem exitedChild_shows {code : Nat} (h : code < 256) :
    (Outcome.exited code).Shows (exitedChild code) :=
  ⟨h, (by decide : exitTerminated &&& signalTerminated = 0),
    (by decide : exitTerminated &&& exitTerminated ≠ 0), rfl, rfl⟩

theorem round_trip_of_one : RoundTrip (parentOf (exitedChild 1)) 2 wuntraced 2 (.exited 1) :=
  (wait_status_round_trip (parentOf (exitedChild 1)) 2 2 wuntraced (.exited 1) (.inr (.inl rfl))
    (exitedChild_shows (by decide)) (parentOf_only _ _)).mpr
    ⟨by decide, 1, rfl, by decide⟩

/-- The exit code 3 is decoded as 1. -/
theorem exit_code_lost :
    (Outcome.exited 3).Shows ((parentOf (exitedChild 3)).proc 2) ∧
      sysWaitpid (parentOf (exitedChild 3)) 2 wuntraced = some (2, some 0x0301) ∧
      wexitstatus 0x0301 = 1 ∧
      ¬ RoundTrip (parentOf (exitedChild 3)) 2 wuntraced 2 (.exited 3) := by
  have hw : sysWaitpid (parentOf (exitedChild 3)) 2 wuntraced = some (2, some 0x0301) := by
    decide +kernel
  refine ⟨exitedChild_shows (by decide), hw, by decide, ?_⟩
  rintro ⟨w, h, hd⟩
  obtain rfl := Option.some.inj (Prod.mk.inj (Option.some.inj h)).2
  exact absurd hd (by decide)

end Mos.Proc

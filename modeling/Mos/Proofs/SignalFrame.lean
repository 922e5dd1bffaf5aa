import Mos.Proofs.SignalSteps

namespace Mos.Signal
open Machine

/-- Whether a call of `do_kill` with this `pid` names the process `q`. The loops over a
group pass on the number of the group. -/
def names (s : Kernel) (q : Int) : Nat → Int → Bool
  | 0, _ => false
  | fuel + 1, pid =>
    if 0 < pid then pid == q
    else s.mprocess.any fun key => selects s pid key && names s q fuel (s.proc key).gid

def endedFlags : UInt32 := signalTerminated ||| exitTerminated

def Process.signalled (p : Process) (flags : UInt32) (state : ThreadState) (pending : SigSet) :
    Process :=
  { p with
    flags
    thread := { p.thread with state, pending } }

/-- What sending signals leaves of a process: its place among the processes and whether it
has ended stay, and its thread becomes ready or waiting only if it is woken or halted. -/
def Touched (wakes halts : Prop) (p p' : Process) : Prop :=
  ∃ flags state pending, p' = p.signalled flags state pending ∧
    flags &&& endedFlags = p.flags &&& endedFlags ∧
    (state = p.thread.state ∨ (wakes ∧ state = .ready) ∨ (halts ∧ state = .waiting))

theorem or_and_of_disjoint {f a e : UInt32} (h : a &&& e = 0) : (f ||| a) &&& e = f &&& e := by
  have h := congrArg UInt32.toBitVec h
  apply UInt32.toBitVec_inj.mp
  rw [UInt32.toBitVec_and, BitVec.and_comm] at h
  rw [UInt32.toBitVec_and, UInt32.toBitVec_or, UInt32.toBitVec_and, BitVec.and_comm,
    BitVec.and_or_distrib_left, h, BitVec.and_comm]
  exact BitVec.or_zero

theorem masked_kept {f a b e : UInt32} (ha : a &&& e = 0) (hb : ~~~b &&& e = e) :
    (f ||| a) &&& ~~~b &&& e = f &&& e := by
  rw [UInt32.and_assoc, hb, or_and_of_disjoint ha]

section Touched
variable {wakes halts : Prop} {p p' p'' : Process}

theorem Touched.refl (p : Process) : Touched wakes halts p p :=
  ⟨p.flags, p.thread.state, p.thread.pending, rfl, rfl, .inl rfl⟩

theorem Touched.trans (h : Touched wakes halts p p') (h' : Touched wakes halts p' p'') :
    Touched wakes halts p p'' := by
  obtain ⟨flags, state, pending, rfl, hf, hs⟩ := h
  obtain ⟨flags', state', pending', rfl, hf', hs'⟩ := h'
  refine ⟨flags', state', pending', rfl, hf'.trans hf, ?_⟩
  rcases hs' with rfl | hs'
  · exact hs
  · exact .inr hs'

theorem Touched.mono {wakes' halts' : Prop} (h : Touched wakes halts p p') (hw : wakes → wakes')
    (hh : halts → halts') : Touched wakes' halts' p p' := by
  obtain ⟨flags, state, pending, he, hf, hs⟩ := h
  exact ⟨flags, state, pending, he, hf, hs.imp_right (.imp (.imp_left hw) (.imp_left hh))⟩

theorem touched_addPending (sig : Nat) (p : Process) : Touched wakes halts p (p.addPending sig) :=
  ⟨_, _, _, rfl, rfl, .inl rfl⟩

theorem touched_continued (p : Process) : Touched wakes halts p p.continued :=
  ⟨_, _, _, rfl, masked_kept (by decide) (by decide), .inl rfl⟩

theorem touched_stoped (p : Process) : Touched wakes halts p p.stoped :=
  ⟨_, _, _, rfl, masked_kept (by decide) (by decide), .inl rfl⟩

theorem touched_ready (hw : wakes) (p : Process) : Touched wakes halts p (updateThread .ready p) :=
  ⟨_, _, _, rfl, rfl, .inr (.inl ⟨hw, rfl⟩)⟩

theorem touched_waiting (hh : halts) (p : Process) :
    Touched wakes halts p (updateThread .waiting p) :=
  ⟨_, _, _, rfl, rfl, .inr (.inr ⟨hh, rfl⟩)⟩

theorem touched_wakeUp (h : p.waitChld = true → wakes) : Touched wakes halts p p.wakeUp := by
  unfold Process.wakeUp
  split
  · rename_i hc
    exact touched_ready (h hc) p
  · exact .refl p

end Touched

/-- The kernel after signals have been sent; `wakes` and `halts` are the processes whose
threads they may make ready or waiting. -/
structure Signalled (wakes halts : Int → Prop) (s s' : Kernel) : Prop where
  current : s'.current = s.current
  mprocess : s'.mprocess = s.mprocess
  each : ∀ q, Touched (wakes q) (halts q) (s.proc q) (s'.proc q)

section Signalled
variable {wakes halts : Int → Prop} {s s' s'' : Kernel}

theorem Signalled.refl (s : Kernel) : Signalled wakes halts s s := ⟨rfl, rfl, fun _ => .refl _⟩

theorem Signalled.trans (h : Signalled wakes halts s s') (h' : Signalled wakes halts s' s'') :
    Signalled wakes halts s s'' :=
  ⟨h'.current.trans h.current, h'.mprocess.trans h.mprocess,
    fun q => (h.each q).trans (h'.each q)⟩

theorem Signalled.mono {wakes' halts' : Int → Prop} (h : Signalled wakes halts s s')
    (hw : ∀ q, wakes q → wakes' q) (hh : ∀ q, halts q → halts' q) :
    Signalled wakes' halts' s s' :=
  ⟨h.current, h.mprocess, fun q => (h.each q).mono (hw q) (hh q)⟩

theorem signalled_modify {pid : Int} {f : Process → Process}
    (h : Touched (wakes pid) (halts pid) (s.proc pid) (f (s.proc pid))) :
    Signalled wakes halts s (s.modify pid f) := by
  refine ⟨rfl, rfl, fun q => ?_⟩
  by_cases hq : q = pid
  · subst q
    rwa [modify_same]
  · rw [modify_of _ _ _ hq]
    exact .refl _

theorem Signalled.gid (h : Signalled wakes halts s s') (q : Int) :
    (s'.proc q).gid = (s.proc q).gid := by
  obtain ⟨_, _, _, he, _⟩ := h.each q
  rw [he]
  rfl

theorem Signalled.waitChld (h : Signalled wakes halts s s') (q : Int) :
    (s'.proc q).waitChld = (s.proc q).waitChld := by
  obtain ⟨_, _, _, he, _⟩ := h.each q
  rw [he]
  rfl

theorem Signalled.selects (h : Signalled wakes halts s s') (pid key : Int) :
    Signal.selects s' pid key = Signal.selects s pid key := by
  simp only [Signal.selects, h.gid, h.current]

theorem Signalled.names (h : Signalled wakes halts s s') (q : Int) (fuel : Nat) (pid : Int) :
    Signal.names s' q fuel pid = Signal.names s q fuel pid := by
  induction fuel generalizing pid with
  | zero => rfl
  | succ fuel ih => simp only [Signal.names, h.mprocess, h.selects, h.gid, ih]

end Signalled

/-- The processes whose threads a call of `do_kill` may make ready: those it sends `SIGCONT`
or `SIGKILL`, and those that wait for a child. -/
def wakes (s : Kernel) (fuel : Nat) (pid sig : Int) (q : Int) : Prop :=
  (s.proc q).waitChld = true ∨
    (names s q fuel pid = true ∧ (sig = sigcont ∨ sig = sigkill))

def halts (s : Kernel) (fuel : Nat) (pid sig : Int) (q : Int) : Prop :=
  names s q fuel pid = true ∧ sigKernelStop sig.toNat = true

def waitsForChild (s : Kernel) (q : Int) : Prop := (s.proc q).waitChld = true

theorem Signalled.congr {w h : Int → Prop} {s m : Kernel} (hm : Signalled w h s m) (fuel : Nat)
    (pid sig q : Int) :
    (wakes m fuel pid sig q ↔ wakes s fuel pid sig q) ∧
      (halts m fuel pid sig q ↔ halts s fuel pid sig q) := by
  simp only [wakes, halts, hm.waitChld, hm.names, and_self]

/-- What is known of the calls that `do_kill` makes of itself. -/
def SignalsAs (fuel : Nat) (kill : Kill) : Prop :=
  ∀ {s pid sig r}, kill s pid sig = .ok r →
    Signalled (wakes s fuel pid sig) (halts s fuel pid sig) s r.1

section Kill
variable {kill : Kill} {fuel : Nat} {s s' : Kernel}

variable {pid code q : Int} {t t' : Trap} {restored : SigSet}

theorem SignalsAs.plain (hk : SignalsAs fuel kill) {sig : Int} {r : Kernel × Int}
    (hc : sig ≠ sigcont) (hn : sig ≠ sigkill) (hs : sigKernelStop sig.toNat = false)
    (h : kill s pid sig = .ok r) : Signalled (waitsForChild s) (fun _ => False) s r.1 := by
  refine (hk h).mono ?_ ?_
  · intro q hq
    rcases hq with hq | ⟨_, hq | hq⟩
    · exact hq
    · exact absurd hq hc
    · exact absurd hq hn
  · intro q hq
    exact Bool.false_ne_true (hs.symm.trans hq.2)

theorem notifyParent_signalled (hk : SignalsAs fuel kill) (h : notifyParent kill s = .ok s') :
    Signalled (waitsForChild s) (fun _ => False) s s' := by
  unfold notifyParent at h
  split at h
  · cases h
  · obtain ⟨r, hr, rfl⟩ := map_ok.mp h
    have hs := hk.plain (by decide) (by decide) (by decide) hr
    refine hs.trans (signalled_modify (touched_wakeUp ?_))
    intro hw
    rwa [hs.waitChld] at hw

theorem killProcess_signalled (hk : SignalsAs fuel kill) {sig : Nat}
    (pos : 0 < pid) (h : killProcess kill s pid sig = .ok s') :
    Signalled (wakes s (fuel + 1) pid sig) (halts s (fuel + 1) pid sig) s s' := by
  have named : names s pid (fuel + 1) pid = true := by
    simp [names, pos]
  have notified {m : Kernel} (hm : Signalled (wakes s (fuel + 1) pid sig)
      (halts s (fuel + 1) pid sig) s m) (h : notifyParent kill m = .ok s') :
      Signalled (wakes s (fuel + 1) pid sig) (halts s (fuel + 1) pid sig) s s' := by
    refine hm.trans ((notifyParent_signalled hk h).mono ?_ (fun _ => False.elim))
    intro q hq
    rw [waitsForChild, hm.waitChld] at hq
    exact .inl hq
  unfold killProcess findProcessByPid at h
  split at h
  · cases h
  · split at h
    · rename_i hc
      refine notified ((signalled_modify (touched_continued (s.proc s.current))).trans ?_) h
      split
      · exact signalled_modify (touched_ready (.inr ⟨named, .inl (by rw [hc])⟩) _)
      · exact .refl _
    · split at h
      · rename_i hs
        exact notified ((signalled_modify (touched_stoped (s.proc s.current))).trans
          (signalled_modify (touched_waiting ⟨named, hs⟩ _))) h
      · split at h
        · cases h
          exact .refl _
        · cases h
          refine (signalled_modify (touched_addPending sig (s.proc pid))).trans ?_
          split
          · rename_i hp
            exact signalled_modify (touched_ready (.inr ⟨named, .inr (by rw [hp.1])⟩) _)
          · exact .refl _

theorem killEach_signalled (hk : SignalsAs fuel kill) {sig : Int} {keys : List Int}
    (neg : ¬ 0 < pid) {m : Kernel} (keep : ∀ key ∈ keys, key ∈ s.mprocess)
    (hm : Signalled (wakes s (fuel + 1) pid sig) (halts s (fuel + 1) pid sig) s m)
    (h : keys.foldlM (killEach kill pid sig) m = .ok s') :
    Signalled (wakes s (fuel + 1) pid sig) (halts s (fuel + 1) pid sig) s s' := by
  induction keys generalizing m with
  | nil =>
    cases h
    exact hm
  | cons key keys ih =>
    obtain ⟨u, hu, h⟩ := bind_ok.mp h
    refine ih (fun k hk => keep k (List.mem_cons_of_mem _ hk)) ?_ h
    unfold killEach at hu
    split at hu
    · rename_i hs
      rw [hm.selects] at hs
      obtain ⟨r, hr, rfl⟩ := map_ok.mp hu
      have passed (q : Int) (ha : names s q fuel (s.proc key).gid = true) :
          names s q (fuel + 1) pid = true := by
        rw [names, if_neg neg, List.any_eq_true]
        exact ⟨key, keep key (List.mem_cons_self ..), by rw [hs, ha]; rfl⟩
      rw [hm.gid] at hr
      refine hm.trans ((hk hr).mono ?_ ?_)
      · intro q hq
        rcases ((hm.congr _ _ _ q).1.mp hq) with hw | ⟨ha, hw⟩
        · exact .inl hw
        · exact .inr ⟨passed q ha, hw⟩
      · intro q hq
        obtain ⟨ha, hw⟩ := (hm.congr _ _ _ q).2.mp hq
        exact ⟨passed q ha, hw⟩
    · cases hu
      exact hm

theorem killWith_signalled (hk : SignalsAs fuel kill) : SignalsAs (fuel + 1) (killWith kill) := by
  intro s pid sig r h
  unfold killWith at h
  split at h
  · cases h
    exact .refl _
  · rename_i hv
    split at h
    · cases h
      exact .refl _
    · have hn : ((sig.toNat : Nat) : Int) = sig := by
        simp only [validSignal, Bool.not_eq_false, Bool.and_eq_true, decide_eq_true_eq] at hv
        omega
      split at h
      · rename_i pos
        obtain ⟨t, ht, rfl⟩ := map_ok.mp h
        have hs := killProcess_signalled hk pos ht
        rwa [hn] at hs
      · rename_i neg
        obtain ⟨t, ht, rfl⟩ := map_ok.mp h
        exact killEach_signalled hk neg (fun _ hk => hk) (.refl _) ht

/-- What a call of `do_kill` can do to the processes. -/
theorem doKill_signalled (fuel : Nat) : SignalsAs fuel (doKill fuel) := by
  induction fuel with
  | zero =>
    intro s pid sig r h
    cases h
  | succ fuel ih => exact killWith_signalled ih

def leaving (s : Kernel) (code : Int) : Kernel :=
  let s := reparent (s.modify s.current fun p =>
    { updateThread .terminated p with exitCode := code })
  if (s.proc s.current).causedSignal = 0 then
    s.modify s.current fun p => { p with flags := p.flags ||| exitTerminated } else s

@[simp] theorem leaving_current (s : Kernel) (code : Int) : (leaving s code).current = s.current := by
  unfold leaving
  simp only
  split <;> rfl

@[simp] theorem leaving_mprocess (s : Kernel) (code : Int) :
    (leaving s code).mprocess = s.mprocess := by
  unfold leaving
  simp only
  split <;> rfl

/-- The parent a process has once the running one exits. -/
def newParent (s : Kernel) (q : Int) : Option Int :=
  if q ∈ (s.proc s.current).children then if initPid ∈ s.mprocess then some initPid else none
  else (s.proc q).parent

theorem reparent_proc (s : Kernel) (q : Int) :
    (reparent s).proc q = { s.proc q with parent := newParent s q } := by
  simp only [reparent, newParent]
  split <;> rfl

theorem leaving_of {s : Kernel} (h : q ≠ s.current) :
    (leaving s code).proc q = { s.proc q with parent := newParent s q } := by
  have hr : (reparent (s.modify s.current fun p =>
      { updateThread .terminated p with exitCode := code })).proc q =
      { s.proc q with parent := newParent s q } := by
    rw [reparent_proc, newParent, newParent]
    simp only [modify_current, modify_same, modify_mprocess, modify_of _ _ _ h]
    rfl
  unfold leaving
  simp only
  split
  · exact (modify_of _ _ _ h).trans hr
  · exact hr

theorem leaving_self (s : Kernel) (code : Int) :
    (leaving s code).proc s.current =
      { s.proc s.current with
        parent := newParent s s.current
        thread := { (s.proc s.current).thread with state := .terminated }
        exitCode := code
        flags := if (s.proc s.current).causedSignal = 0 then
          (s.proc s.current).flags ||| exitTerminated else (s.proc s.current).flags } := by
  have hr : (reparent (s.modify s.current fun p =>
      { updateThread .terminated p with exitCode := code })).proc s.current =
      { s.proc s.current with
        parent := newParent s s.current
        thread := { (s.proc s.current).thread with state := .terminated }
        exitCode := code } := by
    rw [reparent_proc, newParent, newParent]
    simp only [modify_current, modify_same, modify_mprocess]
    rfl
  have hc : (reparent (s.modify s.current fun p =>
      { updateThread .terminated p with exitCode := code })).current = s.current := rfl
  unfold leaving
  simp only [hc, hr]
  split
  · rw [← hc, modify_same, hc, hr]
  · exact hr

theorem hangup_signalled (hk : SignalsAs fuel kill) (h : hangup kill s = .ok s') :
    Signalled (waitsForChild s) (fun _ => False) s s' := by
  unfold hangup at h
  simp only at h
  split at h
  · cases h
    exact .refl _
  · split at h
    · obtain ⟨r, hr, rfl⟩ := map_ok.mp h
      have hs := hk.plain (by decide) (by decide) (by decide) hr
      exact ⟨hs.current, hs.mprocess, hs.each⟩
    · cases h
      exact .refl _

theorem doExit_signalled (hk : SignalsAs fuel kill)
    (h : doExit kill s code = .ok s') :
    Signalled (waitsForChild (leaving s code)) (fun _ => False) (leaving s code) s' := by
  obtain ⟨m, hm, h⟩ := bind_ok.mp h
  have hs : Signalled (waitsForChild (leaving s code)) (fun _ => False) (leaving s code) m :=
    hangup_signalled hk hm
  refine hs.trans ((notifyParent_signalled hk h).mono ?_ (fun _ => id))
  intro q hq
  rwa [waitsForChild, hs.waitChld] at hq

theorem doExit_self (hk : SignalsAs fuel kill) (h : doExit kill s code = .ok s') :
    (s'.proc s.current).causedSignal = (s.proc s.current).causedSignal ∧
      (s'.proc s.current).exitCode = code ∧
      (s'.proc s.current).flags &&& endedFlags =
        (if (s.proc s.current).causedSignal = 0 then (s.proc s.current).flags ||| exitTerminated
          else (s.proc s.current).flags) &&& endedFlags := by
  obtain ⟨flags, state, pending, he, hf, _⟩ := (doExit_signalled hk h).each s.current
  rw [leaving_self] at he hf
  rw [he]
  exact ⟨rfl, rfl, hf⟩

/-- What the running process can do to another one other than by `do_kill`: a thread that
waits for a child may become ready. -/
structure Stirred (p p' : Process) : Prop where
  waitChld : p'.waitChld = p.waitChld
  state : p'.thread.state = p.thread.state ∨ (p.waitChld = true ∧ p'.thread.state = .ready)

theorem Stirred.refl (p : Process) : Stirred p p := ⟨rfl, .inl rfl⟩

theorem Touched.stirred {p p' : Process} (h : Touched (p.waitChld = true) False p p') :
    Stirred p p' := by
  obtain ⟨flags, state, pending, rfl, _, hs⟩ := h
  refine ⟨rfl, ?_⟩
  rcases hs with hs | hs | hs
  · exact .inl hs
  · exact .inr hs
  · exact hs.1.elim

theorem doExit_others (hk : SignalsAs fuel kill) (h : doExit kill s code = .ok s')
    (hq : q ≠ s.current) : Stirred (s.proc q) (s'.proc q) := by
  have he := (doExit_signalled hk h).each q
  rw [waitsForChild, leaving_of hq] at he
  have hs := he.stirred
  exact ⟨hs.waitChld, hs.state⟩

theorem modify_id (s : Kernel) (pid : Int) : (s.modify pid fun p => p) = s := by
  simp [Kernel.modify]

theorem handleSignal_cases
    (h : handleSignal kill s t restored = .ok (s', t')) :
    (∃ g : Thread → Thread, dies (s.proc s.current) = false ∧ (∀ th, (g th).state = th.state) ∧
      s' = s.modify s.current fun p => p.onThread g) ∨
    ∃ regs sig, dies (s.proc s.current) = true ∧
      doExit kill (s.modify s.current fun p => (p.interrupted regs sig).terminated sig) sig =
        .ok s' := by
  have quiet {sig : Nat} (hs : sig = nextSignal (s.proc s.current).thread.pending
      (s.proc s.current).thread.blocked) (hd : ¬ sigDefaultAction (s.proc s.current) sig = true) :
      dies (s.proc s.current) = false := by
    simp [dies, ← hs, hd]
  unfold handleSignal at h
  simp only [modify_current, modify_same, modify_modify] at h
  split at h
  · rename_i hn
    cases h
    refine .inl ⟨fun th => th, ?_, fun _ => rfl, (modify_id s s.current).symm⟩
    rcases hn with hn | hn
    · simp [dies, hn]
    · simp [dies, hn]
  · rename_i hn
    rw [not_or] at hn
    split at h
    · cases h
    · split at h
      · rename_i hd
        split at h
        · rename_i hf
          obtain ⟨m, hm, he⟩ := map_ok.mp h
          cases he
          refine .inr ⟨_, _, ?_, hm⟩
          simp only [dies, Bool.and_eq_true, bne_iff_ne]
          exact ⟨⟨hn, hd⟩, hf⟩
        · cases h
      · rename_i hd
        left
        split at h
        · obtain ⟨he, _⟩ := Prod.mk.inj (Except.ok.inj h)
          simp only [modify_current, modify_same, modify_modify] at he
          exact ⟨fun th => { th with
            signaling := true
            uregs := savedRegisters t.regs
            pending := th.pending &&& ~~~sigmask (nextSignal (s.proc s.current).thread.pending
              (s.proc s.current).thread.blocked)
            blocked := _ }, quiet rfl hd, fun _ => rfl, he.symm⟩
        · cases h
          exact ⟨fun th => { th with
            signaling := true
            uregs := savedRegisters t.regs
            pending := th.pending &&& ~~~sigmask (nextSignal (s.proc s.current).thread.pending
              (s.proc s.current).thread.blocked) }, quiet rfl hd, fun _ => rfl, rfl⟩

theorem handleSignal_others (hk : SignalsAs fuel kill)
    (h : handleSignal kill s t restored = .ok (s', t')) (hq : q ≠ s.current) :
    Stirred (s.proc q) (s'.proc q) := by
  rcases handleSignal_cases h with ⟨g, _, _, rfl⟩ | ⟨regs, sig, _, hx⟩
  · rw [modify_of _ _ _ hq]
    exact .refl _
  · have hs := doExit_others hk hx hq
    rwa [modify_of _ _ _ hq] at hs

theorem doExit_current (hk : SignalsAs fuel kill) (h : doExit kill s code = .ok s') :
    s'.current = s.current ∧ s'.mprocess = s.mprocess := by
  have hs := doExit_signalled hk h
  exact ⟨hs.current.trans (leaving_current ..), hs.mprocess.trans (leaving_mprocess ..)⟩

theorem handleSignal_current (hk : SignalsAs fuel kill)
    (h : handleSignal kill s t restored = .ok (s', t')) :
    s'.current = s.current ∧ s'.mprocess = s.mprocess := by
  rcases handleSignal_cases h with ⟨g, _, _, rfl⟩ | ⟨regs, sig, _, hx⟩
  · exact ⟨rfl, rfl⟩
  · have hc := doExit_current hk hx
    rwa [modify_current, modify_mprocess] at hc

theorem doExit_terminated (hk : SignalsAs fuel kill) (h : doExit kill s code = .ok s')
    (hw : (s.proc s.current).waitChld = false) :
    (s'.proc s.current).thread.state = .terminated ∧ (s'.proc s.current).waitChld = false := by
  have he := (doExit_signalled hk h).each s.current
  rw [waitsForChild, leaving_self] at he
  have hs := he.stirred
  refine ⟨?_, hs.waitChld.trans hw⟩
  rcases hs.state with hs | hs
  · exact hs
  · rw [hw] at hs
    cases hs.1

theorem schedule_frame (hk : SignalsAs fuel kill) {next : Int}
    (hr : (s.proc s.current).thread.state ≠ .running) (h : schedule kill s next t = .ok s') :
    s'.current = next ∧ s'.mprocess = s.mprocess ∧ next ∈ s.mprocess ∧
      (s.proc next).thread.state = .ready ∧ ∀ q ≠ next, Stirred (s.proc q) (s'.proc q) := by
  unfold schedule at h
  rw [if_neg hr] at h
  split at h
  · rename_i hn
    have kept {q : Int} (hq : q ≠ next) :
        ({ s with current := next }.modify next (updateThread .running)).proc q = s.proc q :=
      modify_of _ _ _ hq
    simp only at h
    split at h
    · obtain ⟨⟨m, t'⟩, hh, rfl⟩ := map_ok.mp h
      obtain ⟨hc, hm⟩ := handleSignal_current hk hh
      refine ⟨hc, hm, hn.1, hn.2, ?_⟩
      intro q hq
      have hs := handleSignal_others hk hh hq
      rwa [kept hq] at hs
    · cases h
      refine ⟨rfl, rfl, hn.1, hn.2, ?_⟩
      intro q hq
      rw [kept hq]
      exact .refl _
  · cases h

theorem schedule_ended (hk : SignalsAs fuel kill) {next : Int}
    (hr : (s.proc s.current).thread.state ≠ .running) (hd : dies (s.proc next) = true)
    (hf : (s.proc next).thread.flags &&& tifSignalManual = 0)
    (hw : (s.proc next).waitChld = false) (h : schedule kill s next t = .ok s') :
    (s'.proc next).thread.state = .terminated ∧ (s'.proc next).waitChld = false := by
  have hp : (s.proc next).thread.pending ≠ 0 := by
    simp only [dies, Bool.and_eq_true, bne_iff_ne] at hd
    exact hd.1.1.1
  unfold schedule at h
  rw [if_neg hr] at h
  split at h
  · simp only [modify_same] at h
    rw [if_pos ⟨hp, hf⟩] at h
    obtain ⟨⟨m, t'⟩, hh, rfl⟩ := map_ok.mp h
    rcases handleSignal_cases hh with ⟨g, hq, _, _⟩ | ⟨regs, sig, _, hx⟩
    · have hd' : dies (updateThread .running (s.proc next)) = true := hd
      rw [modify_current, modify_same] at hq
      exact (Bool.false_ne_true (hq.symm.trans hd')).elim
    · refine doExit_terminated hk hx ?_
      simp only [modify_current, modify_same]
      exact hw
  · cases h

end Kill

end Mos.Signal

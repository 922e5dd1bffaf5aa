import Mos.Proofs.SignalSteps

namespace Mos.Signal
open Machine Bool List

/-- The processes a call `kill(pid, sig)` is meant for. -/
def addresses (s : Kernel) (pid q : Int) : Bool :=
  if 0 < pid then q == pid
  else if pid = 0 then (s.proc q).gid == (s.proc s.current).gid
  else if pid = -1 then decide (1 < q)
  else (s.proc q).gid == -pid

/-- The signals that stop or continue a process, of which its parent is notified. -/
def jobControl (sig : Nat) : Bool := sig == sigcont || sigKernelStop sig

/-- What a signal does to a process it is meant for; a running thread stays so unless
it is stopped. -/
def Process.receive (running : Bool) (sig : Nat) (p : Process) : Process :=
  if sig = sigcont then
    if running then p.continued else updateThread .ready p.continued
  else if sigKernelStop sig then updateThread .waiting p.stoped
  else if sigIgnored p sig then p
  else if sig = sigkill ∧ running = false then updateThread .ready (p.addPending sig)
  else p.addPending sig

def Process.notified (p : Process) : Process :=
  (if sigIgnored p sigchld then p else p.addPending sigchld).wakeUp

def intended (s : Kernel) (pid : Int) (sig : Nat) (q : Int) : Process :=
  let p := if addresses s pid q then (s.proc q).receive (q == s.current) sig else s.proc q
  if jobControl sig && s.mprocess.any fun c => addresses s pid c && (s.proc c).parent == some q then
    p.notified
  else p

/-- `do_kill` returns; an unknown `pid` is an error that changes nothing, and otherwise
pending sets, flags and thread states are changed as meant. -/
def SignalsExactly (s : Kernel) (pid : Int) (sig : Nat) : Prop :=
  ∃ fuel s' ret, doKill fuel s pid sig = .ok (s', ret) ∧
    (0 < pid → pid ∉ s.mprocess → ret < 0 ∧ s' = s) ∧
    ∀ q ∈ s.mprocess,
      (s'.proc q).thread.pending = (intended s pid sig q).thread.pending ∧
      (s'.proc q).flags = (intended s pid sig q).flags ∧
      (s'.proc q).thread.state = (intended s pid sig q).thread.state

/-- The call names a known process, or a group in which every addressed process leads
its own group; only the caller is stopped or continued, and its parent can be found. -/
structure Direct (s : Kernel) (pid : Int) (sig : Nat) : Prop where
  known : 0 < pid → pid ∈ s.mprocess
  leads : ¬0 < pid → ∀ q ∈ s.mprocess, addresses s pid q = true → (s.proc q).gid = q ∧ 0 < q
  alone : jobControl sig = true → ∀ q ∈ s.mprocess, addresses s pid q = true →
    q = s.current ∧ ∃ parent ∈ s.mprocess, (s.proc q).parent = some parent ∧ 0 < parent

theorem modify_eq_self {s : Kernel} {pid : Int} {f : Process → Process}
    (h : f (s.proc pid) = s.proc pid) : s.modify pid f = s := by
  simp [Kernel.modify, h]

theorem modify_congr {s : Kernel} {pid : Int} {f g : Process → Process}
    (h : f (s.proc pid) = g (s.proc pid)) : s.modify pid f = s.modify pid g := by
  simp [Kernel.modify, h]

section Single
variable {kill : Kill} {s : Kernel} {q : Int} {sig : Nat}

theorem receive_ordinary (p : Process) (running : Bool) (hj : jobControl sig = false) :
    p.receive running sig =
      if sigIgnored p sig then p
      else if sig = sigkill ∧ running = false then updateThread .ready (p.addPending sig)
      else p.addPending sig := by
  simp only [jobControl, Bool.or_eq_false_iff, beq_eq_false_iff_ne] at hj
  rw [Process.receive, if_neg hj.1, hj.2, if_neg Bool.false_ne_true]

theorem killProcess_ordinary (hm : q ∈ s.mprocess) (hj : jobControl sig = false) :
    killProcess kill s q sig = .ok (s.modify q (Process.receive (q == s.current) sig)) := by
  have hr := receive_ordinary (s.proc q) (q == s.current) hj
  simp only [jobControl, or_eq_false_iff, beq_eq_false_iff_ne] at hj
  rw [killProcess, findProcessByPid, if_pos hm]
  simp only [if_neg hj.1, hj.2, false_eq_true, if_false]
  by_cases hi : sigIgnored (s.proc q) sig = true
  · rw [if_pos hi] at hr ⊢
    rw [modify_eq_self hr]
  · rw [if_neg hi] at hr ⊢
    congr 1
    split
    · rename_i hk
      rw [if_pos ⟨hk.1, beq_eq_false_iff_ne.mpr hk.2⟩] at hr
      rw [modify_modify]
      exact modify_congr hr.symm
    · rename_i hk
      rw [if_neg fun h => hk ⟨h.1, beq_eq_false_iff_ne.mp h.2⟩] at hr
      exact modify_congr hr.symm

theorem valid_cast (pos : 0 < sig) (le : sig ≤ 32) :
    validSignal sig = true ∧ (sig : Int) ≠ 0 := by
  constructor
  · rw [validSignal, and_eq_true, decide_eq_true_eq, decide_eq_true_eq]
    exact ⟨by omega, Int.ofNat_le.mpr le⟩
  · omega

theorem killWith_positive (pos : 0 < sig) (le : sig ≤ 32) (hq : 0 < q) :
    killWith kill s q sig = (killProcess kill s q sig).map fun s => (s, 0) := by
  obtain ⟨hv, hz⟩ := valid_cast pos le
  rw [killWith, hv]
  simp only [true_eq_false, if_false, hz, hq, if_true, Int.toNat_natCast]

theorem notifyParent_known {parent : Int} {n : Nat} (hp : (s.proc s.current).parent = some parent)
    (hm : parent ∈ s.mprocess) (pos : 0 < parent) :
    notifyParent (doKill (n + 1)) s = .ok (s.modify parent Process.notified) := by
  have hk : doKill (n + 1) s parent sigchld =
      .ok (s.modify parent (Process.receive (parent == s.current) sigchld), 0) := by
    rw [doKill, killWith_positive (by decide) (by decide) pos,
      killProcess_ordinary hm (by decide)]
    rfl
  rw [notifyParent, hp]
  simp only [hk]
  change Except.ok ((s.modify parent _).modify parent _) = _
  rw [modify_modify]
  congr 1

def sendOne (s : Kernel) (q : Int) (sig : Nat) : Kernel :=
  let s' := s.modify q (Process.receive (q == s.current) sig)
  match jobControl sig, (s.proc q).parent with
  | true, some parent => s'.modify parent Process.notified
  | _, _ => s'

theorem kill_one {n : Nat} (pos : 0 < sig) (le : sig ≤ 32) (hq : 0 < q) (hm : q ∈ s.mprocess)
    (hj : jobControl sig = true → q = s.current ∧
      ∃ parent ∈ s.mprocess, (s.proc q).parent = some parent ∧ 0 < parent) :
    doKill (n + 2) s q sig = .ok (sendOne s q sig, 0) := by
  rw [doKill, killWith_positive pos le hq, sendOne]
  cases hc : jobControl sig with
  | false =>
    rw [killProcess_ordinary hm hc]
    rfl
  | true =>
    obtain ⟨rfl, parent, hpm, hp, hpos⟩ := hj hc
    have notifies : ∀ f : Process → Process, (f (s.proc s.current)).parent = some parent →
        notifyParent (doKill (n + 1)) (s.modify s.current f) =
          .ok ((s.modify s.current f).modify parent Process.notified) := by
      intro f hf
      exact notifyParent_known (by rw [modify_current, modify_same]; exact hf) hpm hpos
    rw [hp, killProcess, findProcessByPid, if_pos hm, beq_self_eq_true]
    simp only
    by_cases hs : sig = sigcont
    · have hr : (s.proc s.current).receive true sig = (s.proc s.current).continued := by
        rw [Process.receive, if_pos hs, if_pos rfl]
      have hn : ¬s.current ≠ (s.modify s.current Process.continued).current := not_not.mpr rfl
      rw [if_pos hs, if_neg hn, notifies _ hp, modify_congr (f := Process.receive true sig) hr]
      rfl
    · have ht : sigKernelStop sig = true := by simpa [jobControl, hs] using hc
      have hr : (s.proc s.current).receive true sig =
          updateThread .waiting (s.proc s.current).stoped := by
        rw [Process.receive, if_neg hs, if_pos ht]
      rw [if_neg hs, if_pos ht, modify_modify, notifies _ hp,
        modify_congr (f := Process.receive true sig)
          (g := fun p => updateThread .waiting p.stoped) hr]
      rfl

theorem receive_keeps (sig : Nat) (p : Process) (running : Bool) :
    (p.receive running sig).gid = p.gid ∧ (p.receive running sig).parent = p.parent := by
  unfold Process.receive
  split
  · split <;> exact ⟨rfl, rfl⟩
  · split
    · exact ⟨rfl, rfl⟩
    · split
      · exact ⟨rfl, rfl⟩
      · split <;> exact ⟨rfl, rfl⟩

theorem notified_keeps (p : Process) : p.notified.gid = p.gid ∧ p.notified.parent = p.parent := by
  unfold Process.notified Process.wakeUp
  split <;> split <;> exact ⟨rfl, rfl⟩

theorem modify_keeps (s : Kernel) (pid : Int) {f : Process → Process}
    (h : ∀ p, (f p).gid = p.gid ∧ (f p).parent = p.parent) (r : Int) :
    ((s.modify pid f).proc r).gid = (s.proc r).gid ∧
      ((s.modify pid f).proc r).parent = (s.proc r).parent :=
  modify_each (R := fun p p' => p'.gid = p.gid ∧ p'.parent = p.parent) (fun _ => ⟨rfl, rfl⟩)
    (h _) r

theorem sendOne_ordinary (hj : jobControl sig = false) :
    sendOne s q sig = s.modify q (Process.receive (q == s.current) sig) := by
  rw [sendOne, hj]

/-- Sending a signal changes neither groups nor parents. -/
theorem sendOne_keeps (s : Kernel) (q : Int) (sig : Nat) : (sendOne s q sig).mprocess = s.mprocess ∧
    (sendOne s q sig).current = s.current ∧
    ∀ r, ((sendOne s q sig).proc r).gid = (s.proc r).gid ∧
      ((sendOne s q sig).proc r).parent = (s.proc r).parent := by
  have hr := modify_keeps s q fun p => receive_keeps sig p (q == s.current)
  unfold sendOne
  split
  · rename_i parent _ _
    refine ⟨rfl, rfl, fun r => ?_⟩
    obtain ⟨hg, hp⟩ := modify_keeps (s.modify q (Process.receive (q == s.current) sig)) parent
      notified_keeps r
    exact ⟨hg.trans (hr r).1, hp.trans (hr r).2⟩
  · exact ⟨rfl, rfl, hr⟩

theorem sendOne_addresses (pid r : Int) :
    addresses (sendOne s q sig) pid r = addresses s pid r := by
  obtain ⟨_, hc, hk⟩ := sendOne_keeps s q sig
  simp only [addresses, hc, (hk _).1]

end Single

section Group
variable {s : Kernel} {pid : Int} {sig : Nat}

def sendEach (pid : Int) (sig : Nat) (s : Kernel) (q : Int) : Kernel :=
  if addresses s pid q then sendOne s q sig else s

structure Reachable (s : Kernel) (sig : Nat) (q : Int) : Prop where
  known : q ∈ s.mprocess
  leads : (s.proc q).gid = q
  pos : 0 < q
  alone : jobControl sig = true → q = s.current ∧
    ∃ parent ∈ s.mprocess, (s.proc q).parent = some parent ∧ 0 < parent

theorem Reachable.sendOne {q c : Int} (h : Reachable s sig q) :
    Reachable (sendOne s c sig) sig q := by
  obtain ⟨hm, hc, hk⟩ := sendOne_keeps s c sig
  refine ⟨by rw [hm]; exact h.known, by rw [(hk q).1]; exact h.leads, h.pos, fun hj => ?_⟩
  rw [hc, hm, (hk q).2]
  exact h.alone hj

theorem killEach_fold {n : Nat} {keys : List Int} (pos : 0 < sig) (le : sig ≤ 32)
    (hp : ¬0 < pid) (h : ∀ q ∈ keys, addresses s pid q = true → Reachable s sig q) :
    keys.foldlM (killEach (doKill (n + 2)) pid sig) s = .ok (keys.foldl (sendEach pid sig) s) := by
  induction keys generalizing s with
  | nil => rfl
  | cons key keys ih =>
    have hs : selects s pid key = addresses s pid key := by rw [addresses, if_neg hp, selects]
    rw [foldlM_cons, foldl_cons, killEach, sendEach, hs]
    by_cases ha : addresses s pid key = true
    · have hr := h key mem_cons_self ha
      rw [if_pos ha, if_pos ha, hr.leads, kill_one pos le hr.pos hr.known hr.alone]
      apply ih
      intro q hq hqa
      rw [sendOne_addresses] at hqa
      exact (h q (mem_cons_of_mem _ hq) hqa).sendOne
    · rw [if_neg ha, if_neg ha]
      exact ih fun q hq => h q (mem_cons_of_mem _ hq)

theorem sendEach_ordinary {keys : List Int} (hj : jobControl sig = false) (hn : keys.Nodup)
    (r : Int) : (keys.foldl (sendEach pid sig) s).proc r =
      if r ∈ keys ∧ addresses s pid r = true then (s.proc r).receive (r == s.current) sig
      else s.proc r := by
  induction keys generalizing s with
  | nil => simp
  | cons key keys ih =>
    obtain ⟨hk, hn⟩ := nodup_cons.mp hn
    rw [foldl_cons, ih hn, sendEach]
    by_cases ha : addresses s pid key = true
    · rw [if_pos ha, sendOne_addresses, (sendOne_keeps s _ _).2.1, sendOne_ordinary hj]
      by_cases hr : r = key
      · subst r
        simp [hk, ha]
      · rw [modify_of _ _ _ hr]
        simp [hr]
    · rw [if_neg ha]
      by_cases hr : r = key
      · subst r
        simp [hk, ha]
      · simp [hr]

theorem sendEach_none {keys : List Int} (h : ∀ q ∈ keys, addresses s pid q = false) :
    keys.foldl (sendEach pid sig) s = s := by
  induction keys with
  | nil => rfl
  | cons key keys ih =>
    rw [List.foldl_cons, sendEach, h key List.mem_cons_self, if_neg Bool.false_ne_true]
    exact ih fun q hq => h q (List.mem_cons_of_mem _ hq)

theorem sendEach_alone {keys : List Int} (hn : keys.Nodup)
    (h : ∀ q ∈ keys, addresses s pid q = true → q = s.current) :
    keys.foldl (sendEach pid sig) s =
      if s.current ∈ keys ∧ addresses s pid s.current = true then sendOne s s.current sig else s := by
  induction keys with
  | nil => simp
  | cons key keys ih =>
    obtain ⟨hk, hn⟩ := nodup_cons.mp hn
    rw [foldl_cons, sendEach]
    by_cases ha : addresses s pid key = true
    · obtain rfl := h key mem_cons_self ha
      rw [if_pos ha, if_pos ⟨mem_cons_self, ha⟩, sendEach_none]
      intro q hq
      rw [sendOne_addresses]
      refine eq_false_iff.mpr fun hqa => hk ?_
      rw [← h q (mem_cons_of_mem _ hq) hqa]
      exact hq
    · rw [if_neg ha, ih hn fun q hq => h q (mem_cons_of_mem _ hq)]
      by_cases hc : s.current = key
      · subst hc
        simp [ha]
      · simp [hc]

theorem sendOne_intended {c : Int} (hc : c ∈ s.mprocess)
    (only : ∀ q ∈ s.mprocess, addresses s pid q = true ↔ q = c)
    (parent : jobControl sig = true → ∃ parent, (s.proc c).parent = some parent) {q : Int}
    (hq : q ∈ s.mprocess) : (sendOne s c sig).proc q = intended s pid sig q := by
  have received : (s.modify c (Process.receive (c == s.current) sig)).proc q =
      if addresses s pid q = true then (s.proc q).receive (q == s.current) sig else s.proc q := by
    by_cases he : q = c
    · subst q
      rw [modify_same, if_pos ((only c hc).mpr rfl)]
    · rw [modify_of _ _ _ he, if_neg fun ha => he ((only q hq).mp ha)]
  rw [intended, ← received]
  cases hj : jobControl sig with
  | false =>
    rw [sendOne_ordinary hj]
    rfl
  | true =>
    obtain ⟨parent, hp⟩ := parent hj
    have found : (s.mprocess.any fun d => addresses s pid d && (s.proc d).parent == some q) =
        (parent == q) := by
      rw [Bool.eq_iff_iff, List.any_eq_true, beq_iff_eq]
      constructor
      · rintro ⟨d, hd, h⟩
        rw [Bool.and_eq_true, beq_iff_eq] at h
        obtain rfl := (only d hd).mp h.1
        rw [hp] at h
        exact Option.some.inj h.2
      · rintro rfl
        exact ⟨c, hc, by rw [(only c hc).mpr rfl, hp]; simp⟩
    rw [found, sendOne, hj, hp]
    simp only [Bool.true_and, beq_iff_eq]
    by_cases he : parent = q
    · subst he
      rw [if_pos rfl, modify_same]
    · rw [if_neg he, modify_of _ _ _ (Ne.symm he)]

theorem observed_of_eq {p p' : Process} (h : p = p') : p.thread.pending = p'.thread.pending ∧
    p.flags = p'.flags ∧ p.thread.state = p'.thread.state := by
  subst h
  exact ⟨rfl, rfl, rfl⟩

theorem Direct.positive (h : Direct s pid sig) (pos : 0 < sig) (le : sig ≤ 32) (hp : 0 < pid) :
    SignalsExactly s pid sig := by
  have hm := h.known hp
  have only : ∀ q, addresses s pid q = true ↔ q = pid := by
    intro q
    rw [addresses, if_pos hp, beq_iff_eq]
  have alone := fun hj => h.alone hj pid hm ((only pid).mpr rfl)
  refine ⟨2, _, _, kill_one pos le hp hm alone, fun _ hn => absurd hm hn, fun q hq => ?_⟩
  apply observed_of_eq
  apply sendOne_intended hm (fun q _ => only q) ?_ hq
  intro hj
  obtain ⟨_, parent, _, hp, _⟩ := alone hj
  exact ⟨parent, hp⟩

/-- A call that is direct reaches every process it addresses. -/
theorem Direct.reachable (h : Direct s pid sig) (hp : ¬0 < pid) :
    ∀ q ∈ s.mprocess, addresses s pid q = true → Reachable s sig q := by
  intro q hq ha
  obtain ⟨hg, hpos⟩ := h.leads hp q hq ha
  exact ⟨hq, hg, hpos, fun hj => h.alone hj q hq ha⟩

theorem Direct.group (h : Direct s pid sig) (pos : 0 < sig) (le : sig ≤ 32) (hp : ¬0 < pid) :
    SignalsExactly s pid sig := by
  obtain ⟨hv, hz⟩ := valid_cast pos le
  have hk : doKill 3 s pid sig = .ok (s.mprocess.foldl (sendEach pid sig) s, 0) := by
    rw [doKill, killWith, hv]
    simp only [true_eq_false, if_false, hz, hp, killEach_fold pos le hp (h.reachable hp)]
    rfl
  refine ⟨3, _, _, hk, fun h => absurd h hp, fun q hq => observed_of_eq ?_⟩
  cases hj : jobControl sig with
  | false =>
    rw [sendEach_ordinary hj s.distinct, intended, hj]
    simp [hq]
  | true =>
    have caller := fun q hq ha => (h.alone hj q hq ha).1
    rw [sendEach_alone s.distinct caller]
    by_cases hc : s.current ∈ s.mprocess ∧ addresses s pid s.current = true
    · rw [if_pos hc]
      apply sendOne_intended hc.1 ?_ ?_ hq
      · intro r hr
        constructor
        · exact caller r hr
        · rintro rfl
          exact hc.2
      · intro _
        obtain ⟨_, parent, _, hp, _⟩ := h.alone hj s.current hc.1 hc.2
        exact ⟨parent, hp⟩
    · have none : ∀ r ∈ s.mprocess, addresses s pid r = false := by
        intro r hr
        refine eq_false_iff.mpr fun ha => hc ?_
        obtain rfl := caller r hr ha
        exact ⟨hr, ha⟩
      have found : (s.mprocess.any fun d => addresses s pid d && (s.proc d).parent == some q) =
          false := by
        rw [any_eq_false]
        intro d hd
        simp [none d hd]
      rw [if_neg hc, intended, none q hq, found, hj]
      rfl

theorem unknown_faults (pos : 0 < sig) (le : sig ≤ 32) (hp : 0 < pid) (hn : pid ∉ s.mprocess)
    (fuel : Nat) (r : Kernel × Int) : doKill fuel s pid sig ≠ .ok r := by
  intro h
  cases fuel with
  | zero => cases h
  | succ fuel =>
    rw [doKill, killWith_positive pos le hp, killProcess, findProcessByPid, if_neg hn] at h
    cases h

end Group

/-- `do_kill` signals the processes it is meant to when the call is direct; with a
positive `pid` and a signal that neither stops nor continues, exactly when the process
exists. -/
theorem kill_addresses {s : Kernel} {pid : Int} {sig : Nat} (pos : 0 < sig) (le : sig ≤ 32) :
    (Direct s pid sig → SignalsExactly s pid sig) ∧
      (0 < pid → jobControl sig = false → (SignalsExactly s pid sig ↔ pid ∈ s.mprocess)) := by
  have sufficient : Direct s pid sig → SignalsExactly s pid sig := by
    intro h
    by_cases hp : 0 < pid
    · exact h.positive pos le hp
    · exact h.group pos le hp
  refine ⟨sufficient, fun hp hj => ⟨?_, fun hm => ?_⟩⟩
  · rintro ⟨fuel, s', ret, h, _⟩
    by_contra hn
    exact unknown_faults pos le hp hn fuel _ h
  · apply sufficient
    refine ⟨fun _ => hm, absurd hp, fun hc => ?_⟩
    rw [hj] at hc
    cases hc

def siblings : Kernel where
  mprocess := [1, 2, 3]
  distinct := by decide
  proc pid := { gid := pid, parent := some 1,
                thread := { state := if pid = 2 then .running else .ready } }
  current := 2

theorem kill_addresses_sigterm : SignalsExactly siblings 3 15 ∧ SignalsExactly siblings (-1) 15 := by
  constructor
  · exact (kill_addresses (by decide) (by decide)).1
      ⟨by decide, by decide, fun h => absurd h (by decide)⟩
  · exact (kill_addresses (by decide) (by decide)).1
      ⟨by decide, by decide, fun h => absurd h (by decide)⟩

/-- `SIGSTOP` to the other process marks the caller as stopped. -/
theorem stop_marks_caller : ¬SignalsExactly siblings 3 sigstop := by
  rintro ⟨fuel, s', ret, h, _, each⟩
  have stopped : (s'.proc 3).flags = signalStoped := (each 3 (by decide)).2.1
  match fuel with
  | 0 => cases h
  | 1 => cases h
  | n + 2 =>
    have flags : (doKill (n + 2) siblings 3 sigstop).map (fun r => (r.1.proc 3).flags) = .ok 0 := rfl
    rw [h] at flags
    have zero : (s'.proc 3).flags = 0 := Except.ok.inj flags
    rw [zero] at stopped
    exact absurd stopped (by decide)

end Mos.Signal

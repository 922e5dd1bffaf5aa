import Mos.Proofs.SignalFrame
import Mos.Locking.Semaphore

namespace Mos.Locking
open Machine Signal UInt32 List

/-- Only `release_semaphore` makes a thread that waits for the semaphore ready: it is not
sent `SIGCONT` or `SIGKILL`, not woken by what it waited for before, and did not come with an
entry in `wait_chld`. -/
def Undisturbed (fuel : Nat) (s : System) (e : Event) : Prop :=
  match e with
  | .kill pid signum => ∀ w ∈ s.sem.waitList, names s.kernel w fuel pid = true →
      signum ≠ sigcont ∧ signum ≠ sigkill
  | .wake pid => pid ∉ s.sem.waitList
  | .acquire => s.sem.count = 0 → (s.kernel.proc s.kernel.current).waitChld = false
  | _ => True

instance (fuel : Nat) (s : System) (e : Event) : Decidable (Undisturbed fuel s e) := by
  unfold Undisturbed
  split <;> infer_instance

/-- Who waits stands in the list and cannot run; what is not free is held, or was given to a
thread that has yet to run. -/
structure Guarded (n : UInt32) (s : System) : Prop where
  capacity : s.sem.capacity = n
  ordered : s.arrivals = s.grants ++ s.sem.waitList
  asleep : ∀ w ∈ s.sem.waitList, (s.kernel.proc w).thread.state = .waiting ∧
    (s.kernel.proc w).waitChld = false ∧ w ∈ s.inside
  waiters : s.sem.waitList.Nodup
  inside : s.inside.Nodup
  outside : running s.kernel s.kernel.current = true → s.kernel.current ∉ s.inside
  free : 0 < s.sem.count → s.sem.waitList = []
  room : s.sem.count.toNat + s.holders.length + s.inside.length ≤
    s.sem.capacity.toNat + s.sem.waitList.length

section Steps
variable {n : UInt32} {s : System}

theorem running_iff {k : Kernel} {pid : Int} :
    running k pid = true ↔ (k.proc pid).thread.state = .running := by
  simp [running]

theorem Guarded.current_awake (h : Guarded n s) (hr : running s.kernel s.kernel.current = true) :
    s.kernel.current ∉ s.sem.waitList :=
  fun hm => h.outside hr (h.asleep _ hm).2.2

theorem Guarded.kernel (h : Guarded n s) {k : Kernel}
    (hw : ∀ w ∈ s.sem.waitList, (k.proc w).thread.state = .waiting ∧ (k.proc w).waitChld = false)
    (hc : running k k.current = true → k.current ∉ s.inside) : Guarded n { s with kernel := k } :=
  { h with
    asleep := fun w hm => ⟨(hw w hm).1, (hw w hm).2, (h.asleep w hm).2.2⟩
    outside := hc }

theorem Guarded.acquire (h : Guarded n s) (hr : running s.kernel s.kernel.current = true)
    (hc : s.sem.count = 0 → (s.kernel.proc s.kernel.current).waitChld = false) :
    Guarded n (acquireSemaphore s) := by
  have room := h.room
  unfold acquireSemaphore
  simp only
  split
  · rename_i hp
    refine { h with free := fun _ => h.free hp, room := ?_ }
    have hs : (s.sem.count - 1).toNat = s.sem.count.toNat - 1 := by
      rw [UInt32.toNat_sub_of_le]
      · rfl
      · exact UInt32.le_iff_toNat_le.mpr (UInt32.lt_iff_toNat_lt.mp hp)
    have hp := UInt32.lt_iff_toNat_lt.mp hp
    simp only [length_cons, hs]
    omega
  · rename_i hp
    have hin := h.outside hr
    have hout := h.current_awake hr
    exact {
      capacity := h.capacity
      ordered := by
        rw [h.ordered, append_assoc]
      asleep := by
        intro w hw
        rcases mem_append.mp hw with hw | hw
        · have hne : w ≠ s.kernel.current := fun he => hout (he ▸ hw)
          simp only [modify_of _ _ _ hne]
          obtain ⟨h₁, h₂, h₃⟩ := h.asleep w hw
          exact ⟨h₁, h₂, mem_cons_of_mem _ h₃⟩
        · obtain rfl := mem_singleton.mp hw
          simp only [modify_same]
          exact ⟨rfl, hc (by simpa [UInt32.pos_iff_ne_zero] using hp), mem_cons_self ..⟩
      waiters := by
        refine nodup_append.mpr ⟨h.waiters, nodup_singleton _, ?_⟩
        intro a ha b hb he
        exact hout (mem_singleton.mp hb ▸ he ▸ ha)
      inside := nodup_cons.mpr ⟨hin, h.inside⟩
      outside := by
        intro hrun
        rw [running_iff] at hrun
        simp [updateThread, Process.onThread] at hrun
      free := fun hf => absurd hf hp
      room := by
        simp only [length_cons, length_append, length_nil]
        omega }

theorem Guarded.release (h : Guarded n s) (hm : s.kernel.current ∈ s.holders) :
    Guarded n (releaseSemaphore s) := by
  have room := h.room
  have hl := length_erase_of_mem hm
  have hpos := length_pos_of_mem hm
  unfold releaseSemaphore
  simp only
  split
  · rename_i hw
    split
    · rename_i hc
      refine { h with free := fun _ => hw, room := ?_ }
      have hc := lt_iff_toNat_lt.mp hc
      have hadd : (s.sem.count + 1).toNat = s.sem.count.toNat + 1 := by
        rw [UInt32.toNat_add, UInt32.toNat_one]
        have := s.sem.capacity.toNat_lt
        omega
      simp only [hadd, hl]
      omega
    · refine { h with room := ?_ }
      simp only [hl]
      omega
  · rename_i waiter rest hw
    have hn := h.waiters
    rw [hw] at hn room
    obtain ⟨hnot, hrest⟩ := nodup_cons.mp hn
    exact {
      capacity := h.capacity
      ordered := by
        rw [h.ordered, hw, append_assoc]
        rfl
      asleep := by
        intro w hm
        have hne : w ≠ waiter := fun he => hnot (he ▸ hm)
        simp only [modify_of _ _ _ hne]
        exact h.asleep w (hw ▸ mem_cons_of_mem _ hm)
      waiters := hrest
      inside := h.inside
      outside := by
        intro hrun
        apply h.outside
        by_cases he : s.kernel.current = waiter
        · rw [running_iff] at hrun
          simp [he, updateThread, Process.onThread] at hrun
        · rw [running_iff] at hrun ⊢
          simpa [modify_of _ _ _ he] using hrun
      free := by
        intro hf
        have := h.free hf
        rw [hw] at this
        cases this
      room := by
        simp only [length_cons] at room
        simp only [hl]
        omega }

theorem Guarded.kill {fuel : Nat} (h : Guarded n s) {pid signum : Int} {r : Kernel × Int}
    (ok : Undisturbed fuel s (.kill pid signum)) (hk : doKill fuel s.kernel pid signum = .ok r) :
    Guarded n { s with kernel := r.1 } := by
  have hs := doKill_signalled fuel hk
  apply h.kernel
  · intro w hw
    obtain ⟨h₁, h₂, _⟩ := h.asleep w hw
    refine ⟨?_, (hs.waitChld w).trans h₂⟩
    obtain ⟨flags, state, pending, he, _, hst⟩ := hs.each w
    rw [he]
    rcases hst with hst | ⟨hwake, _⟩ | hst
    · exact hst.trans h₁
    · rcases hwake with hwake | ⟨hnamed, hsig⟩
      · rw [h₂] at hwake
        cases hwake
      · obtain ⟨hc, hkill⟩ := ok w hw hnamed
        exact (hsig.elim hc hkill).elim
    · exact hst.2
  · intro hrun
    rw [hs.current] at hrun ⊢
    apply h.outside
    rw [running_iff] at hrun ⊢
    obtain ⟨flags, state, pending, he, _, hst⟩ := hs.each s.kernel.current
    rw [he] at hrun
    rcases hst with hst | hst | hst
    · exact hst.symm.trans hrun
    · rw [hst.2] at hrun
      cases hrun
    · rw [hst.2] at hrun
      cases hrun

/-- Something that does not stand in the list changes, and a thread that then runs has run
before. -/
theorem Guarded.modify (h : Guarded n s) {pid : Int} (hp : pid ∉ s.sem.waitList)
    {f : Process → Process} (hf : ∀ p, (f p).thread.state = .running → p.thread.state = .running) :
    Guarded n { s with kernel := s.kernel.modify pid f } := by
  apply h.kernel
  · intro w hw
    have hne : w ≠ pid := fun he => hp (he ▸ hw)
    rw [modify_of _ _ _ hne]
    exact ⟨(h.asleep w hw).1, (h.asleep w hw).2.1⟩
  · intro hrun
    apply h.outside
    rw [running_iff] at hrun ⊢
    by_cases he : s.kernel.current = pid
    · rw [modify_current, he, modify_same] at hrun
      exact he ▸ hf _ hrun
    · rwa [modify_current, modify_of _ _ _ he] at hrun

theorem Guarded.update (h : Guarded n s) {pid : Int} (hp : pid ∉ s.sem.waitList)
    {state : ThreadState} (hs : state ≠ .running) :
    Guarded n { s with kernel := s.kernel.modify pid (updateThread state) } :=
  h.modify hp fun _ hr => absurd hr hs

/-- A thread that gets the processor comes back from `acquire_semaphore` only after it was
taken from the list. -/
theorem Guarded.schedule {fuel : Nat} (h : Guarded n s) {next : Int} {t : Trap} {k : Kernel}
    (hr : running s.kernel s.kernel.current ≠ true)
    (hk : schedule (doKill fuel) s.kernel next t = .ok k) :
    Guarded n (if next ∈ s.inside ∧ running k next = true then
      { s with
        kernel := k
        inside := s.inside.erase next
        holders := next :: s.holders }
      else { s with kernel := k }) := by
  rw [ne_eq, running_iff] at hr
  obtain ⟨hc, _, _, hready, hs⟩ := schedule_frame (doKill_signalled fuel) hr hk
  have hnext : next ∉ s.sem.waitList := by
    intro hm
    rw [(h.asleep next hm).1] at hready
    cases hready
  have hwait (w : Int) (hw : w ∈ s.sem.waitList) :
      (k.proc w).thread.state = .waiting ∧ (k.proc w).waitChld = false := by
    obtain ⟨h₁, h₂, _⟩ := h.asleep w hw
    have hst := hs w (fun he => hnext (he ▸ hw))
    refine ⟨?_, hst.waitChld.trans h₂⟩
    rcases hst.state with hst | hst
    · exact hst.trans h₁
    · rw [h₂] at hst
      cases hst.1
  split
  · rename_i hin
    have hl := length_erase_of_mem hin.1
    have hpos := length_pos_of_mem hin.1
    have room := h.room
    exact {
      capacity := h.capacity
      ordered := h.ordered
      asleep := by
        intro w hw
        have hne : w ≠ next := fun he => hnext (he ▸ hw)
        exact ⟨(hwait w hw).1, (hwait w hw).2, (mem_erase_of_ne hne).mpr (h.asleep w hw).2.2⟩
      waiters := h.waiters
      inside := h.inside.erase _
      outside := by
        intro _ hm
        rw [hc] at hm
        exact (h.inside.mem_erase_iff.mp hm).1 rfl
      free := h.free
      room := by
        simp only [hl, length_cons]
        omega }
  · rename_i hin
    apply h.kernel hwait
    intro hrun hm
    rw [hc] at hrun hm
    exact hin ⟨hm, hrun⟩

/-- An event keeps who waits asleep, and what is not free with one holder each. -/
theorem Guarded.step {fuel : Nat} {s' : System} {e : Event} (h : Guarded n s)
    (ok : Undisturbed fuel s e) (hs : step fuel s e = some s') : Guarded n s' := by
  cases e with
  | acquire =>
    simp only [Locking.step] at hs
    split at hs
    · rename_i hg
      cases hs
      exact h.acquire hg ok
    · cases hs
  | release =>
    simp only [Locking.step] at hs
    split at hs
    · rename_i hg
      cases hs
      rw [Bool.and_eq_true, decide_eq_true_eq] at hg
      exact h.release hg.2
    · cases hs
  | kill pid signum =>
    simp only [Locking.step] at hs
    split at hs
    · obtain ⟨r, hr, rfl⟩ := Option.map_eq_some_iff.mp hs
      exact h.kill ok (toOption_ok.mp hr)
    · cases hs
  | preempt =>
    simp only [Locking.step] at hs
    split at hs
    · rename_i hg
      cases hs
      exact h.update (h.current_awake hg) (by decide)
    · cases hs
  | block =>
    simp only [Locking.step] at hs
    split at hs
    · rename_i hg
      cases hs
      exact h.update (h.current_awake hg) (by decide)
    · cases hs
  | wake pid =>
    cases hs
    exact h.update ok (by decide)
  | waitChild waiting =>
    simp only [Locking.step] at hs
    split at hs
    · rename_i hg
      cases hs
      exact h.modify (h.current_awake hg) fun _ hr => hr
    · cases hs
  | schedule next t =>
    simp only [Locking.step] at hs
    split at hs
    · cases hs
    · rename_i hg
      obtain ⟨k, hk, rfl⟩ := Option.map_eq_some_iff.mp hs
      exact h.schedule hg (toOption_ok.mp hk)

end Steps

/-- At most `n` threads are past `acquire_semaphore`, nobody waits while the semaphore is
free, and those that waited got it in the order in which they came. -/
structure Exclusive (n : UInt32) (s : System) : Prop where
  few : s.holders.length ≤ n.toNat
  free : 0 < s.sem.count → s.sem.waitList = []
  order : s.arrivals = s.grants ++ s.sem.waitList
  inside : ∀ w ∈ s.sem.waitList, w ∈ s.inside

theorem Guarded.exclusive {n : UInt32} {s : System} (h : Guarded n s) : Exclusive n s := by
  refine ⟨?_, h.free, h.ordered, fun w hw => (h.asleep w hw).2.2⟩
  have hsub : s.sem.waitList.length ≤ s.inside.length :=
    (h.waiters.subperm fun w hw => (h.asleep w hw).2.2).length_le
  have room := h.room
  rw [h.capacity] at room
  omega

/-- A semaphore excludes as it should in every run in which only `release_semaphore` makes
its waiters ready. -/
theorem semaphore_exclusive (fuel : Nat) (n : UInt32) (kernel : Kernel) (t : System)
    (run : Run (step fuel) (Undisturbed fuel) { kernel, sem := semaInit n } t) : Exclusive n t := by
  have start : Guarded n { kernel, sem := semaInit n } := by
    refine ⟨rfl, rfl, ?_, nodup_nil, nodup_nil, ?_, fun _ => rfl, ?_⟩
    · intro w hw
      cases hw
    · intro _ hm
      cases hm
    · exact Nat.le_refl _
  exact (run.invariant start fun _ _ _ h ok hs => h.step ok hs).exclusive

def pair : Kernel where
  mprocess := [0, 1, 2]
  distinct := by decide
  proc := fun pid =>
    if pid = 1 then { gid := 1, parent := some 0, thread := { state := .running } }
    else { gid := pid, parent := some 0 }
  current := 1

theorem semaphore_exclusive_pair :
    ∃ t, Run (step 4) (Undisturbed 4) { kernel := pair, sem := semaInit 1 } t ∧
      t.holders = [2] ∧ t.grants = [2] ∧ Exclusive 1 t := by
  obtain ⟨t, run, h⟩ := replay_reaches (step 4) (Undisturbed 4) { kernel := pair, sem := semaInit 1 }
    [.acquire, .kill 2 20, .kill 2 18, .preempt, .schedule 2 {}, .acquire, .schedule 1 {}, .block,
      .wake 1, .schedule 1 {}, .release, .preempt, .schedule 2 {}]
    (P := fun t => t.holders = [2] ∧ t.grants = [2]) (by decide +kernel)
  exact ⟨t, run, h.1, h.2, semaphore_exclusive 4 1 pair t run⟩

/-- Process 2 waits for 1, which sends it `SIGCONT`: both are past `acquire_semaphore`. -/
theorem waiter_continued :
    ∃ t, Run (step 4) (fun _ _ => True) { kernel := pair, sem := semaInit 1 } t ∧
      t.holders = [2, 1] ∧ t.sem.waitList = [2] ∧ ¬ Exclusive 1 t := by
  obtain ⟨t, run, hh, hw⟩ := replay_reaches (step 4) (fun _ _ => True)
    { kernel := pair, sem := semaInit 1 }
    [.acquire, .preempt, .schedule 2 {}, .acquire, .schedule 1 {}, .kill 2 18, .preempt,
      .schedule 2 {}]
    (P := fun t => t.holders = [2, 1] ∧ t.sem.waitList = [2]) (by decide +kernel)
  refine ⟨t, run, hh, hw, ?_⟩
  intro h
  have hf := h.few
  rw [hh] at hf
  exact absurd hf (by decide)

end Mos.Locking

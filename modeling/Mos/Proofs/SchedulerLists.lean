import Mos.Machine.Run
import Mos.Proc.Sched

namespace Mos.Sched
open Machine Function List
open Signal (ThreadState)

/-- Every thread that was queued or updated is in the list of its state and policy, and
nothing else is in a list. -/
structure Placed (s : Scheduler) : Prop where
  mem : ∀ h t, t ∈ s.lists h ↔ (s.threads t).placed = true ∧ (s.threads t).list = some h
  nodup : ∀ h, (s.lists h).Nodup
  known : ∀ t, (s.threads t).placed = true → t < s.count

structure PlacedBut (t : Nat) (s : Scheduler) : Prop where
  out : ∀ h, t ∉ s.lists h
  mem : ∀ h u, u ≠ t → (u ∈ s.lists h ↔ (s.threads u).placed = true ∧ (s.threads u).list = some h)
  nodup : ∀ h, (s.lists h).Nodup
  known : ∀ u, (s.threads u).placed = true → u < s.count

/-- Adding to a list adds one node. -/
theorem plistAdd_perm (prio : Nat → Int) (t : Nat) (l : List Nat) :
    (plistAdd prio t l).Perm (t :: l) := by
  induction l with
  | nil => exact .refl _
  | cons u l ih =>
    unfold plistAdd
    split
    · exact .refl _
    · exact (ih.cons u).trans (.swap t u l)

section Lists
variable {s : Scheduler} {t : Nat}

theorem setList_lists (s : Scheduler) (h : PList) (l : List Nat) (k : PList) :
    (s.setList h l).lists k = if k = h then l else s.lists k :=
  update_apply ..

theorem modify_threads (s : Scheduler) (t : Nat) (f : Thread → Thread) (u : Nat) :
    (s.modify t f).threads u = if u = t then f (s.threads t) else s.threads u :=
  update_apply ..

theorem Placed.congr {s' : Scheduler} (h : Placed s) (lists : s'.lists = s.lists)
    (count : s'.count = s.count)
    (each : ∀ u, (s'.threads u).placed = (s.threads u).placed ∧
      (s'.threads u).list = (s.threads u).list) : Placed s' where
  mem k u := by
    rw [lists, (each u).1, (each u).2]
    exact h.mem k u
  nodup k := by
    rw [lists]
    exact h.nodup k
  known u hu := by
    rw [(each u).1] at hu
    rw [count]
    exact h.known u hu

theorem Placed.modify (h : Placed s) {f : Thread → Thread} (t : Nat)
    (hp : (f (s.threads t)).placed = (s.threads t).placed)
    (hl : (f (s.threads t)).list = (s.threads t).list) : Placed (s.modify t f) := by
  refine h.congr rfl rfl ?_
  intro u
  rw [modify_threads]
  split
  · subst u
    exact ⟨hp, hl⟩
  · exact ⟨rfl, rfl⟩

theorem Placed.takeOut (h : Placed s) {k : PList}
    (hk : ∀ k', t ∈ s.lists k' → k' = k) : PlacedBut t (s.setList k (plistDel t (s.lists k))) where
  out k' hm := by
    rw [setList_lists] at hm
    split at hm
    · exact ((h.nodup k).mem_erase_iff.mp hm).1 rfl
    · rename_i hne
      exact hne (hk k' hm)
  mem k' u hu := by
    rw [setList_lists]
    split
    · subst k'
      rw [plistDel, mem_erase_of_ne hu]
      exact h.mem k u
    · exact h.mem k' u
  nodup k' := by
    rw [setList_lists]
    split
    · exact (h.nodup k).erase t
    · exact h.nodup k'
  known := h.known

/-- A thread that is taken out is in no list. -/
theorem Placed.remove (h : Placed s) (t : Nat) : PlacedBut t (s.removeThread t) := by
  unfold Scheduler.removeThread
  split
  · rename_i k hk
    apply h.takeOut
    intro k' hm
    exact Option.some.inj (((h.mem k' t).mp hm).2.symm.trans hk)
  · rename_i hn
    refine ⟨fun k hm => ?_, fun k u _ => h.mem k u, h.nodup, h.known⟩
    rw [((h.mem k t).mp hm).2] at hn
    cases hn

theorem PlacedBut.remove (h : PlacedBut t s) : PlacedBut t (s.removeThread t) := by
  unfold Scheduler.removeThread
  split
  · rename_i k _
    rw [plistDel, erase_of_not_mem (h.out k)]
    have hs : ∀ k', (s.setList k (s.lists k)).lists k' = s.lists k' := by
      intro k'
      rw [setList_lists]
      split
      · rename_i he
        rw [he]
      · rfl
    exact ⟨fun k' => (hs k') ▸ h.out k', fun k' u hu => (hs k') ▸ h.mem k' u hu,
      fun k' => (hs k') ▸ h.nodup k', h.known⟩
  · exact h

theorem PlacedBut.modify (h : PlacedBut t s) (f : Thread → Thread) (ht : t < s.count) :
    PlacedBut t (s.modify t f) where
  out := h.out
  mem k u hu := by
    rw [modify_threads, if_neg hu]
    exact h.mem k u hu
  nodup := h.nodup
  known u hp := by
    rw [modify_threads] at hp
    split at hp
    · rename_i hu
      rw [hu]
      exact ht
    · exact h.known u hp

/-- Queued again, it is in the list of its state. -/
theorem PlacedBut.queue (h : PlacedBut t s) (hp : (s.threads t).placed = true) :
    Placed (s.queueThread t) := by
  unfold Scheduler.queueThread
  split
  · rename_i k hk
    have hperm := plistAdd_perm s.prio t (s.lists k)
    refine ⟨?_, ?_, h.known⟩
    · intro k' u
      rw [setList_lists]
      by_cases hu : u = t
      · subst u
        split
        · subst k'
          exact iff_of_true (hperm.mem_iff.mpr (mem_cons_self ..)) ⟨hp, hk⟩
        · rename_i hne
          refine iff_of_false (h.out k') ?_
          rintro ⟨_, hk'⟩
          exact hne (Option.some.inj (hk'.symm.trans hk))
      · split
        · subst k'
          rw [hperm.mem_iff, mem_cons, or_iff_right hu]
          exact h.mem k u hu
        · exact h.mem k' u hu
    · intro k'
      rw [setList_lists]
      split
      · exact hperm.nodup_iff.mpr (nodup_cons.mpr ⟨h.out k, h.nodup k⟩)
      · exact h.nodup k'
  · rename_i hn
    refine ⟨?_, h.nodup, h.known⟩
    intro k u
    by_cases hu : u = t
    · subst u
      refine iff_of_false (h.out k) ?_
      rintro ⟨_, hk⟩
      rw [hn] at hk
      cases hk
    · exact h.mem k u hu

@[simp] theorem removeThread_count (s : Scheduler) (t : Nat) :
    (s.removeThread t).count = s.count := by
  unfold Scheduler.removeThread
  split
  · rfl
  · rfl

theorem PlacedBut.requeue (h : PlacedBut t s) (ht : t < s.count) (state : ThreadState) :
    Placed ((s.modify t fun th => { th with state, placed := true }).queueThread t) := by
  refine (h.modify _ ht).queue ?_
  rw [modify_threads, if_pos rfl]

/-- `update_thread` moves a thread to the list of its new state. -/
theorem Placed.updateThread (h : Placed s) (ht : t < s.count) (state : ThreadState) :
    Placed (s.updateThread t state) := by
  unfold Scheduler.updateThread
  split
  · exact h
  · refine (h.remove t).requeue ?_ state
    rwa [removeThread_count]

theorem PlacedBut.updateThread (h : PlacedBut t s) (ht : t < s.count) {state : ThreadState}
    (hs : (s.threads t).state ≠ state) : Placed (s.updateThread t state) := by
  unfold Scheduler.updateThread
  rw [if_neg hs]
  refine h.remove.requeue ?_ state
  rwa [removeThread_count]

@[simp] theorem queueThread_threads (s : Scheduler) (t : Nat) :
    (s.queueThread t).threads = s.threads := by
  unfold Scheduler.queueThread
  split
  · rfl
  · rfl

@[simp] theorem queueThread_current (s : Scheduler) (t : Nat) :
    (s.queueThread t).current = s.current := by
  unfold Scheduler.queueThread
  split
  · rfl
  · rfl

@[simp] theorem removeThread_current (s : Scheduler) (t : Nat) :
    (s.removeThread t).current = s.current := by
  unfold Scheduler.removeThread
  split
  · rfl
  · rfl

theorem updateThread_state (s : Scheduler) (t : Nat) (state : ThreadState) :
    ((s.updateThread t state).threads t).state = state := by
  unfold Scheduler.updateThread
  split
  · assumption
  · rw [queueThread_threads, modify_threads, if_pos rfl]

@[simp] theorem updateThread_current (s : Scheduler) (t : Nat) (state : ThreadState) :
    (s.updateThread t state).current = s.current := by
  unfold Scheduler.updateThread
  split
  · rfl
  · rw [queueThread_current]
    exact removeThread_current ..

end Lists

def Policy.readyList : Policy → PList
  | .kernel => .kernelReady
  | .system => .systemReady
  | .app => .appReady

def Policy.rank : Policy → Nat
  | .kernel => 0
  | .system => 1
  | .app => 2

theorem list_eq_readyList {th : Thread} {p : Policy} :
    th.list = some p.readyList ↔ th.state = .ready ∧ th.policy = p := by
  obtain ⟨state, policy, prio, slice, placed⟩ := th
  unfold Thread.list getListFromThread
  cases state <;> cases policy <;> cases p <;> simp [Policy.readyList]

/-- The thread that is first in the highest class of those that are ready. -/
structure Chosen (s : Scheduler) (v : Nat) : Prop where
  placed : (s.threads v).placed = true
  ready : (s.threads v).state = .ready
  first : (s.lists (s.threads v).policy.readyList).head? = some v
  highest : ∀ u, (s.threads u).placed = true → (s.threads u).state = .ready →
    (s.threads v).policy.rank ≤ (s.threads u).policy.rank

section Switch
variable {s : Scheduler}

theorem nextList_policy (s : Scheduler) : ∃ p : Policy, s.nextList = p.readyList ∧
    ∀ p' : Policy, s.lists p'.readyList ≠ [] → p.rank ≤ p'.rank := by
  unfold Scheduler.nextList
  split
  · exact ⟨.kernel, rfl, fun _ _ => Nat.zero_le _⟩
  · rename_i hk
    split
    · refine ⟨.system, rfl, ?_⟩
      intro p' hp'
      cases p' with
      | kernel => exact absurd hp' hk
      | system => exact Nat.le_refl _
      | app => decide
    · rename_i hs
      refine ⟨.app, rfl, ?_⟩
      intro p' hp'
      cases p' with
      | kernel => exact absurd hp' hk
      | system => exact absurd hp' hs
      | app => exact Nat.le_refl _

theorem Placed.ready_listed (h : Placed s) {u : Nat} (hp : (s.threads u).placed = true)
    (hr : (s.threads u).state = .ready) : u ∈ s.lists (s.threads u).policy.readyList :=
  (h.mem _ u).mpr ⟨hp, list_eq_readyList.mpr ⟨hr, rfl⟩⟩

/-- The next thread is the first of the highest class. -/
theorem Placed.next_chosen (h : Placed s) {v : Nat} (hn : s.getNextThreadToRun = some v) :
    Chosen s v ∧ s.nextList = (s.threads v).policy.readyList := by
  obtain ⟨p, hp, hmin⟩ := nextList_policy s
  have hm : v ∈ s.lists s.nextList := mem_of_mem_head? hn
  obtain ⟨hplaced, hl⟩ := (h.mem _ v).mp hm
  rw [hp] at hl
  obtain ⟨hr, rfl⟩ := list_eq_readyList.mp hl
  refine ⟨⟨hplaced, hr, hp ▸ hn, ?_⟩, hp⟩
  intro u hu hru
  exact hmin _ (ne_nil_of_mem (h.ready_listed hu hru))

/-- Where a thread is ready one is found. -/
theorem Placed.next_some (h : Placed s) {u : Nat} (hp : (s.threads u).placed = true)
    (hr : (s.threads u).state = .ready) : ∃ v, s.getNextThreadToRun = some v := by
  have hne := ne_nil_of_mem (h.ready_listed hp hr)
  have hnext : s.lists s.nextList ≠ [] := by
    unfold Scheduler.nextList
    split
    · assumption
    · rename_i hk
      split
      · assumption
      · rename_i hs
        rw [not_not] at hk hs
        intro ha
        cases hpol : (s.threads u).policy with
        | kernel =>
          rw [hpol] at hne
          exact hne hk
        | system =>
          rw [hpol] at hne
          exact hne hs
        | app =>
          rw [hpol] at hne
          exact hne ha
  exact ⟨_, List.head?_eq_some_head hnext⟩

theorem Placed.popAndSwitch (h : Placed s) {v : Nat} (hn : s.getNextThreadToRun = some v) :
    Placed (s.popAndSwitch v) := by
  obtain ⟨hc, hl⟩ := h.next_chosen hn
  have hv := h.known v hc.placed
  have hout : PlacedBut v (s.setList s.nextList (plistDel v (s.lists s.nextList))) := by
    apply h.takeOut
    intro k hk
    rw [hl]
    exact Option.some.inj (((h.mem k v).mp hk).2.symm.trans (list_eq_readyList.mpr ⟨hc.ready, rfl⟩))
  have hcur : PlacedBut v { s.setList s.nextList (plistDel v (s.lists s.nextList)) with current := v } :=
    ⟨hout.out, hout.mem, hout.nodup, hout.known⟩
  refine (hcur.modify (fun th => { th with timeSlice := 0 }) hv).updateThread hv ?_
  rw [modify_threads, if_pos rfl]
  change (s.threads v).state ≠ _
  rw [hc.ready]
  decide

theorem popAndSwitch_running (s : Scheduler) (v : Nat) :
    (s.popAndSwitch v).current = v ∧ ((s.popAndSwitch v).threads v).state = .running := by
  unfold Scheduler.popAndSwitch Scheduler.switchThread
  refine ⟨?_, updateThread_state ..⟩
  rw [updateThread_current]
  rfl

theorem Placed.idling (h : Placed s) (l : List Nat) : Placed { s with idling := l } :=
  h.congr rfl rfl fun _ => ⟨rfl, rfl⟩

theorem Placed.switchRunning (h : Placed s) (hr : (s.threads s.current).state = .running) :
    Placed (s.switchThread s.current) := by
  unfold Scheduler.switchThread Scheduler.updateThread
  rw [modify_threads, if_pos rfl]
  rw [if_pos hr]
  exact h.modify s.current rfl rfl

theorem Placed.idle (h : Placed s) : Placed s.idle := by
  unfold Scheduler.idle
  split
  · rename_i v hn
    exact (h.idling _).popAndSwitch hn
  · split
    · rename_i hr
      exact (h.idling (s.idling.erase s.current)).switchRunning hr
    · exact h

theorem Placed.rescale (h : Placed s) : Placed s.rescale := by
  unfold Scheduler.rescale
  split
  · refine Placed.modify ?_ _ rfl rfl
    refine h.congr rfl rfl fun u => ?_
    simp only
    split
    · exact ⟨rfl, rfl⟩
    · exact ⟨rfl, rfl⟩
  · exact h

end Switch

section Runs
variable {s : Scheduler}

@[simp] theorem queueThread_count (s : Scheduler) (t : Nat) :
    (s.queueThread t).count = s.count := by
  unfold Scheduler.queueThread
  split
  · rfl
  · rfl

@[simp] theorem updateThread_count (s : Scheduler) (t : Nat) (state : ThreadState) :
    (s.updateThread t state).count = s.count := by
  unfold Scheduler.updateThread
  split
  · rfl
  · rw [queueThread_count]
    exact removeThread_count ..

theorem rescale_kept (s : Scheduler) : s.rescale.current = s.current ∧ s.rescale.count = s.count := by
  unfold Scheduler.rescale
  split
  · exact ⟨rfl, rfl⟩
  · exact ⟨rfl, rfl⟩

structure Sound (s : Scheduler) : Prop where
  placed : Placed s
  current : s.current < s.count

theorem switchThread_kept (s : Scheduler) (t : Nat) :
    (s.switchThread t).current = t ∧ (s.switchThread t).count = s.count := by
  unfold Scheduler.switchThread
  rw [updateThread_current, updateThread_count]
  exact ⟨rfl, rfl⟩

theorem Sound.popAndSwitch (h : Sound s) {v : Nat} (hn : s.getNextThreadToRun = some v) :
    Sound (s.popAndSwitch v) := by
  refine ⟨h.placed.popAndSwitch hn, ?_⟩
  unfold Scheduler.popAndSwitch
  rw [(switchThread_kept ..).1, (switchThread_kept ..).2]
  exact h.placed.known v (h.placed.next_chosen hn).1.placed

/-- `schedule` keeps the lists. -/
theorem Sound.schedule (h : Sound s) : Sound s.schedule := by
  unfold Scheduler.schedule
  split
  · exact h
  · split
    · rename_i v hn
      exact h.popAndSwitch hn
    · exact ⟨h.placed.idling _, h.current⟩

theorem Sound.idle (h : Sound s) : Sound s.idle := by
  refine ⟨h.placed.idle, ?_⟩
  unfold Scheduler.idle
  split
  · rename_i v hn
    exact (Sound.popAndSwitch ⟨h.placed.idling (s.idling.erase s.current), h.current⟩ hn).current
  · split
    · rw [(switchThread_kept ..).1, (switchThread_kept ..).2]
      exact h.current
    · exact h.current

theorem Sound.update (h : Sound s) {t : Nat} (ht : t < s.count) (state : ThreadState) :
    Sound (s.updateThread t state) := by
  refine ⟨h.placed.updateThread ht state, ?_⟩
  rw [updateThread_current, updateThread_count]
  exact h.current

theorem Sound.timer (h : Sound s) (locked : Bool) : Sound (s.irqScheduleHandler locked) := by
  unfold Scheduler.irqScheduleHandler
  simp only
  split
  · exact h
  · have hm : Sound (s.modify s.current fun th => { th with timeSlice := th.timeSlice + 1 }) :=
      ⟨h.placed.modify _ rfl rfl, h.current⟩
    generalize (s.modify s.current fun th => { th with timeSlice := th.timeSlice + 1 }) = m at hm ⊢
    split
    · exact hm
    · split
      · exact hm
      · rename_i nt _
        have hr : Sound (if (m.threads nt).policy = .app then m.rescale else m) := by
          split
          · refine ⟨hm.placed.rescale, ?_⟩
            rw [(rescale_kept m).1, (rescale_kept m).2]
            exact hm.current
          · exact hm
        split
        · exact hr.update hr.current _
        · exact (hr.update hr.current _).schedule

theorem Sound.create (h : Sound s) (state : ThreadState) (policy : Policy) (prio : Int)
    (queued : Bool) {s' : Scheduler} (hs : step s (.create state policy prio queued) = some s') :
    Sound s' := by
  cases hs
  have hnew : (s.threads s.count).placed = false := by
    rw [Bool.eq_false_iff]
    exact fun hp => lt_irrefl _ (h.placed.known _ hp)
  have hout : PlacedBut s.count { s with
      threads := Function.update s.threads s.count { state, policy, prio, placed := queued }
      count := s.count + 1 } := by
    refine ⟨?_, ?_, h.placed.nodup, ?_⟩
    · intro k hm
      rw [((h.placed.mem k _).mp hm).1] at hnew
      cases hnew
    · intro k u hu
      simp only [update_of_ne hu]
      exact h.placed.mem k u
    · intro u hp
      by_cases hu : u = s.count
      · rw [hu]
        exact Nat.lt_succ_self _
      · simp only [update_of_ne hu] at hp
        exact Nat.lt_succ_of_lt (h.placed.known u hp)
  split
  · rename_i hq
    refine ⟨hout.queue ?_, ?_⟩
    · simp only [update_self]
      exact hq
    · rw [queueThread_current, queueThread_count]
      exact Nat.lt_succ_of_lt h.current
  · rename_i hq
    refine ⟨⟨?_, hout.nodup, hout.known⟩, Nat.lt_succ_of_lt h.current⟩
    intro k u
    by_cases hu : u = s.count
    · subst u
      refine iff_of_false (hout.out k) ?_
      simp [hq]
    · exact hout.mem k u hu

/-- An event keeps every thread in the list of its state. -/
theorem Sound.step {s' : Scheduler} {e : Event} (h : Sound s) (hs : step s e = some s') :
    Sound s' := by
  cases e with
  | create state policy prio queued => exact h.create state policy prio queued hs
  | update t state =>
    simp only [Sched.step] at hs
    split at hs
    · rename_i ht
      cases hs
      exact h.update ht state
    · cases hs
  | schedule =>
    cases hs
    exact h.schedule
  | idle =>
    simp only [Sched.step] at hs
    split at hs
    · cases hs
      exact h.idle
    · cases hs
  | timer locked =>
    cases hs
    exact h.timer locked

end Runs

def Scheduler.SomeReady (s : Scheduler) : Prop :=
  ∃ u, (s.threads u).placed = true ∧ (s.threads u).state = .ready

def SwitchedTo (s s' : Scheduler) : Prop :=
  ∃ v, Chosen s v ∧ s'.current = v ∧ (s'.threads v).state = .running

/-- Each thread that was queued or updated is in the list of its state and policy and in no
other, the lists have no thread twice, and `schedule` and its idle loop switch to the first
thread of the highest class; `schedule` does so when the current thread is not running. -/
structure Scheduled (s : Scheduler) : Prop where
  mem : ∀ h t, t ∈ s.lists h ↔ (s.threads t).placed = true ∧
    getListFromThread (s.threads t).state (s.threads t).policy = some h
  nodup : ∀ h, (s.lists h).Nodup
  switches : s.SomeReady → (s.threads s.current).state ≠ .running → SwitchedTo s s.schedule
  wakes : s.SomeReady → SwitchedTo s s.idle
  stays : (s.threads s.current).state = .running → s.schedule = s

theorem Placed.scheduled {s : Scheduler} (h : Placed s) : Scheduled s where
  mem := h.mem
  nodup := h.nodup
  switches := by
    rintro ⟨u, hp, hr⟩ hn
    obtain ⟨v, hv⟩ := h.next_some hp hr
    refine ⟨v, (h.next_chosen hv).1, ?_⟩
    unfold Scheduler.schedule
    rw [if_neg hn, hv]
    exact popAndSwitch_running s v
  wakes := by
    rintro ⟨u, hp, hr⟩
    obtain ⟨v, hv⟩ := h.next_some hp hr
    refine ⟨v, (h.next_chosen hv).1, ?_⟩
    unfold Scheduler.idle
    rw [hv]
    exact popAndSwitch_running _ v
  stays h := if_pos h

def booted : Scheduler where
  threads := fun _ => { state := .running, policy := .kernel, prio := 0 }
  count := 1
  lists := fun _ => []
  current := 0

theorem booted_sound : Sound booted := by
  refine ⟨⟨?_, fun _ => nodup_nil, ?_⟩, by decide⟩
  · intro k t
    simp [booted]
  · intro t ht
    cases ht

/-- The lists of the scheduler are right in every state that it reaches. -/
theorem scheduler_lists (s : Scheduler) (run : Run step (fun _ _ => True) booted s) : Scheduled s :=
  (run.invariant booted_sound fun _ _ _ h _ hs => h.step hs).placed.scheduled

theorem scheduler_lists_first : ∃ s, Run step (fun _ _ => True) booted s ∧ s.current = 1 ∧
    s.lists .appReady = [3, 2] ∧ Scheduled s := by
  obtain ⟨s, run, hc, hl⟩ := replay_reaches step (fun _ _ => True) booted
    [.create .waiting .kernel 1 false, .update 0 .terminated, .update 1 .ready, .schedule,
      .create .ready .app 5 true, .create .ready .app 4 true]
    (P := fun s => s.current = 1 ∧ s.lists .appReady = [3, 2]) (by decide +kernel)
  exact ⟨s, run, hc, hl, scheduler_lists s run⟩

/-- A running thread calls `schedule` while another one is ready, and goes on. -/
theorem running_keeps_processor : ∃ s, Run step (fun _ _ => True) booted s ∧ s.SomeReady ∧
    s.schedule = s ∧ ¬ SwitchedTo s s.schedule := by
  obtain ⟨s, run, hp, hr, hc, hs⟩ := replay_reaches step (fun _ _ => True) booted
    [.create .ready .app 0 true]
    (P := fun s => (s.threads 1).placed = true ∧ (s.threads 1).state = .ready ∧ s.current = 0 ∧
      (s.threads 0).state = .running) (by decide +kernel)
  have he : s.schedule = s := by
    unfold Scheduler.schedule
    rw [hc, if_pos hs]
  refine ⟨s, run, ⟨1, hp, hr⟩, he, ?_⟩
  rintro ⟨v, hv, hcur, _⟩
  rw [he, hc] at hcur
  have hready := hv.ready
  rw [← hcur, hs] at hready
  cases hready

end Mos.Sched

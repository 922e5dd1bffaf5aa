import Mos.Proofs.SignalFrame
import Mos.Proc.Wakeup

namespace Mos.Proc.Wakeup
open Machine Signal

structure Unlisted (s : System) (pid : Int) : Prop where
  entries : ∀ e ∈ s.entries, e.2 ≠ pid
  waitChld : (s.kernel.proc pid).waitChld = false

instance (s : System) (pid : Int) : Decidable (Unlisted s pid) :=
  decidable_of_iff ((∀ e ∈ s.entries, e.2 ≠ pid) ∧ (s.kernel.proc pid).waitChld = false)
    ⟨fun h => ⟨h.1, h.2⟩, fun h => ⟨h.1, h.2⟩⟩

/-- No exited process is sent `SIGCONT` or `SIGKILL` or woken as the owner of a socket, and no
thread that stands in a list exits. -/
def Settled (fuel : Nat) (s : System) (e : Event) : Prop :=
  match e with
  | .kill pid signum => ∀ p ∈ s.exited, names s.kernel p fuel pid = true →
      signum ≠ sigcont ∧ signum ≠ sigkill
  | .exit _ => Unlisted s s.kernel.current
  | .schedule next _ => ends (s.kernel.proc next) = true → Unlisted s next
  | .wakeOwner pid => pid ∉ s.exited
  | _ => True

instance (fuel : Nat) (s : System) (e : Event) : Decidable (Settled fuel s e) := by
  unfold Settled
  split <;> infer_instance

structure Dead (s : System) (pid : Int) : Prop where
  state : (s.kernel.proc pid).thread.state ≠ .ready ∧ (s.kernel.proc pid).thread.state ≠ .running
  unlisted : Unlisted s pid
  sleeping : s.sleeping pid = false

/-- No thread that has exited can become ready. -/
def AllDead (s : System) : Prop := ∀ p ∈ s.exited, Dead s p

section Steps
variable {s : System} {fuel : Nat}

theorem running_iff : running s = true ↔
    (s.kernel.proc s.kernel.current).thread.state = .running := by
  simp [running]

theorem AllDead.keep {s' : System} (h : AllDead s) (exited : s'.exited = s.exited)
    (entries : ∀ e ∈ s'.entries, e.2 ∈ s.exited → e ∈ s.entries)
    (sleeping : ∀ p ∈ s.exited, s'.sleeping p = true → s.sleeping p = true)
    (stirred : ∀ p ∈ s.exited, Dead s p →
      (s'.kernel.proc p).waitChld = false ∧ (s'.kernel.proc p).thread.state ≠ .ready ∧
        (s'.kernel.proc p).thread.state ≠ .running) : AllDead s' := by
  intro p hp
  rw [exited] at hp
  have hd := h p hp
  obtain ⟨hw, hs⟩ := stirred p hp hd
  refine ⟨hs, ⟨fun e he hn => hd.unlisted.entries e (entries e he (hn ▸ hp)) hn, hw⟩, ?_⟩
  rw [Bool.eq_false_iff]
  intro hsl
  exact Bool.false_ne_true (hd.sleeping.symm.trans (sleeping p hp hsl))

theorem Dead.same {s' : System} {p : Int} (h : Dead s p) (hp : s'.kernel.proc p = s.kernel.proc p) :
    (s'.kernel.proc p).waitChld = false ∧ (s'.kernel.proc p).thread.state ≠ .ready ∧
      (s'.kernel.proc p).thread.state ≠ .running := by
  rw [hp]
  exact ⟨h.unlisted.waitChld, h.state⟩

theorem AllDead.current (h : AllDead s) (hr : running s = true) : s.kernel.current ∉ s.exited :=
  fun hm => (h _ hm).state.2 (running_iff.mp hr)

theorem AllDead.modify (h : AllDead s) {pid : Int} (hp : pid ∉ s.exited) (f : Process → Process) :
    AllDead { s with kernel := s.kernel.modify pid f } := by
  refine h.keep rfl (fun _ hm _ => hm) (fun _ _ hs => hs) fun p hm hd => hd.same ?_
  exact modify_of _ _ _ fun he => hp (he ▸ hm)

theorem AllDead.ready (h : AllDead s) {pid : Int} (hp : pid ∉ s.exited) : AllDead (s.ready pid) :=
  h.modify hp _

theorem AllDead.relist (h : AllDead s) {l : List (Place × Int)}
    (hl : ∀ e ∈ l, e.2 ∈ s.exited → e ∈ s.entries) : AllDead { s with entries := l } :=
  h.keep rfl hl (fun _ _ hs => hs) fun _ _ hd => hd.same rfl

theorem AllDead.foldl_ready {l : List Int} (h : AllDead s) (hl : ∀ p ∈ l, p ∉ s.exited) :
    AllDead (l.foldl System.ready s) := by
  induction l generalizing s with
  | nil => exact h
  | cons p l ih =>
    apply ih (h.ready (hl p (List.mem_cons_self ..)))
    intro q hq
    exact hl q (List.mem_cons_of_mem _ hq)

theorem AllDead.listed (h : AllDead s) {e : Place × Int} (he : e ∈ s.entries) : e.2 ∉ s.exited :=
  fun hp => (h _ hp).unlisted.entries e he rfl

theorem AllDead.list (h : AllDead s) (place : Place) : ∀ p ∈ s.list place, p ∉ s.exited := by
  intro p hp
  obtain ⟨e, he, rfl⟩ := List.mem_map.mp hp
  exact h.listed (List.mem_of_mem_filter he)

theorem AllDead.wakeFirst (h : AllDead s) (place : Place) : AllDead (s.wakeFirst place) := by
  unfold System.wakeFirst
  split
  · exact h
  · rename_i e hf
    refine AllDead.ready ?_ (h.listed (List.mem_of_find?_eq_some hf))
    exact h.relist fun _ hm _ => List.mem_of_mem_erase hm

theorem AllDead.wakeUp (h : AllDead s) (n : Nat) : AllDead (s.wakeUp n) :=
  h.foldl_ready (h.list _)

theorem AllDead.drain (h : AllDead s) (place : Place) : AllDead (s.drain place) :=
  AllDead.foldl_ready (h.relist fun _ hm _ => List.mem_of_mem_filter hm) (h.list place)

theorem AllDead.kill (h : AllDead s) {pid signum : Int} {r : Kernel × Int}
    (ok : Settled fuel s (.kill pid signum)) (hk : doKill fuel s.kernel pid signum = .ok r) :
    AllDead { s with kernel := r.1 } := by
  have hs := doKill_signalled fuel hk
  refine h.keep rfl (fun _ hm _ => hm) (fun _ _ hs => hs) ?_
  intro p hp hd
  refine ⟨(hs.waitChld p).trans hd.unlisted.waitChld, ?_⟩
  obtain ⟨flags, state, pending, he, _, hst⟩ := hs.each p
  simp only [he]
  change state ≠ _ ∧ state ≠ _
  rcases hst with rfl | ⟨hw, _⟩ | ⟨_, rfl⟩
  · exact hd.state
  · rcases hw with hw | ⟨hn, hsig⟩
    · rw [hd.unlisted.waitChld] at hw
      cases hw
    · obtain ⟨hc, hkill⟩ := ok p hp hn
      exact (hsig.elim hc hkill).elim
  · decide

theorem Dead.stirred {p : Int} {k : Kernel} (h : Dead s p)
    (hs : Stirred (s.kernel.proc p) (k.proc p)) :
    (k.proc p).waitChld = false ∧ (k.proc p).thread.state ≠ .ready ∧
      (k.proc p).thread.state ≠ .running := by
  refine ⟨hs.waitChld.trans h.unlisted.waitChld, ?_⟩
  rcases hs.state with hst | hst
  · rw [hst]
    exact h.state
  · rw [h.unlisted.waitChld] at hst
    cases hst.1

theorem AllDead.gone (h : AllDead s) {pid : Int} {k : Kernel} (hu : ∀ e ∈ s.entries, e.2 ≠ pid)
    (ht : (k.proc pid).thread.state = .terminated ∧ (k.proc pid).waitChld = false)
    (hs : ∀ p ≠ pid, Stirred (s.kernel.proc p) (k.proc p)) : AllDead (s.gone k pid) := by
  intro p hp
  by_cases he : p = pid
  · subst p
    refine ⟨?_, ⟨hu, ht.2⟩, ?_⟩
    · change (k.proc pid).thread.state ≠ _ ∧ (k.proc pid).thread.state ≠ _
      rw [ht.1]
      decide
    · exact Function.update_self ..
  · have hm : p ∈ s.exited := (List.mem_cons.mp hp).resolve_left he
    have hd := h p hm
    obtain ⟨hw, hst⟩ := hd.stirred (hs p he)
    exact ⟨hst, ⟨hd.unlisted.entries, hw⟩, (Function.update_of_ne he ..).trans hd.sleeping⟩

theorem AllDead.exit (h : AllDead s) {code : Int} {k : Kernel} (hu : Unlisted s s.kernel.current)
    (hk : doExit (doKill fuel) s.kernel code = .ok k) : AllDead (s.gone k s.kernel.current) :=
  h.gone hu.entries (doExit_terminated (doKill_signalled fuel) hk hu.waitChld)
    fun _ hp => doExit_others (doKill_signalled fuel) hk hp

theorem AllDead.schedule (h : AllDead s) {next : Int} {t : Trap} {k : Kernel}
    (hr : running s ≠ true) (ok : Settled fuel s (.schedule next t))
    (hk : schedule (doKill fuel) s.kernel next t = .ok k) :
    AllDead (if ends (s.kernel.proc next) = true then s.gone k next else { s with kernel := k }) := by
  rw [ne_eq, running_iff] at hr
  obtain ⟨_, _, _, hready, hs⟩ := schedule_frame (doKill_signalled fuel) hr hk
  split
  · rename_i he
    have hu := ok he
    rw [ends, Bool.and_eq_true, beq_iff_eq] at he
    exact h.gone hu.entries
      (schedule_ended (doKill_signalled fuel) hr he.1 he.2 hu.waitChld hk) hs
  · refine h.keep rfl (fun _ hm _ => hm) (fun _ _ hs => hs) ?_
    intro p hp hd
    apply hd.stirred (hs p _)
    rintro rfl
    exact hd.state.1 hready

/-- An event makes no thread ready that has exited. -/
theorem AllDead.step {s' : System} {e : Event} (h : AllDead s) (ok : Settled fuel s e)
    (hs : step fuel s e = some s') : AllDead s' := by
  cases e with
  | enter place i =>
    simp only [Wakeup.step] at hs
    split at hs
    · rename_i hr
      cases hs
      apply h.relist
      intro e he hx
      rcases List.mem_append.mp he with he | he
      · exact List.mem_of_mem_take he
      · rcases List.mem_cons.mp he with rfl | he
        · exact absurd hx (h.current hr)
        · exact List.mem_of_mem_drop he
    · cases hs
  | leave place =>
    simp only [Wakeup.step] at hs
    split at hs
    · cases hs
      exact h.relist fun _ hm _ => List.mem_of_mem_erase hm
    · cases hs
  | waitChild waiting =>
    simp only [Wakeup.step] at hs
    split at hs
    · rename_i hr
      cases hs
      exact h.modify (h.current hr) _
    · cases hs
  | sleep =>
    simp only [Wakeup.step] at hs
    split at hs
    · rename_i hr
      cases hs
      refine (h.modify (h.current hr) (updateThread .waiting)).keep rfl (fun _ hm _ => hm) ?_
        fun _ _ hd => hd.same rfl
      intro p hp hsl
      have hne : p ≠ s.kernel.current := fun he => h.current hr (he ▸ hp)
      exact (Function.update_of_ne hne ..).symm.trans hsl
    · cases hs
  | block =>
    simp only [Wakeup.step] at hs
    split at hs
    · rename_i hr
      cases hs
      exact h.modify (h.current hr) _
    · cases hs
  | preempt =>
    simp only [Wakeup.step] at hs
    split at hs
    · rename_i hr
      cases hs
      exact h.ready (h.current hr)
    · cases hs
  | schedule next t =>
    simp only [Wakeup.step] at hs
    split at hs
    · cases hs
    · rename_i hr
      obtain ⟨k, hk, rfl⟩ := Option.map_eq_some_iff.mp hs
      exact h.schedule hr ok (toOption_ok.mp hk)
  | exit code =>
    simp only [Wakeup.step] at hs
    split at hs
    · obtain ⟨k, hk, rfl⟩ := Option.map_eq_some_iff.mp hs
      exact h.exit ok (toOption_ok.mp hk)
    · cases hs
  | kill pid signum =>
    obtain ⟨r, hr, rfl⟩ := Option.map_eq_some_iff.mp hs
    exact h.kill ok (toOption_ok.mp hr)
  | release n =>
    cases hs
    exact h.wakeFirst _
  | mqSend n =>
    cases hs
    exact h.wakeFirst _
  | mqReceive n =>
    cases hs
    exact h.wakeFirst _
  | mqUnlink n =>
    cases hs
    exact (h.drain _).drain _
  | wakeUp n =>
    cases hs
    exact h.wakeUp n
  | expire pid =>
    simp only [Wakeup.step] at hs
    split at hs
    · rename_i hsl
      cases hs
      refine AllDead.ready ?_ ?_
      · refine h.keep rfl (fun _ hm _ => hm) ?_ fun _ _ hd => hd.same rfl
        intro p _ hp
        have hp : Function.update s.sleeping pid false p = true := hp
        by_cases he : p = pid
        · subst p
          exact hsl
        · rwa [Function.update_of_ne he] at hp
      · intro hp
        exact Bool.false_ne_true ((h pid hp).sleeping.symm.trans hsl)
    · cases hs
  | wakeOwner pid =>
    cases hs
    exact h.ready ok

end Steps

/-- A thread that has exited is never ready or running again, in every run in which no
exited process is continued, killed or woken as the owner of a socket and no thread that
stands in a list exits. -/
theorem termination_final (fuel : Nat) (s t : System) (start : s.exited = [])
    (run : Run (step fuel) (Settled fuel) s t) (p : Int) (exited : p ∈ t.exited) :
    (t.kernel.proc p).thread.state ≠ .ready ∧ (t.kernel.proc p).thread.state ≠ .running := by
  have alive : AllDead s := by
    intro p hp
    rw [start] at hp
    cases hp
  exact (run.invariant alive (fun _ _ _ h ok hs => h.step ok hs) p exited).state

theorem three_distinct : ([0, 1, 2] : List Int).Nodup := by decide

def second : System where
  kernel :=
    { mprocess := [0, 1, 2]
      distinct := three_distinct
      proc := fun pid =>
        if pid = 2 then { gid := 2, parent := some 0, thread := { state := .running } }
        else { gid := pid, parent := some 0 }
      current := 2 }

theorem termination_final_second : ∃ t, Run (step 4) (Settled 4) second t ∧ t.exited = [2] ∧
    (t.kernel.proc 2).thread.state ≠ .ready ∧ (t.kernel.proc 2).thread.state ≠ .running := by
  obtain ⟨t, run, h⟩ := replay_reaches (step 4) (Settled 4) second
    [.enter (.queue 0) 0, .leave (.queue 0), .exit 0, .schedule 1 {}, .kill 2 15, .wakeUp 0,
      .wakeOwner 1]
    (P := fun t => t.exited = [2]) (by decide +kernel)
  refine ⟨t, run, h, termination_final 4 second t rfl run 2 ?_⟩
  rw [h]
  exact List.mem_singleton.mpr rfl

/-- Process 2 exits, and `SIGKILL` makes its thread ready. -/
theorem killed_after_exit : ∃ t, Run (step 4) (fun _ _ => True) second t ∧ 2 ∈ t.exited ∧
    (t.kernel.proc 2).thread.state = .ready :=
  replay_reaches (step 4) (fun _ _ => True) second [.exit 0, .schedule 1 {}, .kill 2 9]
    (P := fun t => 2 ∈ t.exited ∧ (t.kernel.proc 2).thread.state = .ready) (by decide +kernel)

end Mos.Proc.Wakeup

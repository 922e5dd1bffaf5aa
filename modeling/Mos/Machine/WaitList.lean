import Mathlib

namespace Mos.Machine

variable {α β : Type} {key : α → Nat} {waits : β → Bool} {l l' : List α} {ths : List β} {t : Nat}
  {a b : β}

/-- The entries of a list stand for the threads that wait, one for each. -/
structure Listed (key : α → Nat) (waits : β → Bool) (l : List α) (ths : List β) : Prop where
  mem : ∀ t, t ∈ l.map key ↔ ∃ b, ths[t]? = some b ∧ waits b = true
  nodup : (l.map key).Nodup

theorem get_set (h : ths[t]? = some a) (b : β) (u : Nat) :
    (ths.set t b)[u]? = if u = t then some b else ths[u]? := by
  by_cases hu : u = t
  · subst u
    rw [if_pos rfl, List.getElem?_set_self (List.getElem?_eq_some_iff.mp h).1]
  · rw [if_neg hu, List.getElem?_set_ne (Ne.symm hu)]

theorem Listed.perm (h : Listed key waits l ths) (p : l'.Perm l) : Listed key waits l' ths := by
  refine ⟨fun t => ?_, (p.map key).nodup_iff.mpr h.nodup⟩
  rw [(p.map key).mem_iff]
  exact h.mem t

theorem Listed.move (h : Listed key waits l ths) (ht : ths[t]? = some a) (ha : waits a = false)
    (hb : waits b = false) : Listed key waits l (ths.set t b) := by
  refine ⟨fun u => ?_, h.nodup⟩
  rw [h.mem u, get_set ht]
  by_cases hu : u = t
  · subst u
    simp [ht, ha, hb]
  · rw [if_neg hu]

theorem Listed.register {x : α} (h : Listed key waits l ths) (ht : ths[t]? = some a)
    (ha : waits a = false) (hb : waits b = true) (hx : key x = t) :
    Listed key waits (x :: l) (ths.set t b) := by
  have absent : t ∉ l.map key := by
    intro hm
    obtain ⟨c, hc, hw⟩ := (h.mem t).mp hm
    rw [ht] at hc
    cases hc
    rw [ha] at hw
    cases hw
  refine ⟨fun u => ?_, ?_⟩
  · rw [List.map_cons, List.mem_cons, h.mem u, get_set ht, hx]
    by_cases hu : u = t
    · subst u
      simp [hb]
    · simp [hu]
  · rw [List.map_cons, hx]
    exact List.nodup_cons.mpr ⟨absent, h.nodup⟩

theorem Listed.head {x : α} (h : Listed key waits (x :: l) ths) :
    ∃ a, ths[key x]? = some a ∧ waits a = true :=
  (h.mem (key x)).mp List.mem_cons_self

theorem Listed.pop {x : α} (h : Listed key waits (x :: l) ths) (hb : waits b = false) :
    Listed key waits l (ths.set (key x) b) := by
  obtain ⟨a, ht, _⟩ := h.head
  obtain ⟨hx, hn⟩ := List.nodup_cons.mp h.nodup
  refine ⟨fun u => ?_, hn⟩
  rw [get_set ht]
  by_cases hu : u = key x
  · subst u
    simp only [if_true, Option.some.injEq, exists_eq_left', hb]
    simpa using hx
  · have hm := h.mem u
    rw [List.map_cons, List.mem_cons] at hm
    rw [if_neg hu, ← hm]
    simp [hu]

theorem countP_replace (h : ths[t]? = some a) (b : β) (p : β → Bool) :
    (ths.set t b).countP p + (if p a then 1 else 0) = ths.countP p + (if p b then 1 else 0) := by
  obtain ⟨hi, rfl⟩ := List.getElem?_eq_some_iff.mp h
  rw [List.countP_set hi]
  by_cases hp : p ths[t] = true
  · have := List.countP_pos_iff.mpr ⟨_, List.getElem_mem hi, hp⟩
    rw [if_pos hp]
    omega
  · rw [if_neg hp]
    omega

end Mos.Machine

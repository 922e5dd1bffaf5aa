import Mathlib

namespace Mos.Machine

variable {α : Type} [DecidableEq α] {ts : List (List (Option α))} {t : List (Option α)} {x : α}

def refs (ts : List (List (Option α))) (x : α) : Nat := (ts.map (List.count (some x))).sum

theorem refs_append (ts : List (List (Option α))) (t : List (Option α)) (x : α) :
    refs (ts ++ [t]) x = refs ts x + t.count (some x) := by
  simp [refs]

theorem refs_set {p : Nat} {u : List (Option α)} (h : ts[p]? = some t) (x : α) :
    refs (ts.set p u) x + t.count (some x) = refs ts x + u.count (some x) := by
  induction ts generalizing p with
  | nil => cases h
  | cons v ts ih =>
    cases p with
    | zero =>
      cases h
      simp [refs]
      omega
    | succ p =>
      have := ih (p := p) h
      simp [refs] at this ⊢
      omega

theorem count_le_refs {p : Nat} (h : ts[p]? = some t) (x : α) : t.count (some x) ≤ refs ts x := by
  have := refs_set (u := []) h x
  simp only [List.count_nil] at this
  omega

/-- Overwriting one slot drops what it held and adds what it holds now. -/
theorem count_set_slot {i : Nat} {v w : Option α} (h : t[i]? = some v) (x : α) :
    (t.set i w).count (some x) + (if v = some x then 1 else 0) =
      t.count (some x) + (if w = some x then 1 else 0) := by
  induction t generalizing i with
  | nil => cases h
  | cons u t ih =>
    cases i with
    | zero =>
      cases h
      simp [List.count_cons]
      omega
    | succ i =>
      have := ih (i := i) h
      simp [List.count_cons] at this ⊢
      omega

theorem refs_set_slot {p i : Nat} {v w : Option α} (hp : ts[p]? = some t) (hi : t[i]? = some v) (x : α) :
    refs (ts.set p (t.set i w)) x + (if v = some x then 1 else 0) =
      refs ts x + (if w = some x then 1 else 0) := by
  have h₁ := refs_set (u := t.set i w) hp x
  have h₂ := count_set_slot (w := w) hi x
  omega

end Mos.Machine

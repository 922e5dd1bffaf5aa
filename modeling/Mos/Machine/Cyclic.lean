import Mathlib

namespace Mos.Machine

variable {α : Type}

theorem place_inj {t m i j : Nat} (hi : i < m) (hj : j < m) (h : (t + i) % m = (t + j) % m) :
    i = j := by
  have he : i ≡ j [MOD m] := Nat.ModEq.add_left_cancel' t h
  rwa [Nat.ModEq, Nat.mod_eq_of_lt hi, Nat.mod_eq_of_lt hj] at he

/-- Of `size` places, those from `head` on hold the list, around the end. -/
structure Cyclic (size : Nat) (buf : Nat → α) (head : Nat) (l : List α) : Prop where
  le : l.length ≤ size
  at_place : ∀ i x, l[i]? = some x → buf ((head + i) % size) = x

variable {size head : Nat} {buf : Nat → α} {l : List α}

theorem Cyclic.nil (size : Nat) (buf : Nat → α) (head : Nat) : Cyclic size buf head [] := by
  refine ⟨Nat.zero_le _, ?_⟩
  intro i x h
  cases h

theorem Cyclic.push (c : Cyclic size buf head l) (room : l.length < size) (x : α) :
    Cyclic size (Function.update buf ((head + l.length) % size) x) head (l ++ [x]) := by
  refine ⟨by simpa using room, ?_⟩
  intro i y hi
  by_cases hlast : i = l.length
  · subst hlast
    rw [Function.update_self]
    simpa using hi
  · have hb : i < l.length := by
      have := (List.getElem?_eq_some_iff.mp hi).1
      rw [List.length_append, List.length_singleton] at this
      omega
    rw [List.getElem?_append_left hb] at hi
    rw [Function.update_of_ne, c.at_place i y hi]
    intro he
    exact hlast (place_inj (by omega) room he)

theorem Cyclic.take (c : Cyclic size buf head l) (n : Nat) : Cyclic size buf head (l.take n) := by
  refine ⟨(List.length_take_le' n l).trans c.le, ?_⟩
  intro i x hi
  rw [List.getElem?_take] at hi
  split at hi
  · exact c.at_place i x hi
  · cases hi

theorem Cyclic.drop (c : Cyclic size buf head l) (n : Nat) :
    Cyclic size buf ((head + n) % size) (l.drop n) := by
  refine ⟨(List.length_drop ▸ Nat.sub_le _ _).trans c.le, ?_⟩
  intro i x hi
  rw [List.getElem?_drop] at hi
  rw [Nat.mod_add_mod, Nat.add_assoc]
  exact c.at_place (n + i) x hi

theorem Cyclic.read (c : Cyclic size buf head l) {n : Nat} (h : n ≤ l.length) :
    (List.range n).map (fun i => buf ((head + i) % size)) = l.take n := by
  apply List.ext_getElem?
  intro i
  rw [List.getElem?_map, List.getElem?_take]
  by_cases hi : i < n
  · have hl : l[i]? = some l[i] := List.getElem?_eq_getElem (by omega)
    rw [if_pos hi, List.getElem?_range hi, hl, Option.map_some, c.at_place i _ hl]
  · rw [if_neg hi, List.getElem?_eq_none (by simpa using hi), Option.map_none]

end Mos.Machine

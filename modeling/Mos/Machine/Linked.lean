import Mathlib

namespace Mos.Machine

/-! A linked list is a list of nodes, each with an address of its own. -/

section Linked
variable {α : Type} (key : α → Nat)

/-- The nodes from the one at an address on; none when no node is there. -/
def fromOn (l : List α) (a : Nat) : List α := l.dropWhile fun x => key x ≠ a

def upTo (l : List α) (a : Nat) : List α := l.takeWhile fun x => key x ≠ a

def modify (l : List α) (a : Nat) (f : α → α) : List α :=
  upTo key l a ++ match fromOn key l a with
    | x :: xs => f x :: xs
    | [] => []

def insertAfter (l : List α) (a : Nat) (y : α) : List α :=
  upTo key l a ++ match fromOn key l a with
    | x :: xs => x :: y :: xs
    | [] => []

def remove (l : List α) (a : Nat) : List α := upTo key l a ++ (fromOn key l a).tail

variable {key} {pre post : List α} {x : α}

theorem key_ne_of_nodup (h : ((pre ++ x :: post).map key).Nodup) : ∀ y ∈ pre, key y ≠ key x := by
  intro y hy heq
  rw [List.map_append, List.map_cons, List.nodup_append] at h
  exact h.2.2 (key y) (List.mem_map_of_mem hy) (key x) (by simp) heq

theorem fromOn_split (h : ((pre ++ x :: post).map key).Nodup) :
    fromOn key (pre ++ x :: post) (key x) = x :: post := by
  have hpre := key_ne_of_nodup h
  rw [fromOn, List.dropWhile_append_of_pos (by simpa using hpre)]
  simp

theorem upTo_split (h : ((pre ++ x :: post).map key).Nodup) :
    upTo key (pre ++ x :: post) (key x) = pre := by
  have hpre := key_ne_of_nodup h
  rw [upTo, List.takeWhile_append_of_pos (by simpa using hpre)]
  simp

theorem modify_split (h : ((pre ++ x :: post).map key).Nodup) (f : α → α) :
    modify key (pre ++ x :: post) (key x) f = pre ++ f x :: post := by
  rw [modify, upTo_split h, fromOn_split h]

theorem insertAfter_split (h : ((pre ++ x :: post).map key).Nodup) (y : α) :
    insertAfter key (pre ++ x :: post) (key x) y = pre ++ x :: y :: post := by
  rw [insertAfter, upTo_split h, fromOn_split h]

theorem remove_split (h : ((pre ++ x :: post).map key).Nodup) :
    remove key (pre ++ x :: post) (key x) = pre ++ post := by
  rw [remove, upTo_split h, fromOn_split h, List.tail_cons]

end Linked

end Mos.Machine

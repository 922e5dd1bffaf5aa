import Mathlib

namespace Mos.Machine

variable {φ α β : Type}

def Fine (x : Except φ α) : Prop := ∃ a, x = .ok a

/-- A value that is read from the bytes `i` to `i + n` of a buffer, where a byte behind
the buffer is a fault. -/
def within (outside : φ) (buf : List UInt8) (i n : Nat) (value : α) : Except φ α :=
  if i + n ≤ buf.length then .ok value else .error outside

theorem ok_bind (a : α) (f : α → Except φ β) : ((.ok a : Except φ α) >>= f) = f a := rfl

@[simp] theorem fine_pure (a : α) : Fine (pure a : Except φ α) := ⟨a, rfl⟩

@[simp] theorem fine_ok (a : α) : Fine (.ok a : Except φ α) := ⟨a, rfl⟩

@[simp] theorem not_fine_throw (e : φ) : ¬ Fine (throw e : Except φ α) := by
  rintro ⟨a, h⟩
  cases h

@[simp] theorem not_fine_error (e : φ) : ¬ Fine (.error e : Except φ α) := by
  rintro ⟨a, h⟩
  cases h

variable {outside : φ} {buf : List UInt8} {i n : Nat} {value : α} {y : Except φ α}

theorem fine_within :
    Fine (within outside buf i n value) ↔ i + n ≤ buf.length := by
  unfold within
  split
  · exact iff_of_true (fine_ok _) ‹_›
  · exact iff_of_false (not_fine_error _) ‹_›

theorem within_ok {a : α}
    (h : within outside buf i n value = .ok a) : a = value := by
  unfold within at h
  split at h
  · exact (Except.ok.inj h).symm
  · cases h

theorem fine_within_bind
    {k : α → Except φ β} :
    Fine (within outside buf i n value >>= k) ↔ i + n ≤ buf.length ∧ Fine (k value) := by
  unfold within
  split
  · rename_i h
    exact ⟨fun hk => ⟨h, hk⟩, And.right⟩
  · rename_i h
    refine iff_of_false (not_fine_error outside) ?_
    intro hk
    exact h hk.1

theorem fine_seq {x : Except φ Unit} :
    Fine (x >>= fun _ => y) ↔ Fine x ∧ Fine y := by
  cases x with
  | error e => exact iff_of_false (not_fine_error e) (fun h => not_fine_error e h.1)
  | ok a => exact (and_iff_right (fine_ok a)).symm

theorem fine_map {g : α → β} {x : Except φ α} : Fine (g <$> x) ↔ Fine x := by
  cases x with
  | error e => exact iff_of_false (not_fine_error e) (not_fine_error e)
  | ok a => exact iff_of_true (fine_ok _) (fine_ok _)

theorem fine_ite {c : Prop} [Decidable c] {x : Except φ α} :
    Fine (if c then x else y) ↔ (c → Fine x) ∧ (¬ c → Fine y) := by
  split
  · rename_i h
    exact ⟨fun hx => ⟨fun _ => hx, absurd h⟩, fun hxy => hxy.1 h⟩
  · rename_i h
    exact ⟨fun hy => ⟨fun hc => absurd hc h, fun _ => hy⟩, fun hxy => hxy.2 h⟩

theorem fine_ite_bind {c : Prop} [Decidable c] {x : Except φ α} {k : α → Except φ β} :
    Fine ((if c then x else y) >>= k) ↔ (c → Fine (x >>= k)) ∧ (¬ c → Fine (y >>= k)) := by
  rw [← fine_ite]
  split <;> rfl

end Mos.Machine

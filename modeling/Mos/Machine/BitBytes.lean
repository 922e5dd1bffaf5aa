import Mos.Machine.Bytes

namespace Mos.Machine

theorem findSome?_range {α : Type} {f : Nat → Option α} {b : α} {n : Nat}
    (h : (List.range n).findSome? f = some b) : ∃ a < n, f a = some b ∧ ∀ i < a, f i = none := by
  induction n with
  | zero => cases h
  | succ n ih =>
    rw [List.range_succ, List.findSome?_append] at h
    cases hn : (List.range n).findSome? f with
    | some c =>
      rw [hn, Option.some_or] at h
      obtain ⟨a, ha, hb, hi⟩ := ih (hn.trans h)
      exact ⟨a, Nat.lt_succ_of_lt ha, hb, hi⟩
    | none =>
      rw [hn, Option.none_or, List.findSome?_singleton] at h
      refine ⟨n, Nat.lt_succ_self n, h, ?_⟩
      intro i hi
      exact List.findSome?_eq_none_iff.mp hn i (List.mem_range.mpr hi)

namespace Bytes

variable {m : Bytes} {k n : Nat}

def bit (m : Bytes) (n : Nat) : Bool := (m (n / 8)).toNat.testBit (n % 8)

def bitMask (n : Nat) : UInt8 := 1 <<< UInt8.ofNat n

def setBit (m : Bytes) (n : Nat) : Bytes :=
  m.setByte (n / 8) (m (n / 8) ||| bitMask (n % 8))

/-- Search the first `bytes` bytes for a clear bit, passing over bytes with none. -/
def firstClear (m : Bytes) (bytes : Nat) : Option Nat :=
  (List.range bytes).findSome? fun i =>
    if m i = 0xff then none
    else ((List.range 8).find? fun j => m i &&& bitMask j == 0).map (i * 8 + ·)

theorem and_bitMask : ∀ w : UInt8, ∀ j < 8, (w &&& bitMask j == 0) = !w.toNat.testBit j := by
  decide +kernel

theorem bitMask_testBit : ∀ j < 8, ∀ i < 8, (bitMask j).toNat.testBit i = decide (j = i) := by
  decide +kernel

theorem bit_setBit (m : Bytes) (k n : Nat) : (m.setBit k).bit n = (decide (k = n) || m.bit n) := by
  unfold bit setBit
  by_cases hw : n / 8 = k / 8
  · have hi : k % 8 = n % 8 ↔ k = n := by omega
    rw [hw, setByte_same, UInt8.toNat_or, Nat.testBit_or,
      bitMask_testBit _ (by omega) _ (by omega), decide_eq_decide.mpr hi, Bool.or_comm]
  · have hne : k ≠ n := by
      rintro rfl
      exact hw rfl
    rw [setByte_of _ hw, decide_eq_false hne, Bool.false_or]

theorem firstClear_some {bytes : Nat} (h : m.firstClear bytes = some n) :
    n < 8 * bytes ∧ m.bit n = false := by
  obtain ⟨i, hi, hf⟩ := List.exists_of_findSome?_eq_some h
  split at hf
  · cases hf
  · obtain ⟨j, hj, rfl⟩ := Option.map_eq_some_iff.mp hf
    have hlt := List.mem_range.mp (List.mem_of_find?_eq_some hj)
    have hclear := List.find?_some hj
    have hi := List.mem_range.mp hi
    rw [and_bitMask _ _ hlt] at hclear
    have hd : (i * 8 + j) / 8 = i := by omega
    have hm : (i * 8 + j) % 8 = j := by omega
    refine ⟨by omega, ?_⟩
    rw [bit, hd, hm]
    simpa using hclear

theorem firstClear_none {bytes : Nat} (h : m.firstClear bytes = none) (hn : n < 8 * bytes) :
    m.bit n = true := by
  have hi := List.findSome?_eq_none_iff.mp h (n / 8) (List.mem_range.mpr (by omega))
  have hj : n % 8 < 8 := Nat.mod_lt _ (by decide)
  split at hi
  · rename_i hf
    rw [bit, hf]
    have : ∀ j < 8, (0xff : UInt8).toNat.testBit j = true := by decide
    exact this _ hj
  · have hnone := List.find?_eq_none.mp (Option.map_eq_none_iff.mp hi) (n % 8) (List.mem_range.mpr hj)
    rw [and_bitMask _ _ hj] at hnone
    simpa [bit] using hnone

def clears (m : Bytes) (n : Nat) : Nat := (List.range n).countP fun i => !m.bit i

theorem clears_le (m : Bytes) (n : Nat) : m.clears n ≤ n := by
  have := List.countP_le_length (p := fun i => !m.bit i) (l := List.range n)
  rwa [List.length_range] at this

theorem clears_setBit (h : k < n) (clear : m.bit k = false) :
    (m.setBit k).clears n + 1 = m.clears n := by
  unfold clears
  induction n with
  | zero => omega
  | succ n ih =>
    rw [List.range_succ, List.countP_append, List.countP_append]
    by_cases hk : k = n
    · subst hk
      have hrest : (List.range k).countP (fun i => !(m.setBit k).bit i) =
          (List.range k).countP fun i => !m.bit i := by
        apply List.countP_congr
        intro i hi
        have hne : k ≠ i := by
          rintro rfl
          simp at hi
        rw [bit_setBit, decide_eq_false hne, Bool.false_or]
      have hset : (m.setBit k).bit k = true := by
        rw [bit_setBit, decide_eq_true rfl, Bool.true_or]
      simp [hrest, hset, clear]
    · have hlast : (m.setBit k).bit n = m.bit n := by
        rw [bit_setBit, decide_eq_false hk, Bool.false_or]
      simp only [List.countP_singleton, hlast]
      omega

theorem clears_full (h : k ≤ n) (full : ∀ i, k ≤ i → i < n → m.bit i = true) :
    m.clears n = m.clears k := by
  induction n with
  | zero =>
    obtain rfl : k = 0 := by omega
    rfl
  | succ n ih =>
    by_cases hk : k = n + 1
    · rw [hk]
    · have hlast := full n (by omega) (by omega)
      have hrest := ih (by omega) fun i h₁ h₂ => full i h₁ (by omega)
      rw [← hrest, clears, List.range_succ, List.countP_append]
      simp [hlast, clears]

end Bytes

end Mos.Machine

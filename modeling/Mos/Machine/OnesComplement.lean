import Mathlib

namespace Mos.Machine

/-! ### Addition with an end-around carry -/

section Carry

variable {m : Nat}

/-- The representative of `n` modulo `m` among `1` to `m`; only `0` is left at `0`. -/
def residue (m n : Nat) : Nat := if n = 0 then 0 else (n - 1) % m + 1

def endAround (m a b : Nat) : Nat := if a + b ≤ m then a + b else a + b - m

def onesSum (m : Nat) (words : List Nat) : Nat := words.foldl (endAround m) 0

theorem residue_of_le {n : Nat} (h : n ≤ m) : residue m n = n := by
  unfold residue
  split
  · omega
  · rw [Nat.mod_eq_of_lt (by omega)]
    omega

theorem residue_add_mul {n : Nat} (k : Nat) (h : 0 < n) : residue m (n + m * k) = residue m n := by
  unfold residue
  rw [if_neg (by omega), if_neg (by omega), show n + m * k - 1 = n - 1 + m * k by omega,
    Nat.add_mul_mod_self_left]

theorem residue_le (n : Nat) (h : 0 < m) : residue m n ≤ m := by
  unfold residue
  split
  · omega
  · exact Nat.mod_lt _ h

theorem residue_add (m n : Nat) : ∃ k, n = residue m n + m * k := by
  unfold residue
  split
  · exact ⟨0, by omega⟩
  · refine ⟨(n - 1) / m, ?_⟩
    have := Nat.mod_add_div (n - 1) m
    omega

theorem residue_pos {n : Nat} (h : 0 < n) : 0 < residue m n := by
  unfold residue
  rw [if_neg (by omega)]
  exact Nat.succ_pos _

theorem residue_modEq (m n : Nat) : residue m n ≡ n [MOD m] := by
  obtain ⟨k, hk⟩ := residue_add m n
  conv_rhs => rw [hk]
  exact (Nat.add_mul_mod_self_left _ _ _).symm

theorem residue_add_residue (a b : Nat) : residue m (residue m a + b) = residue m (a + b) := by
  by_cases ha : a = 0
  · subst ha
    rfl
  · obtain ⟨k, hk⟩ := residue_add m a
    have hpos : 0 < residue m a := residue_pos (by omega)
    have hsum : a + b = residue m a + b + m * k := by omega
    rw [hsum, residue_add_mul k (by omega)]

theorem residue_add_eq_iff {a b : Nat} (ha : 0 < a) :
    residue m (a + b) = residue m a ↔ b ≡ 0 [MOD m] := by
  constructor
  · intro h
    have hmod := (residue_modEq m (a + b)).symm.trans (h ▸ residue_modEq m a)
    exact Nat.ModEq.add_left_cancel' a hmod
  · intro h
    obtain ⟨k, rfl⟩ := (Nat.modEq_zero_iff_dvd).mp h
    exact residue_add_mul k ha

theorem endAround_eq {a b : Nat} (ha : a ≤ m) (hb : b ≤ m) : endAround m a b = residue m (a + b) := by
  unfold endAround
  split
  · rename_i h
    exact (residue_of_le h).symm
  · have hsum : a + b = a + b - m + m * 1 := by omega
    rw [hsum, residue_add_mul 1 (by omega), residue_of_le (by omega)]
    omega

theorem foldl_endAround (hm : 0 < m) {a : Nat} (ha : a ≤ m) {words : List Nat}
    (h : ∀ w ∈ words, w ≤ m) : words.foldl (endAround m) a = residue m (a + words.sum) := by
  induction words generalizing a with
  | nil => exact (residue_of_le ha).symm
  | cons w rest ih =>
    obtain ⟨hw, hrest⟩ := List.forall_mem_cons.mp h
    rw [List.foldl_cons, endAround_eq ha hw, ih (residue_le _ hm) hrest, residue_add_residue,
      List.sum_cons, Nat.add_assoc]

theorem onesSum_eq (hm : 0 < m) {words : List Nat} (h : ∀ w ∈ words, w ≤ m) :
    onesSum m words = residue m words.sum := by
  rw [onesSum, foldl_endAround hm (Nat.zero_le m) h, Nat.zero_add]

theorem residue_carry (m n : Nat) : residue m (n % (m + 1) + n / (m + 1)) = residue m n := by
  by_cases hn : n = 0
  · subst hn
    simp
  · have hdiv := Nat.mod_add_div n (m + 1)
    rw [Nat.add_mul, Nat.one_mul] at hdiv
    generalize n / (m + 1) = q at hdiv ⊢
    generalize n % (m + 1) = r at hdiv ⊢
    have hpos : 0 < r + q := by
      by_contra hzero
      obtain ⟨rfl, rfl⟩ : r = 0 ∧ q = 0 := by omega
      omega
    rw [← hdiv, show r + (m * q + q) = r + q + m * q by omega, residue_add_mul _ hpos]

end Carry

/-! ### Bytes as 16-bit words -/

/-- The little-endian words of the bytes; an odd byte at the end is followed by a zero. -/
def halves : List UInt8 → List Nat
  | a :: b :: rest => (a.toNat + 256 * b.toNat) :: halves rest
  | [a] => [a.toNat]
  | [] => []

def halfAt (l : List UInt8) (i : Nat) : Nat := (l.getD (2 * i) 0).toNat + 256 * (l.getD (2 * i + 1) 0).toNat

def setHalfAt (l : List UInt8) (i : Nat) (w : UInt16) : List UInt8 :=
  (l.set (2 * i) w.toUInt8).set (2 * i + 1) (w >>> 8).toUInt8

theorem halves_le (l : List UInt8) : ∀ w ∈ halves l, w ≤ 65535 := by
  induction l using halves.induct with
  | case1 a b rest ih =>
    have ha := a.toNat_lt
    have hb := b.toNat_lt
    exact List.forall_mem_cons.mpr ⟨by omega, ih⟩
  | case2 a =>
    have ha := a.toNat_lt
    exact List.forall_mem_singleton.mpr (by omega)
  | case3 => exact List.forall_mem_nil _

theorem halves_sum_le (l : List UInt8) : 2 * (halves l).sum ≤ 65535 * (l.length + 1) := by
  induction l using halves.induct with
  | case1 a b rest ih =>
    have ha := a.toNat_lt
    have hb := b.toNat_lt
    simp only [halves, List.sum_cons, List.length_cons]
    omega
  | case2 a =>
    have ha := a.toNat_lt
    simp only [halves, List.sum_singleton, List.length_singleton]
    omega
  | case3 => simp [halves]

theorem half_bytes (w : UInt16) : w.toUInt8.toNat + 256 * (w >>> 8).toUInt8.toNat = w.toNat := by
  have hw := w.toNat_lt
  simp [Nat.shiftRight_eq_div_pow]
  omega

@[simp] theorem length_setHalfAt (l : List UInt8) (i : Nat) (w : UInt16) :
    (setHalfAt l i w).length = l.length := by
  simp [setHalfAt]

theorem exists_two {l : List UInt8} (h : 1 < l.length) : ∃ a b rest, l = a :: b :: rest := by
  match l, h with
  | a :: b :: rest, _ => exact ⟨a, b, rest, rfl⟩

theorem sum_setHalfAt {l : List UInt8} {i : Nat} (w : UInt16) (hi : 2 * i + 1 < l.length) :
    (halves (setHalfAt l i w)).sum + halfAt l i = (halves l).sum + w.toNat := by
  induction i generalizing l with
  | zero =>
    obtain ⟨a, b, rest, rfl⟩ := exists_two (Nat.lt_of_le_of_lt (Nat.le_add_left 1 _) hi)
    have hset : setHalfAt (a :: b :: rest) 0 w = w.toUInt8 :: (w >>> 8).toUInt8 :: rest := rfl
    have hat : halfAt (a :: b :: rest) 0 = a.toNat + 256 * b.toNat := rfl
    have hw := half_bytes w
    rw [hset, hat]
    simp only [halves, List.sum_cons]
    omega
  | succ i ih =>
    obtain ⟨a, b, rest, rfl⟩ := exists_two (Nat.lt_of_le_of_lt (Nat.le_add_left 1 _) hi)
    have hrest := ih (l := rest) (by simp only [List.length_cons] at hi; omega)
    have hset : setHalfAt (a :: b :: rest) (i + 1) w = a :: b :: setHalfAt rest i w := rfl
    have hat : halfAt (a :: b :: rest) (i + 1) = halfAt rest i := rfl
    rw [hset, hat]
    simp only [halves, List.sum_cons]
    omega

theorem halfAt_setHalfAt {l : List UInt8} {i : Nat} (w : UInt16) (hi : 2 * i + 1 < l.length) :
    halfAt (setHalfAt l i w) i = w.toNat := by
  rw [← half_bytes w]
  simp [halfAt, setHalfAt, hi, Nat.lt_of_succ_lt hi]

theorem halfAt_setHalfAt_ne {l : List UInt8} {i j : Nat} (w : UInt16) (h : i ≠ j) :
    halfAt (setHalfAt l i w) j = halfAt l j := by
  simp [halfAt, setHalfAt, show 2 * i ≠ 2 * j by omega,
    show 2 * i + 1 ≠ 2 * j by omega, show 2 * i ≠ 2 * j + 1 by omega]

theorem setHalfAt_setHalfAt (l : List UInt8) (i : Nat) (v w : UInt16) :
    setHalfAt (setHalfAt l i v) i w = setHalfAt l i w := by
  unfold setHalfAt
  rw [List.set_comm _ _ (by omega : 2 * i + 1 ≠ 2 * i), List.set_set, List.set_set]

theorem setHalfAt_comm (l : List UInt8) {i j : Nat} (v w : UInt16) (h : i ≠ j) :
    setHalfAt (setHalfAt l i v) j w = setHalfAt (setHalfAt l j w) i v := by
  unfold setHalfAt
  rw [List.set_comm _ _ (by omega : 2 * i + 1 ≠ 2 * j), List.set_comm _ _ (by omega : 2 * i ≠ 2 * j),
    List.set_comm _ _ (by omega : 2 * i + 1 ≠ 2 * j + 1), List.set_comm _ _ (by omega : 2 * i ≠ 2 * j + 1)]

/-! ### Messages that carry a checksum -/

section Checksum

variable {checksum : List UInt8 → UInt16} {field n : Nat} {l : List UInt8}

/-- The word `field` of the message is its checksum, computed with that word at zero. -/
def Carries (checksum : List UInt8 → UInt16) (field : Nat) (l : List UInt8) : Prop :=
  halfAt l field = (checksum (setHalfAt l field 0)).toNat

/-- Among messages of `n` bytes the checksum gives the sum of the words modulo 65535 away. -/
def SumsHalves (checksum : List UInt8 → UInt16) (n : Nat) : Prop :=
  ∀ l l', l.length = n → l'.length = n → checksum l = checksum l' →
    (halves l).sum ≡ (halves l').sum [MOD 65535]

theorem carries_setHalfAt (hi : 2 * field + 1 < l.length) :
    Carries checksum field (setHalfAt l field (checksum (setHalfAt l field 0))) := by
  rw [Carries, halfAt_setHalfAt _ hi, setHalfAt_setHalfAt]

/-- Replacing one word by another that is not congruent to it is noticed. -/
theorem Carries.altered (h : Carries checksum field l) (sums : SumsHalves checksum n)
    (hl : l.length = n) {i : Nat} (hi : 2 * i + 1 < n) (hf : 2 * field + 1 < n) {w : UInt16}
    (hw : ¬w.toNat ≡ halfAt l i [MOD 65535]) : ¬Carries checksum field (setHalfAt l i w) := by
  intro h'
  unfold Carries at h h'
  by_cases hif : i = field
  · subst hif
    rw [halfAt_setHalfAt w (hl ▸ hi), setHalfAt_setHalfAt, ← h] at h'
    exact hw (h' ▸ Nat.ModEq.refl _)
  · have hsame : checksum (setHalfAt l field 0) = checksum (setHalfAt (setHalfAt l field 0) i w) := by
      rw [halfAt_setHalfAt_ne w hif, h, setHalfAt_comm l w 0 hif] at h'
      exact UInt16.toNat_inj.mp h'
    have hmod := sums _ _ (by simpa using hl) (by simpa using hl) hsame
    have hsum := sum_setHalfAt w (l := setHalfAt l field 0) (i := i) (by simpa [hl] using hi)
    rw [halfAt_setHalfAt_ne 0 (Ne.symm hif)] at hsum
    have hcong := hmod.add_right (halfAt l i)
    rw [hsum] at hcong
    exact hw (Nat.ModEq.add_left_cancel' _ hcong).symm

end Checksum

end Mos.Machine

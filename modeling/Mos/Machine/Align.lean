import Mathlib

namespace Mos.Machine

def alignDown (x size : UInt32) : UInt32 := x &&& -size

def alignUp (x size : UInt32) : UInt32 := alignDown (x + size - 1) size

def divCeil (x y : UInt32) : UInt32 := x / y + if 0 < x % y then 1 else 0

theorem and_high_bits {x k w : Nat} (hx : x < 2 ^ w) (hk : k ≤ w) :
    x &&& (2 ^ w - 2 ^ k) = x / 2 ^ k * 2 ^ k := by
  have hm : 2 ^ w - 2 ^ k = (2 ^ (w - k) - 1) <<< k := by
    rw [Nat.shiftLeft_eq, Nat.sub_mul, ← pow_add, Nat.sub_add_cancel hk, one_mul]
  apply Nat.eq_of_testBit_eq
  intro i
  rw [← Nat.shiftRight_eq_div_pow, ← Nat.shiftLeft_eq, hm, Nat.testBit_and,
    Nat.testBit_shiftLeft, Nat.testBit_shiftLeft, Nat.testBit_shiftRight,
    Nat.testBit_two_pow_sub_one]
  by_cases hi : k ≤ i
  · rw [Nat.add_sub_cancel' hi]
    by_cases hb : x.testBit i
    · have : i < w := by
        by_contra hc
        rw [Nat.testBit_lt_two_pow (Nat.lt_of_lt_of_le hx (Nat.pow_le_pow_right (by omega)
          (Nat.le_of_not_lt hc)))] at hb
        cases hb
      simp [hi, hb]
      omega
    · simp [hb]
  · simp [hi]

theorem alignDown_toNat (x : UInt32) {k : Nat} (hk : k < 32) :
    (alignDown x (UInt32.ofNat (2 ^ k))).toNat = x.toNat / 2 ^ k * 2 ^ k := by
  have hlt : 2 ^ k < 2 ^ 32 := Nat.pow_lt_pow_right (by omega) hk
  have hpos : 0 < 2 ^ k := Nat.two_pow_pos k
  have hneg : (-UInt32.ofNat (2 ^ k)).toNat = 2 ^ 32 - 2 ^ k := by
    rw [UInt32.toNat_neg, UInt32.toNat_ofNat_of_lt' hlt]
    simp only [UInt32.size] at *
    omega
  rw [alignDown, UInt32.toNat_and, hneg]
  exact and_high_bits x.toNat_lt (by omega)

theorem alignUp_toNat {x : UInt32} {k : Nat} (hk : k < 32) (hx : x.toNat + 2 ^ k ≤ 2 ^ 32) :
    (alignUp x (UInt32.ofNat (2 ^ k))).toNat = (x.toNat + 2 ^ k - 1) / 2 ^ k * 2 ^ k := by
  have hpos : 0 < 2 ^ k := Nat.two_pow_pos k
  have hlt : 2 ^ k < 2 ^ 32 := Nat.pow_lt_pow_right (by omega) hk
  have hs : (UInt32.ofNat (2 ^ k)).toNat = 2 ^ k := UInt32.toNat_ofNat_of_lt' hlt
  rw [alignUp, alignDown_toNat _ hk, UInt32.toNat_sub, UInt32.toNat_add, hs, UInt32.toNat_one]
  congr 2
  omega

theorem and_add_and_not {w : Nat} (y m : BitVec w) : (y &&& m) + (y &&& ~~~m) = y := by
  rw [BitVec.add_eq_or_of_and_eq_zero]
  · ext i hi
    cases hm : m[i] <;> simp [hm]
  · ext i hi
    cases hm : m[i] <;> simp [hm]

/-- The mask of a size rounds up by less than the size, also when that is no power of two. -/
theorem le_alignUp {x size : UInt32} (pos : 0 < size.toNat) (hx : x.toNat + size.toNat ≤ 2 ^ 32) :
    x.toNat ≤ (alignUp x size).toNat := by
  have hy : (x + size - 1).toNat = x.toNat + size.toNat - 1 := by
    rw [UInt32.toNat_sub, UInt32.toNat_add, UInt32.toNat_one]
    have := x.toNat_lt
    have := size.toNat_lt
    omega
  have hsize : (size - 1).toNat = size.toNat - 1 := by
    rw [UInt32.toNat_sub, UInt32.toNat_one]
    have := size.toNat_lt
    omega
  unfold alignUp alignDown
  generalize x + size - 1 = y at hy ⊢
  have hsplit := congrArg BitVec.toNat (and_add_and_not y.toBitVec (-size.toBitVec))
  rw [BitVec.not_neg, BitVec.toNat_add] at hsplit
  have hlow : (y &&& (size - 1)).toNat ≤ (size - 1).toNat := by
    rw [UInt32.toNat_and]
    exact Nat.and_le_right
  have hsum := Nat.mod_le ((y &&& -size).toNat + (y &&& (size - 1)).toNat) (2 ^ 32)
  change ((y &&& -size).toNat + (y &&& (size - 1)).toNat) % 2 ^ 32 = y.toNat at hsplit
  omega
theorem divCeil_toNat (x : UInt32) {y : UInt32} (hy : 0 < y.toNat) :
    (divCeil x y).toNat = (x.toNat + y.toNat - 1) / y.toNat := by
  have hx := x.toNat_lt
  have hm : (x % y).toNat = x.toNat % y.toNat := UInt32.toNat_mod x y
  have hd : (x / y).toNat = x.toNat / y.toNat := UInt32.toNat_div x y
  have hdm := Nat.div_add_mod x.toNat y.toNat
  have hlt := Nat.mod_lt x.toNat hy
  unfold divCeil
  by_cases h : 0 < x % y
  · have hr : 0 < x.toNat % y.toNat := by
      rw [UInt32.lt_iff_toNat_lt, hm] at h
      simpa using h
    have hq : x.toNat / y.toNat + 1 < 2 ^ 32 := by
      by_cases h1 : y.toNat = 1
      · rw [h1, Nat.mod_one] at hr
        omega
      · have := Nat.div_le_div_left (show 2 ≤ y.toNat by omega) (by omega) (a := x.toNat)
        omega
    rw [if_pos h, UInt32.toNat_add, hd, UInt32.toNat_one, Nat.mod_eq_of_lt hq]
    symm
    apply Nat.div_eq_of_lt_le
    · rw [Nat.add_mul, one_mul, Nat.mul_comm]
      omega
    · rw [Nat.add_mul, Nat.add_mul, one_mul, Nat.mul_comm]
      omega
  · have hr : x.toNat % y.toNat = 0 := by
      rw [UInt32.lt_iff_toNat_lt, hm] at h
      simpa using h
    rw [if_neg h, UInt32.add_zero, hd]
    symm
    apply Nat.div_eq_of_lt_le
    · rw [Nat.mul_comm]
      omega
    · rw [Nat.add_mul, one_mul, Nat.mul_comm]
      omega

end Mos.Machine

import Mathlib

namespace Mos.Machine

abbrev Words := Nat → UInt32

namespace Words

def mask (n : Nat) : UInt32 := 1 <<< UInt32.ofNat (n % 32)

def set (b : Words) (n : Nat) : Words := Function.update b (n / 32) (b (n / 32) ||| mask n)

def unset (b : Words) (n : Nat) : Words := Function.update b (n / 32) (b (n / 32) &&& ~~~mask n)

def test (b : Words) (n : Nat) : Bool := b (n / 32) &&& mask n != 0

variable {b : Words} {m n : Nat}

theorem mask_toNat (n : Nat) : (mask n).toNat = 2 ^ (n % 32) := by
  have hn := Nat.mod_lt n (show 0 < 32 by decide)
  have hp : 2 ^ (n % 32) < 2 ^ 32 := Nat.pow_lt_pow_right (by decide) hn
  have hs : n % 32 % 4294967296 = n % 32 := Nat.mod_eq_of_lt (by omega)
  simpa [mask, UInt32.toNat_shiftLeft, hs, Nat.shiftLeft_eq] using hp

theorem and_mask (w : UInt32) (n : Nat) : (w &&& mask n != 0) = w.toNat.testBit (n % 32) := by
  have ht : (w &&& mask n).toNat = (w.toNat.testBit (n % 32)).toNat * 2 ^ (n % 32) := by
    rw [UInt32.toNat_and, mask_toNat, Nat.and_two_pow]
  have hp : 2 ^ (n % 32) ≠ 0 := by simp
  cases hb : w.toNat.testBit (n % 32) with
  | false =>
    rw [hb] at ht
    have hz : w &&& mask n = 0 := UInt32.toNat_inj.mp (by simpa using ht)
    simp [hz]
  | true =>
    rw [hb] at ht
    have hz : w &&& mask n ≠ 0 := by
      intro hz
      rw [hz] at ht
      exact hp (by simpa using ht.symm)
    simp [hz]

theorem test_eq (b : Words) (n : Nat) : b.test n = (b (n / 32)).toNat.testBit (n % 32) := and_mask _ _

theorem index_inj (hw : m / 32 = n / 32) : m % 32 = n % 32 ↔ m = n := by omega

theorem test_set (b : Words) (m n : Nat) : (b.set m).test n = (decide (m = n) || b.test n) := by
  simp only [test_eq, set]
  by_cases hw : n / 32 = m / 32
  · rw [hw, Function.update_self, UInt32.toNat_or, Nat.testBit_or, mask_toNat, Nat.testBit_two_pow,
      Bool.or_comm, decide_eq_decide.mpr (index_inj hw.symm)]
  · have hn : m ≠ n := fun he => hw (he ▸ rfl)
    simp [Function.update_of_ne hw, hn]

theorem test_unset (b : Words) (m n : Nat) : (b.unset m).test n = (!decide (m = n) && b.test n) := by
  simp only [test_eq, unset]
  by_cases hw : n / 32 = m / 32
  · have hn := Nat.mod_lt n (show 0 < 32 by decide)
    have hm : (~~~mask m).toNat = 2 ^ 32 - ((mask m).toNat + 1) := by
      simp [UInt32.size]
    have hi : decide (m % 32 = n % 32) = decide (m = n) := decide_eq_decide.mpr (index_inj hw.symm)
    rw [hw, Function.update_self, UInt32.toNat_and, Nat.testBit_and, hm,
      Nat.testBit_two_pow_sub_succ (mask m).toNat_lt, mask_toNat, Nat.testBit_two_pow, Bool.and_comm, hi]
    simp [hn]
  · have hn : m ≠ n := fun he => hw (he ▸ rfl)
    simp [Function.update_of_ne hw, hn]

theorem test_setAll (l : List Nat) (b : Words) (n : Nat) :
    (l.foldl set b).test n = (decide (n ∈ l) || b.test n) := by
  induction l generalizing b with
  | nil => simp
  | cons m l ih =>
    rw [List.foldl_cons, ih, test_set]
    by_cases hm : m = n
    · simp [hm]
    · simp [hm, Ne.symm hm]

theorem test_unsetAll (l : List Nat) (b : Words) (n : Nat) :
    (l.foldl unset b).test n = (!decide (n ∈ l) && b.test n) := by
  induction l generalizing b with
  | nil => simp
  | cons m l ih =>
    rw [List.foldl_cons, ih, test_unset]
    by_cases hm : m = n
    · simp [hm]
    · simp [hm, Ne.symm hm]

/-- Store `0xff` to the first `size` bytes, the low bytes of a word first. -/
def fillBytes (b : Words) (size : Nat) : Words := fun i =>
  if 4 * (i + 1) ≤ size then 0xffffffff
  else if 4 * i < size then b i ||| (mask (8 * (size - 4 * i)) - 1)
  else b i

theorem test_fillBytes (b : Words) (size n : Nat) :
    (b.fillBytes size).test n = (decide (n < 8 * size) || b.test n) := by
  have hn := Nat.mod_lt n (show 0 < 32 by decide)
  rw [test_eq, test_eq]
  unfold fillBytes
  split
  · have hlt : n < 8 * size := by omega
    rw [decide_eq_true hlt, Bool.true_or]
    exact Nat.testBit_two_pow_sub_one 32 (n % 32) ▸ decide_eq_true hn
  · split
    · have hk : 8 * (size - 4 * (n / 32)) < 32 := by omega
      have hm : (mask (8 * (size - 4 * (n / 32))) - 1).toNat = 2 ^ (8 * (size - 4 * (n / 32))) - 1 := by
        have hpos : 0 < 2 ^ (8 * (size - 4 * (n / 32))) := Nat.two_pow_pos _
        have he := mask_toNat (8 * (size - 4 * (n / 32)))
        rw [Nat.mod_eq_of_lt hk] at he
        rw [UInt32.toNat_sub_of_le _ _ (UInt32.le_iff_toNat_le.mpr (by rw [he]; exact hpos)), he]
        rfl
      rw [UInt32.toNat_or, Nat.testBit_or, hm, Nat.testBit_two_pow_sub_one, Bool.or_comm]
      congr 1
      exact decide_eq_decide.mpr (by omega)
    · have hlt : ¬n < 8 * size := by omega
      rw [decide_eq_false hlt, Bool.false_or]

def ones (b : Words) (n : Nat) : Nat := (List.range n).countP b.test

theorem countP_range_eq_card (p : Nat → Bool) (n : Nat) :
    (List.range n).countP p = ((Finset.range n).filter fun f => p f = true).card := by
  induction n with
  | zero => rfl
  | succ n ih =>
    rw [List.range_succ, List.countP_append, ih, Finset.range_add_one, Finset.filter_insert]
    cases hp : p n with
    | false => simp [hp]
    | true => simp [hp]

theorem ones_le (b : Words) (n : Nat) : b.ones n ≤ n := by
  have := List.countP_le_length (p := b.test) (l := List.range n)
  simpa [ones] using this

theorem ones_clear (b : Words) (n : Nat) :
    b.ones n + (List.range n).countP (fun f => !b.test f) = n := by
  have := List.length_eq_countP_add_countP b.test (l := List.range n)
  simpa [ones] using this.symm

theorem ones_add {b' : Words} {l : List Nat} (nodup : l.Nodup)
    (clear : ∀ f ∈ l, b.test f = false ∧ f < n)
    (bits : ∀ f < n, b'.test f = (decide (f ∈ l) || b.test f)) :
    b'.ones n = b.ones n + l.length := by
  have hset : ((Finset.range n).filter fun f => b'.test f = true) =
      ((Finset.range n).filter fun f => b.test f = true) ∪ l.toFinset := by
    ext f
    simp only [Finset.mem_filter, Finset.mem_range, Finset.mem_union, List.mem_toFinset]
    constructor
    · rintro ⟨hf, ht⟩
      rw [bits f hf, Bool.or_eq_true, decide_eq_true_eq] at ht
      tauto
    · rintro (⟨hf, ht⟩ | hf)
      · exact ⟨hf, by rw [bits f hf, ht, Bool.or_true]⟩
      · have hlt := (clear f hf).2
        exact ⟨hlt, by rw [bits f hlt, decide_eq_true hf, Bool.true_or]⟩
  have hdis : Disjoint ((Finset.range n).filter fun f => b.test f = true) l.toFinset := by
    rw [Finset.disjoint_left]
    intro f hf hl
    have hc := (clear f (List.mem_toFinset.mp hl)).1
    rw [(Finset.mem_filter.mp hf).2] at hc
    cases hc
  rw [ones, ones, countP_range_eq_card, countP_range_eq_card, hset,
    Finset.card_union_of_disjoint hdis, List.toFinset_card_of_nodup nodup]

/-- Search word `i` for a clear bit that `p` accepts, unless every bit is set. -/
def scanWord (b : Words) (p : Nat → Bool) (i : Nat) : Option Nat :=
  if b i = 0xffffffff then none
  else ((List.range 32).find? fun j => b i &&& mask j == 0 && p (i * 32 + j)).map (i * 32 + ·)

def scan (b : Words) (n : Nat) (p : Nat → Bool) : Option Nat := (List.range n).findSome? (b.scanWord p)

theorem test_word (b : Words) {i j : Nat} (hj : j < 32) :
    b.test (i * 32 + j) = (b i &&& mask j != 0) := by
  have hd : (i * 32 + j) / 32 = i := by omega
  have hm : (i * 32 + j) % 32 = j % 32 := by omega
  rw [test_eq, and_mask, hd, hm]

theorem full_word {i j : Nat} (h : b i = 0xffffffff) (hj : j < 32) : b.test (i * 32 + j) = true := by
  rw [test_word b hj, h, and_mask]
  exact Nat.testBit_two_pow_sub_one 32 (j % 32) ▸ decide_eq_true (Nat.mod_lt j (by decide))

theorem scanWord_eq (b : Words) (p : Nat → Bool) (i : Nat) :
    b.scanWord p i = ((List.range 32).map (i * 32 + ·)).find? fun f => !b.test f && p f := by
  unfold scanWord
  split
  · rename_i hf
    symm
    rw [List.find?_eq_none]
    intro f hm
    obtain ⟨j, hj, rfl⟩ := List.mem_map.mp hm
    simp [full_word hf (List.mem_range.mp hj)]
  · rw [List.find?_map]
    congr 1
    refine List.find?_congr ?_
    intro j hj
    simp [test_word b (List.mem_range.mp hj), bne]

/-- The two nested loops are one search for the first bit. -/
theorem scan_eq (b : Words) (n : Nat) (p : Nat → Bool) :
    b.scan n p = (List.range (n * 32)).find? fun f => !b.test f && p f := by
  induction n with
  | zero => rfl
  | succ n ih =>
    have hr : List.range ((n + 1) * 32) =
        List.range (n * 32) ++ (List.range 32).map (n * 32 + ·) := by
      rw [Nat.succ_mul, List.range_add]
    rw [hr, List.find?_append, ← ih, ← scanWord_eq, scan, List.range_succ, List.findSome?_append]
    simp [scan]

theorem scan_some {p : Nat → Bool} {f : Nat} (h : b.scan n p = some f) :
    f < n * 32 ∧ b.test f = false ∧ p f = true ∧ ∀ g < f, b.test g = false → p g = false := by
  rw [scan_eq, List.find?_range_eq_some] at h
  obtain ⟨hp, hm, hb⟩ := h
  simp only [Bool.and_eq_true, Bool.not_eq_true'] at hp
  refine ⟨List.mem_range.mp hm, hp.1, hp.2, ?_⟩
  intro g hg ht
  have := hb g hg
  simpa [ht] using this

theorem scan_none {p : Nat → Bool} (h : b.scan n p = none) {f : Nat} (hf : f < n * 32)
    (clear : b.test f = false) : p f = false := by
  rw [scan_eq, List.find?_eq_none] at h
  have := h f (List.mem_range.mpr hf)
  simpa [clear] using this

end Words

/-- A window of `n + 1` places in which at least `n` are good: the first `n` are,
or there is one bad place among them and the last is good. -/
theorem good_window {p : Nat → Bool} {n : Nat} (h : n ≤ (List.range (n + 1)).countP p) :
    (∀ c < n, p c = true) ∨ (List.range n).countP (fun c => !p c) = 1 ∧ p n = true := by
  have hl : n = (List.range n).countP p + (List.range n).countP (fun c => !p c) := by
    have := List.length_eq_countP_add_countP p (l := List.range n)
    simpa using this
  rw [List.range_succ, List.countP_append] at h
  cases hb : (List.range n).countP (fun c => !p c) with
  | zero =>
    left
    intro c hc
    simpa using List.countP_eq_zero.mp hb c (List.mem_range.mpr hc)
  | succ k =>
    right
    cases hp : p n with
    | false =>
      simp [hp] at h
      omega
    | true =>
      simp [hp] at h
      exact ⟨by omega, rfl⟩

end Mos.Machine

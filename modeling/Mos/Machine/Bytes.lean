import Mathlib

namespace Mos.Machine

/-- A memory of bytes. Multi-byte values are little-endian. -/
abbrev Bytes := Nat → UInt8

namespace Bytes

variable {m m' : Bytes} {a b x n : Nat}

def word (m : Bytes) (a : Nat) : UInt32 :=
  UInt32.ofNat ((m a).toNat + 256 * (m (a + 1)).toNat + 65536 * (m (a + 2)).toNat +
    16777216 * (m (a + 3)).toNat)

def setByte (m : Bytes) (a : Nat) (v : UInt8) : Bytes := fun x => if x = a then v else m x

def setWord (m : Bytes) (a : Nat) (v : UInt32) : Bytes := fun x =>
  if a ≤ x ∧ x < a + 4 then UInt8.ofNat (v.toNat / 256 ^ (x - a)) else m x

def half (m : Bytes) (a : Nat) : UInt16 :=
  UInt16.ofNat ((m a).toNat + 256 * (m (a + 1)).toNat)

def setHalf (m : Bytes) (a : Nat) (v : UInt16) : Bytes := fun x =>
  if a ≤ x ∧ x < a + 2 then UInt8.ofNat (v.toNat / 256 ^ (x - a)) else m x

def copy (m : Bytes) (a n : Nat) (src : Bytes) : Bytes := fun x =>
  if a ≤ x ∧ x < a + n then src (x - a) else m x

def view (m : Bytes) (a : Nat) : Bytes := fun x => m (a + x)

/-- The bytes at `a`, as many as the list has, become those of the list. -/
def put (m : Bytes) (a : Nat) (l : List UInt8) : Bytes := fun x =>
  if a ≤ x ∧ x < a + l.length then l.getD (x - a) 0 else m x

def fill (m : Bytes) (a n : Nat) (v : UInt8) : Bytes := fun x =>
  if a ≤ x ∧ x < a + n then v else m x

def setWords (m : Bytes) (a : Nat) : List UInt32 → Bytes
  | [] => m
  | w :: ws => (m.setWord a w).setWords (a + 4) ws

def Agree (m m' : Bytes) (a n : Nat) : Prop := ∀ x, a ≤ x → x < a + n → m' x = m x

theorem Agree.refl (m : Bytes) (a n : Nat) : Agree m m a n := fun _ _ _ => rfl

theorem Agree.trans {m'' : Bytes} (h : Agree m m' a n) (h' : Agree m' m'' a n) :
    Agree m m'' a n := by
  intro x h₁ h₂
  rw [h' x h₁ h₂, h x h₁ h₂]

theorem Agree.mono {k : Nat} (h : Agree m m' a n) (lo : a ≤ b) (hi : b + k ≤ a + n) :
    Agree m m' b k := by
  intro x h₁ h₂
  exact h x (by omega) (by omega)

theorem Agree.word {k : Nat} (h : Agree m m' a n) (lo : a ≤ k) (hi : k + 4 ≤ a + n) :
    m'.word k = m.word k := by
  unfold Bytes.word
  rw [h k (by omega) (by omega), h (k + 1) (by omega) (by omega), h (k + 2) (by omega) (by omega),
    h (k + 3) (by omega) (by omega)]

theorem Agree.half {k : Nat} (h : Agree m m' a n) (lo : a ≤ k) (hi : k + 2 ≤ a + n) :
    m'.half k = m.half k := by
  unfold Bytes.half
  rw [h k (by omega) (by omega), h (k + 1) (by omega) (by omega)]

@[simp] theorem setByte_same (v : UInt8) : m.setByte a v a = v := by
  simp [setByte]

theorem setByte_agree (v : UInt8) (out : a < b ∨ b + n ≤ a) : Agree m (m.setByte a v) b n := by
  intro x h₁ h₂
  have : x ≠ a := by omega
  simp [setByte, this]

@[simp] theorem word_setWord (v : UInt32) : (m.setWord a v).word a = v := by
  have hv := v.toNat_lt
  unfold word setWord
  rw [← UInt32.toNat_inj]
  simp
  omega

theorem setWord_agree (v : UInt32) (out : a + 4 ≤ b ∨ b + n ≤ a) : Agree m (m.setWord a v) b n := by
  intro x h₁ h₂
  have : ¬(a ≤ x ∧ x < a + 4) := by omega
  simp [setWord, this]

theorem setByte_of (v : UInt8) (out : x ≠ a) : m.setByte a v x = m x := if_neg out

theorem word_setByte_of (v : UInt8) (out : a < b ∨ b + 4 ≤ a) :
    (m.setByte a v).word b = m.word b := (setByte_agree v out).word le_rfl le_rfl

theorem setWord_of (v : UInt32) (out : x < a ∨ a + 4 ≤ x) : m.setWord a v x = m x :=
  setWord_agree (n := 1) v (by omega) x le_rfl (by omega)

theorem word_setWord_of (v : UInt32) (out : a + 4 ≤ b ∨ b + 4 ≤ a) :
    (m.setWord a v).word b = m.word b := (setWord_agree v out).word le_rfl le_rfl

@[simp] theorem half_setHalf (v : UInt16) : (m.setHalf a v).half a = v := by
  have hv := v.toNat_lt
  unfold half setHalf
  rw [← UInt16.toNat_inj]
  simp
  omega

theorem setHalf_agree (v : UInt16) (out : a + 2 ≤ b ∨ b + n ≤ a) : Agree m (m.setHalf a v) b n := by
  intro x h₁ h₂
  have : ¬(a ≤ x ∧ x < a + 2) := by omega
  simp [setHalf, this]

theorem setHalf_of (v : UInt16) (out : x < a ∨ a + 2 ≤ x) : m.setHalf a v x = m x :=
  setHalf_agree (n := 1) v (by omega) x le_rfl (by omega)

theorem half_setHalf_of (v : UInt16) (out : a + 2 ≤ b ∨ b + 2 ≤ a) :
    (m.setHalf a v).half b = m.half b := (setHalf_agree v out).half le_rfl le_rfl

theorem half_setWord_of (v : UInt32) (out : a + 4 ≤ b ∨ b + 2 ≤ a) :
    (m.setWord a v).half b = m.half b := (setWord_agree v out).half le_rfl le_rfl

theorem word_setHalf_of (v : UInt16) (out : a + 2 ≤ b ∨ b + 4 ≤ a) :
    (m.setHalf a v).word b = m.word b := (setHalf_agree v out).word le_rfl le_rfl

theorem copy_in (src : Bytes) (lo : a ≤ x) (hi : x < a + n) : m.copy a n src x = src (x - a) := by
  simp [copy, lo, hi]

theorem copy_agree {k : Nat} (src : Bytes) (out : a + n ≤ b ∨ b + k ≤ a) :
    Agree m (m.copy a n src) b k := by
  intro x h₁ h₂
  have : ¬(a ≤ x ∧ x < a + n) := by omega
  simp [copy, this]

theorem word_copy {k : Nat} (src : Bytes) (hi : k + 4 ≤ n) :
    (m.copy a n src).word (a + k) = src.word k := by
  unfold word
  rw [copy_in src (by omega) (by omega), copy_in src (by omega) (by omega),
    copy_in src (by omega) (by omega), copy_in src (by omega) (by omega)]
  congr 5 <;> congr 3 <;> omega

theorem word_view (m : Bytes) (a b : Nat) : (m.view a).word b = m.word (a + b) := rfl

theorem half_view (m : Bytes) (a b : Nat) : (m.view a).half b = m.half (a + b) := rfl

theorem setWords_agree {ws : List UInt32} (out : b + n ≤ a) :
    Agree m (m.setWords a ws) b n := by
  induction ws generalizing m a with
  | nil => exact .refl m b n
  | cons w ws ih => exact (setWord_agree w (.inr out)).trans (ih (by omega))

theorem word_setWords {ws : List UInt32} {i : Nat} {w : UInt32} (h : ws[i]? = some w) :
    (m.setWords a ws).word (a + 4 * i) = w := by
  induction ws generalizing m a i with
  | nil => simp at h
  | cons v ws ih =>
    cases i with
    | zero =>
      obtain rfl : v = w := by simpa using h
      have hf : Agree (m.setWord a v) ((m.setWord a v).setWords (a + 4) ws) a 4 :=
        setWords_agree le_rfl
      exact (hf.word le_rfl le_rfl).trans (word_setWord v)
    | succ i =>
      have hs := ih (m := m.setWord a v) (a := a + 4) (by simpa using h)
      rwa [show a + 4 + 4 * i = a + 4 * (i + 1) by omega] at hs

theorem put_in {l : List UInt8} (lo : a ≤ x) (hi : x < a + l.length) :
    m.put a l x = l.getD (x - a) 0 := by
  simp only [put, lo, hi, and_self, if_true]

theorem fill_agree {k : Nat} (v : UInt8) (out : a + n ≤ b ∨ b + k ≤ a) :
    Agree m (m.fill a n v) b k := by
  intro x h₁ h₂
  have : ¬(a ≤ x ∧ x < a + n) := by omega
  simp [fill, this]

end Bytes

end Mos.Machine

import Mos.Proofs.Ext2Inodes

namespace Mos.Ext2
open Machine Memory

def sampleLayout (log : Nat) : Layout where
  log
  first := 1024 / (1024 * 2 ^ log)
  blocks := 16
  blocksPerGroup := 16
  inodesPerGroup := 8
  inodeSize := 128
  groups := 1
  blockBitmap := fun _ => 1024 / (1024 * 2 ^ log) + 2
  inodeBitmap := fun _ => 1024 / (1024 * 2 ^ log) + 3
  inodeTable := fun _ => 1024 / (1024 * 2 ^ log) + 4

def sampleBitmap (a b : UInt8) : Bytes := fun x => if x = 0 then a else if x = 1 then b else 0xff

section Sample
variable (log : Nat) (b₀ b₁ i₀ : UInt8)

def sampleSuper : Bytes :=
  let sb := Bytes.setWord (fun _ => 0) 4 16
  let sb := sb.setWord 12 (UInt32.ofNat ((sampleBitmap b₀ b₁).clears 16))
  let sb := sb.setWord 16 (UInt32.ofNat ((sampleBitmap i₀ 0xff).clears 16))
  let sb := sb.setWord 20 (UInt32.ofNat (sampleLayout log).first)
  let sb := sb.setWord 24 (UInt32.ofNat log)
  ((sb.setWord 32 16).setWord 40 8).setHalf 88 128

def sampleDesc : Bytes :=
  let gdp := Bytes.setWord (fun _ => 0) 0 (UInt32.ofNat ((sampleLayout log).first + 2))
  let gdp := gdp.setWord 4 (UInt32.ofNat ((sampleLayout log).first + 3))
  let gdp := gdp.setWord 8 (UInt32.ofNat ((sampleLayout log).first + 4))
  let gdp := gdp.setHalf 12 (UInt16.ofNat ((sampleBitmap b₀ b₁).clears 16))
  gdp.setHalf 14 (UInt16.ofNat ((sampleBitmap i₀ 0xff).clears 16))

def sampleRoot : Bytes :=
  let ei := Bytes.setHalf (fun _ => 0) 0 0o040755
  let ei := (ei.setWord 4 (UInt32.ofNat (sampleLayout log).size)).setHalf 26 2
  (ei.setWord 28 1).setWord 40 (UInt32.ofNat ((sampleLayout log).first + 5))

def sample : Volume where
  ext2Sb := sampleSuper log b₀ b₁ i₀
  dev b :=
    let first := (sampleLayout log).first
    if b = first then
      Bytes.copy (fun _ => 0) (1024 % (sampleLayout log).size) 1024 (sampleSuper log b₀ b₁ i₀)
    else if b = first + 1 then sampleDesc log b₀ b₁ i₀
    else if b = first + 2 then sampleBitmap b₀ b₁
    else if b = first + 3 then sampleBitmap i₀ 0xff
    else if b = first + 4 then Bytes.copy (fun _ => 0) 128 128 (sampleRoot log)
    else if b = first + 5 then dirEntries (fun _ => 0) (sampleLayout log).size 2 2
    else fun _ => 0

end Sample

variable {log : Nat} {b₀ b₁ i₀ : UInt8}

theorem sample_valid (h : log = 0 ∨ log = 1) {m : Meta} (hm : (sampleLayout log).Valid m) :
    m ∈ [.super, .descs 0, .blockBitmap 0, .inodeBitmap 0, .table 0 0] := by
  have hz : (sampleLayout log).Valid m ↔ match m with
      | .super => True
      | .descs k => k ≤ 0
      | .blockBitmap group => group < 1
      | .inodeBitmap group => group < 1
      | .table group k => group < 1 ∧ k ≤ 0 := by
    rcases h with rfl | rfl <;> cases m <;> rfl
  have := hz.mp hm
  cases m with
  | super => decide
  | descs k =>
    obtain rfl := Nat.le_zero.mp this
    decide
  | blockBitmap g =>
    obtain rfl := Nat.lt_one_iff.mp this
    decide
  | inodeBitmap g =>
    obtain rfl := Nat.lt_one_iff.mp this
    decide
  | table g k =>
    obtain rfl := Nat.lt_one_iff.mp this.1
    obtain rfl := Nat.le_zero.mp this.2
    decide

theorem sample_sound (h : log = 0 ∨ log = 1) : (sampleLayout log).Sound := by
  refine ⟨?_, ?_, ?_, ?_, ?_, ?_, ?_, ?_, ?_, ?_, ?_, ?_, ?_, ?_, ?_, ?_⟩
  case refine_15 =>
    intro m hm
    have hmem := sample_valid h hm
    clear hm
    revert m
    rcases h with rfl | rfl <;> decide
  case refine_16 =>
    have hall : ∀ m ∈ [Meta.super, .descs 0, .blockBitmap 0, .inodeBitmap 0, .table 0 0],
        ∀ m' ∈ [Meta.super, .descs 0, .blockBitmap 0, .inodeBitmap 0, .table 0 0],
          (sampleLayout log).place m = (sampleLayout log).place m' → m = m' := by
      rcases h with rfl | rfl <;> decide
    intro m m' hm hm'
    exact hall m (sample_valid h hm) m' (sample_valid h hm')
  all_goals rcases h with rfl | rfl <;> decide

theorem sample_formatted (h : log = 0 ∨ log = 1) :
    Formatted (sampleLayout log) (sample log b₀ b₁ i₀) := by
  refine ⟨?_, ?_, ?_, ?_, ?_, ?_, ?_, ?_, ?_⟩
  case refine_7 =>
    intro g hg
    obtain rfl := Nat.lt_one_iff.mp hg
    rcases h with rfl | rfl <;> rfl
  case refine_8 =>
    intro g hg
    obtain rfl := Nat.lt_one_iff.mp hg
    rcases h with rfl | rfl <;> rfl
  case refine_9 =>
    intro g hg
    obtain rfl := Nat.lt_one_iff.mp hg
    rcases h with rfl | rfl <;> rfl
  all_goals rcases h with rfl | rfl <;> rfl

theorem sampleBitmap_bit {a b : UInt8} {n : Nat} (hn : 16 ≤ n) : (sampleBitmap a b).bit n = true := by
  have h₀ : n / 8 ≠ 0 := by omega
  have h₁ : n / 8 ≠ 1 := by omega
  have hf : ∀ j < 8, (0xff : UInt8).toNat.testBit j = true := by decide
  rw [Bytes.bit, sampleBitmap, if_neg h₀, if_neg h₁]
  exact hf _ (Nat.mod_lt _ (by decide))

theorem sampleBitmap_clears (a b : UInt8) {n : Nat} (hn : 16 ≤ n) :
    (sampleBitmap a b).clears n = (sampleBitmap a b).clears 16 :=
  Bytes.clears_full hn fun _ hi _ => sampleBitmap_bit hi

/-- The bits of the blocks up to that of the root directory, and those of the first two inodes
and of the blocks and inodes that there are not, are set. -/
def SampleUsed (log : Nat) (b₀ b₁ i₀ : UInt8) : Prop :=
  (∀ n < 6, (sampleBitmap b₀ b₁).bit n = true) ∧ (log = 0 → (sampleBitmap b₀ b₁).bit 15 = true) ∧
    ∀ n < 2, (sampleBitmap i₀ 0xff).bit n = true

def sampleBits (b₀ b₁ i₀ : UInt8) : Kind → Bytes
  | .block => sampleBitmap b₀ b₁
  | .inode => sampleBitmap i₀ 0xff

theorem sample_bitmap (h : log = 0 ∨ log = 1) (k : Kind) :
    (sample log b₀ b₁ i₀).dev ((sampleLayout log).bitmap k 0) = sampleBits b₀ b₁ i₀ k := by
  rcases h with rfl | rfl <;> cases k <;> rfl

theorem sample_clears (h : log = 0 ∨ log = 1) (k : Kind) :
    (sampleLayout log).clears (sample log b₀ b₁ i₀) k 0 = (sampleBits b₀ b₁ i₀ k).clears 16 := by
  have hsize : 16 ≤ 8 * (sampleLayout log).size := by
    rcases h with rfl | rfl <;> decide
  rw [Layout.clears, sample_bitmap h]
  cases k <;> exact sampleBitmap_clears _ _ hsize

theorem sampleDesc_half (k : Kind) : (sampleDesc log b₀ b₁ i₀).half k.half =
    UInt16.ofNat ((sampleBits b₀ b₁ i₀ k).clears 16) := by
  cases k <;> simp (disch := decide) [sampleDesc, sampleBits, Kind.half, Bytes.half_setHalf_of]

theorem sampleSuper_word (k : Kind) : (sampleSuper log b₀ b₁ i₀).word k.word =
    UInt32.ofNat ((sampleBits b₀ b₁ i₀ k).clears 16) := by
  cases k <;> simp (disch := decide) [sampleSuper, sampleBits, Kind.word, Bytes.word_setHalf_of,
    Bytes.word_setWord_of]

theorem sample_padded (h : log = 0 ∨ log = 1) (used : SampleUsed log b₀ b₁ i₀) (k : Kind) {n : Nat}
    (hc : ¬(sampleLayout log).Counts k 0 n) : (sampleBits b₀ b₁ i₀ k).bit n = true := by
  by_cases hlt : 16 ≤ n
  · cases k <;> exact sampleBitmap_bit hlt
  · unfold Layout.Counts Layout.number at hc
    cases k with
    | block =>
      simp only [sampleLayout, Layout.perGroup, Layout.start, Layout.limit] at hc
      rcases h with rfl | rfl
      · obtain rfl : n = 15 := by omega
        exact used.2.1 rfl
      · omega
    | inode =>
      simp only [sampleLayout, Layout.perGroup, Layout.start, Layout.limit, Layout.inodes] at hc
      have hd : n / 8 = 1 := by omega
      have hf : ∀ j < 8, (0xff : UInt8).toNat.testBit j = true := by decide
      rw [sampleBits, Bytes.bit, sampleBitmap, if_neg (by omega), if_pos hd]
      exact hf _ (Nat.mod_lt _ (by decide))

theorem sample_counted (h : log = 0 ∨ log = 1) (used : SampleUsed log b₀ b₁ i₀) :
    Counted (sampleLayout log) (sample log b₀ b₁ i₀) := by
  have hle (k : Kind) := Bytes.clears_le (sampleBits b₀ b₁ i₀ k) 16
  refine ⟨sample_formatted h, ?_, ?_, ?_, ?_⟩
  · intro k g hg n _ hc
    obtain rfl := Nat.lt_one_iff.mp hg
    rw [sample_bitmap h]
    exact sample_padded h used k hc
  · intro m hm g hg n _ hp
    obtain rfl := Nat.lt_one_iff.mp hg
    have hlow : ∀ m ∈ [Meta.super, .descs 0, .blockBitmap 0, .inodeBitmap 0, .table 0 0],
        (sampleLayout log).place m < (sampleLayout log).first + 6 := by
      rcases h with rfl | rfl <;> decide
    have hn : n < 6 := by
      have := hlow m (sample_valid h hm)
      unfold Layout.number at hp
      simp only [Layout.start] at hp
      omega
    rw [show (sampleLayout log).blockBitmap 0 = (sampleLayout log).bitmap .block 0 from rfl,
      sample_bitmap h]
    exact used.1 n hn
  · intro k g hg
    obtain rfl := Nat.lt_one_iff.mp hg
    have hdesc : (sampleLayout log).desc (sample log b₀ b₁ i₀) 0 = sampleDesc log b₀ b₁ i₀ := by
      rcases h with rfl | rfl <;> funext x <;>
        simp [Layout.desc, sample, sampleLayout, Bytes.view, Layout.groupsPerBlock, Layout.size]
    rw [hdesc, sampleDesc_half, sample_clears h]
    exact UInt16.toNat_ofNat_of_lt' (Nat.lt_of_le_of_lt (hle k) (by decide))
  · intro k
    rw [show (sampleLayout log).groups = 1 from rfl, Finset.sum_range_one, sample_clears h]
    change ((sampleSuper log b₀ b₁ i₀).word k.word).toNat = _
    rw [sampleSuper_word]
    exact UInt32.toNat_ofNat_of_lt' (Nat.lt_of_le_of_lt (hle k) (by decide))

theorem sample_place (h : log = 0 ∨ log = 1) {m : Meta} (hm : (sampleLayout log).Valid m) :
    (sampleLayout log).place m < (sampleLayout log).first + 5 := by
  have hmem := sample_valid h hm
  clear hm
  revert m
  rcases h with rfl | rfl <;> decide

theorem sample_getInode (h : log = 0 ∨ log = 1) {ino : UInt32}
    (hi : (sampleLayout log).IsInode ino.toNat) :
    ext2GetInode (sample log b₀ b₁ i₀) ino =
      (Bytes.copy (fun _ => 0) 128 128 (sampleRoot log)).view ((ino.toNat - 1) * 128) := by
  rw [(sample_formatted h).getInode (sample_sound h) hi]
  have h₁ := hi.1
  have h₂ : ino.toNat ≤ 8 := hi.2
  generalize ino.toNat = x at h₁ h₂ ⊢
  interval_cases x <;> rcases h with rfl | rfl <;> rfl

theorem sample_pointers (h : log = 0 ∨ log = 1) {ino : UInt32}
    (hi : (sampleLayout log).IsInode ino.toNat)
    (hb : HasBlocks ((ext2GetInode (sample log b₀ b₁ i₀) ino).half 0)) :
    SafeRaw (sampleLayout log) (ext2GetInode (sample log b₀ b₁ i₀) ino) := by
  rw [sample_getInode h hi] at hb ⊢
  have h₁ := hi.1
  have h₂ : ino.toNat ≤ 8 := hi.2
  generalize ino.toNat = x at h₁ h₂ hb ⊢
  by_cases hx : x = 2
  · subst hx
    intro k hk
    by_cases hz : k = 0
    · subst hz
      right
      intro m hm he
      have := sample_place h hm
      rcases h with rfl | rfl
      · change _ = 6 at he
        change _ < 6 at this
        omega
      · change _ = 5 at he
        change _ < 5 at this
        omega
    · left
      rw [Bytes.word_view, show (2 - 1) * 128 + (40 + 4 * k) = 128 + (40 + 4 * k) by omega,
        Bytes.word_copy _ (by omega)]
      unfold sampleRoot
      rw [Bytes.word_setWord_of _ (by omega), Bytes.word_setWord_of _ (by omega),
        Bytes.word_setHalf_of _ (by omega), Bytes.word_setWord_of _ (by omega),
        Bytes.word_setHalf_of _ (by omega)]
      rfl
  · exfalso
    have hz : ((Bytes.copy (fun _ => 0) 128 128 (sampleRoot log)).view ((x - 1) * 128)).half 0 = 0 := by
      rw [Bytes.half_view, (Bytes.copy_agree (sampleRoot log) (k := 2) (by omega)).half (le_refl _)
        (by omega)]
      rfl
    rw [hz] at hb
    revert hb
    unfold HasBlocks
    decide

theorem sample_consistent (h : log = 0 ∨ log = 1) (used : SampleUsed log b₀ b₁ i₀) :
    Consistent (sampleLayout log) (sample log b₀ b₁ i₀) := by
  refine ⟨sample_sound h, ?_, sample_counted h used, ?_, ?_⟩
  · rcases h with rfl | rfl <;> rfl
  · intro ino hu hb
    exact sample_pointers h (InUse.isInode hu) hb
  · intro k
    have hk : k.word + 4 ≤ 1024 := by
      cases k <;> decide
    have hdev : (sample log b₀ b₁ i₀).dev (1024 / (sampleLayout log).size) =
        Bytes.copy (fun _ => 0) (1024 % (sampleLayout log).size) 1024
          (sampleSuper log b₀ b₁ i₀) := if_pos rfl
    rw [diskSuper, (sample_formatted h).size (sample_sound h), hdev, Bytes.word_view,
      Bytes.word_copy _ hk]
    rfl

instance : Decidable (SampleUsed log b₀ b₁ i₀) := inferInstanceAs (Decidable (_ ∧ _ ∧ _))

end Mos.Ext2

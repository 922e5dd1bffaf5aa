import Mos.Fs.Ext2Dir
import Mos.Proofs.Ext2Volume

namespace Mos.Ext2
open Machine Memory

/-- What a file system hands out: blocks and inodes. Each group has a bitmap and a count
for either, and the superblock has a count. -/
inductive Kind where
  | block
  | inode
  deriving DecidableEq, Repr

def Kind.half : Kind → Nat
  | .block => 12
  | .inode => 14

def Kind.word : Kind → Nat
  | .block => 12
  | .inode => 16

namespace Layout

def perGroup (L : Layout) : Kind → Nat
  | .block => L.blocksPerGroup
  | .inode => L.inodesPerGroup

def bitmap (L : Layout) : Kind → Nat → Nat
  | .block => L.blockBitmap
  | .inode => L.inodeBitmap

def start (L : Layout) : Kind → Nat
  | .block => L.first
  | .inode => 1

def limit (L : Layout) : Kind → Nat
  | .block => L.blocks
  | .inode => L.inodes + 1

def number (L : Layout) (k : Kind) (g n : Nat) : Nat := g * L.perGroup k + n + L.start k

def Counts (L : Layout) (k : Kind) (g n : Nat) : Prop :=
  n < L.perGroup k ∧ L.number k g n < L.limit k

def descBlock (L : Layout) (g : Nat) : Nat := L.first + 1 + g / L.groupsPerBlock

def descOffset (L : Layout) (g : Nat) : Nat := g % L.groupsPerBlock * 32

def clears (L : Layout) (v : Volume) (k : Kind) (g : Nat) : Nat :=
  (v.dev (L.bitmap k g)).clears (8 * L.size)

end Layout

/-- The bitmaps and the counts agree: padding is set, the blocks of the file system's own
data structures are set, and each count is that of the clear bits. -/
structure Counted (L : Layout) (v : Volume) : Prop where
  formatted : Formatted L v
  padded : ∀ k, ∀ g < L.groups, ∀ n < 8 * L.size, ¬L.Counts k g n →
    (v.dev (L.bitmap k g)).bit n = true
  metaUsed : ∀ m, L.Valid m → ∀ g < L.groups, ∀ n, L.Counts .block g n →
    L.place m = L.number .block g n → (v.dev (L.blockBitmap g)).bit n = true
  groups : ∀ k, ∀ g < L.groups, ((L.desc v g).half k.half).toNat = L.clears v k g
  total : ∀ k, (v.ext2Sb.word k.word).toNat = ∑ g ∈ Finset.range L.groups, L.clears v k g

variable {L : Layout} {v v' : Volume} {k : Kind} {g n : Nat}

namespace Layout

def bitmapMeta : Kind → Nat → Meta
  | .block => .blockBitmap
  | .inode => .inodeBitmap

theorem place_bitmap (L : Layout) (k : Kind) (g : Nat) :
    L.place (bitmapMeta k g) = L.bitmap k g := by
  cases k <;> rfl

theorem bitmap_valid (h : g < L.groups) (k : Kind) : L.Valid (bitmapMeta k g) := by
  cases k <;> exact h

theorem place_descs (L : Layout) (g : Nat) :
    L.place (.descs (g / L.groupsPerBlock)) = L.descBlock g := rfl

theorem desc_ne_first (L : Layout) (g : Nat) : L.descBlock g ≠ L.first := by
  unfold descBlock
  generalize g / L.groupsPerBlock = q
  omega

theorem Sound.bitmap_ne_first (s : L.Sound) (h : g < L.groups) (k : Kind) :
    L.bitmap k g ≠ L.first := by
  intro he
  rw [← L.place_bitmap] at he
  have := s.apart _ .super (bitmap_valid h k) trivial he
  cases k <;> cases this

theorem Sound.bitmap_ne_desc (s : L.Sound) {g' : Nat} (h : g < L.groups) (h' : g' < L.groups)
    (k : Kind) : L.bitmap k g ≠ L.descBlock g' := by
  intro he
  rw [← L.place_bitmap, ← L.place_descs] at he
  have := s.apart _ _ (bitmap_valid h k) (descs_valid h') he
  cases k <;> cases this

theorem Sound.bitmap_inj (s : L.Sound) {g' : Nat} {k' : Kind} (h : g < L.groups)
    (h' : g' < L.groups) (he : L.bitmap k g = L.bitmap k' g') : k = k' ∧ g = g' := by
  rw [← L.place_bitmap, ← L.place_bitmap] at he
  have hm := s.apart _ _ (bitmap_valid h k) (bitmap_valid h' k') he
  cases k <;> cases k' <;> cases hm <;> exact ⟨rfl, rfl⟩

theorem Sound.size_le (s : L.Sound) : L.size ≤ 4096 := by
  rcases s.size_cases with h | h | h <;> omega

theorem Sound.perGroup_le' (s : L.Sound) (k : Kind) : L.perGroup k ≤ 8 * L.size := by
  cases k with
  | block => exact s.perGroup_le
  | inode => exact s.inodes_le

theorem Counts.lt_bits (h : L.Counts k g n) (s : L.Sound) : n < 8 * L.size :=
  Nat.lt_of_lt_of_le h.1 (s.perGroup_le' k)

theorem desc_apart {g' : Nat} (hb : L.descBlock g' = L.descBlock g) (hne : g' ≠ g) :
    L.descOffset g + 32 ≤ L.descOffset g' ∨ L.descOffset g' + 32 ≤ L.descOffset g := by
  unfold descBlock at hb
  unfold descOffset
  have hq : g' / L.groupsPerBlock = g / L.groupsPerBlock := by omega
  have h₁ := Nat.div_add_mod g L.groupsPerBlock
  have h₂ := Nat.div_add_mod g' L.groupsPerBlock
  rw [hq] at h₂
  omega

end Layout

structure Charged (k : Kind) (d gdp : Bytes) : Prop where
  pointers : Bytes.Agree d gdp 0 12
  own : gdp.half k.half = d.half k.half - 1
  other : ∀ k', k' ≠ k → gdp.half k'.half = d.half k'.half

def lowered (sb : Bytes) (k : Kind) : Bytes := sb.setWord k.word (sb.word k.word - 1)

/-- The volume after a bit has been set and the counts have been lowered: what the code that
takes a block and the code that takes an inode have in common. -/
def marked (L : Layout) (v : Volume) (k : Kind) (g n : Nat) (gdp : Bytes) (given : Given) :
    Volume where
  dev := Function.update (Function.update (Function.update v.dev L.first (lowered v.ext2Sb k))
    (L.descBlock g) ((v.dev (L.descBlock g)).copy (L.descOffset g) 32 gdp)) (L.bitmap k g)
      ((v.dev (L.bitmap k g)).setBit n)
  ext2Sb := lowered v.ext2Sb k
  given := given :: v.given

section Marked
variable {gdp : Bytes} {given : Given}

theorem marked_dev : (marked L v k g n gdp given).dev =
    Function.update (Function.update (Function.update v.dev L.first (lowered v.ext2Sb k))
      (L.descBlock g) ((v.dev (L.descBlock g)).copy (L.descOffset g) 32 gdp)) (L.bitmap k g)
        ((v.dev (L.bitmap k g)).setBit n) := rfl

theorem marked_bitmap : (marked L v k g n gdp given).dev (L.bitmap k g) =
    (v.dev (L.bitmap k g)).setBit n := by
  rw [marked_dev, Function.update_self]

theorem marked_first (s : L.Sound) (hg : g < L.groups) :
    (marked L v k g n gdp given).dev L.first = lowered v.ext2Sb k := by
  rw [marked_dev, Function.update_of_ne (s.bitmap_ne_first hg k).symm,
    Function.update_of_ne (L.desc_ne_first g).symm, Function.update_self]

theorem marked_desc (s : L.Sound) (hg : g < L.groups) :
    (marked L v k g n gdp given).dev (L.descBlock g) =
      (v.dev (L.descBlock g)).copy (L.descOffset g) 32 gdp := by
  rw [marked_dev, Function.update_of_ne (s.bitmap_ne_desc hg hg k).symm, Function.update_self]

theorem marked_of {b : Nat} (h₁ : b ≠ L.first) (h₂ : b ≠ L.descBlock g) (h₃ : b ≠ L.bitmap k g) :
    (marked L v k g n gdp given).dev b = v.dev b := by
  rw [marked_dev, Function.update_of_ne h₃, Function.update_of_ne h₂, Function.update_of_ne h₁]

theorem marked_other (s : L.Sound) (hg : g < L.groups) {k' : Kind} {g' : Nat} (hg' : g' < L.groups)
    (hne : ¬(k' = k ∧ g' = g)) :
    (marked L v k g n gdp given).dev (L.bitmap k' g') = v.dev (L.bitmap k' g') := by
  apply marked_of (s.bitmap_ne_first hg' k') (s.bitmap_ne_desc hg' hg k')
  intro he
  exact hne (s.bitmap_inj hg' hg he)

theorem desc_eq (L : Layout) (v : Volume) (g : Nat) :
    L.desc v g = (v.dev (L.descBlock g)).view (L.descOffset g) := rfl

theorem replaced_desc {g' : Nat}
    (own : v'.dev (L.descBlock g) = (v.dev (L.descBlock g)).copy (L.descOffset g) 32 gdp)
    (other : L.descBlock g' ≠ L.descBlock g → v'.dev (L.descBlock g') = v.dev (L.descBlock g')) :
    Bytes.Agree (if g' = g then gdp else L.desc v g') (L.desc v' g') 0 32 := by
  intro x _ hx
  rw [desc_eq, Bytes.view]
  by_cases hb : L.descBlock g' = L.descBlock g
  · rw [hb, own]
    by_cases he : g' = g
    · subst he
      rw [if_pos rfl, Bytes.copy, if_pos (by omega), Nat.add_sub_cancel_left]
    · have := Layout.desc_apart hb he
      rw [if_neg he, Bytes.copy, if_neg (by omega), desc_eq, Bytes.view, hb]
  · have he : g' ≠ g := by
      intro he
      exact hb (by rw [he])
    rw [if_neg he, other hb, desc_eq, Bytes.view]

theorem marked_desc_agree (s : L.Sound) (hg : g < L.groups) {g' : Nat} (hg' : g' < L.groups) :
    Bytes.Agree (if g' = g then gdp else L.desc v g') (L.desc (marked L v k g n gdp given) g') 0 32 :=
  replaced_desc (marked_desc s hg) fun hb =>
    marked_of (L.desc_ne_first g') hb (s.bitmap_ne_desc hg hg' k).symm

end Marked

structure SameSuper (sb sb' : Bytes) : Prop where
  blocks : sb'.word 4 = sb.word 4
  first : sb'.word 20 = sb.word 20
  log : sb'.word 24 = sb.word 24
  blocksPerGroup : sb'.word 32 = sb.word 32
  inodesPerGroup : sb'.word 40 = sb.word 40
  inodeSize : sb'.half 88 = sb.half 88

theorem SameSuper.refl (sb : Bytes) : SameSuper sb sb := ⟨rfl, rfl, rfl, rfl, rfl, rfl⟩

theorem lowered_same (sb : Bytes) (k : Kind) : SameSuper sb (lowered sb k) := by
  cases k with
  | block =>
    refine ⟨?_, ?_, ?_, ?_, ?_, ?_⟩
    · exact Bytes.word_setWord_of _ (.inr (by decide))
    · exact Bytes.word_setWord_of _ (.inl (by decide))
    · exact Bytes.word_setWord_of _ (.inl (by decide))
    · exact Bytes.word_setWord_of _ (.inl (by decide))
    · exact Bytes.word_setWord_of _ (.inl (by decide))
    · exact Bytes.half_setWord_of _ (.inl (by decide))
  | inode =>
    refine ⟨?_, ?_, ?_, ?_, ?_, ?_⟩
    · exact Bytes.word_setWord_of _ (.inr (by decide))
    · exact Bytes.word_setWord_of _ (.inl (by decide))
    · exact Bytes.word_setWord_of _ (.inl (by decide))
    · exact Bytes.word_setWord_of _ (.inl (by decide))
    · exact Bytes.word_setWord_of _ (.inl (by decide))
    · exact Bytes.half_setWord_of _ (.inl (by decide))

theorem lowered_own (sb : Bytes) (k : Kind) : (lowered sb k).word k.word = sb.word k.word - 1 := by
  exact Bytes.word_setWord _

theorem lowered_other (sb : Bytes) {k k' : Kind} (h : k' ≠ k) :
    (lowered sb k).word k'.word = sb.word k'.word := by
  apply Bytes.word_setWord_of
  cases k <;> cases k' <;> simp [Kind.word] at h ⊢

theorem Formatted.congr (f : Formatted L v) (super : SameSuper v.ext2Sb v'.ext2Sb)
    (descs : ∀ g < L.groups, Bytes.Agree (L.desc v g) (L.desc v' g) 0 12) : Formatted L v' := by
  refine ⟨?_, ?_, ?_, ?_, ?_, ?_, ?_, ?_, ?_⟩
  · rw [Volume.logBlockSize, super.log]
    exact f.log
  · rw [Volume.firstDataBlock, super.first]
    exact f.first
  · rw [Volume.blocksCount, super.blocks]
    exact f.blocks
  · rw [Volume.blocksPerGroup, super.blocksPerGroup]
    exact f.blocksPerGroup
  · rw [Volume.inodesPerGroup, super.inodesPerGroup]
    exact f.inodesPerGroup
  · rw [Volume.inodeSize, super.inodeSize]
    exact f.inodeSize
  · intro g hg
    rw [(descs g hg).word (by decide) (by decide)]
    exact f.blockBitmap g hg
  · intro g hg
    rw [(descs g hg).word (by decide) (by decide)]
    exact f.inodeBitmap g hg
  · intro g hg
    rw [(descs g hg).word (by decide) (by decide)]
    exact f.inodeTable g hg

theorem marked_formatted {gdp : Bytes} {given : Given} (s : L.Sound) (f : Formatted L v)
    (hg : g < L.groups) (ch : Charged k (L.desc v g) gdp) :
    Formatted L (marked L v k g n gdp given) := by
  apply f.congr (lowered_same v.ext2Sb k)
  intro g' hg'
  have ha : Bytes.Agree (if g' = g then gdp else L.desc v g')
      (L.desc (marked L v k g n gdp given) g') 0 12 :=
    (marked_desc_agree s hg hg').mono le_rfl (by decide)
  by_cases he : g' = g
  · subst he
    rw [if_pos rfl] at ha
    exact ch.pointers.trans ha
  · rw [if_neg he] at ha
    exact ha

theorem marked_clears {gdp : Bytes} {given : Given} (hn : n < 8 * L.size)
    (clear : (v.dev (L.bitmap k g)).bit n = false) :
    L.clears (marked L v k g n gdp given) k g + 1 = L.clears v k g := by
  unfold Layout.clears
  rw [marked_bitmap]
  exact Bytes.clears_setBit hn clear

theorem marked_clears_of {gdp : Bytes} {given : Given} (s : L.Sound) (hg : g < L.groups)
    {k' : Kind} {g' : Nat} (hg' : g' < L.groups) (hne : ¬(k' = k ∧ g' = g)) :
    L.clears (marked L v k g n gdp given) k' g' = L.clears v k' g' := by
  unfold Layout.clears
  rw [marked_other s hg hg' hne]

theorem marked_half {gdp : Bytes} {given : Given} (s : L.Sound) (hg : g < L.groups) {k' : Kind}
    {g' : Nat} (hg' : g' < L.groups) :
    (L.desc (marked L v k g n gdp given) g').half k'.half =
      (if g' = g then gdp else L.desc v g').half k'.half := by
  apply (marked_desc_agree s hg hg').half
  · exact Nat.zero_le _
  · cases k' <;> decide

theorem toNat_sub_one {x : UInt16} (h : 0 < x.toNat) : (x - 1).toNat = x.toNat - 1 := by
  rw [UInt16.toNat_sub_of_le]
  · rfl
  · exact h

theorem toNat_sub_one' {x : UInt32} (h : 0 < x.toNat) : (x - 1).toNat = x.toNat - 1 := by
  rw [UInt32.toNat_sub_of_le]
  · rfl
  · exact h

theorem sum_lowered {f f' : Nat → Nat} {m : Nat} (hg : g < m) (own : f' g + 1 = f g)
    (other : ∀ g' < m, g' ≠ g → f' g' = f g') :
    ∑ i ∈ Finset.range m, f' i + 1 = ∑ i ∈ Finset.range m, f i := by
  have hmem : g ∈ Finset.range m := Finset.mem_range.mpr hg
  have rest : ∑ i ∈ (Finset.range m).erase g, f' i = ∑ i ∈ (Finset.range m).erase g, f i := by
    apply Finset.sum_congr rfl
    intro i hi
    have := Finset.mem_erase.mp hi
    exact other i (Finset.mem_range.mp this.2) this.1
  rw [← Finset.add_sum_erase _ _ hmem, ← Finset.add_sum_erase _ _ hmem, rest, ← own]
  omega

theorem marked_bit {gdp : Bytes} {given : Given} (s : L.Sound) (hg : g < L.groups) {k' : Kind}
    {g' : Nat} (hg' : g' < L.groups) (n' : Nat) :
    ((marked L v k g n gdp given).dev (L.bitmap k' g')).bit n' =
      (decide (k' = k ∧ g' = g ∧ n' = n) || (v.dev (L.bitmap k' g')).bit n') := by
  by_cases he : k' = k ∧ g' = g
  · obtain ⟨rfl, rfl⟩ := he
    rw [marked_bitmap, Bytes.bit_setBit]
    simp [eq_comm]
  · rw [marked_other s hg hg' he]
    have hne : ¬(k' = k ∧ g' = g ∧ n' = n) := fun h => he ⟨h.1, h.2.1⟩
    rw [decide_eq_false hne, Bool.false_or]

theorem Counted.marked {gdp : Bytes} {given : Given} (c : Counted L v) (s : L.Sound)
    (hg : g < L.groups) (hn : L.Counts k g n) (clear : (v.dev (L.bitmap k g)).bit n = false)
    (ch : Charged k (L.desc v g) gdp) : Counted L (marked L v k g n gdp given) := by
  have hbit := hn.lt_bits s
  have lower : L.clears (Ext2.marked L v k g n gdp given) k g + 1 = L.clears v k g :=
    marked_clears hbit clear
  refine ⟨marked_formatted s c.formatted hg ch, ?_, ?_, ?_, ?_⟩
  · intro k' g' hg' n' hn' hc
    rw [marked_bit s hg hg', c.padded k' g' hg' n' hn' hc, Bool.or_true]
  · intro m hm g' hg' n' hc hp
    have hu : (v.dev (L.bitmap .block g')).bit n' = true := c.metaUsed m hm g' hg' n' hc hp
    change ((Ext2.marked L v k g n gdp given).dev (L.bitmap .block g')).bit n' = true
    rw [marked_bit s hg hg', hu, Bool.or_true]
  · intro k' g' hg'
    rw [marked_half s hg hg']
    by_cases hge : g' = g
    · subst hge
      rw [if_pos rfl]
      by_cases hk : k' = k
      · subst hk
        have hd := c.groups k' g' hg'
        rw [ch.own, toNat_sub_one (by omega), hd]
        omega
      · rw [ch.other k' hk, c.groups k' g' hg', marked_clears_of s hg hg' fun h => hk h.1]
    · rw [if_neg hge, c.groups k' g' hg', marked_clears_of s hg hg' fun h => hge h.2]
  · intro k'
    by_cases hk : k' = k
    · subst hk
      have hsum : ∑ i ∈ Finset.range L.groups, L.clears (Ext2.marked L v k' g n gdp given) k' i + 1 =
          ∑ i ∈ Finset.range L.groups, L.clears v k' i :=
        sum_lowered hg lower fun g' hg' hne => marked_clears_of s hg hg' fun h => hne h.2
      have ht := c.total k'
      change ((lowered v.ext2Sb k').word k'.word).toNat = _
      rw [lowered_own, toNat_sub_one' (by omega), ht]
      omega
    · change ((lowered v.ext2Sb k).word k'.word).toNat = _
      rw [lowered_other _ hk, c.total k']
      apply Finset.sum_congr rfl
      intro g' hg'
      rw [marked_clears_of s hg (Finset.mem_range.mp hg') fun h => hk h.1]

def Meta.counted : Meta → Bool
  | .table _ _ => false
  | _ => true

theorem Counted.congr (c : Counted L v) (super : v'.ext2Sb = v.ext2Sb)
    (dev : ∀ m, L.Valid m → m.counted = true → v'.dev (L.place m) = v.dev (L.place m)) :
    Counted L v' := by
  have descs : ∀ g < L.groups, L.desc v' g = L.desc v g := by
    intro g hg
    rw [desc_eq, desc_eq, ← L.place_descs, dev _ (Layout.descs_valid hg) rfl]
  have bitmaps : ∀ k, ∀ g < L.groups, v'.dev (L.bitmap k g) = v.dev (L.bitmap k g) := by
    intro k g hg
    rw [← L.place_bitmap]
    apply dev _ (Layout.bitmap_valid hg k)
    cases k <;> rfl
  have clears : ∀ k, ∀ g < L.groups, L.clears v' k g = L.clears v k g := by
    intro k g hg
    rw [Layout.clears, bitmaps k g hg]
    rfl
  refine ⟨?_, ?_, ?_, ?_, ?_⟩
  · apply c.formatted.congr
    · rw [super]
      exact .refl _
    · intro g hg
      rw [descs g hg]
      exact .refl _ _ _
  · intro k g hg n hn hc
    rw [bitmaps k g hg]
    exact c.padded k g hg n hn hc
  · intro m hm g hg n hc hp
    have hb := bitmaps .block g hg
    rw [show v'.dev (L.blockBitmap g) = v.dev (L.blockBitmap g) from hb]
    exact c.metaUsed m hm g hg n hc hp
  · intro k g hg
    rw [descs g hg, clears k g hg]
    exact c.groups k g hg
  · intro k
    rw [super, c.total k]
    apply Finset.sum_congr rfl
    intro g hg
    rw [clears k g (Finset.mem_range.mp hg)]

def Kind.pointer : Kind → Nat
  | .block => 0
  | .inode => 4

theorem Formatted.pointer (f : Formatted L v) (hg : g < L.groups) (k : Kind) :
    ((L.desc v g).word k.pointer).toNat = L.bitmap k g := by
  cases k with
  | block => exact f.blockBitmap g hg
  | inode => exact f.inodeBitmap g hg

theorem Layout.Sound.number_lt (s : L.Sound) (k : Kind) (hg : g ≤ L.groups) (hn : n < 8 * L.size) :
    L.number k g n < 2 ^ 32 - 28 := by
  have hb := s.blocks_le
  have hi := s.inodes_lt
  have hsz := s.size_le
  have hgp := s.groups_pos
  unfold number
  cases k with
  | block =>
    have hl := s.last_group
    have hp := s.perGroup_le
    have hm : g * L.blocksPerGroup ≤ L.groups * L.blocksPerGroup := Nat.mul_le_mul_right _ hg
    have hs : (L.groups - 1) * L.blocksPerGroup + L.blocksPerGroup = L.groups * L.blocksPerGroup := by
      rw [← Nat.succ_mul, Nat.succ_eq_add_one, Nat.sub_add_cancel hgp]
    simp only [perGroup, start]
    omega
  | inode =>
    have hm : g * L.inodesPerGroup ≤ L.groups * L.inodesPerGroup := Nat.mul_le_mul_right _ hg
    unfold inodes at hi
    simp only [perGroup, start]
    omega

section Search
variable {perGroup starting : UInt32}

theorem Formatted.searched (f : Formatted L v) (s : L.Sound) (k : Kind) (hg : g < L.groups) :
    ext2BreadBlock v ((ext2GetGroupDesc v (UInt32.ofNat g)).word k.pointer) =
      v.dev (L.bitmap k g) := by
  have hsmall := s.groups_lt
  have hgn : (UInt32.ofNat g).toNat = g := by
    apply UInt32.toNat_ofNat_of_lt'
    simp only [UInt32.size]
    omega
  rw [f.getDesc s (by rw [hgn]; exact hg.le), hgn, ext2BreadBlock, f.pointer hg]

/-- A search looks at every group, and perhaps at one more than there is. -/
theorem Formatted.searched_groups (f : Formatted L v) (s : L.Sound) :
    L.groups ≤ (divCeil v.blocksCount v.blocksPerGroup).toNat ∧
      (divCeil v.blocksCount v.blocksPerGroup).toNat ≤ L.groups + 1 := by
  have hfirst := s.first_le
  have hp := s.perGroup_pos
  rw [divCeil_toNat _ (by rw [f.blocksPerGroup]; exact hp), f.blocks, f.blocksPerGroup]
  constructor
  · rw [Nat.le_div_iff_mul_le hp]
    have hl := s.last_group
    have hm : (L.groups - 1) * L.blocksPerGroup + L.blocksPerGroup =
        L.groups * L.blocksPerGroup := by
      rw [← Nat.succ_mul, Nat.succ_eq_add_one, Nat.sub_add_cancel s.groups_pos]
    omega
  · have ha := s.all_groups
    apply Nat.le_of_lt_succ
    rw [Nat.div_lt_iff_lt_mul hp, Nat.succ_mul, Nat.add_mul, one_mul]
    omega

theorem Layout.Sound.found_number (s : L.Sound) (hper : perGroup.toNat = L.perGroup k)
    (hstart : starting.toNat = L.start k) (hg : g ≤ L.groups) (hn : n < 8 * L.size) :
    (UInt32.ofNat g * perGroup + UInt32.ofNat n + starting).toNat = L.number k g n := by
  have hsmall := s.groups_lt
  have hsize := s.size_le
  have hnum := s.number_lt k hg hn
  have hgn : (UInt32.ofNat g).toNat = g := by
    apply UInt32.toNat_ofNat_of_lt'
    simp only [UInt32.size]
    omega
  have hnn : (UInt32.ofNat n).toNat = n := by
    apply UInt32.toNat_ofNat_of_lt'
    simp only [UInt32.size]
    omega
  unfold number at hnum ⊢
  rw [UInt32.toNat_add, UInt32.toNat_add, UInt32.toNat_mul, hgn, hnn, hper, hstart]
  omega

theorem findUnused_cases (f : Formatted L v) (s : L.Sound) (k : Kind)
    (hper : perGroup.toNat = L.perGroup k) (hstart : starting.toNat = L.start k) :
    (findUnused v (fun gdp => gdp.word k.pointer) perGroup starting = enospc ∧
      ∀ g < L.groups, ∀ n < 8 * L.size, (v.dev (L.bitmap k g)).bit n = true) ∨
    ∃ g n, g ≤ L.groups ∧ n < 8 * L.size ∧
      (g < L.groups → (v.dev (L.bitmap k g)).bit n = false) ∧
      (findUnused v (fun gdp => gdp.word k.pointer) perGroup starting).toNat = L.number k g n ∧
      ∀ g' < g, ∀ n < 8 * L.size, (v.dev (L.bitmap k g')).bit n = true := by
  obtain ⟨hlo, hhi⟩ := f.searched_groups s
  unfold findUnused
  cases hfound : (List.range (divCeil v.blocksCount v.blocksPerGroup).toNat).findSome? (fun group =>
      ((ext2BreadBlock v ((ext2GetGroupDesc v (UInt32.ofNat group)).word k.pointer)).firstClear
        v.blockSize.toNat).map
        fun n => UInt32.ofNat group * perGroup + UInt32.ofNat n + starting) with
  | none =>
    left
    simp only [hfound, Option.getD_none, true_and]
    intro g hg n hn
    have hnone := List.findSome?_eq_none_iff.mp hfound g (List.mem_range.mpr (by omega))
    rw [f.searched s k hg] at hnone
    exact Bytes.firstClear_none (Option.map_eq_none_iff.mp hnone) (by rwa [f.size s])
  | some r =>
    right
    obtain ⟨g, hg, hr, hbefore⟩ := findSome?_range hfound
    obtain ⟨n, hn, rfl⟩ := Option.map_eq_some_iff.mp hr
    have hgle : g ≤ L.groups := by omega
    obtain ⟨hlt, hclear⟩ := Bytes.firstClear_some hn
    rw [f.size s] at hlt
    refine ⟨g, n, hgle, hlt, ?_, ?_, ?_⟩
    · intro hgl
      rwa [f.searched s k hgl] at hclear
    · simp only [hfound, Option.getD_some]
      exact s.found_number hper hstart hgle hlt
    · intro g' hg' n' hn'
      have hnone := hbefore g' hg'
      rw [f.searched s k (by omega)] at hnone
      exact Bytes.firstClear_none (Option.map_eq_none_iff.mp hnone) (by rwa [f.size s])

end Search

theorem Layout.Sound.limit_le (s : L.Sound) (k : Kind) (n : Nat) :
    L.limit k ≤ L.number k L.groups n ∧ L.limit k < 2 ^ 32 - 28 := by
  have ha := s.all_groups
  have hb := s.blocks_le
  have hi := s.inodes_lt
  unfold number
  cases k with
  | block =>
    simp only [limit, perGroup, start]
    omega
  | inode =>
    simp only [inodes] at hi
    simp only [limit, perGroup, start, inodes]
    omega

theorem Counted.found (c : Counted L v) (s : L.Sound) (k : Kind) {perGroup starting : UInt32}
    (hper : perGroup.toNat = L.perGroup k) (hstart : starting.toNat = L.start k)
    (valid : (findUnused v (fun gdp => gdp.word k.pointer) perGroup starting).toNat < L.limit k) :
    ∃ g n, g < L.groups ∧ L.Counts k g n ∧ (v.dev (L.bitmap k g)).bit n = false ∧
      (findUnused v (fun gdp => gdp.word k.pointer) perGroup starting).toNat = L.number k g n := by
  rcases findUnused_cases c.formatted s k hper hstart with
    ⟨he, -⟩ | ⟨g, n, hg, hn, hclear, hnum, -⟩
  · have hl := (s.limit_le k 0).2
    rw [he] at valid
    have : enospc.toNat = 2 ^ 32 - 28 := by decide
    omega
  · have hgl : g < L.groups := by
      apply lt_of_le_of_ne hg
      intro he
      have hl := (s.limit_le k n).1
      rw [hnum, he] at valid
      omega
    have hbit := hclear hgl
    refine ⟨g, n, hgl, ?_, hbit, hnum⟩
    by_contra hc
    have := c.padded k g hgl n hn hc
    rw [hbit] at this
    cases this

theorem split_number {x per start : UInt32} {p t : Nat} (hx : x.toNat = g * p + n + t)
    (hp : per.toNat = p) (ht : start.toNat = t) (hn : n < p) :
    ((x - start) / per).toNat = g ∧ ((x - start) % per).toNat = n := by
  have hle : start ≤ x := by
    rw [UInt32.le_iff_toNat_le]
    omega
  have hsub : (x - start).toNat = g * p + n := by
    rw [UInt32.toNat_sub_of_le _ _ hle, hx, ht]
    omega
  rw [UInt32.toNat_div, UInt32.toNat_mod, hsub, hp]
  constructor
  · rw [Nat.mul_comm, Nat.mul_add_div (by omega), Nat.div_eq_of_lt hn, Nat.add_zero]
  · rw [Nat.mul_comm, Nat.mul_add_mod, Nat.mod_eq_of_lt hn]

theorem Formatted.split_block (f : Formatted L v) {x : UInt32}
    (hx : x.toNat = L.number .block g n) (hn : n < L.blocksPerGroup) :
    (v.groupFromBlock x).toNat = g ∧ (v.relativeBlockInGroup x).toNat = n :=
  split_number hx f.blocksPerGroup f.first hn

theorem Formatted.split_inode (f : Formatted L v) {x : UInt32}
    (hx : x.toNat = L.number .inode g n) (hn : n < L.inodesPerGroup) :
    (v.groupFromInode x).toNat = g ∧ (v.relativeInodeInGroup x).toNat = n :=
  split_number hx f.inodesPerGroup rfl hn

/-- The block bitmap of a descriptor is in the descriptor's own group. -/
theorem Formatted.bitmapGroup (f : Formatted L v) (s : L.Sound) (hg : g < L.groups) {b : UInt32}
    (hb : b.toNat = L.blockBitmap g) : (v.groupFromBlock b).toNat = g := by
  obtain ⟨lo, hi⟩ := s.own g hg
  have hx : b.toNat = L.number .block g (L.blockBitmap g - (L.first + g * L.blocksPerGroup)) := by
    simp only [Layout.number, Layout.perGroup, Layout.start]
    omega
  refine (f.split_block hx ?_).1
  rw [Nat.add_mul, one_mul] at hi
  omega

theorem Formatted.bitmapDescBlock (f : Formatted L v) (s : L.Sound) (hg : g < L.groups) {b : UInt32}
    (hb : b.toNat = L.blockBitmap g) :
    (groupDescBlock v (v.groupFromBlock b)).toNat = L.descBlock g := by
  have hgroup := f.bitmapGroup s hg hb
  rw [f.descBlock s (by omega), hgroup]
  rfl

theorem Formatted.writeDesc (f : Formatted L v) (s : L.Sound) (hg : g < L.groups) {gdp : Bytes}
    (hb : (gdp.word 0).toNat = L.blockBitmap g) :
    ext2WriteGroupDesc v gdp =
      { v with
        dev := Function.update v.dev (L.descBlock g)
          ((v.dev (L.descBlock g)).copy (L.descOffset g) 32 gdp) } := by
  have hgroup := f.bitmapGroup s hg hb
  have hblock := f.bitmapDescBlock s hg hb
  have hoff : groupDescOffset v (v.groupFromBlock (gdp.word 0)) = L.descOffset g := by
    rw [f.descOffset s, hgroup]
    rfl
  simp only [ext2WriteGroupDesc, ext2BwriteBlock, ext2BreadBlock, hblock, hoff]

theorem Formatted.writeSuper (f : Formatted L v) :
    ext2WriteSuper v = { v with dev := Function.update v.dev L.first v.ext2Sb } := by
  simp only [ext2WriteSuper, ext2BwriteBlock, f.first]

def charged (L : Layout) (v : Volume) (k : Kind) (given : Given) : Volume where
  dev := Function.update v.dev L.first (lowered v.ext2Sb k)
  ext2Sb := lowered v.ext2Sb k
  given := given :: v.given

theorem charged_desc (L : Layout) (v : Volume) (k : Kind) (given : Given) (g : Nat) :
    L.desc (charged L v k given) g = L.desc v g := by
  rw [desc_eq, desc_eq]
  simp only [charged]
  rw [Function.update_of_ne (L.desc_ne_first g)]

theorem Formatted.charged (f : Formatted L v) (k : Kind) (given : Given) :
    Formatted L (charged L v k given) := by
  apply f.congr (lowered_same v.ext2Sb k)
  intro g _
  rw [charged_desc]
  exact .refl _ _ _

theorem Formatted.writeLowered (f : Formatted L v) (k : Kind) (given : Given) :
    ext2WriteSuper { v with ext2Sb := lowered v.ext2Sb k, given := given :: v.given } =
      Ext2.charged L v k given := by
  have f' : Formatted L { v with ext2Sb := lowered v.ext2Sb k, given := given :: v.given } := by
    apply f.congr (lowered_same v.ext2Sb k)
    intro g _
    exact .refl _ _ _
  rw [f'.writeSuper]
  rfl

theorem Formatted.mark (f : Formatted L v) (s : L.Sound) (hg : g < L.groups) {gdp : Bytes}
    {given : Given} (ch : Charged k (L.desc v g) gdp) :
    let v' := ext2WriteGroupDesc (Ext2.charged L v k given) gdp
    ext2BwriteBlock v' (gdp.word k.pointer)
      ((ext2BreadBlock v' (gdp.word k.pointer)).setBit n) = marked L v k g n gdp given := by
  have hw : ∀ a, a + 4 ≤ 12 → gdp.word a = (L.desc v g).word a := by
    intro a ha
    exact ch.pointers.word (by omega) (by omega)
  have hb : (gdp.word 0).toNat = L.blockBitmap g := by
    rw [hw 0 (by decide)]
    exact f.blockBitmap g hg
  have hp : (gdp.word k.pointer).toNat = L.bitmap k g := by
    rw [hw k.pointer (by cases k <;> decide)]
    exact f.pointer hg k
  simp only [(f.charged k given).writeDesc s hg hb, ext2BwriteBlock, ext2BreadBlock, hp]
  simp only [Ext2.charged]
  rw [Function.update_of_ne (s.bitmap_ne_desc hg hg k),
    Function.update_of_ne (s.bitmap_ne_first hg k), Function.update_of_ne (L.desc_ne_first g)]
  rfl

theorem charged_setHalf (d : Bytes) (k : Kind) :
    Charged k d (d.setHalf k.half (d.half k.half - 1)) := by
  refine ⟨?_, ?_, ?_⟩
  · apply Bytes.setHalf_agree
    cases k <;> decide
  · exact Bytes.half_setHalf _
  · intro k' hk
    apply Bytes.half_setHalf_of
    cases k <;> cases k' <;> simp [Kind.half] at hk ⊢

def Layout.InUse (L : Layout) (v : Volume) (k : Kind) (x : Nat) : Prop :=
  ∃ g n, g < L.groups ∧ L.Counts k g n ∧ x = L.number k g n ∧ (v.dev (L.bitmap k g)).bit n = true

theorem Layout.number_inj {g' n' : Nat} (hn : n < L.perGroup k) (hn' : n' < L.perGroup k)
    (h : L.number k g n = L.number k g' n') : g = g' ∧ n = n' := by
  unfold number at h
  have he : g * L.perGroup k + n = g' * L.perGroup k + n' := by omega
  have hg : g = g' := by
    have hd : (g * L.perGroup k + n) / L.perGroup k = (g' * L.perGroup k + n') / L.perGroup k := by
      rw [he]
    rwa [Nat.mul_comm, Nat.mul_add_div (by omega), Nat.div_eq_of_lt hn, Nat.mul_comm g',
      Nat.mul_add_div (by omega), Nat.div_eq_of_lt hn'] at hd
  subst hg
  exact ⟨rfl, by omega⟩

/-- What it means that the volume `v'` has taken the number `x`, which was free in `v`. -/
structure Took (L : Layout) (v v' : Volume) (k : Kind) (x : Nat) : Prop where
  counted : Counted L v'
  inside : L.start k ≤ x ∧ x < L.limit k
  fresh : ¬L.InUse v k x
  uses : ∀ k' y, L.InUse v' k' y ↔ L.InUse v k' y ∨ (k' = k ∧ y = x)
  super : SameSuper v.ext2Sb v'.ext2Sb
  onDisk : v'.dev L.first = v'.ext2Sb
  frame : ∀ b, (k = .block → b ≠ x) → (∀ m, L.Valid m → m.counted = true → b ≠ L.place m) →
    v'.dev b = v.dev b

theorem Counted.meta_inUse (c : Counted L v) (s : L.Sound) {m : Meta} (hm : L.Valid m) :
    L.InUse v .block (L.place m) := by
  obtain ⟨lo, hi⟩ := s.inside m hm
  have hp := s.perGroup_pos
  have ha := s.all_groups
  have hd := Nat.div_add_mod (L.place m - L.first) L.blocksPerGroup
  have hr := Nat.mod_lt (L.place m - L.first) hp
  have hg : (L.place m - L.first) / L.blocksPerGroup < L.groups := by
    rw [Nat.div_lt_iff_lt_mul hp]
    omega
  have hx : L.place m = L.number .block ((L.place m - L.first) / L.blocksPerGroup)
      ((L.place m - L.first) % L.blocksPerGroup) := by
    simp only [Layout.number, Layout.perGroup, Layout.start]
    rw [Nat.mul_comm]
    omega
  have hc : L.Counts .block ((L.place m - L.first) / L.blocksPerGroup)
      ((L.place m - L.first) % L.blocksPerGroup) := ⟨hr, hx ▸ hi⟩
  exact ⟨_, _, hg, hc, hx, c.metaUsed m hm _ hg _ hc hx⟩

theorem number_inside (hn : L.Counts k g n) :
    L.start k ≤ L.number k g n ∧ L.number k g n < L.limit k := by
  refine ⟨?_, hn.2⟩
  exact Nat.le_add_left _ _

theorem number_fresh (hn : L.Counts k g n) (clear : (v.dev (L.bitmap k g)).bit n = false) :
    ¬L.InUse v k (L.number k g n) := by
  intro ⟨g', n', _, hc, he, hb⟩
  obtain ⟨rfl, rfl⟩ := Layout.number_inj hn.1 hc.1 he
  rw [clear] at hb
  cases hb

theorem marked_uses {gdp : Bytes} {given : Given} (s : L.Sound) (hg : g < L.groups)
    (hn : L.Counts k g n) (k' : Kind) (y : Nat) :
    L.InUse (marked L v k g n gdp given) k' y ↔
      L.InUse v k' y ∨ (k' = k ∧ y = L.number k g n) := by
  constructor
  · intro ⟨g', n', hg', hc, hy, hb⟩
    rw [marked_bit s hg hg', Bool.or_eq_true, decide_eq_true_iff] at hb
    rcases hb with ⟨rfl, rfl, rfl⟩ | hb
    · exact .inr ⟨rfl, hy⟩
    · exact .inl ⟨g', n', hg', hc, hy, hb⟩
  · rintro (⟨g', n', hg', hc, hy, hb⟩ | ⟨rfl, rfl⟩)
    · refine ⟨g', n', hg', hc, hy, ?_⟩
      rw [marked_bit s hg hg', hb, Bool.or_true]
    · refine ⟨g, n, hg, hn, rfl, ?_⟩
      rw [marked_bit s hg hg, decide_eq_true ⟨rfl, rfl, rfl⟩, Bool.true_or]

theorem marked_took {gdp : Bytes} {given : Given} (c : Counted L v) (s : L.Sound)
    (hg : g < L.groups) (hn : L.Counts k g n) (clear : (v.dev (L.bitmap k g)).bit n = false)
    (ch : Charged k (L.desc v g) gdp) :
    Took L v (marked L v k g n gdp given) k (L.number k g n) := by
  refine ⟨c.marked s hg hn clear ch, number_inside hn, number_fresh hn clear,
    marked_uses s hg hn, lowered_same _ _, marked_first s hg, ?_⟩
  intro b _ hb
  apply marked_of
  · exact hb .super trivial rfl
  · exact hb _ (Layout.descs_valid hg) rfl
  · have := hb _ (Layout.bitmap_valid hg k) (by cases k <;> rfl)
    rwa [L.place_bitmap] at this

theorem Took.clear {x : Nat} (t : Took L v v' .block x) (c : Counted L v) (s : L.Sound) :
    Took L v { v' with dev := Function.update v'.dev x fun _ => 0 } .block x := by
  have apart : ∀ m, L.Valid m → L.place m ≠ x := by
    intro m hm he
    exact t.fresh (he ▸ c.meta_inUse s hm)
  have keep : ∀ m, L.Valid m → Function.update v'.dev x (fun _ => 0) (L.place m) =
      v'.dev (L.place m) := fun m hm => Function.update_of_ne (apart m hm) _ _
  have uses : ∀ k' y, L.InUse { v' with dev := Function.update v'.dev x fun _ => 0 } k' y ↔
      L.InUse v' k' y := by
    intro k' y
    have same : ∀ g < L.groups, Function.update v'.dev x (fun _ => 0) (L.bitmap k' g) =
        v'.dev (L.bitmap k' g) := by
      intro g hg
      rw [← L.place_bitmap]
      exact keep _ (Layout.bitmap_valid hg k')
    constructor
    · intro ⟨g, n, hg, hc, hy, hb⟩
      exact ⟨g, n, hg, hc, hy, by simpa only [same g hg] using hb⟩
    · intro ⟨g, n, hg, hc, hy, hb⟩
      exact ⟨g, n, hg, hc, hy, by simpa only [same g hg] using hb⟩
  refine ⟨t.counted.congr rfl fun m hm _ => keep m hm, t.inside, t.fresh, ?_, t.super, ?_, ?_⟩
  · intro k' y
    rw [uses, t.uses]
  · exact (keep .super trivial).trans t.onDisk
  · intro b hx hb
    simp only
    rw [Function.update_of_ne (hx rfl), t.frame b hx hb]

theorem createBlock_eq (f : Formatted L v) (s : L.Sound) (hg : g < L.groups)
    (hn : L.Counts .block g n) (hx : (findUnusedBlockNumber v).toNat = L.number .block g n) :
    (ext2CreateBlock v).2 =
      { marked L v .block g n ((L.desc v g).setHalf 12 ((L.desc v g).half 12 - 1))
          (.block (findUnusedBlockNumber v)) with
        dev := Function.update (marked L v .block g n
          ((L.desc v g).setHalf 12 ((L.desc v g).half 12 - 1))
          (.block (findUnusedBlockNumber v))).dev (L.number .block g n) fun _ => 0 } := by
  unfold ext2CreateBlock
  generalize findUnusedBlockNumber v = b at hx ⊢
  have f' := f.charged .block (.block b)
  obtain ⟨hgroup, hrel⟩ := f'.split_block hx hn.1
  have hsuper : ext2WriteSuper { v with
      ext2Sb := v.ext2Sb.setWord 12 (v.freeBlocksCount - 1)
      given := .block b :: v.given } = charged L v .block (.block b) :=
    f.writeLowered .block (.block b)
  have hdesc : ext2GetGroupDesc (charged L v .block (.block b))
      ((charged L v .block (.block b)).groupFromBlock b) = L.desc v g := by
    rw [f'.getDesc s (by omega), hgroup, charged_desc]
  have hmark : _ = marked L v .block g n ((L.desc v g).setHalf 12 ((L.desc v g).half 12 - 1))
      (.block b) := f.mark s hg (charged_setHalf (L.desc v g) .block)
  simp only [hsuper, hdesc]
  rw [show ((ext2WriteGroupDesc (charged L v .block (.block b))
    ((L.desc v g).setHalf 12 ((L.desc v g).half 12 - 1))).relativeBlockInGroup b).toNat = n
      from hrel]
  refine (congrArg (fun m => ext2BwriteBlock m b fun _ => 0) hmark).trans ?_
  simp only [ext2BwriteBlock, hx]

theorem createBlock_took (c : Counted L v) (s : L.Sound)
    (valid : (ext2CreateBlock v).1.toNat < L.blocks) :
    Took L v (ext2CreateBlock v).2 .block (ext2CreateBlock v).1.toNat ∧
      (ext2CreateBlock v).2.given = .block (ext2CreateBlock v).1 :: v.given ∧
      (ext2CreateBlock v).2.dev (ext2CreateBlock v).1.toNat = fun _ => 0 := by
  obtain ⟨g, n, hg, hn, clear, hx⟩ :=
    c.found s .block c.formatted.blocksPerGroup c.formatted.first valid
  have hx' : (ext2CreateBlock v).1.toNat = L.number .block g n := hx
  rw [hx', createBlock_eq c.formatted s hg hn hx]
  refine ⟨Took.clear (marked_took c s hg hn clear (charged_setHalf (L.desc v g) .block)) c s,
    rfl, ?_⟩
  simp only
  rw [Function.update_self]

theorem takeInode_eq (f : Formatted L v) (s : L.Sound) (hg : g < L.groups)
    (hn : L.Counts .inode g n) (hx : (findUnusedInodeNumber v).toNat = L.number .inode g n)
    (mode : UInt16) :
    ∃ gdp, Charged .inode (L.desc v g) gdp ∧
      (takeInode v mode).2 = marked L v .inode g n gdp (.inode (findUnusedInodeNumber v)) := by
  unfold takeInode
  generalize findUnusedInodeNumber v = b at hx ⊢
  have f' := f.charged .inode (.inode b)
  have hgroup := (f.split_inode hx hn.1).1
  have hrel := (f'.split_inode hx hn.1).2
  have hsuper : ext2WriteSuper { v with
      ext2Sb := v.ext2Sb.setWord 16 (v.freeInodesCount - 1)
      given := .inode b :: v.given } = charged L v .inode (.inode b) :=
    f.writeLowered .inode (.inode b)
  have hdesc : ext2GetGroupDesc v (v.groupFromInode b) = L.desc v g := by
    rw [f.getDesc s (by omega), hgroup]
  simp only [hsuper, hdesc]
  have ch : Charged .inode (L.desc v g) (if sIsDir mode then
      ((L.desc v g).setHalf 14 ((L.desc v g).half 14 - 1)).setHalf 16
        (((L.desc v g).setHalf 14 ((L.desc v g).half 14 - 1)).half 16 + 1)
      else (L.desc v g).setHalf 14 ((L.desc v g).half 14 - 1)) := by
    have base := charged_setHalf (L.desc v g) .inode
    split
    · refine ⟨base.pointers.trans (Bytes.setHalf_agree _ (by decide)), ?_, ?_⟩
      · exact base.own
      · intro k' hk
        cases k' with
        | block =>
          exact base.other .block hk
        | inode => exact absurd rfl hk
    · exact base
  refine ⟨_, ch, ?_⟩
  rw [show ((ext2WriteGroupDesc (charged L v .inode (.inode b)) _).relativeInodeInGroup b).toNat = n
    from hrel]
  exact f.mark s hg ch

theorem takeInode_took (c : Counted L v) (s : L.Sound) (mode : UInt16)
    (valid : (takeInode v mode).1.toNat ≤ L.inodes) :
    Took L v (takeInode v mode).2 .inode (takeInode v mode).1.toNat ∧
      (takeInode v mode).2.given = .inode (takeInode v mode).1 :: v.given := by
  obtain ⟨g, n, hg, hn, clear, hx⟩ :=
    c.found s .inode c.formatted.inodesPerGroup rfl (Nat.lt_succ_of_le valid)
  obtain ⟨gdp, ch, he⟩ := takeInode_eq c.formatted s hg hn hx mode
  have hx' : (takeInode v mode).1.toNat = L.number .inode g n := hx
  rw [hx', he]
  exact ⟨marked_took c s hg hn clear ch, rfl⟩

end Mos.Ext2

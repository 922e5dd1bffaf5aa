import Mos.Fs.Ext2

namespace Mos.Ext2
open Machine Memory

/-- Where a file system keeps its data structures: the sizes of the superblock and, for
each group, the blocks of its bitmaps and the first block of its inode table. -/
structure Layout where
  log : Nat
  first : Nat
  blocks : Nat
  blocksPerGroup : Nat
  inodesPerGroup : Nat
  inodeSize : Nat
  groups : Nat
  blockBitmap : Nat → Nat
  inodeBitmap : Nat → Nat
  inodeTable : Nat → Nat

inductive Meta where
  | super
  | descs (k : Nat)
  | blockBitmap (group : Nat)
  | inodeBitmap (group : Nat)
  | table (group k : Nat)
  deriving DecidableEq

namespace Layout

def size (L : Layout) : Nat := 1024 * 2 ^ L.log
def groupsPerBlock (L : Layout) : Nat := L.size / 32
def inodesPerBlock (L : Layout) : Nat := L.size / L.inodeSize
def inodes (L : Layout) : Nat := L.groups * L.inodesPerGroup

def Valid (L : Layout) : Meta → Prop
  | .super => True
  | .descs k => k ≤ (L.groups - 1) / L.groupsPerBlock
  | .blockBitmap group => group < L.groups
  | .inodeBitmap group => group < L.groups
  | .table group k => group < L.groups ∧ k ≤ (L.inodesPerGroup - 1) / L.inodesPerBlock

def place (L : Layout) : Meta → Nat
  | .super => L.first
  | .descs k => L.first + 1 + k
  | .blockBitmap group => L.blockBitmap group
  | .inodeBitmap group => L.inodeBitmap group
  | .table group k => L.inodeTable group + k

/-- The sizes fit together, every block bitmap is in its own group, and no two data
structures share a block. -/
structure Sound (L : Layout) : Prop where
  log_le : L.log ≤ 2
  first_le : L.first ≤ 1
  blocks_le : L.blocks ≤ 2 ^ 31
  groups_pos : 0 < L.groups
  last_group : L.first + (L.groups - 1) * L.blocksPerGroup < L.blocks
  all_groups : L.blocks ≤ L.first + L.groups * L.blocksPerGroup
  perGroup_pos : 0 < L.blocksPerGroup
  perGroup_le : L.blocksPerGroup ≤ 8 * L.size
  inodes_pos : 0 < L.inodesPerGroup
  inodes_le : L.inodesPerGroup ≤ 8 * L.size
  inodes_lt : L.inodes < 2 ^ 32 - 2 ^ 16
  inodeSize_ge : 128 ≤ L.inodeSize
  inodeSize_le : L.inodeSize ≤ L.size
  own : ∀ g < L.groups, L.first + g * L.blocksPerGroup ≤ L.blockBitmap g ∧
    L.blockBitmap g < L.first + (g + 1) * L.blocksPerGroup
  inside : ∀ m, L.Valid m → L.first ≤ L.place m ∧ L.place m < L.blocks
  apart : ∀ m m', L.Valid m → L.Valid m' → L.place m = L.place m' → m = m'

def desc (L : Layout) (v : Volume) (g : Nat) : Bytes :=
  (v.dev (L.first + 1 + g / L.groupsPerBlock)).view (g % L.groupsPerBlock * 32)

end Layout

/-- The superblock in memory and the pointers of the descriptors say where things are. -/
structure Formatted (L : Layout) (v : Volume) : Prop where
  log : v.logBlockSize.toNat = L.log
  first : v.firstDataBlock.toNat = L.first
  blocks : v.blocksCount.toNat = L.blocks
  blocksPerGroup : v.blocksPerGroup.toNat = L.blocksPerGroup
  inodesPerGroup : v.inodesPerGroup.toNat = L.inodesPerGroup
  inodeSize : v.inodeSize.toNat = L.inodeSize
  blockBitmap : ∀ g < L.groups, ((L.desc v g).word 0).toNat = L.blockBitmap g
  inodeBitmap : ∀ g < L.groups, ((L.desc v g).word 4).toNat = L.inodeBitmap g
  inodeTable : ∀ g < L.groups, ((L.desc v g).word 8).toNat = L.inodeTable g

section Numbers
variable {L : Layout} {v : Volume}

theorem Layout.Sound.size_cases (s : L.Sound) : L.size = 1024 ∨ L.size = 2048 ∨ L.size = 4096 := by
  have h := s.log_le
  unfold Layout.size
  obtain h | h | h : L.log = 0 ∨ L.log = 1 ∨ L.log = 2 := by omega
  · rw [h]
    simp
  · rw [h]
    simp
  · rw [h]
    simp

theorem Layout.Sound.groups_lt (s : L.Sound) : L.groups ≤ 2 ^ 31 := by
  have h₁ := s.last_group
  have h₂ := s.blocks_le
  have h₄ : L.groups - 1 ≤ (L.groups - 1) * L.blocksPerGroup := Nat.le_mul_of_pos_right _ s.perGroup_pos
  omega

theorem Formatted.size (f : Formatted L v) (s : L.Sound) : v.blockSize.toNat = L.size := by
  have hlog := f.log
  have hle := s.log_le
  unfold Volume.blockSize Layout.size
  rw [UInt32.toNat_shiftLeft, hlog]
  obtain h | h | h : L.log = 0 ∨ L.log = 1 ∨ L.log = 2 := by omega
  · rw [h]
    rfl
  · rw [h]
    rfl
  · rw [h]
    rfl

theorem Formatted.groupsPerBlock (f : Formatted L v) (s : L.Sound) :
    v.groupsPerBlock.toNat = L.groupsPerBlock := by
  rw [Volume.groupsPerBlock, UInt32.toNat_div, f.size s]
  rfl

theorem Formatted.inodesPerBlock (f : Formatted L v) (s : L.Sound) :
    v.inodesPerBlock.toNat = L.inodesPerBlock := by
  rw [Volume.inodesPerBlock, UInt32.toNat_div, f.size s, UInt16.toNat_toUInt32, f.inodeSize]
  rfl

theorem Layout.Sound.groupsPerBlock_pos (s : L.Sound) : 0 < L.groupsPerBlock := by
  unfold Layout.groupsPerBlock
  rcases s.size_cases with h | h | h <;> omega

theorem Layout.Sound.inodesPerBlock_pos (s : L.Sound) : 0 < L.inodesPerBlock :=
  Nat.div_pos s.inodeSize_le (Nat.lt_of_lt_of_le (by decide) s.inodeSize_ge)

theorem Layout.descs_valid {g : Nat} (h : g < L.groups) : L.Valid (.descs (g / L.groupsPerBlock)) :=
  Nat.div_le_div_right (by omega)

theorem Formatted.descBlock (f : Formatted L v) (s : L.Sound) {group : UInt32}
    (h : group.toNat ≤ L.groups) :
    (groupDescBlock v group).toNat = L.first + 1 + group.toNat / L.groupsPerBlock := by
  have h₁ := s.first_le
  have h₂ := s.groups_lt
  have h₃ := Nat.div_le_self group.toNat L.groupsPerBlock
  rw [groupDescBlock, UInt32.toNat_add, UInt32.toNat_add, UInt32.toNat_div, f.first,
    f.groupsPerBlock s, UInt32.toNat_one]
  generalize group.toNat / L.groupsPerBlock = q at *
  omega

theorem Formatted.descOffset (f : Formatted L v) (s : L.Sound) (group : UInt32) :
    groupDescOffset v group = group.toNat % L.groupsPerBlock * 32 := by
  have h₁ := Nat.mod_lt group.toNat s.groupsPerBlock_pos
  have h₂ : L.groupsPerBlock ≤ 128 := by
    unfold Layout.groupsPerBlock
    rcases s.size_cases with h | h | h <;> omega
  rw [groupDescOffset, UInt32.toNat_mul, UInt32.toNat_mod, f.groupsPerBlock s]
  change _ * 32 % 2 ^ 32 = _
  omega

theorem Formatted.getDesc (f : Formatted L v) (s : L.Sound) {group : UInt32}
    (h : group.toNat ≤ L.groups) : ext2GetGroupDesc v group = L.desc v group.toNat := by
  rw [ext2GetGroupDesc, ext2BreadBlock, f.descBlock s h, f.descOffset s]
  rfl

end Numbers

end Mos.Ext2

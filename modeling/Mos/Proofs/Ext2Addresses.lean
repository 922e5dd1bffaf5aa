import Mos.Proofs.Ext2Sample

namespace Mos.Ext2
open Machine Memory

variable {L : Layout} {v : Volume} {i : VfsInode} {ino ino' : UInt32} {gdp : Bytes} {g g' : Nat}

def Layout.inodeByte (L : Layout) (x : Nat) : Nat :=
  L.inodeTable ((x - 1) / L.inodesPerGroup) * L.size + (x - 1) % L.inodesPerGroup * L.inodeSize

def inodeByte (v : Volume) (ino : UInt32) : Nat :=
  v.deviceBlock (inodeBlock v.seen ino) * v.blockSize.toNat + inodeOffset v ino

def VfsInode.onDisk (i : VfsInode) : VfsInode :=
  { i with
    nlink := i.nlink.toUInt16.toUInt32
    uid := i.uid.toUInt16.toUInt32
    gid := i.gid.toUInt16.toUInt32
    rdev := if sIsChr i.mode then i.rdev else 0 }

def SameInode (v v' : Volume) (ino : UInt32) : Prop :=
  Bytes.Agree (ext2GetInode v.seen ino) (ext2GetInode v'.seen ino) 0 128

def SameDesc (v v' : Volume) (group : UInt32) : Prop :=
  Bytes.Agree (ext2GetGroupDesc v.seen group) (ext2GetGroupDesc v'.seen group) 0 32

/-- Inodes are where the format has them and do not overlap. An inode or a descriptor that has
been written is read back, and the others are left as they are; a descriptor keeps its pointers. -/
structure Addressed (L : Layout) (v : Volume) : Prop where
  place : ∀ ino : UInt32, L.IsInode ino.toNat → inodeByte v ino = L.inodeByte ino.toNat
  apart : ∀ ino ino' : UInt32, L.IsInode ino.toNat → L.IsInode ino'.toNat → ino ≠ ino' →
    inodeByte v ino + L.inodeSize ≤ inodeByte v ino' ∨
      inodeByte v ino' + L.inodeSize ≤ inodeByte v ino
  inode : ∀ i : VfsInode, L.IsInode i.ino.toNat →
    (∃ raw, ext2ReadInode (v.writeInode i).seen i.ino = { i.onDisk with raw } ∧
      Bytes.Agree i.stored raw 0 128) ∧
    (∀ ino : UInt32, L.IsInode ino.toNat → ino ≠ i.ino → SameInode v (v.writeInode i) ino) ∧
    ∀ group : UInt32, group.toNat < L.groups → SameDesc v (v.writeInode i) group
  desc : ∀ (group : UInt32) (gdp : Bytes), group.toNat < L.groups →
    Bytes.Agree (ext2GetGroupDesc v.seen group) gdp 0 12 →
    Bytes.Agree gdp (ext2GetGroupDesc (v.writeGroupDesc gdp).seen group) 0 32 ∧
    (∀ other : UInt32, other.toNat < L.groups → other ≠ group →
      SameDesc v (v.writeGroupDesc gdp) other) ∧
    ∀ ino : UInt32, L.IsInode ino.toNat → SameInode v (v.writeGroupDesc gdp) ino

/-- The geometries in which the size of `struct ext2_inode` does not matter, or is right. -/
def Layout.Plain (L : Layout) : Prop :=
  L.inodeSize = 128 ∨ L.inodeSize = L.size ∨ L.inodesPerGroup = 1

theorem Layout.Sound.inodeOff_plain (s : L.Sound) (plain : L.Plain) (x : Nat) :
    L.inodeOff x + L.inodeSize ≤ L.size ∧ (L.inodeSize = 128 ∨ L.inodeOff x = 0) := by
  rcases plain with h | h | h
  · exact ⟨h ▸ s.inodeOff_le x, .inl h⟩
  · have hone : L.inodesPerBlock = 1 := by
      rw [Layout.inodesPerBlock, h, Nat.div_self (Nat.lt_of_lt_of_le (by decide) (h ▸ s.inodeSize_ge))]
    have hz : L.inodeOff x = 0 := by rw [Layout.inodeOff, hone, Nat.mod_one, Nat.zero_mul]
    exact ⟨by rw [hz, h, Nat.zero_add], .inr hz⟩
  · have hz : L.inodeOff x = 0 := by rw [Layout.inodeOff, h, Nat.mod_one, Nat.zero_mod, Nat.zero_mul]
    exact ⟨by rw [hz, Nat.zero_add]; exact s.inodeSize_le, .inr hz⟩

theorem Layout.Sound.inodeByte_plain (s : L.Sound) (dvd : L.inodeSize ∣ L.size) (plain : L.Plain)
    (x : Nat) : L.place (L.inodeHome x) * L.size + L.inodeOff x = L.inodeByte x := by
  have hsize : L.inodesPerBlock * L.inodeSize = L.size := Nat.div_mul_cancel dvd
  simp only [Layout.inodeHome, Layout.inodeByte, Layout.place, Nat.add_mul, Nat.add_assoc]
  congr 1
  have hr := Nat.div_add_mod ((x - 1) % L.inodesPerGroup) L.inodesPerBlock
  rcases (s.inodeOff_plain plain x).2 with h | hz
  · rw [h] at hsize ⊢
    unfold Layout.inodeOff
    calc
      _ = (L.inodesPerBlock * ((x - 1) % L.inodesPerGroup / L.inodesPerBlock) +
          (x - 1) % L.inodesPerGroup % L.inodesPerBlock) * 128 := by rw [← hsize]; ring
      _ = _ := by rw [hr]
  · have hm : (x - 1) % L.inodesPerGroup % L.inodesPerBlock = 0 :=
      (Nat.mul_eq_zero.mp hz).resolve_right (by decide)
    rw [hm] at hr
    calc
      _ = (L.inodesPerBlock * ((x - 1) % L.inodesPerGroup / L.inodesPerBlock) + 0) *
          L.inodeSize := by rw [hz, ← hsize]; ring
      _ = _ := by rw [hr]

/-- The sectors of every block that has an inode have numbers of 32 bits. -/
def Layout.Reached (L : Layout) : Prop :=
  ∀ x, L.IsInode x → L.place (L.inodeHome x) * (L.size / 512) < 2 ^ 32

theorem Layout.Sound.sectors_le (s : L.Sound) : 2 ≤ L.size / 512 ∧ L.size / 512 ≤ 8 := by
  rcases s.size_cases with h | h | h <;> omega

/-- So it is on every volume whose size in sectors has 32 bits. -/
theorem Layout.Sound.reached (s : L.Sound) (h : L.blocks * (L.size / 512) ≤ 2 ^ 32) : L.Reached := by
  intro x hx
  have hlt := (s.inside _ (s.inodeHome_valid hx)).2
  have := Nat.mul_lt_mul_of_pos_right hlt (Nat.lt_of_lt_of_le (by decide) s.sectors_le.1)
  omega

theorem Formatted.deviceBlock (f : Formatted L v) (s : L.Sound) (block : UInt32) :
    v.deviceBlock block = block.toNat * (L.size / 512) % 2 ^ 32 / (L.size / 512) := by
  have hk : (v.blockSize / 512).toNat = L.size / 512 := by
    rw [UInt32.toNat_div, f.size s]
    rfl
  rw [Volume.deviceBlock, UInt32.toNat_mul, hk]

/-- A block is found at its place exactly if the numbers of its sectors have 32 bits. -/
theorem Formatted.deviceBlock_iff (f : Formatted L v) (s : L.Sound) (block : UInt32) :
    v.deviceBlock block = block.toNat ↔ block.toNat * (L.size / 512) < 2 ^ 32 := by
  have hk := s.sectors_le.1
  rw [f.deviceBlock s]
  constructor
  · intro h
    by_contra hge
    have hlt : block.toNat * (L.size / 512) % 2 ^ 32 < L.size / 512 * block.toNat := by
      rw [Nat.mul_comm (L.size / 512)]
      exact Nat.lt_of_lt_of_le (Nat.mod_lt _ (by decide)) (Nat.le_of_not_lt hge)
    have := Nat.div_lt_of_lt_mul hlt
    omega
  · intro h
    rw [Nat.mod_eq_of_lt h, Nat.mul_div_cancel _ (by omega)]

/-- The descriptors are always found: there are few blocks of them. -/
theorem Layout.Sound.descs_reached (s : L.Sound) (hg : g < L.groups) :
    (L.first + 1 + g / L.groupsPerBlock) * (L.size / 512) < 2 ^ 32 := by
  have h₁ := s.first_le
  have h₂ := s.groups_lt
  have h₃ := s.sectors_le.2
  have h₄ : 32 ≤ L.groupsPerBlock := by
    unfold Layout.groupsPerBlock
    rcases s.size_cases with h | h | h <;> omega
  have h₅ : g / L.groupsPerBlock ≤ g / 32 := Nat.div_le_div_left h₄ (by decide)
  have h₆ : L.first + 1 + g / L.groupsPerBlock ≤ 2 ^ 26 + 2 := by omega
  calc
    _ ≤ (2 ^ 26 + 2) * 8 := Nat.mul_le_mul h₆ h₃
    _ < 2 ^ 32 := by decide

theorem Formatted.seen_dev (f : Formatted L v) (s : L.Sound) {b : Nat}
    (h : b * (L.size / 512) < 2 ^ 32) : v.seen.dev b = v.dev b := by
  have hb : b < 2 ^ 32 := by
    have := Nat.le_mul_of_pos_right b (Nat.lt_of_lt_of_le (by decide) s.sectors_le.1)
    omega
  have hn : (UInt32.ofNat b).toNat = b := UInt32.toNat_ofNat_of_lt' hb
  have hd := (f.deviceBlock_iff s (UInt32.ofNat b)).mpr (by rwa [hn])
  rw [hn] at hd
  exact congrArg v.dev hd

theorem Formatted.seen_desc (f : Formatted L v) (s : L.Sound) (hg : g < L.groups) :
    L.desc v.seen g = L.desc v g := by
  rw [Layout.desc, Layout.desc, f.seen_dev s (s.descs_reached hg)]

theorem Formatted.seen (f : Formatted L v) (s : L.Sound) : Formatted L v.seen := by
  refine f.congr (.refl _) fun g hg => ?_
  rw [f.seen_desc s hg]
  exact .refl _ _ _

theorem Formatted.inodeByte_reached (f : Formatted L v) (s : L.Sound) (reached : L.Reached)
    (h : L.IsInode ino.toNat) :
    inodeByte v ino = L.place (L.inodeHome ino.toNat) * L.size + L.inodeOff ino.toNat := by
  have hb := (f.seen s).inodeBlock s h
  have hd := (f.deviceBlock_iff s (Ext2.inodeBlock v.seen ino)).mpr (by rw [hb]; exact reached _ h)
  rw [inodeByte, hd, hb, f.size s, f.inodeOffset s h]

theorem Formatted.inodes_apart (f : Formatted L v) (s : L.Sound) (plain : L.Plain)
    (reached : L.Reached) (h : L.IsInode ino.toNat) (h' : L.IsInode ino'.toNat) (hne : ino ≠ ino') :
    inodeByte v ino + L.inodeSize ≤ inodeByte v ino' ∨
      inodeByte v ino' + L.inodeSize ≤ inodeByte v ino := by
  have hfit := s.inodeOff_plain plain ino.toNat
  have hfit' := s.inodeOff_plain plain ino'.toNat
  rw [f.inodeByte_reached s reached h, f.inodeByte_reached s reached h']
  rcases Nat.lt_trichotomy (L.place (L.inodeHome ino.toNat)) (L.place (L.inodeHome ino'.toNat)) with
    hlt | heq | hlt
  · have := Nat.mul_le_mul_right L.size hlt
    rw [Nat.succ_mul] at this
    omega
  · have hn : ino.toNat ≠ ino'.toNat := fun he => hne (UInt32.toNat_inj.mp he)
    have hhome := s.apart _ _ (s.inodeHome_valid h) (s.inodeHome_valid h') heq
    have := Layout.inode_apart h.1 h'.1 hhome hn
    rw [heq]
    omega
  · have := Nat.mul_le_mul_right L.size hlt
    rw [Nat.succ_mul] at this
    omega

theorem stored_fields (i : VfsInode) : i.stored.half 0 = i.mode ∧
    i.stored.half 26 = i.nlink.toUInt16 ∧ i.stored.half 2 = i.uid.toUInt16 ∧
    i.stored.half 24 = i.gid.toUInt16 ∧ i.stored.word 8 = i.atime ∧ i.stored.word 12 = i.ctime ∧
    i.stored.word 16 = i.mtime ∧ i.stored.word 28 = i.blocks ∧ i.stored.word 32 = i.flags ∧
    i.stored.word 4 = i.size ∧ (sIsChr i.mode = true → i.stored.word 40 = i.rdev) := by
  unfold VfsInode.stored
  split
  · simp (disch := decide) [Bytes.half_setWord_of, Bytes.half_setHalf_of, Bytes.word_setHalf_of,
      Bytes.word_setWord_of]
  · rename_i hc
    simp (disch := decide) [hc, Bytes.half_setWord_of, Bytes.half_setHalf_of, Bytes.word_setHalf_of,
      Bytes.word_setWord_of]

theorem readInode_of_agree (h : Bytes.Agree i.stored (ext2GetInode v i.ino) 0 128) :
    ext2ReadInode v i.ino = { i.onDisk with raw := ext2GetInode v i.ino } := by
  have half {k : Nat} (hk : k + 2 ≤ 0 + 128) := h.half (Nat.zero_le k) hk
  have word {k : Nat} (hk : k + 4 ≤ 0 + 128) := h.word (Nat.zero_le k) hk
  obtain ⟨hmode, hlink, huid, hgid, hat, hct, hmt, hblocks, hflags, hsize, hrdev⟩ := stored_fields i
  unfold ext2ReadInode VfsInode.onDisk
  simp (disch := decide) only [half, word, hmode, hlink, huid, hgid, hat, hct, hmt, hblocks, hflags,
    hsize]
  congr 1
  split
  · rename_i hc
    exact hrdev hc
  · rfl

theorem Formatted.writtenInode (f : Formatted L v) (s : L.Sound) (h : L.IsInode i.ino.toNat) :
    Formatted L (ext2WriteInode v i).1 ∧
      ∀ g < L.groups, L.desc (ext2WriteInode v i).1 g = L.desc v g := by
  have same : ∀ g < L.groups, L.desc (ext2WriteInode v i).1 g = L.desc v g := by
    intro g hg
    rw [f.writeInode s h, desc_eq, desc_eq]
    simp only
    rw [Function.update_of_ne]
    intro he
    cases s.apart _ _ (Layout.descs_valid hg) (s.inodeHome_valid h) he
  refine ⟨f.congr (.refl _) fun g hg => ?_, same⟩
  rw [same g hg]
  exact .refl _ _ _

theorem Formatted.writtenDesc (f : Formatted L v) (s : L.Sound) (hg : g < L.groups)
    (keeps : Bytes.Agree (L.desc v g) gdp 0 12) :
    Formatted L (ext2WriteGroupDesc v gdp) ∧
      (∀ g' < L.groups, Bytes.Agree (if g' = g then gdp else L.desc v g')
        (L.desc (ext2WriteGroupDesc v gdp) g') 0 32) ∧
      ∀ x, L.IsInode x → (ext2WriteGroupDesc v gdp).dev (L.place (L.inodeHome x)) =
        v.dev (L.place (L.inodeHome x)) := by
  have hb : (gdp.word 0).toNat = L.blockBitmap g := by
    rw [keeps.word (Nat.le_refl 0) (by decide)]
    exact f.blockBitmap g hg
  rw [f.writeDesc s hg hb]
  have descs : ∀ g' < L.groups, Bytes.Agree (if g' = g then gdp else L.desc v g')
      (L.desc
        { v with
          dev := Function.update v.dev (L.descBlock g)
            ((v.dev (L.descBlock g)).copy (L.descOffset g) 32 gdp) } g') 0 32 := by
    intro g' _
    apply replaced_desc
    · exact Function.update_self ..
    · intro hne
      exact Function.update_of_ne hne ..
  refine ⟨f.congr (.refl _) fun g' hg' => ?_, descs, fun x hx => ?_⟩
  · have hd := (descs g' hg').mono (Nat.le_refl 0) (k := 12) (by decide)
    by_cases he : g' = g
    · subst he
      rw [if_pos rfl] at hd
      exact keeps.trans hd
    · rwa [if_neg he] at hd
  · apply Function.update_of_ne
    intro he
    cases s.apart _ _ (s.inodeHome_valid hx) (Layout.descs_valid hg) he

/-- A block that is written on the device is seen where it is found, and the others are as
before. -/
theorem Formatted.bwrite_seen (f : Formatted L v) (s : L.Sound) {w : Volume} {block : UInt32}
    (hb : block.toNat * (L.size / 512) < 2 ^ 32)
    (other : ∀ b ≠ block.toNat, w.dev b = v.seen.dev b) {b : Nat}
    (h : b * (L.size / 512) < 2 ^ 32) : (v.bwrite w block).seen.dev b = w.dev b := by
  have f' : (v.bwrite w block).deviceBlock = v.deviceBlock := rfl
  have hd := (f.deviceBlock_iff s block).mpr hb
  have hlt : b < 2 ^ 32 := by
    have := Nat.le_mul_of_pos_right b (Nat.lt_of_lt_of_le (by decide) s.sectors_le.1)
    omega
  have hn : (UInt32.ofNat b).toNat = b := UInt32.toNat_ofNat_of_lt' hlt
  have hdb := (f.deviceBlock_iff s (UInt32.ofNat b)).mpr (by rwa [hn])
  rw [hn] at hdb
  change Function.update v.dev (v.deviceBlock block) (w.dev block.toNat)
    ((v.bwrite w block).deviceBlock (UInt32.ofNat b)) = _
  rw [f', hdb, hd]
  by_cases he : b = block.toNat
  · rw [he, Function.update_self]
  · rw [Function.update_of_ne he, other b he, f.seen_dev s h]

/-- What differs only in blocks behind the 32-bit sectors is formatted alike. -/
theorem Formatted.shown {u w : Volume} (f : Formatted L u) (s : L.Sound)
    (super : w.ext2Sb = u.ext2Sb)
    (seen : ∀ {b : Nat}, b * (L.size / 512) < 2 ^ 32 → w.dev b = u.dev b) :
    Formatted L w ∧ ∀ g < L.groups, L.desc w g = L.desc u g := by
  have desc : ∀ g < L.groups, L.desc w g = L.desc u g := by
    intro g hg
    rw [Layout.desc, Layout.desc, seen (s.descs_reached hg)]
  refine ⟨f.congr (super ▸ .refl _) fun g hg => ?_, desc⟩
  rw [desc g hg]
  exact .refl _ _ _

/-- Where an inode is looked for, with the sector number cut to 32 bits. -/
theorem Addressed.place_eq (h : Addressed L v) (s : L.Sound) (f : Formatted L v) (ino : UInt32)
    (hin : L.IsInode ino.toNat) : L.place (L.inodeHome ino.toNat) *
      (L.size / 512) % 2 ^ 32 / (L.size / 512) * L.size + L.inodeOff ino.toNat =
        L.inodeByte ino.toNat := by
  rw [← h.place ino hin, inodeByte, f.deviceBlock s, (f.seen s).inodeBlock s hin, f.size s,
    f.inodeOffset s hin]

theorem Addressed.plain (h : Addressed L v) (s : L.Sound) (dvd : L.inodeSize ∣ L.size)
    (f : Formatted L v) : L.Plain := by
  by_contra hnot
  obtain ⟨h128, hfull, hone⟩ :
      L.inodeSize ≠ 128 ∧ L.inodeSize ≠ L.size ∧ L.inodesPerGroup ≠ 1 := by
    simpa [Layout.Plain] using hnot
  have hp := s.inodes_pos
  have hge := s.inodeSize_ge
  have hsize : L.inodesPerBlock * L.inodeSize = L.size := Nat.div_mul_cancel dvd
  have hblock : 1 < L.inodesPerBlock := by
    have hpos := s.inodesPerBlock_pos
    by_contra hle
    rw [show L.inodesPerBlock = 1 by omega, Nat.one_mul] at hsize
    exact hfull hsize
  have hin : L.IsInode (2 : UInt32).toNat := by
    refine ⟨by decide, ?_⟩
    have := Nat.mul_le_mul_right L.inodesPerGroup s.groups_pos
    unfold Layout.inodes
    change 2 ≤ _
    omega
  -- the second inode of the first group
  have hat := h.place_eq s f 2 hin
  have hrel : ((2 : UInt32).toNat - 1) % L.inodesPerGroup = 1 := Nat.mod_eq_of_lt (by simp; omega)
  simp only [Layout.inodeHome, Layout.inodeOff, Layout.inodeByte, Layout.place, hrel,
    Nat.div_eq_of_lt hblock, Nat.mod_eq_of_lt hblock, Nat.add_zero, Nat.one_mul] at hat
  have hle : L.inodeTable (((2 : UInt32).toNat - 1) / L.inodesPerGroup) * (L.size / 512) % 2 ^ 32 /
      (L.size / 512) ≤ L.inodeTable (((2 : UInt32).toNat - 1) / L.inodesPerGroup) := by
    refine Nat.div_le_of_le_mul ?_
    rw [Nat.mul_comm (L.size / 512)]
    exact Nat.mod_le _ _
  have := Nat.mul_le_mul_right L.size hle
  omega

theorem Addressed.reached (h : Addressed L v) (s : L.Sound) (dvd : L.inodeSize ∣ L.size)
    (f : Formatted L v) : L.Reached := by
  intro x hx
  have hx32 : x < 2 ^ 32 := by
    have := hx.2
    have := s.inodes_lt
    omega
  have hn : (UInt32.ofNat x).toNat = x := UInt32.toNat_ofNat_of_lt' hx32
  have hat := h.place_eq s f (UInt32.ofNat x) (hn.symm ▸ hx)
  rw [hn, ← s.inodeByte_plain dvd (h.plain s dvd f)] at hat
  have hsz : 0 < L.size := by
    rcases s.size_cases with h | h | h <;> omega
  have hat := Nat.eq_of_mul_eq_mul_right hsz (Nat.add_right_cancel hat)
  have hb : (inodeBlock v.seen (UInt32.ofNat x)).toNat = L.place (L.inodeHome x) := by
    have := @Formatted.inodeBlock L v.seen (UInt32.ofNat x) (f.seen s) s (hn.symm ▸ hx)
    rwa [hn] at this
  rw [← hb, ← f.deviceBlock_iff s, f.deviceBlock s, hb]
  exact hat

/-- The inodes and descriptors of a file system are addressed as the format has it exactly if the
size of an inode is that of `struct ext2_inode`, or no block of a table has a second inode, and
the sectors of the tables have numbers of 32 bits. -/
theorem addressed_iff (s : L.Sound) (dvd : L.inodeSize ∣ L.size) (f : Formatted L v) :
    Addressed L v ↔ L.Plain ∧ L.Reached := by
  have fs := f.seen s
  constructor
  · intro h
    exact ⟨h.plain s dvd f, h.reached s dvd f⟩
  · rintro ⟨plain, reached⟩
    refine ⟨?_, fun _ _ h h' hne => f.inodes_apart s plain reached h h' hne, ?_, ?_⟩
    · intro ino h
      rw [f.inodeByte_reached s reached h, s.inodeByte_plain dvd plain]
    · intro i h
      obtain ⟨f', hd⟩ := fs.writtenInode s h
      have hblock := fs.inodeBlock s h
      have seen {b : Nat} (hb : b * (L.size / 512) < 2 ^ 32) :
          (v.writeInode i).seen.dev b = (ext2WriteInode v.seen i).1.dev b := by
        refine f.bwrite_seen s (hblock ▸ reached _ h) ?_ hb
        intro b hne
        rw [fs.writeInode s h]
        exact Function.update_of_ne (hblock ▸ hne) ..
      obtain ⟨f'', desc⟩ := f'.shown (w := (v.writeInode i).seen) s rfl seen
      have get {ino : UInt32} (hi : L.IsInode ino.toNat) :=
        getInode_congr f' f'' s hi (seen (reached _ hi))
      have hag := getInode_writeInode fs s h f'
      rw [← get h] at hag
      refine ⟨⟨_, readInode_of_agree hag, hag⟩, ?_, ?_⟩
      · intro ino hy hne
        rw [SameInode, get hy]
        exact getInode_writeInode_of fs s h f' hy hne
      · intro group hg
        rw [SameDesc, fs.getDesc s hg.le, f''.getDesc s hg.le, desc _ hg, hd _ hg]
        exact .refl _ _ _
    · intro group gdp hg keeps
      rw [fs.getDesc s hg.le] at keeps
      obtain ⟨f', hd, htables⟩ := fs.writtenDesc s hg keeps
      have hb : (gdp.word 0).toNat = L.blockBitmap group.toNat := by
        rw [keeps.word (Nat.le_refl 0) (by decide)]
        exact fs.blockBitmap _ hg
      have hblock : (groupDescBlock v (v.groupFromBlock (gdp.word 0))).toNat = L.descBlock group.toNat :=
        f.bitmapDescBlock s hg hb
      have seen {b : Nat} (hlt : b * (L.size / 512) < 2 ^ 32) :
          (v.writeGroupDesc gdp).seen.dev b = (ext2WriteGroupDesc v.seen gdp).dev b := by
        refine f.bwrite_seen s (hblock ▸ s.descs_reached hg) ?_ hlt
        intro b hne
        rw [fs.writeDesc s hg hb]
        exact Function.update_of_ne (hblock ▸ hne) ..
      obtain ⟨f'', desc⟩ := f'.shown (w := (v.writeGroupDesc gdp).seen) s rfl seen
      refine ⟨?_, ?_, ?_⟩
      · have := hd _ hg
        rwa [if_pos rfl, ← desc _ hg, ← f''.getDesc s hg.le] at this
      · intro other ho hne
        have := hd _ ho
        rwa [if_neg fun he => hne (UInt32.toNat_inj.mp he), ← desc _ ho, ← f''.getDesc s ho.le,
          ← fs.getDesc s ho.le] at this
      · intro ino h
        rw [SameInode, getInode_congr f' f'' s h (seen (reached _ h)), fs.getInode s h,
          f'.getInode s h, htables _ h]
        exact .refl _ _ _

theorem addressed_sample : Addressed (sampleLayout 0) (sample 0 0 0 0) :=
  (addressed_iff (sample_sound (.inl rfl)) (by decide) (sample_formatted (.inl rfl))).mpr
    ⟨.inl rfl, (sample_sound (.inl rfl)).reached (by decide)⟩

def wideLayout : Layout := { sampleLayout 0 with inodesPerGroup := 2, inodeSize := 512 }

def wide : Volume :=
  { sample 0 0 0 0 with ext2Sb := ((sample 0 0 0 0).ext2Sb.setWord 40 2).setHalf 88 512 }

theorem wide_sound : wideLayout.Sound := by
  have s := sample_sound (.inl rfl : (0 : Nat) = 0 ∨ _)
  have valid {m : Meta} (h : wideLayout.Valid m) : (sampleLayout 0).Valid m := by
    cases m <;> exact h
  exact ⟨by decide, by decide, by decide, by decide, by decide, by decide, by decide, by decide,
    by decide, by decide, by decide, by decide, by decide, s.own, fun m hm => s.inside m (valid hm),
    fun m m' hm hm' => s.apart m m' (valid hm) (valid hm')⟩

theorem wide_formatted : Formatted wideLayout wide :=
  have f : Formatted (sampleLayout 0) (sample 0 0 0 0) := sample_formatted (.inl rfl)
  ⟨rfl, rfl, rfl, rfl, rfl, rfl, f.blockBitmap, f.inodeBitmap, f.inodeTable⟩

/-- The second inode of this disk is looked for 128 bytes behind the first one, inside of it. -/
theorem wide_misplaced : wideLayout.Sound ∧ wideLayout.inodeSize ∣ wideLayout.size ∧
    Formatted wideLayout wide ∧ ¬Addressed wideLayout wide := by
  refine ⟨wide_sound, by decide, wide_formatted, fun h => ?_⟩
  have hin : wideLayout.IsInode (2 : UInt32).toNat := ⟨by decide, by decide⟩
  have hat := h.place 2 hin
  revert hat
  decide

end Mos.Ext2

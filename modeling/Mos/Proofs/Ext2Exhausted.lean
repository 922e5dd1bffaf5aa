import Mos.Proofs.Ext2Alloc

namespace Mos.Ext2
open Machine Memory

variable {L : Layout} {v v' : Volume} {i i' dir dir' : VfsInode} {name : Name}

/-- A consistent file system with no free block left, or no free inode. -/
structure OutOfSpace (L : Layout) (v : Volume) : Prop where
  consistent : Consistent L v
  full : ∃ k, ∀ x < L.limit k, L.start k ≤ x → L.InUse v k x

/-- The calls that take something: a file or a directory is created, or the write reaches a
part of a regular file that has no block. -/
def Allocates (s : Session) : Op → Prop
  | .load _ => False
  | .create _ _ mode _ => HasBlocks mode
  | .write file buf ppos _ => ∃ inode, s.nodes[file]? = some inode ∧ sIsReg inode.mode = true ∧
      ∃ k, ppos / s.volume.blockSize.toNat ≤ k ∧
        k * s.volume.blockSize.toNat < ppos + buf.length ∧ inode.block k = 0

/-- What a call that fails leaves as it is: the bitmaps, the counts of the groups and of the
superblock, the inodes in use, the blocks of directories, and all that is not the file system's. -/
structure Unchanged (L : Layout) (v v' : Volume) : Prop where
  bitmaps : ∀ k, ∀ g < L.groups, Bytes.Agree (v.dev (L.bitmap k g)) (v'.dev (L.bitmap k g)) 0 L.size
  groups : ∀ k : Kind, ∀ g < L.groups, (L.desc v' g).half k.half = (L.desc v g).half k.half
  counts : ∀ k : Kind, v'.ext2Sb.word k.word = v.ext2Sb.word k.word
  inodes : ∀ ino : UInt32, L.InUse v .inode ino.toNat →
    Bytes.Agree (ext2GetInode v ino) (ext2GetInode v' ino) 0 128
  entries : ∀ ino : UInt32, L.InUse v .inode ino.toNat →
    sIsDir ((ext2GetInode v ino).half 0) = true → ∀ k < 12,
      Bytes.Agree (v.dev (ext2ReadInode v ino |>.block k).toNat)
        (v'.dev (ext2ReadInode v ino |>.block k).toNat) 0 L.size
  outside : ∀ b, L.blocks ≤ b → Bytes.Agree (v.dev b) (v'.dev b) 0 L.size

theorem TakesBlocks.inodes {n : Nat} (h : TakesBlocks v v' n) :
    v'.ext2Sb.word Kind.inode.word = v.ext2Sb.word Kind.inode.word := by
  obtain ⟨new, ht, hk, -⟩ := h
  have hz : new.countP (·.kind = .inode) = 0 := by
    apply List.countP_eq_zero.mpr
    intro x hx
    simp [hk x hx]
  rw [ht.counts, hz]
  exact UInt32.sub_zero _

theorem TakesBlocks.blocks {n : Nat} (h : TakesBlocks v v' n) :
    v'.ext2Sb.word Kind.block.word = v.ext2Sb.word Kind.block.word - UInt32.ofNat n := by
  obtain ⟨new, ht, hk, rfl⟩ := h
  have hz : new.countP (·.kind = .block) = new.length := by
    apply List.countP_eq_length.mpr
    intro x hx
    simp [hk x hx]
  rw [ht.counts, hz]

theorem sub_ofNat_ne {x : UInt32} {n : Nat} (pos : 0 < n) (lt : n < 2 ^ 32) :
    x - UInt32.ofNat n ≠ x := by
  intro h
  have hn : (UInt32.ofNat n).toNat = 0 := by
    have h' := congrArg UInt32.toNat h
    rw [UInt32.toNat_sub] at h'
    have := (UInt32.ofNat n).toNat_lt
    omega
  rw [UInt32.toNat_ofNat_of_lt' lt] at hn
  omega

theorem preparedInode_inodes (v : Volume) (dir : VfsInode) (mode : UInt16) (now : UInt32) :
    (preparedInode v dir mode now).1.ext2Sb.word Kind.inode.word =
      v.ext2Sb.word Kind.inode.word - 1 := by
  have ht := (takeInode_takes v mode).counts .inode
  unfold preparedInode
  split
  · exact ht
  · rw [(initDirectory_takes _ _ _).inodes]
    exact ht

/-- Every creation lowers the count of free inodes, whether a number was found or not. -/
theorem createInode_inodes {mode : UInt16} {now : UInt32} {r : Option VfsInode}
    (h : ext2CreateInode v dir name mode now = .ok (r, v', dir')) :
    v'.ext2Sb.word Kind.inode.word = v.ext2Sb.word Kind.inode.word - 1 := by
  obtain ⟨-, found, he, -⟩ := createInode_ok h
  obtain ⟨n, hn⟩ := createEntry_takes _ he
  rw [hn.inodes]
  exact preparedInode_inodes v dir mode now

section Write
variable {ppos count size : Nat} {now : UInt32}

theorem writeFrom_allocates (pos : 0 < size) (le : size ≤ 4096) (rounds : Nat) :
    ∀ {v : Volume} {i : VfsInode} {p : Nat} {buf : List UInt8}, v.blockSize.toNat = size →
      sIsChr i.mode = false → size ∣ p →
      writeFrom ppos count now rounds v i p buf = .ok (v', i') →
      ∃ n, TakesBlocks v v' n ∧ n ≤ 12 - p / size ∧
        ∀ k, p / size ≤ k → k * size < ppos + count → i.block k = 0 → 0 < n := by
  induction rounds with
  | zero =>
    intro v i p buf _ _ _ h
    cases h
  | succ rounds ih =>
    intro v i p buf hs hc hd h
    rcases writeFrom_ok h with ⟨hp, hk, block, w, j, hf, h⟩ | ⟨hp, rfl, rfl⟩
    · rw [hs] at hk hf
      have ht := fileBlock_takes v i (p / size) now
      have hw := fileBlock_blockSize v i (p / size) now
      have hm := fileBlock_mode v i (p / size) now
      have hj := fun k => fileBlock_block_of v i (p / size) now hc (j := k)
      simp only [hf] at ht hw hm hj
      obtain ⟨q, rfl⟩ := hd
      rw [Nat.mul_div_cancel_left q pos] at hk ht hj ⊢
      have hlt : size * q + size < 2 ^ 32 := by
        have := Nat.mul_le_mul le (show q ≤ 11 by omega)
        omega
      have hnext : (size * q + w.blockSize.toNat) % 2 ^ 32 = size * (q + 1) := by
        rw [hw, hs, Nat.mod_eq_of_lt hlt, Nat.mul_succ]
      rw [hnext] at h
      have hs' : (filledBlock w block ppos count (size * q) buf).blockSize.toNat = size := by
        rw [← hs, ← hw]
        rfl
      obtain ⟨n, hn, hle, hall⟩ := ih hs' (by rw [hm]; exact hc) ⟨q + 1, rfl⟩ h
      rw [Nat.mul_div_cancel_left _ pos] at hle hall
      have hfill : TakesBlocks v (filledBlock w block ppos count (size * q) buf) _ :=
        ht.after rfl rfl
      refine ⟨_, hfill.trans hn, ?_, ?_⟩
      · split <;> omega
      · intro k hqk hkp hz
        by_cases he : k = q
        · subst he
          rw [if_pos hz]
          omega
        · have := hall k (by omega) hkp (by rw [hj k he, hz])
          omega
    · refine ⟨0, .same rfl rfl, Nat.zero_le _, ?_⟩
      intro k hk hkp
      exfalso
      have hle := Nat.mul_le_mul_right size hk
      rw [Nat.div_mul_cancel hd] at hle
      omega

theorem growFile_same (v : Volume) (i : VfsInode) (stop : Nat) :
    (growFile v i stop).1.given = v.given ∧ (growFile v i stop).1.ext2Sb = v.ext2Sb ∧
      (growFile v i stop).2.mode = i.mode := by
  unfold growFile
  split
  · exact ⟨rfl, rfl, rfl⟩
  · exact ⟨rfl, rfl, rfl⟩

theorem growFile_block (h : sIsChr i.mode = false) (stop k : Nat) :
    (growFile v i stop).2.block k = i.block k := by
  unfold growFile
  split
  · exact stored_block (i := { i with
      size := UInt32.ofNat stop
      blocks := UInt32.ofNat ((stop + 511) / 512) }) h k
  · rfl

theorem writeFile_blocks {buf : List UInt8} {k : Nat} (f : Formatted L v) (s : L.Sound)
    (hc : sIsChr i.mode = false) (h : ext2WriteFile v i buf ppos now = .ok (v', i'))
    (hk : ppos / v.blockSize.toNat ≤ k) (hkp : k * v.blockSize.toNat < ppos + buf.length)
    (hz : i.block k = 0) :
    v'.ext2Sb.word Kind.block.word ≠ v.ext2Sb.word Kind.block.word := by
  have hsize := f.size s
  have hpos : 0 < L.size := by
    rcases s.size_cases with h | h | h <;> omega
  obtain ⟨hg, hsb, hm⟩ := growFile_same v i (ppos + buf.length)
  have hbs : (growFile v i (ppos + buf.length)).1.blockSize = v.blockSize := by
    unfold Volume.blockSize Volume.logBlockSize
    rw [hsb]
  unfold ext2WriteFile at h
  simp only [hbs, hsize] at h
  rw [hsize] at hk hkp
  obtain ⟨n, hn, hle, hall⟩ := writeFrom_allocates hpos s.size_le _ (by rw [hbs, hsize])
    (by rw [hm]; exact hc) ⟨_, Nat.mul_comm _ _⟩ h
  rw [Nat.mul_div_cancel _ hpos] at hle hall
  have hn0 := hall k hk hkp (by rw [growFile_block hc, hz])
  have hn12 : n ≤ 12 := hle.trans (Nat.sub_le _ _)
  rw [hn.blocks, hsb]
  exact sub_ofNat_ne hn0 (by omega)

end Write

/-- No call is refused: the count of the superblock is lowered whatever the search for a number
has returned. -/
theorem out_of_space_not_refused {s : Session} {op : Op} (out : OutOfSpace L s.volume)
    (takes : Allocates s op) : ¬∃ t, perform s op = some t ∧ Unchanged L s.volume t.volume := by
  intro ⟨t, step, same⟩
  cases op with
  | load ino => exact takes
  | create d name mode now =>
    simp only [perform] at step
    split at step
    · cases step
    · split at step
      · cases step
      · rename_i hc
        cases step
        have hne := sub_ofNat_ne (x := s.volume.ext2Sb.word Kind.inode.word) Nat.one_pos (by decide)
        exact hne ((createInode_inodes hc).symm.trans (same.counts .inode))
  | write file buf ppos now =>
    obtain ⟨inode, hfile, hreg, k, hk, hkp, hz⟩ := takes
    simp only [perform, hfile] at step
    split at step
    · cases step
    · rename_i hw
      cases step
      have hc : sIsChr inode.mode = false := HasBlocks.not_chr (.inl hreg)
      have c := out.consistent
      exact writeFile_blocks c.counted.formatted c.sound hc hw hk hkp hz (same.counts .block)

def sampleFull : Session where
  volume := sample 0 0xff 0xff 0xff
  nodes := [ext2ReadInode (sample 0 0xff 0xff 0xff) 2]

theorem sampleFull_outOfSpace : OutOfSpace (sampleLayout 0) sampleFull.volume :=
  ⟨sample_consistent (.inl rfl) (by decide), .inode, by decide +kernel⟩

theorem out_of_space_not_refused_create :
    ¬∃ t, perform sampleFull (.create 0 [97] 0o100644 7) = some t ∧
      Unchanged (sampleLayout 0) sampleFull.volume t.volume :=
  out_of_space_not_refused sampleFull_outOfSpace (.inl rfl)

/-- The file is created all the same, with the error as the number of its inode. -/
theorem error_taken_as_inode : OutOfSpace (sampleLayout 0) sampleFull.volume ∧
    ∃ t, perform sampleFull (.create 0 [97] 0o100644 7) = some t ∧
      t.nodes.map VfsInode.ino = [2, enospc] ∧
      t.volume.freeInodesCount ≠ sampleFull.volume.freeInodesCount ∧
      ¬Unchanged (sampleLayout 0) sampleFull.volume t.volume := by
  refine ⟨sampleFull_outOfSpace, ?_⟩
  have hstep : ∃ t ∈ perform sampleFull (.create 0 [97] 0o100644 7),
      t.nodes.map VfsInode.ino = [2, enospc] ∧
      t.volume.freeInodesCount ≠ sampleFull.volume.freeInodesCount := by
    decide +kernel
  obtain ⟨t, step, hn, hf⟩ := hstep
  exact ⟨t, step, hn, hf, fun same => hf (same.counts .inode)⟩

end Mos.Ext2

import Mos.Fs.Ext2System
import Mos.Proofs.Ext2Bitmaps

namespace Mos.Ext2
open Machine Memory

namespace Layout

def inodeHome (L : Layout) (x : Nat) : Meta :=
  .table ((x - 1) / L.inodesPerGroup) ((x - 1) % L.inodesPerGroup / L.inodesPerBlock)

def inodeOff (L : Layout) (x : Nat) : Nat := (x - 1) % L.inodesPerGroup % L.inodesPerBlock * 128

def IsInode (L : Layout) (x : Nat) : Prop := 0 < x ∧ x ≤ L.inodes

variable {L : Layout} {x y : Nat}

theorem Sound.inodeHome_valid (s : L.Sound) (hx : L.IsInode x) : L.Valid (L.inodeHome x) := by
  have hp := s.inodes_pos
  constructor
  · rw [Nat.div_lt_iff_lt_mul hp]
    have := hx.1
    have := hx.2
    unfold inodes at this
    omega
  · apply Nat.div_le_div_right
    have := Nat.mod_lt (x - 1) hp
    omega

theorem Sound.inodeOff_le (s : L.Sound) (x : Nat) : L.inodeOff x + 128 ≤ L.size := by
  have hm := Nat.mod_lt ((x - 1) % L.inodesPerGroup) s.inodesPerBlock_pos
  have hd : L.inodesPerBlock * L.inodeSize ≤ L.size := Nat.div_mul_le_self _ _
  have hs := s.inodeSize_ge
  have h₁ : L.inodesPerBlock * 128 ≤ L.inodesPerBlock * L.inodeSize := Nat.mul_le_mul_left _ hs
  unfold inodeOff
  omega

theorem inode_apart (hx : 0 < x) (hy : 0 < y) (hb : L.inodeHome x = L.inodeHome y)
    (hne : x ≠ y) : L.inodeOff x + 128 ≤ L.inodeOff y ∨ L.inodeOff y + 128 ≤ L.inodeOff x := by
  unfold inodeOff
  obtain ⟨hg, hk⟩ := Meta.table.inj hb
  have h₁ := Nat.div_add_mod (x - 1) L.inodesPerGroup
  have h₂ := Nat.div_add_mod (y - 1) L.inodesPerGroup
  rw [hg] at h₁
  have h₃ := Nat.div_add_mod ((x - 1) % L.inodesPerGroup) L.inodesPerBlock
  have h₄ := Nat.div_add_mod ((y - 1) % L.inodesPerGroup) L.inodesPerBlock
  rw [hk] at h₃
  omega

end Layout

variable {L : Layout} {v v' : Volume} {i : VfsInode} {ino : UInt32}

theorem Formatted.split_ino (f : Formatted L v) (s : L.Sound) (h : L.IsInode ino.toNat) :
    (v.groupFromInode ino).toNat = (ino.toNat - 1) / L.inodesPerGroup ∧
      (v.relativeInodeInGroup ino).toNat = (ino.toNat - 1) % L.inodesPerGroup := by
  apply f.split_inode
  · have := Nat.div_add_mod (ino.toNat - 1) L.inodesPerGroup
    have := h.1
    simp only [Layout.number, Layout.perGroup, Layout.start]
    rw [Nat.mul_comm]
    omega
  · exact Nat.mod_lt _ s.inodes_pos

theorem Formatted.inodeBlock (f : Formatted L v) (s : L.Sound) (h : L.IsInode ino.toNat) :
    (inodeBlock v ino).toNat = L.place (L.inodeHome ino.toNat) := by
  obtain ⟨hg, hr⟩ := f.split_ino s h
  have hv := s.inodeHome_valid h
  have hin := (s.inside _ hv).2
  have hb := s.blocks_le
  rw [Ext2.inodeBlock, f.getDesc s (by rw [hg]; exact hv.1.le), UInt32.toNat_add,
    UInt32.toNat_div, hr, hg, f.inodesPerBlock s, f.inodeTable _ hv.1]
  apply Nat.mod_eq_of_lt
  exact lt_of_lt_of_le (lt_of_lt_of_le hin hb) (by decide)

theorem Formatted.inodeOffset (f : Formatted L v) (s : L.Sound) (h : L.IsInode ino.toNat) :
    inodeOffset v ino = L.inodeOff ino.toNat := by
  have hr := (f.split_ino s h).2
  have hle := s.inodeOff_le ino.toNat
  have hsz := s.size_le
  rw [Ext2.inodeOffset, UInt32.toNat_mul, UInt32.toNat_mod, hr, f.inodesPerBlock s]
  unfold Layout.inodeOff at hle ⊢
  change _ * 128 % 2 ^ 32 = _
  omega

theorem Formatted.getInode (f : Formatted L v) (s : L.Sound) (h : L.IsInode ino.toNat) :
    ext2GetInode v ino = (v.dev (L.place (L.inodeHome ino.toNat))).view (L.inodeOff ino.toNat) := by
  rw [ext2GetInode, ext2BreadBlock, f.inodeBlock s h, f.inodeOffset s h]

theorem Formatted.writeInode (f : Formatted L v) (s : L.Sound) (h : L.IsInode i.ino.toNat) :
    ext2WriteInode v i =
      ({ v with
          dev := Function.update v.dev (L.place (L.inodeHome i.ino.toNat))
            ((v.dev (L.place (L.inodeHome i.ino.toNat))).copy (L.inodeOff i.ino.toNat) 128
              i.stored) },
        { i with raw := i.stored }) := by
  simp only [ext2WriteInode, ext2BwriteBlock, ext2BreadBlock, f.inodeBlock s h,
    f.inodeOffset s h]

theorem Counted.writeInode (c : Counted L v) (s : L.Sound) (h : L.IsInode i.ino.toNat) :
    Counted L (ext2WriteInode v i).1 := by
  rw [c.formatted.writeInode s h]
  refine c.congr rfl ?_
  intro m hm hc
  apply Function.update_of_ne
  intro he
  have := s.apart _ _ hm (s.inodeHome_valid h) he
  rw [this] at hc
  cases hc

theorem getInode_writeInode (f : Formatted L v) (s : L.Sound) (h : L.IsInode i.ino.toNat)
    (f' : Formatted L (ext2WriteInode v i).1) :
    Bytes.Agree i.stored (ext2GetInode (ext2WriteInode v i).1 i.ino) 0 128 := by
  intro a _ ha
  rw [f'.getInode s h, f.writeInode s h, Bytes.view]
  simp only
  rw [Function.update_self, Bytes.copy, if_pos (by omega), Nat.add_sub_cancel_left]

theorem getInode_writeInode_of (f : Formatted L v) (s : L.Sound) (h : L.IsInode i.ino.toNat)
    (f' : Formatted L (ext2WriteInode v i).1) (hy : L.IsInode ino.toNat) (hne : ino ≠ i.ino) :
    Bytes.Agree (ext2GetInode v ino) (ext2GetInode (ext2WriteInode v i).1 ino) 0 128 := by
  intro a _ ha
  rw [f'.getInode s hy, f.getInode s hy, f.writeInode s h, Bytes.view, Bytes.view]
  simp only
  by_cases hb : L.place (L.inodeHome ino.toNat) = L.place (L.inodeHome i.ino.toNat)
  · have hm := s.apart _ _ (s.inodeHome_valid hy) (s.inodeHome_valid h) hb
    have hn : ino.toNat ≠ i.ino.toNat := fun he => hne (UInt32.toNat_inj.mp he)
    have := Layout.inode_apart hy.1 h.1 hm hn
    rw [hb, Function.update_self, Bytes.copy, if_neg (by omega)]
  · rw [Function.update_of_ne hb]

/-- A block that is none of the file system's own. -/
def Layout.IsData (L : Layout) (b : Nat) : Prop := ∀ m, L.Valid m → L.place m ≠ b

def SafeRaw (L : Layout) (raw : Bytes) : Prop :=
  ∀ k < 12, raw.word (40 + 4 * k) = 0 ∨ L.IsData (raw.word (40 + 4 * k)).toNat

def HasBlocks (mode : UInt16) : Prop := sIsReg mode = true ∨ sIsDir mode = true

theorem HasBlocks.not_chr {mode : UInt16} (h : HasBlocks mode) : sIsChr mode = false := by
  unfold sIsChr
  rcases h with h | h
  · rw [beq_iff_eq.mp h]
    rfl
  · rw [beq_iff_eq.mp h]
    rfl

structure Safe (L : Layout) (i : VfsInode) : Prop where
  isInode : L.IsInode i.ino.toNat
  kind : HasBlocks i.mode
  raw : SafeRaw L i.raw

theorem stored_blocks (h : sIsChr i.mode = false) (n : Nat) : Bytes.Agree i.raw i.stored 36 n := by
  unfold VfsInode.stored
  rw [h]
  simp only [Bool.false_eq_true, if_false]
  intro x hx _
  rw [Bytes.setWord_of _ (by omega), Bytes.setHalf_of _ (by omega), Bytes.setWord_of _ (by omega),
    Bytes.setWord_of _ (by omega), Bytes.setWord_of _ (by omega), Bytes.setWord_of _ (by omega),
    Bytes.setWord_of _ (by omega), Bytes.setHalf_of _ (by omega), Bytes.setHalf_of _ (by omega),
    Bytes.setHalf_of _ (by omega)]

theorem stored_block (h : sIsChr i.mode = false) (k : Nat) :
    i.stored.word (40 + 4 * k) = i.raw.word (40 + 4 * k) :=
  (stored_blocks h (8 + 4 * k)).word (by omega) (by omega)

theorem SafeRaw.congr {raw raw' : Bytes} (h : SafeRaw L raw)
    (same : ∀ k < 12, raw'.word (40 + 4 * k) = raw.word (40 + 4 * k)) : SafeRaw L raw' := by
  intro k hk
  rw [same k hk]
  exact h k hk

theorem SafeRaw.agree {raw raw' : Bytes} (h : SafeRaw L raw) (same : Bytes.Agree raw raw' 0 128) :
    SafeRaw L raw' := by
  apply h.congr
  intro k hk
  exact same.word (by omega) (by omega)

theorem Safe.stored (h : Safe L i) : SafeRaw L i.stored := by
  apply h.raw.congr
  intro k _
  exact stored_block h.kind.not_chr k

theorem Safe.written (h : Safe L i) : Safe L { i with raw := i.stored } :=
  ⟨h.isInode, h.kind, h.stored⟩

def Given.kind : Given → Kind
  | .block _ => .block
  | .inode _ => .inode

def Given.number : Given → Nat
  | .block n => n.toNat
  | .inode n => n.toNat

/-- The numbers handed out since `v₀` were free there and are all different, and they are what
is in use now in addition. -/
def HandedOut (L : Layout) (v₀ v : Volume) : Prop :=
  ∃ new, v.given = new ++ v₀.given ∧ new.Nodup ∧ (∀ x ∈ new, ¬L.InUse v₀ x.kind x.number) ∧
    ∀ k y, L.InUse v k y ↔ L.InUse v₀ k y ∨ ∃ x ∈ new, x.kind = k ∧ x.number = y

def Stored (L : Layout) (v : Volume) : Prop :=
  ∀ k : Kind, (v.dev L.first).word k.word = v.ext2Sb.word k.word

/-- What holds of a volume `v` that came from `v₀`, where all numbers handed out are the file
system's: the counts agree, only free numbers were handed out, and none twice. The inodes on
the disk point to data, except for those in `skip`. -/
structure Held (L : Layout) (v₀ v : Volume) (skip : Nat → Prop) : Prop where
  counted : Counted L v
  given : HandedOut L v₀ v
  onDisk : Stored L v₀ → Stored L v
  disk : ∀ ino : UInt32, L.InUse v .inode ino.toNat → ¬skip ino.toNat →
    HasBlocks ((ext2GetInode v ino).half 0) → SafeRaw L (ext2GetInode v ino)

theorem InUse.isInode {x : Nat} (h : L.InUse v .inode x) : L.IsInode x := by
  obtain ⟨g, n, hg, hc, rfl, -⟩ := h
  have h₁ := number_inside hc
  exact ⟨h₁.1, Nat.le_of_lt_succ h₁.2⟩

variable {v₀ : Volume} {skip skip' : Nat → Prop} {b : UInt32}

theorem Held.mono (h : Held L v₀ v skip) (le : ∀ x, skip x → skip' x) : Held L v₀ v skip' :=
  ⟨h.counted, h.given, h.onDisk, fun ino hu hs => h.disk ino hu fun hx => hs (le _ hx)⟩

theorem getInode_congr (f : Formatted L v) (f' : Formatted L v') (s : L.Sound)
    (h : L.IsInode ino.toNat)
    (same : v'.dev (L.place (L.inodeHome ino.toNat)) = v.dev (L.place (L.inodeHome ino.toNat))) :
    ext2GetInode v' ino = ext2GetInode v ino := by
  rw [f.getInode s h, f'.getInode s h, same]

theorem HandedOut.took {x : Given} (h : HandedOut L v₀ v) (t : Took L v v' x.kind x.number)
    (hg : v'.given = x :: v.given) : HandedOut L v₀ v' := by
  obtain ⟨new, hnew, nodup, fresh, uses⟩ := h
  refine ⟨x :: new, by rw [hg, hnew, List.cons_append], ?_, ?_, ?_⟩
  · apply List.nodup_cons.mpr
    refine ⟨?_, nodup⟩
    intro hm
    exact t.fresh ((uses _ _).mpr (.inr ⟨x, hm, rfl, rfl⟩))
  · intro y hy
    rcases List.mem_cons.mp hy with rfl | hy
    · intro hu
      exact t.fresh ((uses _ _).mpr (.inl hu))
    · exact fresh y hy
  · intro k y
    rw [t.uses, uses]
    constructor
    · rintro ((hu | ⟨z, hz, he⟩) | ⟨hk, hy⟩)
      · exact .inl hu
      · exact .inr ⟨z, List.mem_cons_of_mem _ hz, he⟩
      · exact .inr ⟨x, List.mem_cons_self, hk.symm, hy.symm⟩
    · rintro (hu | ⟨z, hz, he⟩)
      · exact .inl (.inl hu)
      · rcases List.mem_cons.mp hz with rfl | hz
        · exact .inr ⟨he.1.symm, he.2.symm⟩
        · exact .inl (.inr ⟨z, hz, he⟩)

theorem Held.took {x : Given} (h : Held L v₀ v skip) (s : L.Sound)
    (t : Took L v v' x.kind x.number) (hg : v'.given = x :: v.given) :
    Held L v₀ v' fun y => skip y ∨ (x.kind = .inode ∧ y = x.number) := by
  refine ⟨t.counted, h.given.took t hg, ?_, ?_⟩
  · intro _ k
    rw [t.onDisk]
  · intro ino hu hs hb
    rw [not_or] at hs
    have hu' : L.InUse v .inode ino.toNat := by
      rcases (t.uses _ _).mp hu with hu | ⟨hk, hx⟩
      · exact hu
      · exact absurd ⟨hk.symm, hx⟩ hs.2
    have hin := InUse.isInode hu'
    have same : ext2GetInode v' ino = ext2GetInode v ino := by
      apply getInode_congr h.counted.formatted t.counted.formatted s hin
      apply t.frame
      · intro hk he
        rw [hk] at t
        exact t.fresh (he ▸ h.counted.meta_inUse s (s.inodeHome_valid hin))
      · intro m hm hc he
        have := s.apart _ _ (s.inodeHome_valid hin) hm he
        rw [← this] at hc
        cases hc
    rw [same] at hb ⊢
    exact h.disk ino hu' hs.1 hb

theorem inUse_congr {k : Kind} {x : Nat}
    (same : ∀ g < L.groups, v'.dev (L.bitmap k g) = v.dev (L.bitmap k g)) :
    L.InUse v' k x ↔ L.InUse v k x := by
  constructor
  · intro ⟨g, n, hg, hc, hx, hb⟩
    exact ⟨g, n, hg, hc, hx, same g hg ▸ hb⟩
  · intro ⟨g, n, hg, hc, hx, hb⟩
    exact ⟨g, n, hg, hc, hx, (same g hg).symm ▸ hb⟩

theorem Held.other (h : Held L v₀ v skip) (super : v'.ext2Sb = v.ext2Sb) (given : v'.given = v.given)
    (dev : ∀ m, L.Valid m → m.counted = true → v'.dev (L.place m) = v.dev (L.place m))
    (disk : ∀ ino : UInt32, L.InUse v .inode ino.toNat → ¬skip' ino.toNat →
      HasBlocks ((ext2GetInode v' ino).half 0) → SafeRaw L (ext2GetInode v' ino)) :
    Held L v₀ v' skip' := by
  have same : ∀ k x, L.InUse v' k x ↔ L.InUse v k x := by
    intro k x
    apply inUse_congr
    intro g hg
    rw [← L.place_bitmap]
    apply dev _ (Layout.bitmap_valid hg k)
    cases k <;> rfl
  obtain ⟨new, hnew, nodup, fresh, uses⟩ := h.given
  refine ⟨h.counted.congr super dev, ⟨new, given.trans hnew, nodup, fresh, ?_⟩, ?_, ?_⟩
  · intro k y
    rw [same, uses]
  · intro hd k
    rw [super, ← h.onDisk hd k]
    exact congrArg (Bytes.word · k.word) (dev .super trivial rfl)
  · intro ino hu
    exact disk ino ((same _ _).mp hu)

theorem Held.data (h : Held L v₀ v skip) (s : L.Sound) (hb : L.IsData b.toNat) (buf : Bytes) :
    Held L v₀ (ext2BwriteBlock v b buf) skip := by
  have keep : ∀ m, L.Valid m → (ext2BwriteBlock v b buf).dev (L.place m) = v.dev (L.place m) :=
    fun m hm => Function.update_of_ne (hb m hm) _ _
  have c' : Counted L (ext2BwriteBlock v b buf) := h.counted.congr rfl fun m hm _ => keep m hm
  refine h.other rfl rfl (fun m hm _ => keep m hm) ?_
  intro ino hu hs
  have hin := InUse.isInode hu
  rw [getInode_congr h.counted.formatted c'.formatted s hin (keep _ (s.inodeHome_valid hin))]
  exact h.disk ino hu hs

theorem Held.writeInode (h : Held L v₀ v skip) (s : L.Sound) (hi : Safe L i) :
    Held L v₀ (ext2WriteInode v i).1 fun y => skip y ∧ y ≠ i.ino.toNat := by
  have f := h.counted.formatted
  have c' := h.counted.writeInode s hi.isInode
  apply h.other
  · rfl
  · rfl
  · intro m hm hc
    rw [f.writeInode s hi.isInode]
    apply Function.update_of_ne
    intro he
    have := s.apart _ _ hm (s.inodeHome_valid hi.isInode) he
    rw [this] at hc
    cases hc
  · intro ino hu hs hb
    have hin := InUse.isInode hu
    by_cases he : ino = i.ino
    · subst he
      exact hi.stored.agree (getInode_writeInode f s hi.isInode c'.formatted)
    · have ha := getInode_writeInode_of f s hi.isInode c'.formatted hin he
      rw [ha.half (by decide) (by decide)] at hb
      refine (h.disk ino hu ?_ hb).agree ha
      intro hk
      exact hs ⟨hk, fun ht => he (UInt32.toNat_inj.mp ht)⟩

def diskSuper (v : Volume) : Bytes :=
  (v.dev (1024 / v.blockSize.toNat)).view (1024 % v.blockSize.toNat)

/-- A consistent file system: `s_first_data_block` is the block of the superblock, bitmaps and
counts agree, files and directories point to data, and the superblock on the disk has the
counts that the one in memory has. -/
structure Consistent (L : Layout) (v : Volume) : Prop where
  sound : L.Sound
  first : L.first = 1024 / L.size
  counted : Counted L v
  pointers : ∀ ino : UInt32, L.InUse v .inode ino.toNat →
    HasBlocks ((ext2GetInode v ino).half 0) → SafeRaw L (ext2GetInode v ino)
  stored : ∀ k : Kind, (diskSuper v).word k.word = v.ext2Sb.word k.word

end Mos.Ext2

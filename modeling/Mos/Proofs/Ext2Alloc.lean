import Mos.Proofs.Ext2Sample

namespace Mos.Ext2
open Machine Memory List

/-- The number is one of the file system's, not the error of a search that failed. -/
def Given.Valid (L : Layout) : Given → Prop
  | .block n => n.toNat < L.blocks
  | .inode n => n.toNat ≤ L.inodes

variable {L : Layout} {v v' v₀ : Volume} {i i' dir inode dir' : VfsInode} {name : Name}
  {skip : Nat → Prop} {b : UInt32}

/-- The numbers `new` have been handed out since `v`, and the counts of the superblock have
been lowered by one for each. -/
structure Takes (v v' : Volume) (new : List Given) : Prop where
  given : v'.given = new ++ v.given
  counts : ∀ k : Kind, v'.ext2Sb.word k.word =
    v.ext2Sb.word k.word - UInt32.ofNat (new.countP (·.kind = k))

namespace Takes
variable {v'' : Volume} {new new' : List Given}

theorem same (given : v'.given = v.given) (super : v'.ext2Sb = v.ext2Sb) : Takes v v' [] := by
  refine ⟨given, ?_⟩
  intro k
  rw [super, countP_nil]
  exact (UInt32.sub_zero _).symm

theorem trans (h : Takes v v' new) (h' : Takes v' v'' new') : Takes v v'' (new' ++ new) := by
  refine ⟨by rw [h'.given, h.given, append_assoc], ?_⟩
  intro k
  rw [h'.counts, h.counts, countP_append, UInt32.ofNat_add]
  grind

theorem single {x : Given} (given : v'.given = x :: v.given)
    (super : v'.ext2Sb = lowered v.ext2Sb x.kind) : Takes v v' [x] := by
  refine ⟨given, ?_⟩
  intro k
  rw [super, countP_singleton]
  by_cases hk : x.kind = k
  · subst hk
    rw [lowered_own, if_pos (decide_eq_true rfl)]
    rfl
  · rw [lowered_other _ (Ne.symm hk), if_neg (by rwa [decide_eq_true_iff])]
    exact (UInt32.sub_zero _).symm

end Takes

def TakesBlocks (v v' : Volume) (n : Nat) : Prop :=
  ∃ new, Takes v v' new ∧ (∀ x ∈ new, x.kind = .block) ∧ new.length = n

namespace TakesBlocks
variable {v'' : Volume} {m n : Nat}

theorem same (given : v'.given = v.given) (super : v'.ext2Sb = v.ext2Sb) : TakesBlocks v v' 0 :=
  ⟨[], .same given super, fun _ hx => (not_mem_nil hx).elim, rfl⟩

theorem trans (h : TakesBlocks v v' m) (h' : TakesBlocks v' v'' n) : TakesBlocks v v'' (n + m) := by
  obtain ⟨new, ht, hk, rfl⟩ := h
  obtain ⟨new', ht', hk', rfl⟩ := h'
  refine ⟨new' ++ new, ht.trans ht', ?_, length_append⟩
  intro x hx
  exact (mem_append.mp hx).elim (hk' x) (hk x)

theorem after (h : TakesBlocks v v' n) (given : v''.given = v'.given)
    (super : v''.ext2Sb = v'.ext2Sb) : TakesBlocks v v'' n := by
  have ht := h.trans (.same given super)
  rwa [Nat.zero_add] at ht

theorem suffix (h : TakesBlocks v v' n) : v.given <:+ v'.given := by
  obtain ⟨new, ht, -⟩ := h
  exact ⟨new, ht.given.symm⟩

end TakesBlocks

section Taken

theorem createBlock_takes (v : Volume) : TakesBlocks v (ext2CreateBlock v).2 1 := by
  refine ⟨[.block (ext2CreateBlock v).1], .single rfl rfl, ?_, rfl⟩
  intro x hx
  rw [mem_singleton.mp hx]
  rfl

theorem takeInode_takes (v : Volume) (mode : UInt16) :
    Takes v (takeInode v mode).2 [.inode (takeInode v mode).1] := .single rfl rfl

theorem directoryBlock_takes (v : Volume) (dir : VfsInode) (k : Nat) :
    TakesBlocks v (directoryBlock v dir k).2.1 (if dir.block k = 0 then 1 else 0) := by
  have hc := createBlock_takes v
  unfold directoryBlock
  split
  · exact hc.after rfl rfl
  · exact .same rfl rfl

theorem addEntry_some (h : ext2AddEntry v b inode name = .ok (some v')) :
    ∃ buf, v' = ext2BwriteBlock v b buf := by
  obtain ⟨buf, -, hb⟩ := bind_ok.mp h
  obtain ⟨buf', -, rfl⟩ := Option.map_eq_some_iff.mp (Except.ok.inj hb)
  exact ⟨buf', rfl⟩

theorem createEntryFrom_ok {found : Bool} {rounds k : Nat}
    (h : createEntryFrom inode name (rounds + 1) k v dir = .ok (found, v', dir')) :
    (k < 12 ∧ ∃ block w d, directoryBlock v dir k = (block, w, d) ∧
      ((∃ buf, found = true ∧ v' = ext2BwriteBlock w block buf ∧ dir' = d) ∨
        createEntryFrom inode name rounds (k + 1) w d = .ok (found, v', dir'))) ∨
    (found = false ∧ v' = v ∧ dir' = dir) := by
  unfold createEntryFrom at h
  split at h
  · split at h
    · cases h
    · rename_i hk
      left
      refine ⟨Nat.lt_of_not_le hk, _, _, _, rfl, ?_⟩
      obtain ⟨r, hr, h⟩ := bind_ok.mp h
      cases r with
      | some w =>
        obtain ⟨buf, rfl⟩ := addEntry_some hr
        have he := Except.ok.inj h
        simp only [Prod.mk.injEq] at he
        exact .inl ⟨buf, he.1.symm, he.2.1.symm, he.2.2.symm⟩
      | none => exact .inr h
  · right
    have he := Except.ok.inj h
    simp only [Prod.mk.injEq] at he
    exact ⟨he.1.symm, he.2.1.symm, he.2.2.symm⟩

theorem createEntry_takes {found : Bool} (rounds : Nat) :
    ∀ {k : Nat} {v : Volume} {dir : VfsInode},
      createEntryFrom inode name rounds k v dir = .ok (found, v', dir') →
      ∃ n, TakesBlocks v v' n := by
  induction rounds with
  | zero =>
    intro k v dir h
    cases h
  | succ rounds ih =>
    intro k v dir h
    rcases createEntryFrom_ok h with ⟨-, block, w, d, hd, hrest⟩ | ⟨-, rfl, -⟩
    · have ht := directoryBlock_takes v dir k
      rw [hd] at ht
      rcases hrest with ⟨buf, -, rfl, -⟩ | h
      · exact ⟨_, ht.after rfl rfl⟩
      · obtain ⟨n, hn⟩ := ih h
        exact ⟨_, ht.trans hn⟩
    · exact ⟨0, .same rfl rfl⟩

theorem initDirectory_given (v : Volume) (dir inode : VfsInode) :
    (initDirectory v dir inode).1.given = (ext2CreateBlock v).2.given := by
  unfold initDirectory
  rfl

theorem initDirectory_takes (v : Volume) (dir inode : VfsInode) :
    TakesBlocks v (initDirectory v dir inode).1 1 := by
  have hc := createBlock_takes v
  unfold initDirectory
  generalize ext2CreateBlock v = r at hc ⊢
  exact hc.after rfl rfl

theorem fileBlock_takes (v : Volume) (inode : VfsInode) (k : Nat) (now : UInt32) :
    TakesBlocks v (fileBlock v inode k now).2.1 (if inode.block k = 0 then 1 else 0) := by
  have hc := createBlock_takes v
  unfold fileBlock
  split
  · exact hc.after rfl rfl
  · exact .same rfl rfl

theorem createBlock_blockSize (v : Volume) : (ext2CreateBlock v).2.blockSize = v.blockSize := by
  have hw : (ext2CreateBlock v).2.ext2Sb.word 24 = v.ext2Sb.word 24 :=
    Bytes.word_setWord_of _ (by decide)
  unfold Volume.blockSize Volume.logBlockSize
  rw [hw]

section FileBlock
variable (v : Volume) (i : VfsInode) (k : Nat) (now : UInt32)

theorem fileBlock_blockSize : (fileBlock v i k now).2.1.blockSize = v.blockSize := by
  have hc := createBlock_blockSize v
  unfold fileBlock
  generalize ext2CreateBlock v = r at hc ⊢
  split
  · exact hc
  · rfl

theorem fileBlock_mode : (fileBlock v i k now).2.2.mode = i.mode := by
  unfold fileBlock
  split <;> rfl

theorem fileBlock_block_of (h : sIsChr i.mode = false) {j : Nat} (hj : j ≠ k) :
    (fileBlock v i k now).2.2.block j = i.block j := by
  unfold fileBlock
  split
  · have hb := stored_block (i := { i with
      raw := i.raw.setWord (40 + 4 * k) (ext2CreateBlock v).1
      mtime := now }) h j
    apply hb.trans
    exact Bytes.word_setWord_of _ (by omega)
  · rfl

end FileBlock

def filledBlock (v : Volume) (block : UInt32) (ppos count p : Nat) (buf : List UInt8) : Volume :=
  ext2BwriteBlock v block ((ext2BreadBlock v block).put (spanStart ppos p)
    (buf.take (spanLength v.blockSize.toNat ppos count p)))

theorem writeFrom_ok {ppos count rounds p : Nat} {now : UInt32} {buf : List UInt8}
    (h : writeFrom ppos count now (rounds + 1) v i p buf = .ok (v', i')) :
    (p < ppos + count ∧ p / v.blockSize.toNat < 12 ∧
      ∃ block w j, fileBlock v i (p / v.blockSize.toNat) now = (block, w, j) ∧
        writeFrom ppos count now rounds (filledBlock w block ppos count p buf) j
          ((p + w.blockSize.toNat) % 2 ^ 32)
          (buf.drop (spanLength w.blockSize.toNat ppos count p)) = .ok (v', i')) ∨
    (ppos + count ≤ p ∧ v' = v ∧ i' = i) := by
  rw [writeFrom] at h
  split at h
  · rename_i hp
    left
    refine ⟨hp, ?_⟩
    simp only at h
    split at h
    · rename_i hk
      exact ⟨hk, _, _, _, rfl, h⟩
    · cases h
  · rename_i hp
    right
    have he := Except.ok.inj h
    simp only [Prod.mk.injEq] at he
    exact ⟨Nat.le_of_not_lt hp, he.1.symm, he.2.symm⟩

theorem writeFrom_takes {ppos count : Nat} {now : UInt32} (rounds : Nat) :
    ∀ {v : Volume} {i : VfsInode} {p : Nat} {buf : List UInt8},
      writeFrom ppos count now rounds v i p buf = .ok (v', i') → ∃ n, TakesBlocks v v' n := by
  induction rounds with
  | zero =>
    intro v i p buf h
    cases h
  | succ rounds ih =>
    intro v i p buf h
    rcases writeFrom_ok h with ⟨-, -, block, w, j, hf, h⟩ | ⟨-, rfl, -⟩
    · have hb := fileBlock_takes v i (p / v.blockSize.toNat) now
      rw [hf] at hb
      have hw : TakesBlocks v (filledBlock w block ppos count p buf) _ := hb.after rfl rfl
      obtain ⟨n, hn⟩ := ih h
      exact ⟨_, hw.trans hn⟩
    · exact ⟨0, .same rfl rfl⟩

end Taken

def AllValid (L : Layout) (v : Volume) : Prop := ∀ x ∈ v.given, x.Valid L

theorem AllValid.before (h : AllValid L v') (le : v.given <:+ v'.given) : AllValid L v :=
  fun x hx => h x (le.subset hx)

theorem AllValid.unwritten (h : AllValid L (ext2WriteInode v i).1) : AllValid L v := h

theorem createBlock_held (h : Held L v₀ v skip) (s : L.Sound)
    (valid : AllValid L (ext2CreateBlock v).2) :
    Held L v₀ (ext2CreateBlock v).2 skip ∧ L.IsData (ext2CreateBlock v).1.toNat := by
  have hb : (Given.block (ext2CreateBlock v).1).Valid L := valid _ mem_cons_self
  obtain ⟨took, given, -⟩ := createBlock_took h.counted s hb
  constructor
  · have hold := h.took s (x := .block (ext2CreateBlock v).1) took given
    apply hold.mono
    intro x hx
    rcases hx with hx | ⟨hk, -⟩
    · exact hx
    · cases hk
  · intro m hm he
    exact took.fresh (he ▸ h.counted.meta_inUse s hm)

theorem SafeRaw.set {raw : Bytes} (h : SafeRaw L raw) (hb : L.IsData b.toNat) (k : Nat) :
    SafeRaw L (raw.setWord (40 + 4 * k) b) := by
  intro j hj
  by_cases he : j = k
  · subst he
    rw [Bytes.word_setWord]
    exact .inr hb
  · rw [Bytes.word_setWord_of _ (by omega)]
    exact h j hj

theorem Held.rewrite (h : Held L v₀ v skip) (s : L.Sound) (hi : Safe L i) :
    Held L v₀ (ext2WriteInode v i).1 skip := (h.writeInode s hi).mono fun _ hx => hx.1

theorem directoryBlock_held (h : Held L v₀ v skip) (s : L.Sound) (hd : Safe L dir) {k : Nat}
    (hk : k < 12) (valid : AllValid L (directoryBlock v dir k).2.1) :
    Held L v₀ (directoryBlock v dir k).2.1 skip ∧ Safe L (directoryBlock v dir k).2.2 ∧
      L.IsData (directoryBlock v dir k).1.toNat := by
  unfold directoryBlock at valid ⊢
  split at valid
  · rename_i hz
    simp only [if_pos hz]
    obtain ⟨h', hb⟩ := createBlock_held h s valid.unwritten
    have hd' : Safe L { dir with
        raw := dir.raw.setWord (40 + 4 * k) (ext2CreateBlock v).1
        blocks := dir.blocks + 1
        size := dir.size + (ext2CreateBlock v).2.blockSize } :=
      ⟨hd.isInode, hd.kind, hd.raw.set hb k⟩
    exact ⟨h'.rewrite s hd', hd'.written, hb⟩
  · rename_i hz
    simp only [if_neg hz]
    exact ⟨h, hd, (hd.raw k hk).resolve_left hz⟩

theorem createEntry_held {found : Bool} (s : L.Sound) (rounds : Nat) :
    ∀ {k : Nat} {v : Volume} {dir : VfsInode}, Held L v₀ v skip → Safe L dir →
      createEntryFrom inode name rounds k v dir = .ok (found, v', dir') → AllValid L v' →
      Held L v₀ v' skip ∧ Safe L dir' := by
  induction rounds with
  | zero =>
    intro k v dir _ _ h
    cases h
  | succ rounds ih =>
    intro k v dir held hd h valid
    rcases createEntryFrom_ok h with ⟨hk, block, w, d, he, hrest⟩ | ⟨-, rfl, rfl⟩
    · have hb := directoryBlock_held held s hd hk
      rw [he] at hb
      rcases hrest with ⟨buf, -, rfl, rfl⟩ | h
      · obtain ⟨held', hd', hb⟩ := hb valid
        exact ⟨held'.data s hb buf, hd'⟩
      · obtain ⟨n, hn⟩ := createEntry_takes _ h
        obtain ⟨held', hd', -⟩ := hb (valid.before hn.suffix)
        exact ih held' hd' h valid
    · exact ⟨held, hd⟩

theorem takeInode_held (h : Held L v₀ v skip) (s : L.Sound) {mode : UInt16}
    (valid : AllValid L (takeInode v mode).2) :
    Held L v₀ (takeInode v mode).2 (fun y => skip y ∨ y = (takeInode v mode).1.toNat) ∧
      L.IsInode (takeInode v mode).1.toNat := by
  have hx : (Given.inode (takeInode v mode).1).Valid L := valid _ mem_cons_self
  obtain ⟨took, given⟩ := takeInode_took h.counted s mode hx
  refine ⟨?_, took.inside.1, hx⟩
  have hold := h.took s (x := .inode (takeInode v mode).1) took given
  apply hold.mono
  intro y hy
  exact hy.imp_right And.right

theorem newInode_safe {ino : UInt32} {mode : UInt16} (now : UInt32) (hi : L.IsInode ino.toNat)
    (hm : HasBlocks mode) : Safe L (newInode ino mode now) := by
  refine ⟨hi, hm, ?_⟩
  intro k _
  left
  exact Bytes.word_setHalf_of _ (by omega)

theorem initDirectory_held (h : Held L v₀ v skip) (s : L.Sound) (hi : Safe L i)
    (valid : AllValid L (initDirectory v dir i).1) :
    Held L v₀ (initDirectory v dir i).1 skip ∧ Safe L (initDirectory v dir i).2 := by
  have valid' : AllValid L (ext2CreateBlock v).2 :=
    valid.before (by rw [initDirectory_given])
  obtain ⟨h', hb⟩ := createBlock_held h s valid'
  have hi' : Safe L { i with
      raw := i.raw.setWord 40 (ext2CreateBlock v).1
      blocks := i.blocks + 1
      size := i.size + (ext2CreateBlock v).2.blockSize } :=
    ⟨hi.isInode, hi.kind, hi.raw.set hb 0⟩
  exact ⟨(h'.rewrite s hi').data s hb _, hi'.written⟩

def preparedInode (v : Volume) (dir : VfsInode) (mode : UInt16) (now : UInt32) :
    Volume × VfsInode :=
  if sIsReg mode then ((takeInode v mode).2, newInode (takeInode v mode).1 mode now)
  else initDirectory (takeInode v mode).2 dir (newInode (takeInode v mode).1 mode now)

theorem createInode_eq (v : Volume) (dir : VfsInode) (name : Name) (mode : UInt16) (now : UInt32) :
    ext2CreateInode v dir name mode now =
      let (w, i) := ext2WriteInode (preparedInode v dir mode now).1 (preparedInode v dir mode now).2
      if sIsReg mode ∨ sIsDir mode then do
        let (found, v, dir) ← ext2CreateEntry w dir i name
        pure (if found then some i else none, v, dir)
      else throw .assertNotReached := by
  unfold ext2CreateInode preparedInode
  simp only

theorem createInode_ok {mode : UInt16} {now : UInt32} {r : Option VfsInode}
    (h : ext2CreateInode v dir name mode now = .ok (r, v', dir')) :
    HasBlocks mode ∧
      ∃ found, ext2CreateEntry (ext2WriteInode (preparedInode v dir mode now).1
          (preparedInode v dir mode now).2).1 dir
          (ext2WriteInode (preparedInode v dir mode now).1 (preparedInode v dir mode now).2).2 name =
        .ok (found, v', dir') ∧
      r = if found then some (ext2WriteInode (preparedInode v dir mode now).1
        (preparedInode v dir mode now).2).2 else none := by
  rw [createInode_eq] at h
  simp only at h
  split at h
  · rename_i hm
    refine ⟨hm, ?_⟩
    obtain ⟨⟨found, v₁, dir₁⟩, he, h⟩ := bind_ok.mp h
    have hr := Except.ok.inj h
    simp only [Prod.mk.injEq] at hr
    obtain ⟨hr, rfl, rfl⟩ := hr
    exact ⟨found, he, hr.symm⟩
  · cases h

theorem preparedInode_held {mode : UInt16} {now : UInt32} (h : Held L v₀ v fun _ => False)
    (s : L.Sound) (hm : HasBlocks mode) (valid : AllValid L (preparedInode v dir mode now).1) :
    Held L v₀ (preparedInode v dir mode now).1 (· = (preparedInode v dir mode now).2.ino.toNat) ∧
      Safe L (preparedInode v dir mode now).2 := by
  unfold preparedInode at valid ⊢
  split at valid
  · rename_i hr
    simp only [if_pos hr]
    obtain ⟨held, hi⟩ := takeInode_held h s valid
    exact ⟨held.mono fun y hy => hy.resolve_left id, newInode_safe now hi hm⟩
  · rename_i hr
    simp only [if_neg hr]
    obtain ⟨held, hi⟩ := takeInode_held h s (valid.before (initDirectory_takes _ _ _).suffix)
    obtain ⟨held', hi'⟩ := initDirectory_held (held.mono fun y hy => hy.resolve_left id)
      s (newInode_safe now hi hm) valid
    exact ⟨held', hi'⟩

theorem createInode_held {mode : UInt16} {now : UInt32} {r : Option VfsInode}
    (held : Held L v₀ v fun _ => False) (s : L.Sound) (hd : Safe L dir)
    (h : ext2CreateInode v dir name mode now = .ok (r, v', dir')) (valid : AllValid L v') :
    Held L v₀ v' (fun _ => False) ∧ Safe L dir' ∧ ∀ i ∈ r, Safe L i := by
  obtain ⟨hm, found, he, rfl⟩ := createInode_ok h
  obtain ⟨n, hn⟩ := createEntry_takes _ he
  have valid' := valid.before hn.suffix
  obtain ⟨held', hi⟩ := preparedInode_held held s hm valid'
  have held'' : Held L v₀ _ fun _ => False :=
    (held'.writeInode s hi).mono fun y hy => hy.2 hy.1
  obtain ⟨hend, hd'⟩ := createEntry_held s _ held'' hd he valid
  refine ⟨hend, hd', ?_⟩
  intro i hmem
  split at hmem
  · rw [Option.mem_some_iff.mp hmem.symm]
    exact hi.written
  · cases hmem

theorem fileBlock_held (h : Held L v₀ v skip) (s : L.Sound) (hi : Safe L i) {k : Nat}
    (hk : k < 12) (now : UInt32) (valid : AllValid L (fileBlock v i k now).2.1) :
    Held L v₀ (fileBlock v i k now).2.1 skip ∧ Safe L (fileBlock v i k now).2.2 ∧
      L.IsData (fileBlock v i k now).1.toNat := by
  unfold fileBlock at valid ⊢
  split at valid
  · rename_i hz
    simp only [if_pos hz]
    obtain ⟨h', hb⟩ := createBlock_held h s valid.unwritten
    have hi' : Safe L { i with
        raw := i.raw.setWord (40 + 4 * k) (ext2CreateBlock v).1
        mtime := now } :=
      ⟨hi.isInode, hi.kind, hi.raw.set hb k⟩
    exact ⟨h'.rewrite s hi', hi'.written, hb⟩
  · rename_i hz
    simp only [if_neg hz]
    exact ⟨h, hi, (hi.raw k hk).resolve_left hz⟩

theorem writeFrom_held {ppos count : Nat} {now : UInt32} (s : L.Sound) (rounds : Nat) :
    ∀ {v : Volume} {i : VfsInode} {p : Nat} {buf : List UInt8}, Held L v₀ v skip → Safe L i →
      writeFrom ppos count now rounds v i p buf = .ok (v', i') → AllValid L v' →
      Held L v₀ v' skip ∧ Safe L i' := by
  induction rounds with
  | zero =>
    intro v i p buf _ _ h
    cases h
  | succ rounds ih =>
    intro v i p buf held hi h valid
    rcases writeFrom_ok h with ⟨-, hk, block, w, j, hf, h⟩ | ⟨-, rfl, rfl⟩
    · obtain ⟨n, hn⟩ := writeFrom_takes _ h
      have hb := fileBlock_held held s hi hk now
      rw [hf] at hb
      obtain ⟨held', hi', hb⟩ := hb (valid.before hn.suffix)
      exact ih (held'.data s hb _) hi' h valid
    · exact ⟨held, hi⟩

theorem growFile_held (h : Held L v₀ v skip) (s : L.Sound) (hi : Safe L i) (stop : Nat) :
    Held L v₀ (growFile v i stop).1 skip ∧ Safe L (growFile v i stop).2 := by
  unfold growFile
  split
  · have hi' : Safe L { i with
        size := UInt32.ofNat stop
        blocks := UInt32.ofNat ((stop + 511) / 512) } := ⟨hi.isInode, hi.kind, hi.raw⟩
    exact ⟨h.rewrite s hi', hi'.written⟩
  · exact ⟨h, hi⟩

theorem writeFile_held {buf : List UInt8} {ppos : Nat} {now : UInt32} (held : Held L v₀ v skip)
    (s : L.Sound) (hi : Safe L i) (h : ext2WriteFile v i buf ppos now = .ok (v', i'))
    (valid : AllValid L v') : Held L v₀ v' skip ∧ Safe L i' := by
  obtain ⟨held', hi'⟩ := growFile_held held s hi (ppos + buf.length)
  exact writeFrom_held s _ held' hi' h valid

/-- What holds in every state of a run: the volume is in order, and the inodes in memory point
to data. -/
structure InOrder (L : Layout) (v₀ : Volume) (s : Session) : Prop where
  held : Held L v₀ s.volume fun _ => False
  safe : ∀ i ∈ s.nodes, Safe L i

/-- The calls of a run: only inodes of files and directories are read from the disk, and a
free block and a free inode are there whenever one is looked for. -/
def Within (L : Layout) (s : Session) (op : Op) : Prop :=
  (match op with
    | .load ino => L.InUse s.volume .inode ino.toNat ∧ HasBlocks (ext2ReadInode s.volume ino).mode
    | _ => True) ∧
  ∀ s' ∈ perform s op, AllValid L s'.volume

theorem set_safe {nodes : List VfsInode} (h : ∀ i ∈ nodes, Safe L i) {k : Nat} (hi : Safe L i') :
    ∀ i ∈ nodes.set k i', Safe L i := by
  intro i hm
  rcases mem_or_eq_of_mem_set hm with hm | rfl
  · exact h i hm
  · exact hi

theorem InOrder.perform {t t' : Session} {op : Op} (s : L.Sound) (h : InOrder L v₀ t)
    (ok : Within L t op) (step : perform t op = some t') : InOrder L v₀ t' := by
  have valid := ok.2 t' step
  cases op with
  | load ino =>
    obtain ⟨hu, hb⟩ := ok.1
    cases step
    refine ⟨h.held, ?_⟩
    intro i hm
    rcases mem_append.mp hm with hm | hm
    · exact h.safe i hm
    · rw [mem_singleton.mp hm]
      exact ⟨InUse.isInode hu, hb, h.held.disk ino hu id hb⟩
  | create d name mode now =>
    rw [Ext2.perform] at step
    split at step
    · cases step
    · rename_i dir hdir
      split at step
      · cases step
      · rename_i r v' dir' hc
        cases step
        obtain ⟨held, hd, hr⟩ :=
          createInode_held h.held s (h.safe dir (mem_of_getElem? hdir)) hc valid
        refine ⟨held, ?_⟩
        intro i hm
        rcases mem_append.mp hm with hm | hm
        · exact set_safe h.safe hd i hm
        · exact hr i (Option.mem_toList.mp hm)
  | write file buf ppos now =>
    rw [Ext2.perform] at step
    split at step
    · cases step
    · rename_i inode hfile
      split at step
      · cases step
      · rename_i v' inode' hw
        cases step
        obtain ⟨held, hi⟩ :=
          writeFile_held h.held s (h.safe inode (mem_of_getElem? hfile)) hw valid
        exact ⟨held, set_safe h.safe hi⟩

theorem Consistent.inOrder (c : Consistent L v) : InOrder L v { volume := v } := by
  refine ⟨⟨c.counted, ⟨[], rfl, nodup_nil, ?_, ?_⟩, id, ?_⟩, ?_⟩
  · intro x hx
    cases hx
  · intro k y
    simp only [not_mem_nil, false_and, exists_false, or_false]
  · intro ino hu _ hb
    exact c.pointers ino hu hb
  · intro i hi
    cases hi

/-- What one call keeps, a session keeps. -/
theorem Consistent.run {t : Session} (c : Consistent L v)
    (h : Run perform (Within L) { volume := v } t) : InOrder L v t :=
  h.invariant (I := InOrder L v) c.inOrder fun _ _ _ i ok step => i.perform c.sound ok step

theorem diskSuper_first (f : Formatted L v) (s : L.Sound) (small : L.log = 0)
    (first : L.first = 1024 / L.size) : diskSuper v = v.dev L.first := by
  have hsize : L.size = 1024 := by
    unfold Layout.size
    rw [small]
    rfl
  unfold diskSuper
  rw [f.size s, first, hsize]
  funext x
  simp only [Bytes.view, Nat.mod_self, Nat.zero_add]

/-- Bitmaps, counts and what was handed out stay in step along every run. -/
theorem allocation_consistent {t : Session} (c : Consistent L v) (small : L.log = 0)
    (h : Run perform (Within L) { volume := v } t) :
    Consistent L t.volume ∧ HandedOut L v t.volume := by
  have held := (c.run h).held
  have start := c.stored
  rw [diskSuper_first c.counted.formatted c.sound small c.first] at start
  refine ⟨⟨c.sound, c.first, held.counted, ?_, ?_⟩, held.given⟩
  · intro ino hu hb
    exact held.disk ino hu id hb
  · rw [diskSuper_first held.counted.formatted c.sound small c.first]
    exact held.onDisk start

instance (L : Layout) (v : Volume) (k : Kind) (x : Nat) : Decidable (L.InUse v k x) :=
  decidable_of_iff (∃ g < L.groups, ∃ n < L.perGroup k, L.number k g n < L.limit k ∧
      x = L.number k g n ∧ (v.dev (L.bitmap k g)).bit n = true) (by
    constructor
    · intro ⟨g, hg, n, hn, hl, hx, hb⟩
      exact ⟨g, n, hg, ⟨hn, hl⟩, hx, hb⟩
    · intro ⟨g, n, hg, hn, hx, hb⟩
      exact ⟨g, hg, n, hn.1, hn.2, hx, hb⟩)

instance (mode : UInt16) : Decidable (HasBlocks mode) :=
  inferInstanceAs (Decidable (_ ∨ _))

instance (L : Layout) : (x : Given) → Decidable (x.Valid L)
  | .block n => inferInstanceAs (Decidable (n.toNat < L.blocks))
  | .inode n => inferInstanceAs (Decidable (n.toNat ≤ L.inodes))

instance (L : Layout) (v : Volume) : Decidable (AllValid L v) :=
  inferInstanceAs (Decidable (∀ x ∈ v.given, x.Valid L))

instance (L : Layout) (s : Session) (op : Op) : Decidable (Within L s op) := by
  unfold Within
  cases op <;> exact inferInstance

theorem allocation_consistent_file : ∃ t : Session,
    Run perform (Within (sampleLayout 0)) { volume := sample 0 0x3f 0x80 0x03 } t ∧
    t.volume.given = [.block 7, .inode 3] ∧ Consistent (sampleLayout 0) t.volume ∧
    HandedOut (sampleLayout 0) (sample 0 0x3f 0x80 0x03) t.volume := by
  obtain ⟨t, run, hg⟩ := replay_reaches perform (Within (sampleLayout 0))
    { volume := sample 0 0x3f 0x80 0x03 } [.load 2, .create 0 [97] 0o100644 7, .write 1 [98] 0 8]
    (P := fun t => t.volume.given = [.block 7, .inode 3]) (by decide +kernel)
  have c : Consistent (sampleLayout 0) (sample 0 0x3f 0x80 0x03) :=
    sample_consistent (.inl rfl) (by decide)
  exact ⟨t, run, hg, allocation_consistent c rfl run⟩

/-- With larger blocks the superblock is the second part of the first block, which is
overwritten with what follows the superblock in memory. -/
theorem superblock_misplaced :
    Consistent (sampleLayout 1) (sample 1 0x3f 0x00 0x03) ∧
    ∃ t : Session, Run perform (Within (sampleLayout 1)) { volume := sample 1 0x3f 0x00 0x03 } t ∧
      ¬Consistent (sampleLayout 1) t.volume := by
  refine ⟨sample_consistent (.inr rfl) (by decide), ?_⟩
  obtain ⟨t, run, hs⟩ := replay_reaches perform (Within (sampleLayout 1))
    { volume := sample 1 0x3f 0x00 0x03 } [.load 2, .create 0 [97] 0o100644 7]
    (P := fun t => (diskSuper t.volume).word 16 ≠ t.volume.ext2Sb.word 16) (by decide +kernel)
  exact ⟨t, run, fun c => hs (c.stored .inode)⟩

end Mos.Ext2

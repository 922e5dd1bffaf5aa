import Mos.Machine.WaitList
import Mos.Proofs.OpenFiles
import Mos.Fs.Namei

namespace Mos.Namei
open Option
open Fs (System FilesStruct openFails_neg setSlot_get unused_none)

variable {F : Type} {D : Driver F} {p : Proc} {k k' : Kernel F} {t t' : FilesStruct}
  {path : List Char} {flags : UInt32} {fd : Int} {nd : Nameidata}

def refuses (D : Driver F) (p : Proc) (k : Kernel F) (t : FilesStruct) (path : List Char)
    (flags : UInt32) : Option Int :=
  match pathWalk D p k.vfs path flags 0 with
  | none => none
  | some (v, ret, nd) =>
    if ret < 0 then some ret
    else
      match v.dInode nd.dentry with
      | none => none
      | some i =>
        match Fs.openFails { ret, iFop := D.fop i } with
        | some e => some e
        | none => if (Fs.findUnusedFdSlot t 0).isNone then some (-Fs.einval) else none

theorem table_procs (ht : k.table p = some t) : k.sys.procs[p.pid]? = some (some t) := by
  exact join_eq_some_iff.mp ht

variable {v : Vfs F} {slot : Fin 256} {id : Nat} {flag : UInt32} {ret : Int}

theorem table_of_procs {s : System} (h : s.procs[p.pid]? = some (some t)) :
    Kernel.table p { vfs := v, sys := s } = some t := by
  unfold Kernel.table
  rw [h]
  rfl

theorem install_procs {s s' : System} {pid : Nat} (h : s.procs[pid]? = some (some t))
    (same : s'.procs = s.procs) (slot : Fin 256) (x : Option Nat) :
    (Fs.install s' pid t slot x).procs[pid]? = some (some (Fs.setSlot t slot x)) := by
  have hl := (List.getElem?_eq_some_iff.mp h).1
  simp only [Fs.install, same]
  rw [List.getElem?_set_self hl]

theorem vfsOpen_cases (D : Driver F) (path : List Char) (flags : UInt32) (ht : k.table p = some t) :
    vfsOpen D p k path flags = none ∧ refuses D p k t path flags = none ∨
    ∃ k' fd nd ret, vfsOpen D p k path flags = some (k', fd, nd) ∧
      pathWalk D p k.vfs path flags 0 = some (k'.vfs, ret, nd) ∧
      (refuses D p k t path flags = some fd ∧ fd < 0 ∧ k'.table p = some t ∨
        refuses D p k t path flags = none ∧ ∃ slot id, Fs.findUnusedFdSlot t 0 = some slot ∧
          fd = slot.val ∧ k'.table p = some (Fs.setSlot t slot (some id))) := by
  have hp := table_procs ht
  unfold vfsOpen refuses
  rw [ht]
  cases pathWalk D p k.vfs path flags 0 with
  | none => exact .inl ⟨rfl, rfl⟩
  | some w =>
    obtain ⟨v, ret, nd⟩ := w
    by_cases hneg : ret < 0
    · simp only [if_pos hneg]
      exact .inr ⟨_, ret, nd, ret, rfl, rfl, .inl ⟨rfl, hneg, table_of_procs hp⟩⟩
    simp only [if_neg hneg]
    cases v.dInode nd.dentry with
    | none => exact .inl ⟨rfl, rfl⟩
    | some i =>
      right
      simp only [map_some, Fs.vfsOpen]
      cases hf : Fs.openFails { ret, iFop := D.fop i } with
      | some e => exact ⟨_, e, nd, ret, rfl, rfl, .inl ⟨rfl, openFails_neg hf, table_of_procs hp⟩⟩
      | none =>
        cases Fs.findUnusedFdSlot t 0 with
        | none => exact ⟨_, -Fs.einval, nd, ret, rfl, rfl, .inl ⟨rfl, by decide, table_of_procs hp⟩⟩
        | some slot =>
          refine ⟨_, _, nd, ret, rfl, rfl, .inr ⟨rfl, slot, k.sys.opened, rfl, rfl, ?_⟩⟩
          exact table_of_procs (install_procs hp rfl slot _)

theorem vfsOpen_refused {e : Int} (ht : k.table p = some t)
    (h : refuses D p k t path flags = some e) :
    e < 0 ∧ ∃ k' nd, vfsOpen D p k path flags = some (k', e, nd) ∧ k'.table p = some t ∧
      ∃ ret nd', pathWalk D p k.vfs path flags 0 = some (k'.vfs, ret, nd') := by
  rcases vfsOpen_cases D path flags ht with
    ⟨-, hr⟩ | ⟨k', fd, nd, ret, ho, hw, ⟨hr, hneg, ht'⟩ | ⟨hr, -⟩⟩
  · cases hr.symm.trans h
  · cases hr.symm.trans h
    exact ⟨hneg, k', nd, ho, ht', ret, nd, hw⟩
  · cases hr.symm.trans h

theorem vfsOpen_taken (ht : k.table p = some t) (h : refuses D p k t path flags = none)
    (ho : vfsOpen D p k path flags = some (k', fd, nd)) :
    ∃ slot id ret, Fs.findUnusedFdSlot t 0 = some slot ∧ fd = slot.val ∧
      k'.table p = some (Fs.setSlot t slot (some id)) ∧
      pathWalk D p k.vfs path flags 0 = some (k'.vfs, ret, nd) := by
  rcases vfsOpen_cases D path flags ht with
    ⟨ho', -⟩ | ⟨k', fd, nd, ret, ho', hw, ⟨hr, -⟩ | ⟨-, slot, id, hs, hfd, ht'⟩⟩
  · cases ho'.symm.trans ho
  · cases hr.symm.trans h
  · cases ho'.symm.trans ho
    exact ⟨slot, id, ret, hs, hfd, ht', hw⟩

theorem vfsOpen_defined {w : Int} {i : Inode} (ht : k.table p = some t)
    (hw : pathWalk D p k.vfs path flags 0 = some (v, w, nd)) (hi : v.dInode nd.dentry = some i) :
    ∃ k' fd, vfsOpen D p k path flags = some (k', fd, nd) := by
  unfold vfsOpen
  rw [ht, hw]
  simp only [hi, map_some]
  split
  · exact ⟨_, _, rfl⟩
  · exact ⟨_, _, rfl⟩

def closeSlot (t : FilesStruct) (fd : Int) : FilesStruct :=
  if h : 0 ≤ fd ∧ fd < 256 then Fs.setSlot t ⟨fd.toNat, slot_lt h⟩ none else t

theorem vfsClose_table (ht : k.table p = some t) (fd : Int) :
    ∃ k' ret, vfsClose p k fd = some (k', ret) ∧ k'.table p = some (closeSlot t fd) := by
  have hp := table_procs ht
  unfold vfsClose closeSlot
  rw [ht, map_some]
  split
  · simp only [Fs.vfsClose]
    split
    · exact ⟨_, _, rfl, table_of_procs (install_procs hp rfl _ _)⟩
    · split
      · exact ⟨_, _, rfl, table_of_procs (install_procs hp rfl _ _)⟩
      · exact ⟨_, _, rfl, table_of_procs (install_procs hp rfl _ _)⟩
  · exact ⟨_, _, rfl, ht⟩

theorem table_ext (h : ∀ i, t.fd.get i = t'.fd.get i) : t = t' := by
  obtain ⟨a⟩ := t
  congr 1
  apply Vector.ext
  intro i hi
  exact h ⟨i, hi⟩

theorem close_taken (free : t.fd.get slot = none) (fd : Int) :
    closeSlot (Fs.setSlot t slot (some id)) fd = t ↔ fd = slot.val := by
  constructor
  · intro h
    by_contra hne
    have hs := congrArg (fun t : FilesStruct => t.fd.get slot) h
    simp only [free, closeSlot] at hs
    split at hs
    · rw [setSlot_get, if_neg (by rw [Fin.ext_iff]; simp only; omega), setSlot_get, if_pos rfl] at hs
      cases hs
    · rw [setSlot_get, if_pos rfl] at hs
      cases hs
  · rintro rfl
    apply table_ext
    intro i
    unfold closeSlot
    rw [dif_pos (by omega), setSlot_get, setSlot_get]
    by_cases hi : i = slot
    · subst hi
      rw [if_pos (by rw [Fin.ext_iff]; simp), free]
    · rw [if_neg (by rw [Fin.ext_iff] at hi ⊢; simpa using hi), if_neg hi]

def openSlots (t : FilesStruct) : Nat := t.fd.toList.countP Option.isSome

theorem openSlots_setSlot (t : FilesStruct) (slot : Fin 256) (x : Option Nat) :
    openSlots (Fs.setSlot t slot x) + (if (t.fd.get slot).isSome then 1 else 0) =
      openSlots t + (if x.isSome then 1 else 0) := by
  have h := Machine.countP_replace (Fs.slot_get t slot) x Option.isSome
  exact h

theorem openSlots_close (t : FilesStruct) (fd : Int) : openSlots t ≤ openSlots (closeSlot t fd) + 1 := by
  unfold closeSlot
  split
  · rename_i h
    have hc := openSlots_setSlot t ⟨fd.toNat, slot_lt h⟩ none
    split at hc <;> omega
  · omega

theorem openSlots_taken (free : t.fd.get slot = none) :
    openSlots (Fs.setSlot t slot (some id)) = openSlots t + 1 := by
  have hc := openSlots_setSlot t slot (some id)
  rw [free] at hc
  simpa using hc

def Keeps (p : Proc) (k : Kernel F) (r : Option (Kernel F × Int)) : Prop :=
  ∃ k' ret, r = some (k', ret) ∧ k'.table p = k.table p

theorem vfsUnlink_some
    (h : vfsUnlink D p k path flag = some (k', ret)) :
    ∃ full k₁ fd nd, absolutizePathFromProcess p k.vfs path = some full ∧
      vfsOpen D p k full oRdonly = some (k₁, fd, nd) ∧
      (fd < 0 ∧ k₁ = k' ∨
        ¬fd < 0 ∧ ∃ v r, unlinkOpened D k₁.vfs nd.dentry flag fd = some (v, ret) ∧
          vfsClose p { k₁ with vfs := v } ret = some (k', r)) := by
  obtain ⟨full, hf, h⟩ := bind_eq_some_iff.mp h
  obtain ⟨⟨k₁, fd, nd⟩, ho, h⟩ := bind_eq_some_iff.mp h
  refine ⟨full, k₁, fd, nd, hf, ho, ?_⟩
  simp only at h
  split at h
  · rename_i hneg
    exact .inl ⟨hneg, (Prod.mk.inj (Option.some.inj h)).1⟩
  · rename_i hneg
    obtain ⟨⟨v, ret'⟩, hu, h⟩ := bind_eq_some_iff.mp h
    obtain ⟨⟨k₂, r⟩, hc, h⟩ := bind_eq_some_iff.mp h
    cases h
    exact .inr ⟨hneg, v, r, hu, hc⟩

theorem vfsUnlink_opened {full : List Char} {k₁ k₂ : Kernel F}
    {r : Int} (hf : absolutizePathFromProcess p k.vfs path = some full)
    (ho : vfsOpen D p k full oRdonly = some (k₁, fd, nd)) (hfd : ¬fd < 0)
    (hu : unlinkOpened D k₁.vfs nd.dentry flag fd = some (v, ret))
    (hc : vfsClose p { k₁ with vfs := v } ret = some (k₂, r)) :
    vfsUnlink D p k path flag = some (k₂, ret) := by
  simp only [vfsUnlink, hf, ho, hu, hc, bind_eq_bind, bind_some, if_neg hfd]

theorem vfsUnlink_grows (ht : k.table p = some t)
    (h : vfsUnlink D p k path flag = some (k', ret)) :
    ∃ t', k'.table p = some t' ∧ openSlots t ≤ openSlots t' := by
  obtain ⟨full, k₁, fd, nd, -, ho, h⟩ := vfsUnlink_some h
  cases hr : refuses D p k t full oRdonly with
  | some e =>
    obtain ⟨hneg, k₂, nd₂, ho₂, ht₂, -⟩ := vfsOpen_refused ht hr
    rw [ho] at ho₂
    obtain ⟨rfl, rfl, rfl⟩ : k₁ = k₂ ∧ fd = e ∧ nd = nd₂ := by simpa using ho₂
    rcases h with ⟨-, rfl⟩ | ⟨hfd, -⟩
    · exact ⟨t, ht₂, le_rfl⟩
    · exact absurd hneg hfd
  | none =>
    obtain ⟨slot, id, w, hs, rfl, ht₁, -⟩ := vfsOpen_taken ht hr ho
    rcases h with ⟨hfd, -⟩ | ⟨-, v, r, -, hc⟩
    · omega
    · obtain ⟨k₂, r₂, hc₂, ht₂⟩ := vfsClose_table (k := { k₁ with vfs := v }) ht₁ ret
      rw [hc] at hc₂
      obtain ⟨rfl, -⟩ : k' = k₂ ∧ r = r₂ := by simpa using hc₂
      refine ⟨_, ht₂, ?_⟩
      have hle := openSlots_close (Fs.setSlot t slot (some id)) ret
      rw [openSlots_taken (unused_none hs)] at hle
      omega

/-- The number `vfs_unlink` closes is the slot it took: the directory has no unlink
operation, or one that answers with this number. -/
def closesTaken (D : Driver F) (v : Vfs F) (d : Nat) (flag : UInt32) (slot : Fin 256) : Prop :=
  ∃ i dir, v.dInode d = some i ∧ ¬(flag &&& atRemovedir ≠ 0 ∧ i.iMode &&& sIfreg ≠ 0) ∧
    (v.dentry d).dParent.bind v.dInode = some dir ∧
    ∀ unlink, D.unlink dir = some unlink → (unlink v.fs (v.dentry d).dName).2 = slot.val

/-- The slot that `vfs_unlink` closes is the one its own open took. -/
theorem closesTaken_iff {d : Nat} :
    closesTaken D v d flag slot ↔
      ∃ v', unlinkOpened D v d flag slot.val = some (v', (slot.val : Int)) := by
  unfold closesTaken unlinkOpened
  constructor
  · rintro ⟨i, dir, hi, hkind, hdir, hop⟩
    rw [hi]
    simp only [if_neg hkind, hdir]
    cases hu : D.unlink dir with
    | none => exact ⟨_, rfl⟩
    | some unlink => exact ⟨_, by rw [← hop unlink hu]⟩
  · rintro ⟨v', h⟩
    cases hi : v.dInode d with
    | none =>
      rw [hi] at h
      cases h
    | some i =>
      rw [hi] at h
      simp only at h
      split at h
      · have he := (Prod.mk.inj (Option.some.inj h)).2
        unfold enotdir at he
        omega
      · rename_i hkind
        cases hdir : (v.dentry d).dParent.bind v.dInode with
        | none =>
          rw [hdir] at h
          cases h
        | some dir =>
          refine ⟨i, dir, rfl, hkind, rfl, ?_⟩
          intro unlink hu
          rw [hdir] at h
          simp only [hu] at h
          exact (Prod.mk.inj (Option.some.inj h)).2

/-- When `vfs_unlink` leaves the table: it opens nothing, or closes what it opened. -/
def unlinkKeeps (D : Driver F) (p : Proc) (k : Kernel F) (t : FilesStruct) (path : List Char)
    (flag : UInt32) : Prop :=
  ∃ full, absolutizePathFromProcess p k.vfs path = some full ∧
    ((refuses D p k t full oRdonly).isSome = true ∨
      ∃ v ret nd slot, pathWalk D p k.vfs full oRdonly 0 = some (v, ret, nd) ∧
        Fs.findUnusedFdSlot t 0 = some slot ∧ closesTaken D v nd.dentry flag slot)

/-- `vfs_unlink` leaves the table alone exactly under `unlinkKeeps`. -/
theorem vfsUnlink_keeps (ht : k.table p = some t) (flag : UInt32) :
    Keeps p k (vfsUnlink D p k path flag) ↔ unlinkKeeps D p k t path flag := by
  constructor
  · rintro ⟨k', ret, hu, hk⟩
    obtain ⟨full, k₁, fd, nd, hf, ho, h⟩ := vfsUnlink_some hu
    refine ⟨full, hf, ?_⟩
    cases hr : refuses D p k t full oRdonly with
    | some e => exact .inl rfl
    | none =>
      obtain ⟨slot, id, w, hs, rfl, ht₁, hw⟩ := vfsOpen_taken ht hr ho
      rcases h with ⟨hfd, -⟩ | ⟨-, v, r, hop, hc⟩
      · omega
      · obtain ⟨k₂, r₂, hc₂, ht₂⟩ := vfsClose_table (k := { k₁ with vfs := v }) ht₁ ret
        rw [hc] at hc₂
        obtain ⟨rfl, -⟩ : k' = k₂ ∧ r = r₂ := by simpa using hc₂
        rw [hk, ht, some_inj, eq_comm, close_taken (unused_none hs)] at ht₂
        subst ht₂
        exact .inr ⟨k₁.vfs, w, nd, slot, hw, hs, closesTaken_iff.mpr ⟨v, hop⟩⟩
  · rintro ⟨full, hf, h⟩
    cases hr : refuses D p k t full oRdonly with
    | some e =>
      obtain ⟨hneg, k₁, nd, ho, ht₁, -⟩ := vfsOpen_refused ht hr
      refine ⟨k₁, e, ?_, ht₁.trans ht.symm⟩
      simp only [vfsUnlink, hf, ho, bind_eq_bind, bind_some, if_pos hneg]
    | none =>
      rcases h with h | ⟨v, w, nd, slot, hw, hs, hcl⟩
      · rw [hr] at h
        cases h
      · obtain ⟨i, -, hi, -⟩ := id hcl
        obtain ⟨k₁, fd, ho⟩ := vfsOpen_defined ht hw hi
        obtain ⟨slot', id, w', hs', rfl, ht₁, hw'⟩ := vfsOpen_taken ht hr ho
        obtain rfl : slot = slot' := Option.some.inj (hs.symm.trans hs')
        obtain ⟨rfl, -⟩ : v = k₁.vfs ∧ w = w' := by simpa [hw] using hw'
        obtain ⟨v', hop⟩ := closesTaken_iff.mp hcl
        obtain ⟨k₂, r, hc, ht₂⟩ := vfsClose_table (k := { k₁ with vfs := v' }) ht₁ slot.val
        refine ⟨k₂, slot.val, vfsUnlink_opened hf ho (by omega) hop hc, ?_⟩
        rw [ht₂, ht, (close_taken (unused_none hs) _).mpr rfl]

/-- What a kernel that is reached in a call has in its table, when the call has more slots open
than at its start. -/
def Leaked (p : Proc) (t : FilesStruct) (k : Kernel F) : Prop :=
  ∃ t', k.table p = some t' ∧ openSlots t < openSlots t'

theorem Leaked.ne (h : Leaked p t k) : k.table p ≠ some t := by
  obtain ⟨t', ht, hlt⟩ := h
  rw [ht]
  intro he
  rw [Option.some.inj he] at hlt
  exact absurd hlt (lt_irrefl _)

theorem Leaked.open (h : Leaked p t k) (ho : vfsOpen D p k path flags = some (k', fd, nd)) :
    Leaked p t k' := by
  obtain ⟨t₀, ht, hlt⟩ := h
  cases hr : refuses D p k t₀ path flags with
  | some e =>
    obtain ⟨-, k₂, nd₂, ho₂, ht₂, -⟩ := vfsOpen_refused ht hr
    rw [ho] at ho₂
    obtain ⟨rfl, -⟩ : k' = k₂ ∧ fd = e ∧ nd = nd₂ := by simpa using ho₂
    exact ⟨t₀, ht₂, hlt⟩
  | none =>
    obtain ⟨slot, id, w, hs, -, ht₁, -⟩ := vfsOpen_taken ht hr ho
    refine ⟨_, ht₁, ?_⟩
    rw [openSlots_taken (unused_none hs)]
    omega

theorem Leaked.unlink (h : Leaked p t k)
    (hu : vfsUnlink D p k path flag = some (k', ret)) : Leaked p t k' := by
  obtain ⟨t₀, ht, hlt⟩ := h
  obtain ⟨t₁, ht₁, hle⟩ := vfsUnlink_grows ht hu
  exact ⟨t₁, ht₁, hlt.trans_le hle⟩

theorem Leaked.renameInto {old : Nameidata} {oldpath newpath : List Char}
    (h : Leaked p t k) (hr : renameInto D p k old oldpath newpath = some (k', ret)) :
    Leaked p t k' := by
  obtain ⟨⟨v, w, nd⟩, -, hr⟩ := bind_eq_some_iff.mp hr
  simp only at hr
  split at hr
  · rw [← (Prod.mk.inj (Option.some.inj hr)).1]
    exact h
  obtain ⟨⟨v', w'⟩, -, hr⟩ := bind_eq_some_iff.mp hr
  split at hr
  · rw [← (Prod.mk.inj (Option.some.inj hr)).1]
    exact h
  obtain ⟨⟨k₂, w₂⟩, hu, hr⟩ := bind_eq_some_iff.mp hr
  have hl : Leaked p t k₂ := Leaked.unlink (k := { k with vfs := v' }) h hu
  rw [← (Prod.mk.inj (Option.some.inj hr)).1]
  exact hl

theorem taken_leaks (hs : Fs.findUnusedFdSlot t 0 = some slot)
    (ht : k.table p = some (Fs.setSlot t slot (some id))) : Leaked p t k := by
  refine ⟨_, ht, ?_⟩
  rw [openSlots_taken (unused_none hs)]
  exact Nat.lt_succ_self _

def renameKeeps (D : Driver F) (p : Proc) (k : Kernel F) (t : FilesStruct)
    (oldpath newpath : List Char) : Prop :=
  (absolutizePathFromProcess p k.vfs newpath).isSome = true ∧
    ∃ full, absolutizePathFromProcess p k.vfs oldpath = some full ∧
      (refuses D p k t full oRdonly).isSome = true

theorem vfsRename_leaks {oldpath newpath full : List Char} (ht : k.table p = some t)
    (hf : absolutizePathFromProcess p k.vfs oldpath = some full)
    (hr : refuses D p k t full oRdonly = none)
    (h : vfsRename D p k oldpath newpath = some (k', ret)) : Leaked p t k' := by
  unfold vfsRename at h
  rw [hf, bind_eq_bind, bind_some] at h
  obtain ⟨full', -, h⟩ := bind_eq_some_iff.mp h
  obtain ⟨⟨k₁, fd, old⟩, ho, h⟩ := bind_eq_some_iff.mp h
  obtain ⟨slot, id, w, hs, rfl, ht₁, -⟩ := vfsOpen_taken ht hr ho
  have hl := taken_leaks hs ht₁
  simp only at h
  obtain ⟨parent, -, h⟩ := bind_eq_some_iff.mp h
  obtain ⟨⟨k₂, fd₂, new⟩, ho₂, h⟩ := bind_eq_some_iff.mp h
  have hl₂ := hl.open ho₂
  split at h
  · exact hl₂.renameInto h
  obtain ⟨oldInode, -, h⟩ := bind_eq_some_iff.mp h
  obtain ⟨newInode, -, h⟩ := bind_eq_some_iff.mp h
  split at h
  · rw [← (Prod.mk.inj (Option.some.inj h)).1]
    exact hl₂
  obtain ⟨⟨k₃, w₃⟩, hu, h⟩ := bind_eq_some_iff.mp h
  exact (hl₂.unlink hu).renameInto h

/-- As for `vfs_unlink`, with two paths. -/
theorem vfsRename_keeps (ht : k.table p = some t) (oldpath newpath : List Char) :
    Keeps p k (vfsRename D p k oldpath newpath) ↔ renameKeeps D p k t oldpath newpath := by
  constructor
  · rintro ⟨k', ret, h, hk⟩
    have hd := h
    obtain ⟨full, hf, hd⟩ := bind_eq_some_iff.mp hd
    obtain ⟨full', hf', -⟩ := bind_eq_some_iff.mp hd
    refine ⟨by rw [hf']; rfl, full, hf, ?_⟩
    cases hr : refuses D p k t full oRdonly with
    | some e => rfl
    | none => exact absurd (hk.trans ht) (vfsRename_leaks ht hf hr h).ne
  · rintro ⟨hnew, full, hf, hr⟩
    obtain ⟨full', hf'⟩ := isSome_iff_exists.mp hnew
    obtain ⟨e, hr⟩ := isSome_iff_exists.mp hr
    obtain ⟨hneg, k₁, nd, ho, ht₁, -⟩ := vfsOpen_refused ht hr
    refine ⟨k₁, e, ?_, ht₁.trans ht.symm⟩
    simp only [vfsRename, hf, hf', ho, bind_eq_bind, bind_some, if_pos hneg]

/-- When `vfs_mkdir` leaves the table: the path is not opened, and if it does not exist it can
be walked to make it. -/
def mkdirKeeps (D : Driver F) (p : Proc) (k : Kernel F) (t : FilesStruct) (path : List Char)
    (mode : UInt32) : Prop :=
  ∃ e, refuses D p k t path oRdonly = some e ∧
    (e = -enoent → ((pathWalk D p k.vfs path oRdonly 0).bind fun w =>
      pathWalk D p w.1 path oCreat (mode ||| sIfdir)).isSome = true)

theorem vfsMkdir_keeps (ht : k.table p = some t) (mode : UInt32) :
    Keeps p k (vfsMkdir D p k path mode) ↔ mkdirKeeps D p k t path mode := by
  unfold mkdirKeeps
  cases hr : refuses D p k t path oRdonly with
  | none =>
    constructor
    · rintro ⟨k', ret, h, hk⟩
      obtain ⟨⟨k₁, fd, nd⟩, ho, h⟩ := bind_eq_some_iff.mp h
      obtain ⟨slot, id, w, hs, rfl, ht₁, -⟩ := vfsOpen_taken ht hr ho
      have hl := (taken_leaks hs ht₁).ne
      have same : k' = k₁ := by
        simp only at h
        split at h
        · exact (Prod.mk.inj (Option.some.inj h)).1.symm
        · exact (Prod.mk.inj (Option.some.inj h)).1.symm
      rw [same] at hk
      exact absurd (hk.trans ht) hl
    · rintro ⟨e, he, -⟩
      cases he
  | some e =>
    obtain ⟨hneg, k₁, nd, ho, ht₁, w, nd', hw⟩ := vfsOpen_refused ht hr
    simp only [Keeps, vfsMkdir, ho, bind_eq_bind, bind_some]
    by_cases hent : e = -enoent
    · rw [if_neg (by simp [hent]), if_neg (by omega), hw, bind_some]
      cases hc : pathWalk D p k₁.vfs path oCreat (mode ||| sIfdir) with
      | none =>
        constructor
        · rintro ⟨k', ret, h, -⟩
          cases h
        · rintro ⟨e', he, h⟩
          cases h (Option.some.inj he ▸ hent)
      | some c =>
        constructor
        · intro _
          exact ⟨e, rfl, fun _ => rfl⟩
        · intro _
          exact ⟨_, _, rfl, ht₁.trans ht.symm⟩
    · rw [if_pos ⟨hneg.le, hent⟩]
      constructor
      · intro _
        exact ⟨e, rfl, fun he => absurd he hent⟩
      · intro _
        exact ⟨k₁, e, rfl, ht₁.trans ht.symm⟩

/-- When `vfs_access` leaves the table: the mode is refused, or the path is not opened. -/
def accessKeeps (D : Driver F) (p : Proc) (k : Kernel F) (t : FilesStruct) (path : List Char)
    (amode : UInt32) : Prop :=
  amode &&& ~~~accessModes ≠ 0 ∨
    accessFits p k.vfs path = true ∧ (refuses D p k t path oRdwr).isSome = true

theorem amode_no_rOk {amode : UInt32} (h : amode &&& ~~~accessModes = 0) : amode &&& rOk = 0 := by
  have part : rOk = ~~~accessModes &&& rOk := by decide
  rw [part, ← UInt32.and_assoc, h, UInt32.zero_and]

theorem vfsAccess_keeps (ht : k.table p = some t) (amode : UInt32) :
    Keeps p k (vfsAccess D p k path amode) ↔ accessKeeps D p k t path amode := by
  unfold accessKeeps vfsAccess
  by_cases hm : amode &&& ~~~accessModes = 0
  · have hr₀ := amode_no_rOk hm
    rw [if_neg (not_not.mpr hm)]
    by_cases hb : accessFits p k.vfs path = true
    · rw [if_neg (by simp [hb])]
      cases hr : refuses D p k t path oRdwr with
      | none =>
        constructor
        · rintro ⟨k', ret, h, hk⟩
          obtain ⟨⟨k₁, fd, nd⟩, ho, h⟩ := bind_eq_some_iff.mp h
          obtain ⟨slot, id, w, hs, rfl, ht₁, -⟩ := vfsOpen_taken ht hr ho
          simp only at h
          obtain ⟨fMode, -, h⟩ := bind_eq_some_iff.mp h
          rw [if_pos (.inl fun hread => hread.1 hr₀)] at h
          have hl := taken_leaks hs ht₁
          rw [(Prod.mk.inj (Option.some.inj h)).1] at hl
          exact absurd (hk.trans ht) hl.ne
        · rintro (h | ⟨-, h⟩)
          · exact absurd hm h
          · cases h
      | some e =>
        obtain ⟨hneg, k₁, nd, ho, ht₁, -⟩ := vfsOpen_refused ht hr
        simp only [ho, bind_eq_bind, bind_some, if_pos hneg]
        constructor
        · intro _
          exact .inr ⟨hb, rfl⟩
        · intro _
          exact ⟨k₁, _, rfl, ht₁.trans ht.symm⟩
    · rw [if_pos (by simpa using hb)]
      constructor
      · rintro ⟨k', ret, h, -⟩
        cases h
      · rintro (h | ⟨h, -⟩)
        · exact absurd hm h
        · exact absurd h hb
  · rw [if_pos hm]
    constructor
    · intro _
      exact .inl hm
    · intro _
      exact ⟨k, _, rfl, rfl⟩

/-- For each of the four calls, when it returns with the table of the process as it was. -/
theorem descriptor_frame (D : Driver F) (p : Proc) (k : Kernel F) (t : FilesStruct)
    (ht : k.table p = some t) (path path' : List Char) (arg : UInt32) :
    (Keeps p k (vfsUnlink D p k path arg) ↔ unlinkKeeps D p k t path arg) ∧
    (Keeps p k (vfsRename D p k path path') ↔ renameKeeps D p k t path path') ∧
    (Keeps p k (vfsMkdir D p k path arg) ↔ mkdirKeeps D p k t path arg) ∧
    (Keeps p k (vfsAccess D p k path arg) ↔ accessKeeps D p k t path arg) :=
  ⟨vfsUnlink_keeps ht arg, vfsRename_keeps ht path path', vfsMkdir_keeps ht arg,
    vfsAccess_keeps ht arg⟩

def oneFile : Driver Unit where
  lookup dir :=
    if dir.iIno = 2 then
      some fun _ name => if name = ['a'] then some { iSb := 0, iIno := 12, iMode := sIfreg } else none
    else none
  create _ := none
  unlink dir := if dir.iIno = 2 then some fun _ _ => ((), 0) else none
  rename _ := none
  fop _ := none

def shell : Kernel Unit where
  vfs :=
    { dentry := fun _ => { dName := ['/'], dParent := none, dInode := some 0 }
      dentries := 1
      inode := fun _ => { iSb := 0, iIno := 2, iMode := sIfdir }
      inodes := 1
      fs := () }
  sys :=
    { procs := [some { fd := (Vector.replicate 256 none).set 0 (some 0) }]
      files := fun _ => Fs.getEmptyFilp
      opened := 1 }

theorem descriptor_frame_absent :
    Keeps {} shell (vfsUnlink oneFile {} shell ['/', 'b'] 0) ∧
    Keeps {} shell (vfsRename oneFile {} shell ['/', 'b'] ['/', 'c']) ∧
    Keeps {} shell (vfsAccess oneFile {} shell ['/', 'b'] 0) := by
  obtain ⟨t, ht⟩ : ∃ t, shell.table {} = some t := ⟨_, rfl⟩
  have absent : (refuses oneFile {} shell t ['/', 'b'] oRdonly).isSome = true := by
    rfl
  have frame := descriptor_frame oneFile {} shell t ht ['/', 'b'] ['/', 'c'] 0
  refine ⟨frame.1.mpr ⟨['/', 'b'], rfl, .inl absent⟩, frame.2.1.mpr ⟨rfl, ['/', 'b'], rfl, absent⟩,
    frame.2.2.2.mpr (.inr ⟨rfl, ?_⟩)⟩
  rfl

/-- A table that differs in one slot is not kept. -/
theorem not_keeps {r : Option (Kernel F × Int)} (slot : Fin 256)
    (h : ((r.bind fun x => x.1.table p).map fun t => t.fd.get slot) ≠
      ((k.table p).map fun t => t.fd.get slot)) : ¬Keeps p k r := by
  rintro ⟨k', ret, rfl, hk⟩
  rw [bind_some, hk] at h
  exact h rfl

/-- Each of the four calls on a file that exists changes the table: unlink and rename close
the slot that was open, and all leave the slot they took. -/
theorem calls_change_table :
    ¬Keeps {} shell (vfsUnlink oneFile {} shell ['/', 'a'] 0) ∧
    ¬Keeps {} shell (vfsRename oneFile {} shell ['/', 'a'] ['/', 'b']) ∧
    ¬Keeps {} shell (vfsMkdir oneFile {} shell ['/', 'a'] 0) ∧
    ¬Keeps {} shell (vfsAccess oneFile {} shell ['/', 'a'] 0) := by
  refine ⟨not_keeps 0 ?_, not_keeps 0 ?_, not_keeps 1 ?_, not_keeps 1 ?_⟩
  · decide +kernel
  · decide +kernel
  · decide +kernel
  · decide +kernel

end Mos.Namei

import Mos.Proofs.OpenFiles

namespace Mos.Fs.Descriptors

variable {d : Descriptors} {walk : Walk} {s : System} {pid : Nat} {t : FilesStruct} {file f1 f2 : Nat}

theorem unused_some {i : Fin 256} (h : findUnusedFdSlot t 0 = some i) : unused t = i.val := by
  simp [unused, h]

theorem unused_full (h : findUnusedFdSlot t 0 = none) : unused t = -22 := by
  simp [unused, h, einval]

theorem store_slot (d : Descriptors) (i : Fin 256) (file : Nat) :
    d.store i.val file = { d with table := setSlot d.table i (some file) } := by
  simp [store]

theorem store_beside (d : Descriptors) (file : Nat) :
    d.store (-22) file = { d with beside := (-22, file) :: d.beside } := by
  simp [store]

/-- The search fails only in a full table. -/
theorem no_unused_iff : findUnusedFdSlot t 0 = none ↔ ∀ i, t.fd.get i ≠ none := by
  simp [findUnusedFdSlot, List.find?_eq_none]

theorem vfsOpen_table (hp : s.procs[pid]? = some (some t)) (flags : UInt32) :
    (Fs.vfsOpen s pid t walk flags).2 = (Descriptors.vfsOpen ⟨t, []⟩ walk s.opened).2 ∧
      (Fs.vfsOpen s pid t walk flags).1.procs[pid]? =
        some (some (Descriptors.vfsOpen ⟨t, []⟩ walk s.opened).1.table) := by
  have hl := (List.getElem?_eq_some_iff.mp hp).1
  unfold Fs.vfsOpen Descriptors.vfsOpen
  cases openFails walk with
  | some ret => exact ⟨rfl, hp⟩
  | none =>
    cases hs : findUnusedFdSlot t 0 with
    | some i =>
      simp only [unused_some hs, store_slot]
      exact ⟨trivial, List.getElem?_set_self hl⟩
    | none =>
      simp only [unused_full hs, store_beside]
      exact ⟨rfl, hp⟩

/-- `vfs_open` installs the file in a slot that was unused and returns that, or returns an
error and stores nothing. -/
def OpenRight (d : Descriptors) (walk : Walk) (file : Nat) : Prop :=
  (∃ i : Fin 256, d.table.fd.get i = none ∧
    d.vfsOpen walk file = ({ d with table := setSlot d.table i (some file) }, (i.val : Int))) ∨
  ∃ e < 0, d.vfsOpen walk file = (d, e)

/-- `do_pipe` installs its files in two slots that were unused, or stores nothing. -/
def PipeRight (d : Descriptors) (f1 f2 : Nat) : Prop :=
  (∃ i j : Fin 256, i ≠ j ∧ d.table.fd.get i = none ∧ d.table.fd.get j = none ∧
    d.doPipe f1 f2 =
      ({ d with table := setSlot (setSlot d.table i (some f1)) j (some f2) }, (0 : Int), (i.val : Int),
        (j.val : Int))) ∨
  ∃ e < 0, ∃ fds, d.doPipe f1 f2 = (d, e, fds)

/-- An open is right unless it needs a slot and there is none. -/
theorem openRight_iff (d : Descriptors) (walk : Walk) (file : Nat) :
    OpenRight d walk file ↔ (openFails walk).isSome ∨ ∃ i, d.table.fd.get i = none := by
  cases hw : openFails walk with
  | some e =>
    simp only [Option.isSome_some, true_or, iff_true]
    exact .inr ⟨e, openFails_neg hw, by simp [vfsOpen, hw]⟩
  | none =>
    simp only [Option.isSome_none, Bool.false_eq_true, false_or]
    cases hs : findUnusedFdSlot d.table 0 with
    | some i =>
      refine ⟨fun _ => ⟨i, unused_none hs⟩, fun _ => .inl ⟨i, unused_none hs, ?_⟩⟩
      simp only [vfsOpen, hw, unused_some hs, store_slot]
    | none =>
      have full := no_unused_iff.mp hs
      constructor
      · intro h
        rcases h with ⟨i, hi, _⟩ | ⟨e, _, h⟩
        · exact ⟨i, hi⟩
        · -- The pointer has been stored in front of the table.
          have := congrArg (·.1.beside) h
          simp [vfsOpen, hw, unused_full hs, store_beside] at this
      · intro ⟨i, hi⟩
        exact absurd hi (full i)

/-- A pipe needs two slots. -/
theorem pipeRight_iff (d : Descriptors) (f1 f2 : Nat) :
    PipeRight d f1 f2 ↔
      ∃ i j, i ≠ j ∧ d.table.fd.get i = none ∧ d.table.fd.get j = none := by
  constructor
  · intro h
    rcases h with ⟨i, j, hij, hi, hj, _⟩ | ⟨e, he, _, h⟩
    · exact ⟨i, j, hij, hi, hj⟩
    · -- `do_pipe` never returns an error.
      have : 0 = e := congrArg (·.2.1) h
      omega
  · intro ⟨i, j, hij, hi, hj⟩
    cases hs : findUnusedFdSlot d.table 0 with
    | none => exact absurd hi (no_unused_iff.mp hs i)
    | some a =>
      cases hs' : findUnusedFdSlot (setSlot d.table a (some f1)) 0 with
      | none =>
        have full := no_unused_iff.mp hs'
        simp only [setSlot_get] at full
        grind
      | some b =>
        have hb := unused_none hs'
        rw [setSlot_get] at hb
        have hab : b ≠ a := by
          rintro rfl
          simp at hb
        rw [if_neg hab] at hb
        left
        refine ⟨a, b, hab.symm, unused_none hs, hb, ?_⟩
        simp only [doPipe, unused_some hs, store_slot, unused_some hs']

/-- The two calls do what they should exactly if the table has the slots that they need:
`find_unused_fd_slot` returns an error otherwise, which is used as an index. -/
theorem descriptors_right_iff (d : Descriptors) (walk : Walk) (file f1 f2 : Nat) :
    (OpenRight d walk file ↔ (openFails walk).isSome ∨ ∃ i, d.table.fd.get i = none) ∧
      (PipeRight d f1 f2 ↔ ∃ i j, i ≠ j ∧ d.table.fd.get i = none ∧ d.table.fd.get j = none) :=
  ⟨openRight_iff d walk file, pipeRight_iff d f1 f2⟩

def full : Descriptors := { table := { fd := .replicate 256 (some 0) } }

/-- The pointers to the new files are stored 22 words in front of the table. -/
theorem full_overrun :
    ¬OpenRight full { ret := 0, iFop := none } 1 ∧ ¬PipeRight full 1 2 ∧
      (full.vfsOpen { ret := 0, iFop := none } 1).1.beside = [(-22, 1)] ∧
      (full.doPipe 1 2).1.beside = [(-22, 2), (-22, 1)] := by
  have hf (i : Fin 256) : full.table.fd.get i = some 0 := by
    simp [full, Vector.get_eq_getElem]
  have hs : findUnusedFdSlot full.table 0 = none := no_unused_iff.mpr fun i => by simp [hf]
  refine ⟨?_, ?_, ?_, ?_⟩
  · rw [openRight_iff]
    simp [openFails, hf]
  · rw [pipeRight_iff]
    simp [hf]
  · change (full.store (unused full.table) 1).beside = _
    rw [unused_full hs, store_beside]
    rfl
  · rw [doPipe, unused_full hs, store_beside, unused_full hs, store_beside]
    rfl

end Mos.Fs.Descriptors

import Mos.Gui.Terminal
import Mos.Machine.Checked
import Mos.Machine.Run

namespace Mos.Gui
open Machine List

section Columns

@[simp] theorem colspan_one (u : TerminalUnit) : terminalGetUnitColspan u = 1 := by
  have tab : u.content ≠ 9 := by
    intro h
    have := u.printable
    rw [h] at this
    exact absurd this (by decide)
  rw [terminalGetUnitColspan, if_neg tab]

@[simp] theorem colspans_eq (us : List TerminalUnit) : colspans us = us.length := by
  rw [colspans, map_congr_left (fun u _ => colspan_one u)]
  simp

theorem columnsTill_le (row : TerminalRow) (index : Nat) :
    terminalGetColumnsTillIndex row index ≤ row.units.length := by
  simp [terminalGetColumnsTillIndex]

/-- The loop stops at the first unit that does not fit. -/
theorem exceedFrom_eq (us : List TerminalUnit) {screenColumns acc : Nat}
    (le : acc ≤ screenColumns) : exceedFrom screenColumns acc us
      = (us.take (screenColumns - acc), us.drop (screenColumns - acc)) := by
  induction us generalizing acc with
  | nil => simp [exceedFrom]
  | cons u us ih =>
    have tab : u.content ≠ 9 := by
      intro h
      have := u.printable
      rw [h] at this
      exact absurd this (by decide)
    by_cases full : screenColumns < acc + 1
    · have : screenColumns - acc = 0 := by omega
      simp [exceedFrom, full, tab, this]
    · have : screenColumns - acc = screenColumns - (acc + 1) + 1 := by omega
      have hrest := ih (Nat.not_lt.mp full)
      simp [exceedFrom, full, hrest, this]

theorem pullUnits_append (us : List TerminalUnit) (screenColumns columns : Nat) :
    (pullUnits screenColumns columns us).1 ++ (pullUnits screenColumns columns us).2 = us := by
  induction us generalizing columns with
  | nil => rfl
  | cons u us ih =>
    rw [pullUnits]
    split
    · rfl
    · simp [ih]

end Columns

def headId (line : List TerminalRow) : Nat := (line.head?.map TerminalRow.id).getD 0

def lineGroup (line : List TerminalRow) : TerminalGroup where
  child := headId line
  numberOfRows := UInt16.ofNat line.length

theorem headId_append {before after after' : List TerminalRow} (ne : before ≠ []) :
    headId (before ++ after) = headId (before ++ after') := by
  obtain ⟨b, before, rfl⟩ := exists_cons_of_ne_nil ne
  rfl

theorem lineGroup_grow {line line' : List TerminalRow} (first : headId line' = headId line)
    (length : line'.length = line.length + 1) :
    { lineGroup line with numberOfRows := (lineGroup line).numberOfRows + 1 } = lineGroup line' := by
  simp [lineGroup, first, length]

theorem lineGroup_shrink {line line' : List TerminalRow} (first : headId line' = headId line)
    (length : line'.length = line.length + 1) :
    { lineGroup line' with numberOfRows := (lineGroup line').numberOfRows - 1 } = lineGroup line := by
  simp [lineGroup, first, length]

/-- The rows of a group lie side by side in the list of rows, and the group knows the first
one and how many there are. -/
structure Line (t : Terminal) (g : Nat) (pre line post : List TerminalRow) : Prop where
  rows : t.rows = pre ++ line ++ post
  nodup : (t.rows.map TerminalRow.id).Nodup
  fresh : ∀ a ∈ t.rows.map TerminalRow.id, a < t.fresh
  members : ∀ r ∈ line, r.group = g
  group : t.groups g = some (lineGroup line)
  short : line.length < 2 ^ 16

structure Frame (t t' : Terminal) : Prop where
  screenColumns : t'.screenColumns = t.screenColumns
  cursorRow : t'.cursorRow = t.cursorRow
  cursorUnitIndex : t'.cursorUnitIndex = t.cursorUnitIndex

theorem Frame.refl (t : Terminal) : Frame t t := ⟨rfl, rfl, rfl⟩

theorem Frame.trans {t t' t'' : Terminal} (h : Frame t t') (h' : Frame t' t'') : Frame t t'' :=
  ⟨h'.1.trans h.1, h'.2.trans h.2, h'.3.trans h.3⟩

section Line
variable {t : Terminal} {g : Nat} {pre before after post : List TerminalRow}
  {r n : TerminalRow}

theorem Line.split (h : Line t g pre (before ++ r :: after) post) :
    t.rows = (pre ++ before) ++ r :: (after ++ post) := by
  simp [h.rows]

theorem Line.nodup_split (h : Line t g pre (before ++ r :: after) post) :
    (((pre ++ before) ++ r :: (after ++ post)).map TerminalRow.id).Nodup := by
  rw [← h.split]
  exact h.nodup

theorem Line.fromOn (h : Line t g pre (before ++ r :: after) post) :
    fromOn TerminalRow.id t.rows r.id = r :: (after ++ post) := by
  rw [h.split, fromOn_split h.nodup_split]

theorem Line.rowAt (h : Line t g pre (before ++ r :: after) post) : rowAt t r.id = .ok r := by
  rw [Gui.rowAt, h.fromOn]

theorem Line.nextRow (h : Line t g pre (before ++ r :: n :: after) post) :
    nextRow t r.id = .ok n := by
  rw [Gui.nextRow, h.fromOn]
  rfl

theorem Line.prevRow (h : Line t g pre (before ++ n :: r :: after) post) :
    prevRow t r.id = .ok n := by
  have hr : Line t g pre ((before ++ [n]) ++ r :: after) post := by simpa using h
  rw [Gui.prevRow, hr.split, upTo_split hr.nodup_split]
  simp

theorem Line.groupOf (h : Line t g pre (before ++ r :: after) post) :
    groupOf t r = .ok (lineGroup (before ++ r :: after)) := by
  rw [Gui.groupOf, h.members r (by simp), h.group]

theorem Line.count (h : Line t g pre (before ++ r :: after) post) :
    (lineGroup (before ++ r :: after)).numberOfRows.toNat = before.length + 1 + after.length := by
  have := h.short
  simp only [length_append, length_cons] at this
  rw [lineGroup, UInt16.toNat_ofNat', length_append, length_cons, Nat.mod_eq_of_lt]
  · omega
  · omega

theorem Line.child (h : Line t g pre (before ++ r :: after) post) :
    Fine (Gui.rowAt t (lineGroup (before ++ r :: after)).child) ∧
      Machine.fromOn TerminalRow.id t.rows (lineGroup (before ++ r :: after)).child
        = before ++ r :: (after ++ post) := by
  cases before with
  | nil => exact ⟨⟨r, h.rowAt⟩, h.fromOn⟩
  | cons b before =>
    have hb : Line t g pre ([] ++ b :: (before ++ r :: after)) post := h
    refine ⟨⟨b, hb.rowAt⟩, hb.fromOn.trans ?_⟩
    simp

theorem indexFrom_split {l : List TerminalRow} {count i : Nat}
    (other : ∀ b ∈ before, b.id ≠ r.id) (inside : i + before.length < count) :
    indexFrom r.id count i (before ++ r :: l) = some (i + before.length) := by
  induction before generalizing i with
  | nil => simp [indexFrom]
  | cons b before ih =>
    have hb := other b (by simp)
    simp only [length_cons] at inside
    have hrest := ih (i := i + 1) (fun x hx => other x (by simp [hx])) (by omega)
    rw [cons_append, indexFrom, if_neg hb, if_neg (by omega), hrest, length_cons]
    congr 1
    omega

theorem Line.other (h : Line t g pre (before ++ r :: after) post) :
    ∀ b ∈ before, b.id ≠ r.id := by
  intro b hb
  exact key_ne_of_nodup h.nodup_split b (by simp [hb])

/-- The count along the list is the index in the group. -/
theorem Line.index (h : Line t g pre (before ++ r :: after) post) :
    terminalGetRowIndexInGroup t r = .ok (some before.length) := by
  obtain ⟨⟨first, hfirst⟩, hfrom⟩ := h.child
  have hcount := h.count
  rw [terminalGetRowIndexInGroup, h.groupOf, ok_bind, hfirst, ok_bind, hfrom,
    indexFrom_split h.other (by omega), Nat.zero_add]
  rfl

theorem Line.hasNext (h : Line t g pre (before ++ r :: after) post) :
    hasNext t r = .ok (!after.isEmpty) := by
  have hcount := h.count
  rw [Gui.hasNext, h.groupOf, ok_bind, h.index, ok_bind, hcount]
  cases after with
  | nil => simp [pure, Except.pure]
  | cons n after => simp [pure, Except.pure]

theorem hasNext_congr {r' : TerminalRow} (id : r'.id = r.id) (group : r'.group = r.group) :
    hasNext t r' = hasNext t r := by
  simp only [hasNext, terminalGetRowIndexInGroup, groupOf, id, group]

theorem Line.modify (h : Line t g pre (before ++ r :: after) post)
    (f : TerminalRow → TerminalRow) (id : (f r).id = r.id) (group : (f r).group = r.group) :
    Line (modifyRow t r.id f) g pre (before ++ f r :: after) post := by
  have hrows : (modifyRow t r.id f).rows = (pre ++ before) ++ f r :: (after ++ post) := by
    rw [modifyRow, h.split, modify_split h.nodup_split]
  have hgroup : lineGroup (before ++ f r :: after) = lineGroup (before ++ r :: after) := by
    cases before <;> simp [lineGroup, headId, id]
  have hids : (modifyRow t r.id f).rows.map TerminalRow.id = t.rows.map TerminalRow.id := by
    rw [hrows, h.split]
    simp [id]
  constructor
  · rw [hrows]
    simp
  · rw [hids]
    exact h.nodup
  · rw [hids]
    exact h.fresh
  · intro x hx
    rcases mem_append.mp hx with hx | hx
    · exact h.members x (by simp [hx])
    · rcases mem_cons.mp hx with rfl | hx
      · rw [group]
        exact h.members r (by simp)
      · exact h.members x (by simp [hx])
  · rw [hgroup]
    exact h.group
  · have := h.short
    simpa using this

theorem Line.insertRow_rows (h : Line t g pre (before ++ r :: after) post) (group : Nat) :
    (insertRow t r.id group).rows
      = (pre ++ before) ++ r :: { id := t.fresh, group } :: (after ++ post) := by
  rw [insertRow, h.split, insertAfter_split h.nodup_split]

theorem Line.insertRow_ids (h : Line t g pre (before ++ r :: after) post) (group : Nat) :
    ((insertRow t r.id group).rows.map TerminalRow.id).Perm
      (t.fresh :: t.rows.map TerminalRow.id) := by
  rw [h.insertRow_rows, h.split, append_cons, append_cons _ r (after ++ post)]
  simp only [map_append, map_cons]
  exact perm_middle

theorem Line.insertRow_nodup (h : Line t g pre (before ++ r :: after) post) (group : Nat) :
    ((insertRow t r.id group).rows.map TerminalRow.id).Nodup ∧
      ∀ a ∈ (insertRow t r.id group).rows.map TerminalRow.id, a < (insertRow t r.id group).fresh := by
  have perm := h.insertRow_ids group
  constructor
  · rw [perm.nodup_iff, nodup_cons]
    exact ⟨fun hm => (h.fresh _ hm).false, h.nodup⟩
  · intro a ha
    have next : (insertRow t r.id group).fresh = t.fresh + 1 := rfl
    rcases mem_cons.mp (perm.mem_iff.mp ha) with rfl | ha
    · omega
    · have := h.fresh a ha
      omega

/-- A row put behind the last one of a line belongs to the line. -/
theorem Line.allocate (h : Line t g pre (before ++ [r]) post) (room : before.length + 2 < 2 ^ 16) :
    ∃ t', terminalAllocateRow t r = .ok (t', { id := t.fresh, group := g }) ∧
      Line t' g pre (before ++ [r, { id := t.fresh, group := g }]) post ∧ Frame t t' := by
  have hg : r.group = g := h.members r (by simp)
  obtain ⟨nodup, fresh⟩ := h.insertRow_nodup g
  have hgroup : { lineGroup (before ++ [r]) with
      numberOfRows := (lineGroup (before ++ [r])).numberOfRows + 1 }
        = lineGroup (before ++ [r, { id := t.fresh, group := g }]) := by
    apply lineGroup_grow
    · cases before <;> rfl
    · simp
  have hcall : terminalAllocateRow t r
      = .ok (setGroup (insertRow t r.id g) g (lineGroup (before ++ [r, { id := t.fresh, group := g }])),
        { id := t.fresh, group := g }) := by
    rw [terminalAllocateRow, h.groupOf, ok_bind, hg, hgroup]
    rfl
  refine ⟨_, hcall, ⟨?_, nodup, fresh, ?_, ?_, ?_⟩, ⟨rfl, rfl, rfl⟩⟩
  · exact (h.insertRow_rows g).trans (by simp)
  · intro x hx
    rw [append_cons, mem_append] at hx
    rcases hx with hx | hx
    · exact h.members x hx
    · rw [mem_singleton.mp hx]
  · simp [setGroup]
  · simpa using room

/-- A row taken out of a line leaves the others. -/
theorem Line.free (h : Line t g pre (before ++ r :: after) post) (ne : before ≠ [])
    (empty : r.columns = 0) :
    ∃ t', terminalFreeRow t r.id = .ok t' ∧ Line t' g pre (before ++ after) post ∧ Frame t t' := by
  have hg : r.group = g := h.members r (by simp)
  have hgroup : { lineGroup (before ++ r :: after) with
      numberOfRows := (lineGroup (before ++ r :: after)).numberOfRows - 1 }
        = lineGroup (before ++ after) := by
    apply lineGroup_shrink (headId_append ne)
    simp only [length_append, length_cons]
    omega
  have hrows : remove TerminalRow.id t.rows r.id = pre ++ (before ++ after) ++ post := by
    rw [h.split, remove_split h.nodup_split]
    simp
  have hsub : (pre ++ (before ++ after) ++ post).Sublist t.rows := by
    rw [h.rows]
    simp
  have hcall : terminalFreeRow t r.id = .ok (setGroup
      { t with rows := pre ++ (before ++ after) ++ post } g (lineGroup (before ++ after))) := by
    rw [terminalFreeRow, h.rowAt, ok_bind, if_neg (by simp [empty]), h.groupOf, ok_bind, hg, hgroup,
      hrows]
    rfl
  refine ⟨_, hcall, ⟨rfl, h.nodup.sublist (hsub.map _), ?_, ?_, ?_, ?_⟩, ⟨rfl, rfl, rfl⟩⟩
  · intro a ha
    exact h.fresh a ((hsub.map _).mem ha)
  · intro x hx
    exact h.members x (by simp only [mem_append, mem_cons] at hx ⊢; tauto)
  · simp [setGroup]
  · have := h.short
    simp only [length_append, length_cons] at this ⊢
    omega

end Line

@[simp] theorem unitsOf_cons (r : TerminalRow) (rows : List TerminalRow) :
    unitsOf (r :: rows) = r.units.length + unitsOf rows := by
  simp [unitsOf]

@[simp] theorem unitsOf_append (rows rows' : List TerminalRow) :
    unitsOf (rows ++ rows') = unitsOf rows + unitsOf rows' := by
  simp [unitsOf]

section Rearrange
variable {t : Terminal} {g : Nat} {pre before after post : List TerminalRow}
  {r n : TerminalRow}

theorem Line.exceedRow (h : Line t g pre (before ++ r :: after) post)
    (room : before.length + after.length + 2 < 2 ^ 16) :
    ∃ t' n rest, exceedRow t r = .ok (t', n) ∧
      Line t' g pre (before ++ r :: n :: rest) post ∧ Frame t t' ∧
      after.map TerminalRow.id <+: (n :: rest).map TerminalRow.id ∧
      unitsOf (n :: rest) = unitsOf after ∧ rest.length = after.length - 1 := by
  cases after with
  | nil =>
    obtain ⟨t', halloc, hline, frame⟩ := h.allocate (by simpa using room)
    refine ⟨t', _, [], ?_, hline, frame, nil_prefix, by simp, rfl⟩
    rw [Gui.exceedRow, h.hasNext, ok_bind, isEmpty_nil, Bool.not_true]
    exact halloc
  | cons n after =>
    refine ⟨t, n, after, ?_, h, .refl t, prefix_refl _, rfl, by simp⟩
    rw [Gui.exceedRow, h.hasNext, ok_bind, isEmpty_cons, Bool.not_false, if_pos rfl,
      h.nextRow]
    rfl

theorem Line.modify_next (h : Line t g pre (before ++ r :: n :: after) post)
    (f : TerminalRow → TerminalRow) (id : (f n).id = n.id) (group : (f n).group = n.group) :
    Line (modifyRow t n.id f) g pre (before ++ r :: f n :: after) post := by
  have hn : Line t g pre ((before ++ [r]) ++ n :: after) post := by simpa using h
  simpa using hn.modify f id group

/-- What does not fit into a row goes to the next. -/
theorem Line.shift (h : Line t g pre (before ++ r :: after) post)
    (long : t.screenColumns < r.units.length) (room : before.length + after.length + 2 < 2 ^ 16) :
    ∃ t' r' n' rest, shiftRow t r = .ok t' ∧
      Line t' g pre (before ++ r' :: n' :: rest) post ∧ Frame t t' ∧ r'.id = r.id ∧
      (r :: after).map TerminalRow.id <+: (r' :: n' :: rest).map TerminalRow.id ∧
      unitsOf (n' :: rest) + t.screenColumns = unitsOf (r :: after) ∧
      rest.length = after.length - 1 := by
  obtain ⟨t₁, n, rest, hnext, h₁, frame, ids, units, hrest⟩ := h.exceedRow room
  have hcut := exceedFrom_eq r.units (Nat.zero_le t.screenColumns)
  rw [Nat.sub_zero] at hcut
  have ne : r.units.drop t.screenColumns ≠ [] := by
    intro nil
    have := drop_eq_nil_iff.mp nil
    omega
  have h₂ := h₁.modify (fun x => { x with units := r.units.take t.screenColumns }) rfl rfl
  have h₃ := h₂.modify_next (fun x => { x with
    units := r.units.drop t.screenColumns ++ x.units
    columns := x.columns + UInt16.ofNat (colspans (r.units.drop t.screenColumns)) }) rfl rfl
  have h₄ := h₃.modify (fun x => { x with
    columns := UInt16.ofNat (colspans (r.units.take t.screenColumns)) }) rfl rfl
  refine ⟨_, _, _, rest, ?_, h₄, ⟨frame.1, frame.2, frame.3⟩, rfl, ?_, ?_, hrest⟩
  · rw [shiftRow, hcut]
    simp only
    rw [if_neg ne, terminalInputShiftExceedUnits, hnext]
    rfl
  · simpa using ids
  · simp only [unitsOf_cons, length_append, length_drop] at units ⊢
    omega

/-- A row takes back what it has room for. -/
theorem Line.pull (h : Line t g pre (before ++ r :: n :: after) post) :
    ∃ r' n', Line (pullRow t r n) g pre (before ++ r' :: n' :: after) post ∧
      r'.id = r.id ∧ n'.id = n.id ∧ n'.units.length ≤ n.units.length := by
  have happend := congrArg List.length
    (pullUnits_append n.units t.screenColumns r.columns.toNat)
  have h₁ := h.modify_next (fun x => { x with
    units := (pullUnits t.screenColumns r.columns.toNat n.units).2
    columns := x.columns
      - UInt16.ofNat (colspans (pullUnits t.screenColumns r.columns.toNat n.units).1) }) rfl rfl
  have h₂ := h₁.modify (fun x => { x with
    units := x.units ++ (pullUnits t.screenColumns r.columns.toNat n.units).1
    columns := x.columns
      + UInt16.ofNat (colspans (pullUnits t.screenColumns r.columns.toNat n.units).1) }) rfl rfl
  refine ⟨_, _, h₂, rfl, rfl, ?_⟩
  rw [length_append] at happend
  simp only
  omega

/-- The loop ends, and its rows are still a line, the old ones first. -/
theorem Line.rearrange {rounds : Nat} (h : Line t g pre (before ++ r :: after) post)
    (wide : 1 ≤ t.screenColumns)
    (room : before.length + after.length + 1 + unitsOf (r :: after) < 2 ^ 16)
    (enough : after.length + unitsOf (r :: after) < rounds) :
    ∃ t' rest, terminalInputRearrangeInGroup rounds t r.id = .ok t' ∧
      Line t' g pre (before ++ rest) post ∧ Frame t t' ∧
      (r :: after).map TerminalRow.id <+: rest.map TerminalRow.id ∧
      rest.length ≤ after.length + 1 + unitsOf (r :: after) := by
  induction rounds generalizing t before r after with
  | zero => omega
  | succ rounds ih =>
    -- the rows from the next one on are rearranged in a round less
    have next : ∀ {t₁ r' n' rest}, Line t₁ g pre (before ++ r' :: n' :: rest) post →
        Frame t t₁ → r'.id = r.id →
        (r :: after).map TerminalRow.id <+: (r' :: n' :: rest).map TerminalRow.id →
        rest.length + unitsOf (n' :: rest) < after.length + unitsOf (r :: after) →
        ∃ t' rest', terminalInputRearrangeInGroup rounds t₁ n'.id = .ok t' ∧
          Line t' g pre (before ++ rest') post ∧ Frame t t' ∧
          (r :: after).map TerminalRow.id <+: rest'.map TerminalRow.id ∧
          rest'.length ≤ after.length + 1 + unitsOf (r :: after) := by
      intro t₁ r' n' rest h₁ frame hid ids less
      have hn : Line t₁ g pre ((before ++ [r']) ++ n' :: rest) post := by simpa using h₁
      obtain ⟨t', rest', hcall, hline, frame', ids', length⟩ :=
        ih hn (by rw [frame.screenColumns]; exact wide)
          (by rw [length_append, length_singleton]; omega) (by omega)
      refine ⟨t', r' :: rest', hcall, by simpa using hline, frame.trans frame', ?_, ?_⟩
      · refine ids.trans ?_
        exact (prefix_cons_inj r'.id).mpr ids'
      · simp only [length_cons]
        omega
    rw [terminalInputRearrangeInGroup, h.rowAt, ok_bind, h.groupOf, ok_bind]
    simp only
    split
    · rename_i long
      have long : t.screenColumns < r.units.length := long.trans_le (columnsTill_le r 32767)
      have hunits : r.units.length ≤ unitsOf (r :: after) := by simp
      obtain ⟨t₁, r', n', rest, hshift, h₁, frame, hid, ids, units, hrest⟩ :=
        h.shift long (by omega)
      have hnext : Gui.hasNext t₁ r = .ok true := by
        have hgroup : r'.group = r.group := by
          rw [h₁.members r' (by simp), h.members r (by simp)]
        rw [← hasNext_congr hid hgroup, h₁.hasNext]
        rfl
      rw [hshift, ok_bind, hnext, ok_bind, if_pos rfl, ← hid, h₁.nextRow, ok_bind]
      exact next h₁ frame hid ids (by omega)
    · by_cases room' : terminalGetColumnsTillIndex r 32767 < t.screenColumns ∧ after ≠ []
      · obtain ⟨n, rest, rfl⟩ := exists_cons_of_ne_nil room'.2
        obtain ⟨r', n', h₁, hid, hid', units⟩ := h.pull
        have hroom : roomBefore t r (terminalGetColumnsTillIndex r 32767) = .ok true := by
          rw [roomBefore, if_pos room'.1, h.hasNext]
          rfl
        rw [hroom, ok_bind, if_pos rfl, h.nextRow, ok_bind, ← hid']
        apply next h₁ ⟨rfl, rfl, rfl⟩ hid
        · simp [hid, hid']
        · simp only [unitsOf_cons, length_cons]
          omega
      · have hroom : roomBefore t r (terminalGetColumnsTillIndex r 32767) = .ok false := by
          rw [roomBefore]
          split
          · rename_i lt
            have nil : after = [] := by
              by_contra ne
              exact room' ⟨lt, ne⟩
            rw [h.hasNext, nil]
            rfl
          · rfl
        rw [hroom, ok_bind]
        refine ⟨_, _, rfl, h.modify _ rfl rfl, ⟨rfl, rfl, rfl⟩, ?_, ?_⟩
        · simp
        · simp only [length_cons]
          omega

end Rearrange

def cursorLine (t : Terminal) : List TerminalRow :=
  match rowAt t t.cursorRow with
  | .ok row => t.rows.filter fun r => r.group = row.group
  | .error _ => []

/-- The rows and the units of the cursor's group stay below what `number_of_rows` counts. -/
def roomy (t : Terminal) : Bool := (cursorLine t).length + unitsOf (cursorLine t) < 65534

/-- The cursor is on a unit that is still in the row it was made in; or its row is empty, and
it is the first row of the terminal, or it has no columns and is not the first row of its
group. -/
def erasable (t : Terminal) : Bool :=
  match rowAt t t.cursorRow with
  | .ok row =>
    match terminalGetUnitFromIndex row t.cursorUnitIndex.toNat with
    | some unit => unit.row = row.id
    | none => t.cursorUnitIndex = 0 ∧
        (t.rows.head?.map TerminalRow.id = some row.id ∨
          row.columns = 0 ∧ (t.groups row.group).map TerminalGroup.child ≠ some row.id)
  | .error _ => false

def meets (t : Terminal) (ch : UInt8) : Bool := roomy t ∧ (ch = 127 → erasable t)

structure At (t : Terminal) (g : Nat) (pre before : List TerminalRow) (r : TerminalRow)
    (after post : List TerminalRow) : Prop extends Line t g pre (before ++ r :: after) post where
  wide : 1 ≤ t.screenColumns
  cursor : r.id = t.cursorRow

def Kept (t : Terminal) : Prop := ∃ g pre before r after post, At t g pre before r after post

section Steps
variable {t : Terminal} {g : Nat} {pre before after post : List TerminalRow}
  {r : TerminalRow}

theorem At.cursorRow (h : At t g pre before r after post) : rowAt t t.cursorRow = .ok r := by
  rw [← h.cursor]
  exact h.toLine.rowAt

theorem At.roomy (h : At t g pre before r after post) (room : roomy t = true) :
    before.length + after.length + 1 + (unitsOf before + unitsOf (r :: after)) < 65534 := by
  have hg : ∀ x ∈ before ++ r :: after, x.group = r.group := by
    intro x hx
    rw [h.members x hx, h.members r (by simp)]
  have hline : (before ++ r :: after).filter (fun x => x.group = r.group) = before ++ r :: after :=
    filter_eq_self.mpr (by simpa using hg)
  have room := of_decide_eq_true room
  simp only [cursorLine, h.cursorRow, h.rows, filter_append, hline, length_append,
    length_cons, unitsOf_append] at room
  omega

theorem Line.rounds (h : Line t g pre (before ++ r :: after) post) :
    after.length + unitsOf (r :: after) < rearrangeRounds t := by
  rw [rearrangeRounds, h.rows]
  simp only [length_append, length_cons, unitsOf_append]
  omega

theorem Kept.of_line {line : List TerminalRow} (h : Line t g pre line post)
    (wide : 1 ≤ t.screenColumns) (cursor : t.cursorRow ∈ line.map TerminalRow.id) : Kept t := by
  obtain ⟨r, hr, hid⟩ := mem_map.mp cursor
  obtain ⟨before, after, rfl⟩ := append_of_mem hr
  exact ⟨g, pre, before, r, after, post, h, wide, hid⟩

theorem Line.withCursor {line : List TerminalRow} (h : Line t g pre line post) (a : Nat)
    (i : UInt16) : Line { t with cursorRow := a, cursorUnitIndex := i } g pre line post :=
  ⟨h.rows, h.nodup, h.fresh, h.members, h.group, h.short⟩

theorem Kept.allocate {screenColumns : Nat} (wide : 1 ≤ screenColumns) :
    Kept (terminalAllocate screenColumns) := by
  refine ⟨0, [], [], { id := 0, group := 0 }, [], [], ⟨rfl, ?_, ?_, ?_, rfl, by decide⟩, wide, rfl⟩
  · simp [terminalAllocate]
  · simp [terminalAllocate]
  · simp

theorem Kept.withIndex (h : Kept t) (i : UInt16) : Kept { t with cursorUnitIndex := i } := by
  obtain ⟨g, pre, before, r, after, post, h⟩ := h
  exact ⟨g, pre, before, r, after, post, h.toLine.withCursor t.cursorRow i, h.wide, h.cursor⟩

theorem Kept.back (h : Kept t) : ∃ t', terminalInputBack t = .ok t' ∧ Kept t' := by
  obtain ⟨g, pre, before, r, after, post, h⟩ := h
  rw [terminalInputBack]
  split
  · rw [h.cursorRow, ok_bind, h.groupOf, ok_bind]
    by_cases first : (lineGroup (before ++ r :: after)).child = r.id
    · rw [if_neg (not_not.mpr first)]
      exact ⟨t, rfl, g, pre, before, r, after, post, h⟩
    · rw [if_pos first]
      rcases eq_nil_or_concat before with rfl | ⟨before, p, rfl⟩
      · exact absurd rfl first
      · have hline : Line t g pre (before ++ p :: r :: after) post := by simpa using h.toLine
        rw [hline.prevRow, ok_bind]
        exact ⟨_, rfl, .of_line (hline.withCursor _ _) h.wide (by simp)⟩
  · exact ⟨_, rfl, Kept.withIndex ⟨g, pre, before, r, after, post, h⟩ _⟩

theorem Kept.newline (h : Kept t) : ∃ t', terminalInputNewline t = .ok t' ∧ Kept t' := by
  obtain ⟨g, pre, before, r, after, post, h⟩ := h
  obtain ⟨nodup, fresh⟩ := h.insertRow_nodup t.fresh
  rw [terminalInputNewline, h.cursorRow, ok_bind, h.groupOf, ok_bind]
  refine ⟨_, rfl, t.fresh, pre ++ before ++ [r], [], { id := t.fresh, group := t.fresh }, [],
    after ++ post, ⟨?_, nodup, fresh, by simp, ?_, by simp⟩, h.wide, rfl⟩
  · exact (h.insertRow_rows t.fresh).trans (by simp)
  · simp [terminalAllocateGroup, setGroup, lineGroup, headId]

theorem At.advance (h : At t g pre before r after post)
    (room : before.length + after.length + 2 < 2 ^ 16) :
    ∃ t', advanceCursor t = .ok t' ∧ Kept t' := by
  rw [advanceCursor, h.cursorRow, ok_bind]
  split
  · rw [h.groupOf, ok_bind, h.index, ok_bind]
    simp only
    rw [h.count]
    cases after with
    | nil =>
      obtain ⟨t', halloc, hline, frame⟩ := h.allocate (by simpa using room)
      rw [if_pos (by simp), halloc, ok_bind]
      refine ⟨_, rfl, .of_line (hline.withCursor _ _) ?_ (by simp)⟩
      exact frame.screenColumns ▸ h.wide
    | cons n after =>
      rw [if_neg (by simp), h.nextRow, ok_bind]
      exact ⟨_, rfl, .of_line (h.toLine.withCursor _ _) h.wide (by simp)⟩
  · exact ⟨_, rfl, Kept.withIndex ⟨g, pre, before, r, after, post, h⟩ _⟩

theorem typeUnit_length (ch : UInt8) (printable : 32 ≤ ch) (row : TerminalRow) (index : Nat) :
    (typeUnit ch printable row index).length ≤ row.units.length + 1 := by
  rw [typeUnit]
  split
  · simp
  · simp

theorem Kept.printable {ch : UInt8} (printable : 32 ≤ ch) (h : Kept t) (room : roomy t = true) :
    ∃ t', terminalInputPrintable ch printable t = .ok t' ∧ Kept t' := by
  obtain ⟨g, pre, before, r, after, post, h⟩ := h
  have hroom := h.roomy room
  have hunits := typeUnit_length ch printable r t.cursorUnitIndex.toNat
  have h₁ := h.toLine.modify
    (fun x => { x with units := typeUnit ch printable r t.cursorUnitIndex.toNat }) rfl rfl
  simp only [unitsOf_cons] at hroom
  obtain ⟨t', rest, hcall, h₂, frame, ids, length⟩ := h₁.rearrange h.wide
    (by simp only [unitsOf_cons]; omega) h₁.rounds
  simp only [unitsOf_cons] at length
  have hcursor : t'.cursorRow ∈ rest.map TerminalRow.id := by
    apply ids.subset
    rw [frame.cursorRow]
    exact h.cursor ▸ by simp
  obtain ⟨r', hr', hid⟩ := mem_map.mp hcursor
  obtain ⟨front, back, rfl⟩ := append_of_mem hr'
  have hat : At t' g pre (before ++ front) r' back post :=
    ⟨by simpa using h₂, frame.screenColumns ▸ h.wide, hid⟩
  rw [terminalInputPrintable, h.cursorRow, ok_bind]
  simp only
  rw [rearrange, hcall, ok_bind]
  apply hat.advance
  simp only [length_append, length_cons] at length ⊢
  omega

theorem eraseFrom_split {group : TerminalGroup} {l : List TerminalRow} {i : Nat}
    (other : ∀ b ∈ before, b.id ≠ t.cursorRow) (here : r.id = t.cursorRow) :
    eraseFrom t group i (before ++ r :: l) = eraseAt t group (i + before.length) r := by
  induction before generalizing i with
  | nil => simp [eraseFrom, here]
  | cons b before ih =>
    rw [cons_append, eraseFrom, if_neg (other b (by simp)),
      ih (fun x hx => other x (by simp [hx])), length_cons]
    congr 1
    omega

theorem At.erase (h : At t g pre before r after post) : terminalInputErase t
    = eraseAt t (lineGroup (before ++ r :: after)) before.length r := by
  obtain ⟨⟨first, hfirst⟩, hfrom⟩ := h.child
  rw [terminalInputErase, h.cursorRow, ok_bind, h.groupOf, ok_bind, hfirst, ok_bind, hfrom,
    eraseFrom_split (h.cursor ▸ h.other) h.cursor, Nat.zero_add]

theorem Line.freeUnit (h : Line t g pre (before ++ r :: after) post) {index : Nat}
    {unit : TerminalUnit} (own : unit.row = r.id) :
    ∃ t' r', terminalFreeUnit t r index unit = .ok t' ∧
      Line t' g pre (before ++ r' :: after) post ∧ Frame t t' ∧ r'.id = r.id ∧
      r'.units.length ≤ r.units.length := by
  have h₁ := h.modify (fun x => { x with
    columns := x.columns - UInt16.ofNat (terminalGetUnitColspan unit) }) rfl rfl
  have h₂ := h₁.modify (fun x => { x with units := x.units.eraseIdx index }) rfl rfl
  refine ⟨_, _, ?_, h₂, ⟨rfl, rfl, rfl⟩, rfl, ?_⟩
  · rw [terminalFreeUnit, own, h.rowAt]
    rfl
  · exact length_eraseIdx_le r.units index

theorem At.eraseRow (h : At t g pre before r after post) (empty : r.columns = 0)
    (ne : before ≠ []) : ∃ t', eraseRow t r = .ok t' ∧ Kept t' := by
  rcases eq_nil_or_concat before with rfl | ⟨before, p, rfl⟩
  · contradiction
  have hline : Line t g pre (before ++ p :: r :: after) post := by simpa using h.toLine
  have hmoved := h.toLine.withCursor p.id (p.columns - 1)
  obtain ⟨t', hfree, hline', frame⟩ := hmoved.free ne empty
  have hgroup : groupOf t' r = .ok (lineGroup (before ++ p :: after)) := by
    have := hline'.group
    rw [Gui.groupOf, h.members r (by simp), this]
    simp
  have hp : Line t' g pre (before ++ p :: after) post := by simpa using hline'
  have hcount := hp.count
  rw [Gui.eraseRow, hline.prevRow, ok_bind]
  simp only
  rw [hfree, ok_bind, hgroup, ok_bind, if_neg]
  · refine ⟨t', rfl, .of_line hp (frame.screenColumns ▸ h.wide) ?_⟩
    rw [frame.cursorRow]
    simp
  · intro zero
    rw [zero, UInt16.toNat_zero] at hcount
    omega

theorem Kept.erase (h : Kept t) (room : Gui.roomy t = true) (fine : erasable t = true) :
    ∃ t', terminalInputErase t = .ok t' ∧ Kept t' := by
  obtain ⟨g, pre, before, r, after, post, h⟩ := h
  rw [h.erase, eraseAt]
  simp only [erasable, h.cursorRow] at fine
  cases hunit : terminalGetUnitFromIndex r t.cursorUnitIndex.toNat with
  | none =>
    simp only [hunit, decide_eq_true_eq] at fine ⊢
    obtain ⟨index, first | ⟨empty, other⟩⟩ := fine
    · rw [if_neg (not_not.mpr index), if_pos first]
      exact ⟨t, rfl, g, pre, before, r, after, post, h⟩
    · rw [if_neg (not_not.mpr index)]
      split
      · exact ⟨t, rfl, g, pre, before, r, after, post, h⟩
      · apply h.eraseRow empty
        rintro rfl
        rw [h.members r (by simp), h.group] at other
        exact other rfl
  | some unit =>
    simp only [hunit, decide_eq_true_eq] at fine ⊢
    obtain ⟨t₁, r', hfree, h₁, frame, hid, units⟩ := h.toLine.freeUnit fine
    have hcursor : r'.id = t₁.cursorRow := by rw [hid, h.cursor, frame.cursorRow]
    have wide : 1 ≤ t₁.screenColumns := frame.screenColumns ▸ h.wide
    rw [h.count]
    cases after with
    | nil =>
      rw [if_neg (by simp), hfree]
      exact ⟨t₁, rfl, g, pre, before, r', [], post, h₁, wide, hcursor⟩
    | cons n after =>
      rw [if_pos (by simp), h.nextRow, ok_bind, hfree, ok_bind]
      split
      · have hroom := h.roomy room
        simp only [unitsOf_cons, length_cons] at hroom
        obtain ⟨t', rest, hcall, h₂, frame', ids, -⟩ := h₁.rearrange wide
          (by simp only [unitsOf_cons, length_cons]; omega) h₁.rounds
        rw [← hid]
        refine ⟨t', hcall, .of_line h₂ (frame'.screenColumns ▸ wide) ?_⟩
        rw [frame'.cursorRow, ← hcursor, map_append]
        exact mem_append_right _ (ids.subset (by simp))
      · rename_i empty
        have hn : Line t₁ g pre ((before ++ [r']) ++ n :: after) post := by simpa using h₁
        obtain ⟨t', hcall, h₂, frame'⟩ := hn.free (by simp) (not_not.mp empty)
        refine ⟨t', hcall, .of_line h₂ (frame'.screenColumns ▸ wide) ?_⟩
        rw [frame'.cursorRow, ← hcursor]
        simp

theorem Kept.input (h : Kept t) {ch : UInt8} (fine : meets t ch = true) :
    ∃ t', terminalInputByte t ch = .ok t' ∧ Kept t' := by
  obtain ⟨room, erase⟩ := of_decide_eq_true fine
  rw [terminalInputByte]
  split
  · exact ⟨t, rfl, h⟩
  split
  · exact h.back
  split
  · rename_i del
    exact h.erase room (erase del)
  split
  · exact ⟨_, rfl, h.withIndex 0⟩
  split
  · exact h.newline
  split
  · rename_i printable
    exact h.printable printable room
  · exact ⟨t, rfl, h⟩

end Steps

def inputStep (t : Terminal) (ch : UInt8) : Option Terminal := (terminalInputByte t ch).toOption

/-- However wide the terminal is, a character that meets the condition trips no assertion and
follows nothing that has been freed, in whatever state such characters have led to. -/
theorem terminal_input_safe {screenColumns : Nat} {t : Terminal} (wide : 1 ≤ screenColumns)
    (run : Run inputStep (fun t ch => meets t ch = true) (terminalAllocate screenColumns) t)
    (ch : UInt8) (fine : meets t ch = true) : ∃ t', terminalInputByte t ch = .ok t' := by
  have kept : Kept t := by
    apply run.invariant (I := Kept) (.allocate wide)
    intro a ch b ha hch next
    obtain ⟨b', hb, hkept⟩ := ha.input hch
    rw [inputStep, hb] at next
    cases next
    exact hkept
  obtain ⟨t', ht, -⟩ := kept.input fine
  exact ⟨t', ht⟩

theorem terminal_input_safe_wrapped : ∃ t : Terminal,
    Run inputStep (fun t ch => meets t ch = true) (terminalAllocate 3) t ∧
      t.rows.map (fun r => r.units.map TerminalUnit.content) = [[97, 98, 100], []] ∧
      ∃ t', terminalInputByte t 101 = .ok t' := by
  obtain ⟨t, run, hrows, fine⟩ := replay_reaches inputStep (fun t ch => meets t ch = true)
    (terminalAllocate 3) [97, 98, 99, 100, 8, 8, 127]
    (P := fun t => t.rows.map (fun r => r.units.map TerminalUnit.content) = [[97, 98, 100], []] ∧
      meets t 101 = true) (by decide +kernel)
  exact ⟨t, run, hrows, terminal_input_safe (by decide) run 101 fine⟩

/-- An erase behind the last character trips an assertion, and one in the first row of a new
line follows the row that it has freed. -/
theorem erase_fails :
    terminalInput (terminalAllocate 80) [97, 127] = .error .assertion ∧
      terminalInput (terminalAllocate 80) [10, 127] = .error .freedRow :=
  ⟨rfl, rfl⟩

end Mos.Gui

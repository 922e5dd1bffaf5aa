import Mos.Machine.Linked

namespace Mos.Gui
open Machine

/-- A character of the screen. `terminal_input` makes units of printable characters only, so
no unit holds a tab. `row` is the address of the row it was made in. -/
structure TerminalUnit where
  content : UInt8
  row : Nat
  printable : 32 ≤ content
  deriving DecidableEq, Repr

structure TerminalRow where
  id : Nat
  group : Nat
  columns : UInt16 := 0
  units : List TerminalUnit := []
  deriving DecidableEq, Repr

structure TerminalGroup where
  child : Nat
  numberOfRows : UInt16
  deriving DecidableEq, Repr

/-- `rows` is the linked list of the rows that are allocated, `groups` has the groups that
are, and `fresh` is the next address that is given out. -/
structure Terminal where
  screenColumns : Nat
  rows : List TerminalRow
  groups : Nat → Option TerminalGroup
  cursorRow : Nat
  cursorUnitIndex : UInt16
  fresh : Nat

/-- How the terminal stops: an assertion fails, something is read that has been freed, the
head of a list is taken for a row, or a recursion does not end. -/
inductive TerminalFault where
  | assertion
  | freedRow
  | freedGroup
  | notRow
  | endless
  deriving DecidableEq, Repr

section Access
variable (t : Terminal)

def rowAt (a : Nat) : Except TerminalFault TerminalRow :=
  match fromOn TerminalRow.id t.rows a with
  | r :: _ => .ok r
  | [] => .error .freedRow

def nextRow (a : Nat) : Except TerminalFault TerminalRow :=
  match fromOn TerminalRow.id t.rows a with
  | _ :: r :: _ => .ok r
  | [_] => .error .notRow
  | [] => .error .freedRow

def prevRow (a : Nat) : Except TerminalFault TerminalRow :=
  match (upTo TerminalRow.id t.rows a).getLast? with
  | some r => .ok r
  | none => .error .notRow

def groupOf (r : TerminalRow) : Except TerminalFault TerminalGroup :=
  match t.groups r.group with
  | some g => .ok g
  | none => .error .freedGroup

def modifyRow (a : Nat) (f : TerminalRow → TerminalRow) : Terminal :=
  { t with rows := modify TerminalRow.id t.rows a f }

def setGroup (a : Nat) (g : TerminalGroup) : Terminal :=
  { t with groups := Function.update t.groups a (some g) }

end Access

def terminalGetUnitColspan (u : TerminalUnit) : Nat := if u.content = 9 then 4 else 1

def colspans (us : List TerminalUnit) : Nat := (us.map terminalGetUnitColspan).sum

def indexFrom (row numberOfRows : Nat) : Nat → List TerminalRow → Option Nat
  | _, [] => none
  | i, iter :: rows =>
    if iter.id = row then some i
    else if i + 1 = numberOfRows then none
    else indexFrom row numberOfRows (i + 1) rows

def terminalGetRowIndexInGroup (t : Terminal) (row : TerminalRow) :
    Except TerminalFault (Option Nat) := do
  let group ← groupOf t row
  let _ ← rowAt t group.child
  pure (indexFrom row.id group.numberOfRows.toNat 0 (fromOn TerminalRow.id t.rows group.child))

/-- `terminal_get_row_index_in_group(row) + 1 < row->group->number_of_rows`. -/
def hasNext (t : Terminal) (row : TerminalRow) : Except TerminalFault Bool := do
  let group ← groupOf t row
  let index ← terminalGetRowIndexInGroup t row
  pure (decide (index.elim 0 (· + 1) < group.numberOfRows.toNat))

def terminalGetColumnsTillIndex (row : TerminalRow) (index : Nat) : Nat :=
  colspans (row.units.take (index + 1))

def terminalGetUnitFromIndex (row : TerminalRow) (index : Nat) : Option TerminalUnit :=
  row.units[index]?

def insertRow (t : Terminal) (a group : Nat) : Terminal :=
  { t with
    rows := insertAfter TerminalRow.id t.rows a { id := t.fresh, group }
    fresh := t.fresh + 1 }

def terminalAllocateRow (t : Terminal) (atRow : TerminalRow) :
    Except TerminalFault (Terminal × TerminalRow) := do
  let group ← groupOf t atRow
  pure (setGroup (insertRow t atRow.id atRow.group) atRow.group
    { group with numberOfRows := group.numberOfRows + 1 }, { id := t.fresh, group := atRow.group })

def terminalAllocate (screenColumns : Nat) : Terminal where
  screenColumns := screenColumns
  rows := [{ id := 0, group := 0 }]
  groups := fun a => if a = 0 then some { child := 0, numberOfRows := 1 } else none
  cursorRow := 0
  cursorUnitIndex := 0
  fresh := 1

/-- `index` is the place of the unit in the list of `row`, which need not be the row that
the unit was made in. -/
def terminalFreeUnit (t : Terminal) (row : TerminalRow) (index : Nat) (unit : TerminalUnit) :
    Except TerminalFault Terminal := do
  let _ ← rowAt t unit.row
  let t := modifyRow t unit.row fun r =>
    { r with columns := r.columns - UInt16.ofNat (terminalGetUnitColspan unit) }
  pure (modifyRow t row.id fun r => { r with units := r.units.eraseIdx index })

def terminalFreeRow (t : Terminal) (a : Nat) : Except TerminalFault Terminal := do
  let row ← rowAt t a
  if row.columns ≠ 0 then throw .assertion
  else
    let group ← groupOf t row
    let t := { t with rows := remove TerminalRow.id t.rows a }
    pure (setGroup t row.group { group with numberOfRows := group.numberOfRows - 1 })

def terminalFreeGroup (t : Terminal) (a : Nat) : Except TerminalFault Terminal :=
  match t.groups a with
  | some group =>
    if group.numberOfRows ≠ 0 then .error .assertion
    else .ok { t with groups := Function.update t.groups a none }
  | none => .error .freedGroup

/-- The units of a row that is too long, up to the first one that exceeds the screen, and
those from there on. -/
def exceedFrom (screenColumns : Nat) : Nat → List TerminalUnit →
    List TerminalUnit × List TerminalUnit
  | _, [] => ([], [])
  | accColumns, u :: us =>
    if screenColumns < accColumns + terminalGetUnitColspan u ∧ u.content ≠ 9 then ([], u :: us)
    else
      let (kept, exceed) := exceedFrom screenColumns (accColumns + terminalGetUnitColspan u) us
      (u :: kept, exceed)

def exceedRow (t : Terminal) (row : TerminalRow) : Except TerminalFault (Terminal × TerminalRow) := do
  if ← hasNext t row then
    let next ← nextRow t row.id
    pure (t, next)
  else terminalAllocateRow t row

def terminalInputShiftExceedUnits (t : Terminal) (row : TerminalRow)
    (kept exceed : List TerminalUnit) : Except TerminalFault Terminal := do
  let (t, next) ← exceedRow t row
  let t := modifyRow t row.id fun r => { r with units := kept }
  pure (modifyRow t next.id fun r =>
    { r with units := exceed ++ r.units, columns := r.columns + UInt16.ofNat (colspans exceed) })

/-- The units of the next row that fit behind `columns` columns, and the others. -/
def pullUnits (screenColumns : Nat) : Nat → List TerminalUnit →
    List TerminalUnit × List TerminalUnit
  | _, [] => ([], [])
  | columns, u :: us =>
    if screenColumns < columns + terminalGetUnitColspan u then ([], u :: us)
    else
      let (pulled, rest) := pullUnits screenColumns (columns + terminalGetUnitColspan u) us
      (u :: pulled, rest)

def shiftRow (t : Terminal) (row : TerminalRow) : Except TerminalFault Terminal := do
  let (kept, exceed) := exceedFrom t.screenColumns 0 row.units
  let t ← if exceed = [] then pure t else terminalInputShiftExceedUnits t row kept exceed
  pure (modifyRow t row.id fun r => { r with columns := UInt16.ofNat (colspans kept) })

def pullRow (t : Terminal) (row next : TerminalRow) : Terminal :=
  let (pulled, rest) := pullUnits t.screenColumns row.columns.toNat next.units
  let t := modifyRow t next.id fun r =>
    { r with units := rest, columns := r.columns - UInt16.ofNat (colspans pulled) }
  modifyRow t row.id fun r =>
    { r with units := r.units ++ pulled, columns := r.columns + UInt16.ofNat (colspans pulled) }

def roomBefore (t : Terminal) (row : TerminalRow) (columns : Nat) : Except TerminalFault Bool :=
  if columns < t.screenColumns then hasNext t row else pure false

/-- `terminal_input_rearrange_in_group`, which may call itself for the next row `rounds`
times. -/
def terminalInputRearrangeInGroup : Nat → Terminal → Nat → Except TerminalFault Terminal
  | 0, _, _ => .error .endless
  | rounds + 1, t, a => do
    let row ← rowAt t a
    let _ ← groupOf t row
    -- INT16_MAX
    let columns := terminalGetColumnsTillIndex row 32767
    if t.screenColumns < columns then
      let t ← shiftRow t row
      if ← hasNext t row then
        let next ← nextRow t a
        terminalInputRearrangeInGroup rounds t next.id
      else pure t
    else if ← roomBefore t row columns then
      let next ← nextRow t a
      terminalInputRearrangeInGroup rounds (pullRow t row next) next.id
    else pure (modifyRow t a fun r => { r with columns := UInt16.ofNat columns })

def unitsOf (rows : List TerminalRow) : Nat := (rows.map fun r => r.units.length).sum

def rearrangeRounds (t : Terminal) : Nat := t.rows.length + unitsOf t.rows + 1

def rearrange (t : Terminal) (a : Nat) : Except TerminalFault Terminal :=
  terminalInputRearrangeInGroup (rearrangeRounds t) t a

section Printable
variable (ch : UInt8) (printable : 32 ≤ ch)

def typeUnit (row : TerminalRow) (index : Nat) : List TerminalUnit :=
  match terminalGetUnitFromIndex row index with
  | some u => row.units.set index { u with content := ch, printable }
  | none => row.units ++ [{ content := ch, row := row.id, printable }]

def advanceCursor (t : Terminal) : Except TerminalFault Terminal := do
  let row ← rowAt t t.cursorRow
  if t.screenColumns ≤ terminalGetColumnsTillIndex row t.cursorUnitIndex.toNat then
    let group ← groupOf t row
    match ← terminalGetRowIndexInGroup t row with
    | none => throw .assertion
    | some index =>
      if index + 1 = group.numberOfRows.toNat then
        let (t, next) ← terminalAllocateRow t row
        pure { t with cursorRow := next.id, cursorUnitIndex := 0 }
      else
        let next ← nextRow t row.id
        pure { t with cursorRow := next.id, cursorUnitIndex := 0 }
  else pure { t with cursorUnitIndex := t.cursorUnitIndex + 1 }

def terminalInputPrintable (t : Terminal) : Except TerminalFault Terminal := do
  let row ← rowAt t t.cursorRow
  let units := typeUnit ch printable row t.cursorUnitIndex.toNat
  let t ← rearrange (modifyRow t row.id fun r => { r with units }) row.id
  advanceCursor t

end Printable

/-- The new group and its row have the same address, since no pointer to the one is taken for
a pointer to the other. -/
def terminalAllocateGroup (t : Terminal) (atRow : TerminalRow) : Terminal :=
  setGroup (insertRow t atRow.id t.fresh) t.fresh { child := t.fresh, numberOfRows := 1 }

def terminalInputNewline (t : Terminal) : Except TerminalFault Terminal := do
  let row ← rowAt t t.cursorRow
  let _ ← groupOf t row
  pure { terminalAllocateGroup t row with cursorRow := t.fresh, cursorUnitIndex := 0 }

/-- An empty row is freed, and the cursor goes to the row in front of it. The group is taken
from the row that has just been freed when it is to be freed, too. -/
def eraseRow (t : Terminal) (row : TerminalRow) : Except TerminalFault Terminal := do
  let prev ← prevRow t row.id
  let t := { t with cursorRow := prev.id, cursorUnitIndex := prev.columns - 1 }
  let t ← terminalFreeRow t row.id
  let group ← groupOf t row
  if group.numberOfRows = 0 then
    let freed ← rowAt t row.id
    terminalFreeGroup t freed.group
  else pure t

def eraseAt (t : Terminal) (group : TerminalGroup) (i : Nat) (row : TerminalRow) :
    Except TerminalFault Terminal :=
  let index := t.cursorUnitIndex.toNat
  match terminalGetUnitFromIndex row index with
  | none =>
    if t.cursorUnitIndex ≠ 0 then .error .assertion
    else if t.rows.head?.map TerminalRow.id = some row.id then .ok t
    else eraseRow t row
  | some unit =>
    if i + 1 < group.numberOfRows.toNat then do
      let next ← nextRow t row.id
      let t ← terminalFreeUnit t row index unit
      if next.columns ≠ 0 then rearrange t row.id else terminalFreeRow t next.id
    else terminalFreeUnit t row index unit

def eraseFrom (t : Terminal) (group : TerminalGroup) : Nat → List TerminalRow →
    Except TerminalFault Terminal
  | _, [] => .ok t
  | i, iter :: rows =>
    if iter.id = t.cursorRow then eraseAt t group i iter else eraseFrom t group (i + 1) rows

def terminalInputErase (t : Terminal) : Except TerminalFault Terminal := do
  let row ← rowAt t t.cursorRow
  let group ← groupOf t row
  let _ ← rowAt t group.child
  eraseFrom t group 0 (fromOn TerminalRow.id t.rows group.child)

def terminalInputBack (t : Terminal) : Except TerminalFault Terminal :=
  if t.cursorUnitIndex = 0 then do
    let row ← rowAt t t.cursorRow
    let group ← groupOf t row
    if group.child ≠ row.id then
      let prev ← prevRow t row.id
      pure { t with
        cursorRow := prev.id
        cursorUnitIndex := if prev.columns = 0 then 0 else prev.columns - 1 }
    else pure t
  else pure { t with cursorUnitIndex := t.cursorUnitIndex - 1 }

/-- The body of the loop of `terminal_input`. An escape takes no further characters. -/
def terminalInputByte (t : Terminal) (ch : UInt8) : Except TerminalFault Terminal :=
  if ch = 27 then .ok t
  else if ch = 8 then terminalInputBack t
  else if ch = 127 then terminalInputErase t
  else if ch = 13 then .ok { t with cursorUnitIndex := 0 }
  else if ch = 10 then terminalInputNewline t
  else if printable : 32 ≤ ch then terminalInputPrintable ch printable t
  else .ok t

def terminalInput (t : Terminal) (input : List UInt8) : Except TerminalFault Terminal :=
  input.foldlM terminalInputByte t

end Mos.Gui

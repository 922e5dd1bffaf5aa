import Mos.Machine.Run

namespace Mos.Input

def mousePacketQueueLen : Nat := 16

structure MouseEvent where
  x : Int32
  y : Int32
  buttons : UInt8
  state : UInt32
  deriving DecidableEq, Repr, Inhabited

inductive KeyEventType where
  | keyPrress
  | keyRelease
  deriving DecidableEq, Repr, Inhabited

structure KeyEvent where
  type : KeyEventType
  key : UInt32
  state : UInt32
  deriving DecidableEq, Repr, Inhabited

/-- `struct mouse_inode` and `struct kybrd_inode`. -/
structure Inode (α : Type) where
  ready : Bool := false
  packets : Nat → α
  head : Nat := 0
  tail : Nat := 0

/-- Where a call of `mouse_read` or `kybrd_read` stands that has had to wait: it still does; it
has copied an event; or it has found `tail` and `head` different, or equal, and is about to
store what follows from that. -/
inductive Stage (α : Type) where
  | waiting
  | copied (e : α)
  | advancing (e : α)
  | clearing (e : α)
  deriving DecidableEq, Repr

inductive Happening (α : Type) where
  | event (e : α)
  | returned (e : α)
  deriving DecidableEq, Repr

/-- An open file with the calls that have had to wait. `log` has the events since it was opened
and what reads of it have returned, the latest first; no code reads it. -/
structure Reader (α : Type) where
  inode : Inode α
  calls : List (Stage α) := []
  log : List (Happening α) := []

abbrev Device (α : Type) := List (Reader α)

section
variable {α : Type}

/-- The body of the loop of `mouse_notify_readers` and of `kybrd_notify_readers`. -/
def Inode.notify (i : Inode α) (e : α) : Inode α :=
  let i :=
    if i.ready then
      let tail := (i.tail + 1) % mousePacketQueueLen
      if tail = i.head then { i with tail, head := (i.head + 1) % mousePacketQueueLen }
      else { i with tail }
    else { i with head := i.tail }
  { i with packets := Function.update i.packets i.tail e, ready := true }

def Inode.advance (i : Inode α) : Inode α := { i with head := (i.head + 1) % mousePacketQueueLen }

def Inode.clear (i : Inode α) : Inode α := { i with ready := false }

def Inode.first (i : Inode α) : α := i.packets i.head

def Reader.notify (r : Reader α) (e : α) : Reader α :=
  { r with inode := r.inode.notify e, log := .event e :: r.log }

/-- `mouse_read` and `kybrd_read`. A system call starts with the interrupts disabled, and they
stay so unless the call has to wait. -/
def Reader.read (r : Reader α) : Reader α :=
  if r.inode.ready then
    { r with
      inode := if r.inode.tail ≠ r.inode.head then r.inode.advance else r.inode.clear
      log := .returned r.inode.first :: r.log }
  else { r with calls := r.calls ++ [.waiting] }

/-- The `j`-th call that has had to wait goes on; the scheduler has enabled the interrupts. -/
def Reader.resume (r : Reader α) (j : Nat) : Option (Reader α) :=
  match r.calls[j]? with
  | none => none
  | some .waiting =>
    if r.inode.ready then some { r with calls := r.calls.set j (.copied r.inode.first) } else none
  | some (.copied e) =>
    let next := if r.inode.tail ≠ r.inode.head then Stage.advancing e else .clearing e
    some { r with calls := r.calls.set j next }
  | some (.advancing e) =>
    some ⟨r.inode.advance, r.calls.eraseIdx j, .returned e :: r.log⟩
  | some (.clearing e) =>
    some ⟨r.inode.clear, r.calls.eraseIdx j, .returned e :: r.log⟩

inductive Act (α : Type) where
  | open
  | event (e : α)
  | read (k : Nat)
  | resume (k j : Nat)
  | release (k : Nat)
  deriving DecidableEq, Repr

/-- `mouse_open` and `kybrd_open`, with what `kcalloc` returns. -/
def opened [Inhabited α] : Reader α := { inode := { packets := fun _ => default } }

def act [Inhabited α] (s : Device α) : Act α → Option (Device α)
  | .open => some (s ++ [opened])
  | .event e => some (s.map (·.notify e))
  | .read k => s[k]?.map fun r => s.set k r.read
  | .resume k j => s[k]?.bind fun r => (r.resume j).map (s.set k)
  | .release k => s[k]?.bind fun r => if r.calls.isEmpty then some (s.eraseIdx k) else none

end

structure System where
  mouse : Device MouseEvent := []
  kybrd : Device KeyEvent := []

inductive Op where
  | mouse (a : Act MouseEvent)
  | kybrd (a : Act KeyEvent)
  deriving DecidableEq, Repr

def step (s : System) : Op → Option System
  | .mouse a => (act s.mouse a).map fun mouse => { s with mouse }
  | .kybrd a => (act s.kybrd a).map fun kybrd => { s with kybrd }

end Mos.Input

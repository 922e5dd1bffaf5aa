import Mos.Devices.Tty

namespace Mos.Devices

inductive TtyDriver where
  | ptm
  | pts
  | serial
  deriving DecidableEq, Repr

/-- A `struct tty_struct`: its driver, whose `init_termios` its `termios` points to, and its
number there. -/
structure TtyRef where
  driver : TtyDriver
  index : Nat
  deriving DecidableEq, Repr

/-- The `init_termios` of the drivers, the terminals and the next number of a pseudo terminal. -/
structure TtyTable where
  initTermios : TtyDriver → Termios
  ttys : List TtyRef := []
  nextPtyNumber : Nat := 0

namespace TtyTable
variable (s : TtyTable)

def createTtyStruct (driver : TtyDriver) (index : Nat) : TtyTable :=
  { s with ttys := s.ttys ++ [⟨driver, index⟩] }

def serialMinorBase : Nat := 64

def ptmxOpen : TtyTable :=
  let index := s.nextPtyNumber
  ({ s with nextPtyNumber := index + 1 }.createTtyStruct .ptm index).createTtyStruct .pts index

/-- `tty_open` of a serial line, which is looked up by its minor number and created with
another one. The other devices have a terminal or none. -/
def ttyOpen (minor : Nat) : TtyTable :=
  if minor < serialMinorBase ∨ ⟨.serial, minor⟩ ∈ s.ttys then s
  else s.createTtyStruct .serial (minor - serialMinorBase)

/-- The settings that `tcgets` reports for the terminal `i`, and that its input and output are
processed by. -/
def tcgets (i : Nat) : Option Termios := s.ttys[i]?.map fun tty => s.initTermios tty.driver

def tcsets (i : Nat) (term : Termios) : TtyTable :=
  match s.ttys[i]? with
  | some tty => { s with initTermios := Function.update s.initTermios tty.driver term }
  | none => s

end TtyTable

end Mos.Devices

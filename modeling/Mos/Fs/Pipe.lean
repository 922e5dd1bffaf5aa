import Mathlib

namespace Mos.Pipe

structure CircularBuf where
  buffer : Nat → UInt8 := fun _ => 0
  head : Nat := 0
  tail : Nat := 0
  max : Nat
  full : Bool := false

def advancePointer (c : CircularBuf) : CircularBuf :=
  let tail := if c.full then (c.tail + 1) % c.max else c.tail
  let head := (c.head + 1) % c.max
  { c with tail, head, full := decide (head = tail) }

def retreatPointer (c : CircularBuf) : CircularBuf :=
  { c with full := false, tail := (c.tail + 1) % c.max }

def circularBufPut (c : CircularBuf) (data : UInt8) : CircularBuf :=
  advancePointer { c with buffer := Function.update c.buffer c.head data }

def circularBufEmpty (c : CircularBuf) : Bool := !c.full && decide (c.head = c.tail)

def circularBufGet (c : CircularBuf) : Option UInt8 × CircularBuf :=
  if circularBufEmpty c then (none, c) else (some (c.buffer c.tail), retreatPointer c)

def pipeSize : Nat := 0x10000

def allocPipe : CircularBuf := { max := pipeSize }

def oRdonly : UInt32 := 0
def oWronly : UInt32 := 1
def einval : Int := 22

/-- The loop of `pipe_read`: for each place of the user's buffer, the byte stored there. -/
def readLoop (c : CircularBuf) : Nat → List (Option UInt8) × CircularBuf
  | 0 => ([], c)
  | count + 1 =>
    let (data, c) := circularBufGet c
    let (rest, c) := readLoop c count
    (data :: rest, c)

def writeLoop (c : CircularBuf) : List UInt8 → CircularBuf
  | [] => c
  | data :: rest => writeLoop (circularBufPut c data) rest

/-- `pipe_read`: what it stores, what is left and what it returns. The mutex makes the
calls follow one another. -/
def pipeRead (c : CircularBuf) (fFlags : UInt32) (count : Nat) :
    List (Option UInt8) × CircularBuf × Int :=
  if fFlags &&& oWronly ≠ 0 then ([], c, -einval)
  else
    let (data, c) := readLoop c count
    (data, c, 0)

def pipeWrite (c : CircularBuf) (fFlags : UInt32) (buf : List UInt8) : CircularBuf × Int :=
  if fFlags &&& oRdonly ≠ 0 then (c, -einval) else (writeLoop c buf, 0)

inductive Call where
  | read (fFlags : UInt32) (count : Nat)
  | write (fFlags : UInt32) (buf : List UInt8)
  deriving DecidableEq, Repr

structure Stream where
  buf : CircularBuf := allocPipe
  accepted : List UInt8 := []
  delivered : List UInt8 := []

def transferred (s : Stream) : Call → List UInt8
  | .read fFlags count => (pipeRead s.buf fFlags count).1.reduceOption
  | .write fFlags buf => if fFlags &&& oRdonly ≠ 0 then [] else buf

def returned (s : Stream) : Call → Int
  | .read fFlags count => (pipeRead s.buf fFlags count).2.2
  | .write fFlags buf => (pipeWrite s.buf fFlags buf).2

def step (s : Stream) : Call → Option Stream
  | .read fFlags count =>
    some { s with
      buf := (pipeRead s.buf fFlags count).2.1
      delivered := s.delivered ++ transferred s (.read fFlags count) }
  | .write fFlags buf =>
    some { s with
      buf := (pipeWrite s.buf fFlags buf).1
      accepted := s.accepted ++ transferred s (.write fFlags buf) }

def circularBufSize (c : CircularBuf) : Nat :=
  if c.full then c.max
  else if c.tail ≤ c.head then c.head - c.tail else c.max + c.head - c.tail

end Mos.Pipe

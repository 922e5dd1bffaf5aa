import Mos.Devices.Tty

namespace Mos.Devices

/-- How the handling of input ends that does not end well: an assertion fails, or the echoes of
two terminals call each other too often. -/
inductive EchoHalt where
  | halt (h : Halt)
  | nested
  deriving DecidableEq, Repr

/-- Two terminals, each the `link` of the other if they are the ends of a pseudo terminal; a
terminal without a link has the other one beside it. -/
structure Pair where
  linked : Bool := true
  tty : Bool → Tty

def Pair.set (p : Pair) (x : Bool) (t : Tty) : Pair := { p with tty := Function.update p.tty x t }

/-- How `pty_write` calls `receive_buf` of a terminal. -/
abbrev Receive := Pair → Bool → List UInt8 → Except EchoHalt Pair

section Echo
variable (receive : Receive)

/-- A call of `opost_block` by the line discipline, with `pty_write`. -/
def Pair.post (p : Pair) (x : Bool) (buf : List UInt8) : Except EchoHalt Pair :=
  let q := p.set x ((p.tty x).post buf)
  match (opostBlock (p.tty x) buf).out with
  | none => pure q
  | some out =>
    if p.linked then receive q (!x) (out.take (nttyReceiveRoom (p.tty !x)).toNat) else pure q

def Pair.echo (p : Pair) (x : Bool) (echoes : Bool) (buf : List UInt8) : Except EchoHalt Pair :=
  if echoes then p.post receive x buf else pure p

def Pair.put (p : Pair) (x : Bool) (ch : UInt8) : Except EchoHalt Pair :=
  match putTtyQueue (p.tty x) ch with
  | .ok t => pure (p.set x t)
  | .error halt => throw (.halt halt)

/-- `eraser`. What it erases is found before the echo, and taken off behind it. -/
def eraserEchoing (p : Pair) (x : Bool) (ch : UInt8) : Except EchoHalt Pair :=
  let t := p.tty x
  let lineLength := lineLength t t.readCount.toNat 0
  if lineLength = 0 then pure p
  else do
    let n := eraseLength t ch lineLength
    let p ← p.echo receive x (echoesErase t.termios ch) [ch]
    let t := p.tty x
    pure (p.set x { t with
      readCount := t.readCount - n
      readTail := if t.readHead ≠ t.readTail then nTtyBufAlign (t.readTail - n) else t.readTail })

def receiveMappedEchoing (p : Pair) (x : Bool) (ch : UInt8) : Except EchoHalt Pair :=
  let t := p.tty x
  match signalOf t.termios ch with
  | some sig =>
    pure (p.set x (if 0 < t.pgrp then { t with kills := t.kills ++ [(-t.pgrp, sig)] } else t))
  | none =>
    if isErase t.termios ch then eraserEchoing receive p x ch
    else if same t.termios.eofChar ch then p.put x 0
    else if isEol t.termios ch then do
      let p ← p.put x ch
      p.echo receive x ((p.tty x).termios.l echonl && ch == newline) [ch]
    else do
      let p ← p.put x ch
      p.echo receive x ((p.tty x).termios.l echo) [ch]

def receiveCharEchoing (x : Bool) (p : Pair) (ch : UInt8) : Except EchoHalt Pair :=
  match inputChar (p.tty x).termios ch with
  | none => pure p
  | some ch => receiveMappedEchoing receive p x ch

/-- `ntty_receive_buf` with what its echo does to the linked terminal. -/
def receiveBufEchoing (p : Pair) (x : Bool) (cp : List UInt8) : Except EchoHalt Pair :=
  let t := p.tty x
  let p := p.set x { t with received := t.received ++ cp }
  if t.termios.l icanon then cp.foldlM (receiveCharEchoing receive x) p
  else do
    let p ← cp.foldlM (fun p ch => p.put x ch) p
    p.echo receive x ((p.tty x).termios.l echo) cp

end Echo

/-- The echo of one terminal is received by the other, whose echo comes back to the first;
`depth` is how many such calls may be nested. -/
def receiveNested : Nat → Receive
  | 0 => fun _ _ _ => throw .nested
  | depth + 1 => receiveBufEchoing (receiveNested depth)

end Mos.Devices

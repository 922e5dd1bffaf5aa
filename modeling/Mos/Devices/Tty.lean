import Mathlib

namespace Mos.Devices

def nTtyBufSize : Nat := 4096

def nTtyBufAlign (v : Int) : Nat := (v % nTtyBufSize).toNat

structure Termios where
  iflag : UInt32 := 0
  oflag : UInt32 := 0
  lflag : UInt32 := 0
  cc : Nat → UInt8 := fun _ => 0

def istrip : UInt32 := 0o40
def inlcr : UInt32 := 0o100
def igncr : UInt32 := 0o200
def icrnl : UInt32 := 0o400
def iuclc : UInt32 := 0o1000
def opost : UInt32 := 0o1
def olcuc : UInt32 := 0o2
def onlcr : UInt32 := 0o4
def ocrnl : UInt32 := 0o10
def isig : UInt32 := 0o1
def icanon : UInt32 := 0o2
def echo : UInt32 := 0o10
def echoe : UInt32 := 0o20
def echok : UInt32 := 0o40
def echonl : UInt32 := 0o100
def iexten : UInt32 := 0o100000

namespace Termios

def i (t : Termios) (f : UInt32) : Bool := t.iflag &&& f != 0
def o (t : Termios) (f : UInt32) : Bool := t.oflag &&& f != 0
def l (t : Termios) (f : UInt32) : Bool := t.lflag &&& f != 0

def intrChar (t : Termios) : UInt8 := t.cc 0
def quitChar (t : Termios) : UInt8 := t.cc 1
def eraseChar (t : Termios) : UInt8 := t.cc 2
def killChar (t : Termios) : UInt8 := t.cc 3
def eofChar (t : Termios) : UInt8 := t.cc 4
def minChar (t : Termios) : UInt8 := t.cc 6
def suspChar (t : Termios) : UInt8 := t.cc 10
def eolChar (t : Termios) : UInt8 := t.cc 11
def weraseChar (t : Termios) : UInt8 := t.cc 14
def eol2Char (t : Termios) : UInt8 := t.cc 16

end Termios

def newline : UInt8 := 10
def carriageReturn : UInt8 := 13

/-- The comparison of a `cc_t` with a `char`, which is signed: a byte from 0x80 on is
less than every `cc_t`. -/
def same (cc ch : UInt8) : Bool := ch < 0x80 && cc == ch

def isspace (c : UInt8) : Bool := c == 32 || (9 ≤ c && c ≤ 13)
def toupper (c : UInt8) : UInt8 := if 97 ≤ c && c ≤ 122 then c - 0x20 else c
def tolower (c : UInt8) : UInt8 := if 65 ≤ c && c ≤ 90 then c + 0x20 else c

def lineSeparator (t : Termios) (ch : UInt8) : Bool :=
  same t.eofChar ch || same t.eolChar ch || (same t.eol2Char ch && t.l iexten) || ch == newline

def ttyStdTermios : Termios where
  iflag := 0o2400
  oflag := 0o5
  lflag := 0o105073
  cc n := [0o3, 0o34, 0o177, 0o25, 0o4, 0, 1, 0, 0o21, 0o23, 0o32, 0, 0o22, 0o17, 0o27, 0o26, 0].getD n 0

inductive Halt where
  | assertNotReached
  | assert
  deriving DecidableEq, Repr

/-- `struct tty_struct`. No code reads the last three fields: the bytes that its line
discipline was given, what its driver was given to write, and the calls of `do_kill`. -/
structure Tty where
  termios : Termios
  pgrp : Int := 0
  session : Int := 0
  readBuf : Nat → UInt8 := fun _ => 0
  readHead : Nat := 0
  readTail : Nat := 0
  readCount : Int := 0
  received : List UInt8 := []
  written : List (List UInt8) := []
  kills : List (Int × Nat) := []

def nttyReceiveRoom (t : Tty) : Int := nTtyBufSize - t.readCount

def putTtyQueue (t : Tty) (ch : UInt8) : Except Halt Tty :=
  if nTtyBufSize ≤ t.readCount then throw .assertNotReached
  else if t.readCount ≠ 0 then
    let readTail := nTtyBufAlign (t.readTail + 1)
    pure { t with
      readTail
      readBuf := Function.update t.readBuf readTail ch
      readCount := t.readCount + 1 }
  else if t.readHead = t.readTail then
    pure { t with
      readBuf := Function.update t.readBuf t.readTail ch
      readCount := t.readCount + 1 }
  else throw .assert

def opostChar (t : Termios) (ch : UInt8) : List UInt8 :=
  if t.o onlcr && ch == newline then [carriageReturn, ch]
  else if t.o ocrnl && ch == carriageReturn then [newline]
  else [if t.o olcuc then toupper ch else ch]

def opostBytes (t : Termios) (buf : List UInt8) : List UInt8 :=
  if t.o opost then buf.flatMap (opostChar t) else buf

/-- What `opost_block` stores into its work buffer, and what it hands to the driver. -/
structure Posted where
  wbuf : List UInt8 := []
  out : Option (List UInt8) := none

def opostBlock (t : Tty) (buf : List UInt8) : Posted :=
  let room := nttyReceiveRoom t
  if room = 0 then {}
  else
    let buf := buf.take room.toNat
    if t.termios.o opost then
      let wbuf := buf.flatMap (opostChar t.termios)
      { wbuf, out := some wbuf }
    else { out := some buf }

def Tty.post (t : Tty) (buf : List UInt8) : Tty :=
  { t with written := t.written ++ (opostBlock t buf).out.toList }

def lineLength (t : Tty) : Nat → Nat → Nat
  | 0, n => n
  | rounds + 1, n =>
    if lineSeparator t.termios (t.readBuf (nTtyBufAlign (t.readTail - n))) then n
    else if nTtyBufAlign (t.readTail - (n + 1)) = t.readHead then n + 1
    else lineLength t rounds (n + 1)

def wordLength (t : Tty) : Nat → Nat → Nat
  | 0, i => i
  | rounds + 1, i =>
    if isspace (t.readBuf (nTtyBufAlign (t.readTail - i))) then i else wordLength t rounds (i + 1)

def eraseLength (t : Tty) (ch : UInt8) (lineLength : Nat) : Nat :=
  if same t.termios.weraseChar ch then wordLength t lineLength 0
  else if same t.termios.killChar ch then lineLength
  else 1

def echoesErase (t : Termios) (ch : UInt8) : Bool :=
  t.l echo && ((same t.killChar ch && t.l echok) ||
    ((same t.eraseChar ch || same t.weraseChar ch) && t.l echoe))

def eraser (t : Tty) (ch : UInt8) : Tty :=
  let lineLength := lineLength t t.readCount.toNat 0
  if lineLength = 0 then t
  else
    let n := eraseLength t ch lineLength
    let t := if echoesErase t.termios ch then t.post [ch] else t
    { t with
      readCount := t.readCount - n
      readTail := if t.readHead ≠ t.readTail then nTtyBufAlign (t.readTail - n) else t.readTail }

/-- The input mapping of `ntty_receive_buf`; none is a character that is left out. -/
def inputChar (t : Termios) (ch : UInt8) : Option UInt8 :=
  let ch := if t.i istrip then ch &&& 0x7f else ch
  let ch := if t.i iuclc && t.l iexten then tolower ch else ch
  if ch = carriageReturn then
    if t.i igncr then none else if t.i icrnl then some newline else some ch
  else if ch = newline && t.i inlcr then some carriageReturn
  else some ch

def signalOf (t : Termios) (ch : UInt8) : Option Nat :=
  if !t.l isig then none
  else if same t.intrChar ch then some 2
  else if same t.quitChar ch then some 3
  else if same t.suspChar ch then some 20
  else none

def isErase (t : Termios) (ch : UInt8) : Bool :=
  same t.eraseChar ch || same t.killChar ch || (same t.weraseChar ch && t.l iexten)

def isEol (t : Termios) (ch : UInt8) : Bool :=
  same t.eolChar ch || (same t.eol2Char ch && t.l iexten) || ch == newline

/-- The loop of `ntty_receive_buf` with `ICANON`, for a character after the input mapping. -/
def receiveMapped (t : Tty) (ch : UInt8) : Except Halt Tty :=
  match signalOf t.termios ch with
  | some sig => pure (if 0 < t.pgrp then { t with kills := t.kills ++ [(-t.pgrp, sig)] } else t)
  | none =>
    if isErase t.termios ch then pure (eraser t ch)
    else if same t.termios.eofChar ch then putTtyQueue t 0
    else if isEol t.termios ch then do
      let t ← putTtyQueue t ch
      pure (if t.termios.l echonl && ch == newline then t.post [ch] else t)
    else do
      let t ← putTtyQueue t ch
      pure (if t.termios.l echo then t.post [ch] else t)

def receiveChar (t : Tty) (ch : UInt8) : Except Halt Tty :=
  match inputChar t.termios ch with
  | none => pure t
  | some ch => receiveMapped t ch

def nttyReceiveBuf (t : Tty) (cp : List UInt8) : Except Halt Tty :=
  let t := { t with received := t.received ++ cp }
  if t.termios.l icanon then cp.foldlM receiveChar t
  else do
    let t ← cp.foldlM putTtyQueue t
    pure (if t.termios.l echo then t.post cp else t)

/-- The process that makes a call: whether the terminal is its `tty`, and two of its numbers. -/
structure Caller where
  tty : Bool := false
  gid : Int := 0
  pid : Int := 0
  deriving DecidableEq, Repr

def inBackground (t : Tty) (p : Caller) : Bool :=
  p.tty && p.gid != t.pgrp && p.pid != t.session

def erestartsys : Int := 512
def efault : Int := 14

def lineEnd (t : Tty) : Nat → Nat → Nat → Option Nat
  | 0, _, _ => none
  | rounds + 1, pos, count =>
    if lineSeparator t.termios (t.readBuf pos) then some (count + 1)
    else if pos = t.readTail then none
    else lineEnd t rounds (nTtyBufAlign (pos + 1)) (count + 1)

def readLength (t : Tty) : Option Int :=
  if t.termios.l icanon then
    if t.readCount ≠ 0 then (lineEnd t nTtyBufSize t.readHead 0).map Int.ofNat else none
  else if t.termios.minChar.toNat ≤ t.readCount then some t.readCount
  else none

def assertFromReadBuf (t : Tty) (length : Int) : Bool :=
  length == 0 || (decide (length ≤ t.readCount) &&
    if t.readHead ≠ t.readTail then
      if t.readTail < t.readHead then decide (t.readHead + length - 1 ≤ t.readTail + nTtyBufSize)
      else decide (t.readHead + length - 1 ≤ t.readTail)
    else length == 1)

def copyFromReadBuf (t : Tty) (length : Int) : List UInt8 :=
  (List.range length.toNat).map fun i : Nat => t.readBuf (nTtyBufAlign (t.readHead + i))

inductive Answer where
  | waits
  | failed (errno : Int)
  | bytes (data : List UInt8)
  deriving DecidableEq, Repr

def nttyRead (t : Tty) (p : Caller) (nr : UInt32) : Except Halt (Answer × Tty) :=
  if inBackground t p then
    pure (.failed (-erestartsys), { t with kills := t.kills ++ [(-p.gid, 21)] })
  else
    match readLength t with
    | none => pure (.waits, t)
    | some length =>
      if length = 0 ∨ t.readCount < length then pure (.failed (-efault), t)
      else
        let count := min length nr.toInt32.toInt
        if assertFromReadBuf t count then
          let data := copyFromReadBuf t count
          if count = t.readCount then
            pure (.bytes data, { t with readHead := 0, readTail := 0, readCount := 0 })
          else
            pure (.bytes data, { t with
              readHead := nTtyBufAlign (t.readHead + count)
              readCount := t.readCount - count })
        else throw .assert

def ptyWrite (link : Option Tty) (buf : List UInt8) : Except Halt (Option Tty) :=
  match link with
  | none => pure none
  | some peer => some <$> nttyReceiveBuf peer (buf.take (nttyReceiveRoom peer).toNat)

/-- What a call of `ntty_write` comes to. Where it returns the number of bytes, what
`opost_block` stored into its work buffer, and the linked terminal. -/
inductive Written where
  | waits
  | failed (errno : Int)
  | returned (nr : Nat) (wbuf : List UInt8) (link : Option Tty)

def nttyWrite (t : Tty) (link : Option Tty) (p : Caller) (buf : List UInt8) : Except Halt Written :=
  if inBackground t p then pure (.failed (-erestartsys))
  else if nttyReceiveRoom t < buf.length then pure .waits
  else
    let posted := opostBlock t buf
    match posted.out with
    | none => pure (.returned buf.length posted.wbuf link)
    | some out => do
      let link ← ptyWrite link out
      pure (.returned buf.length posted.wbuf link)

end Mos.Devices

import Mos.Machine.Align
import Mos.Machine.Bytes

namespace Mos.Libc
open Machine

/-- How a call stops the program: `assert_stream` fails, or NULL is read from. -/
inductive Fault where
  | assertStream
  | nullRead
  deriving DecidableEq, Repr

/-- The part of a `FILE` that reading uses, for a regular file. `buf` has the bytes from
`_IO_read_base` to `_IO_read_end`, none for NULL, and `ptr` is where `_IO_read_ptr` is in it;
`bkup` is `bkup_chr`. `content` and `pos` are the file and the position of its descriptor, and
`behind` is what memory holds behind a buffer. -/
structure Stream where
  content : List UInt8
  blksize : Nat
  behind : Bytes
  pos : Nat := 0
  offset : UInt32 := 0
  buf : Option (List UInt8) := none
  ptr : Nat := 0
  bkup : Int := -1
  eofSeen : Bool := false

namespace Stream

def bytes (s : Stream) : List UInt8 := s.buf.getD []

def byte (s : Stream) (i : Nat) : UInt8 := s.bytes.getD i (s.behind (i - s.bytes.length))

end Stream

def assertStream (s : Stream) : Except Fault Unit :=
  if s.ptr ≤ s.bytes.length + 1 then pure () else throw .assertStream

def fillCount (offset : UInt32) (blksize size : Nat) : UInt32 :=
  alignUp (offset + UInt32.ofNat size) (UInt32.ofNat (max blksize 1)) - offset

def read (s : Stream) (count : Nat) : List UInt8 := (s.content.drop s.pos).take count

/-- The end of `fnget`: `size` bytes are copied, whether the buffer has them or not. -/
def takeBytes (s : Stream) (size : Nat) : List UInt8 × Stream :=
  ((List.range size).map fun i => s.byte (s.ptr + i),
    { s with offset := s.offset + UInt32.ofNat size, ptr := s.ptr + size })

/-- `fnget`; none is `EOF`. The rest of the old buffer is dropped when it is filled again. -/
def fnget (s : Stream) (size : Nat) : Except Fault (Option (List UInt8) × Stream) := do
  assertStream s
  if s.bytes.length < s.ptr + size ∨ s.buf = none then
    if s.eofSeen then pure (none, s)
    else
      let data := read s (fillCount s.offset s.blksize size).toNat
      if data = [] then pure (none, { s with eofSeen := true })
      else
        let (out, s) := takeBytes { s with
          pos := s.pos + data.length
          buf := some data
          ptr := 0 } size
        pure (some out, s)
  else
    let (out, s) := takeBytes s size
    pure (some out, s)

def fgetc (s : Stream) : Except Fault (Option UInt8 × Stream) := do
  let (out, s) ← fnget s 1
  pure (out.bind List.head?, s)

def fread (s : Stream) (size : Nat) : Nat → Except Fault (Nat × List UInt8 × Stream)
  | 0 => pure (0, [], s)
  | nitems + 1 => do
    let (out, s) ← fnget s size
    match out with
    | none => pure (0, [], s)
    | some item =>
      let (n, items, s) ← fread s size nitems
      pure (n + 1, item ++ items, s)

def charValue (c : UInt8) : Int := if c.toNat < 128 then c.toNat else c.toNat - 256

/-- The buffer of `ungetc` when there is no room in front: one byte in front, and one too many
at the end. -/
def makeRoom (s : Stream) : Except Fault Stream :=
  if s.ptr = 0 then
    match s.buf with
    | none => throw .nullRead
    | some bytes => pure { s with buf := some (0 :: (bytes ++ [s.behind 0])), ptr := 1 }
  else pure s

def pushBack (s : Stream) (c : UInt8) : Stream :=
  { s with
    offset := s.offset - 1
    bkup := charValue (s.byte s.ptr)
    buf := s.buf.map fun bytes => bytes.set (s.ptr - 1) c
    ptr := s.ptr - 1
    eofSeen := false }

/-- `ungetc`; none is `EOF`, both as an argument and as a result. -/
def ungetc (c : Option UInt8) (s : Stream) : Except Fault (Option UInt8 × Stream) := do
  assertStream s
  match c with
  | none => pure (none, s)
  | some c =>
    if s.bkup ≠ -1 then pure (none, s)
    else
      let s ← makeRoom s
      pure (some c, pushBack s c)

inductive Whence where
  | set
  | cur
  | fromEnd
  deriving DecidableEq, Repr

def intBits (x : Int) : UInt32 := UInt32.ofNat (x % 2 ^ 32).toNat

def bitsInt (x : UInt32) : Int := if x.toNat < 2 ^ 31 then x.toNat else x.toNat - 2 ^ 32

def target (s : Stream) (off : Int) : Whence → Int
  | .set => off
  | .cur => bitsInt s.offset + off
  | .fromEnd => s.content.length + off

/-- The stream at another offset. What a read at a negative position gives is left open; here
it is nothing. -/
def reposition (s : Stream) (offset : Int) : Stream :=
  { s with
    offset := intBits offset
    pos := if offset < 0 then s.content.length else offset.toNat
    buf := none
    ptr := 0
    bkup := -1
    eofSeen := false }

def fseek (s : Stream) (off : Int) (whence : Whence) : Except Fault Stream := do
  assertStream s
  pure (reposition s (target s off whence))

end Mos.Libc

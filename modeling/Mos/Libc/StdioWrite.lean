import Mathlib

namespace Mos.Libc

/-- The part of a `FILE` that writing uses. `buf` has the bytes from `_IO_write_base` to
`_IO_write_end`, none when these are NULL, and `len` of them are in front of `_IO_write_ptr`. -/
structure Writer where
  buf : List UInt8 := []
  len : Nat := 0
  deriving DecidableEq, Repr

def asInt (n : Int) : Int := n.bmod (2 ^ 32)

def minWriteBufLen : Int := 32

/-- The buffer that `fnput` takes when the old one has too little room; none when the bytes of
the old one are copied beyond its end. -/
def Writer.grow (w : Writer) (size : Int) : Option Writer :=
  let newLen := (max (max size (asInt (w.buf.length * 2))) minWriteBufLen).toNat
  if newLen < w.buf.length then none
  else some { w with buf := w.buf ++ List.replicate (newLen - w.buf.length) 0 }

/-- `fnput`; none when `assert_stream` fails or a byte is stored outside of the buffer. -/
def fnput (w : Writer) (s : List UInt8) : Option Writer :=
  if w.buf.length + 1 < w.len then none
  else
    let size := asInt s.length
    let remaining := asInt (w.buf.length - w.len)
    let grown := if remaining < size then w.grow size else some w
    grown.bind fun w =>
      if w.len + s.length ≤ w.buf.length then
        some ⟨w.buf.take w.len ++ s ++ w.buf.drop (w.len + s.length), w.len + s.length⟩
      else none

def fflush (w : Writer) : Writer × List UInt8 :=
  if w.len = 0 then (w, []) else ({}, w.buf.take w.len)

end Mos.Libc

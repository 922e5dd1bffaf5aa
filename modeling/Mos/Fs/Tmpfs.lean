import Mos.Machine.Bytes

namespace Mos.Tmpfs
open Machine

def blocksize : Nat := 4096

def wrap (x : Int) : Nat := (x % 4294967296).toNat

def pageAlign (x : Int) : Int := (x + 4095) / 4096 * 4096

/-- The fields of `struct vfs_file` that matter, with the two modes as flags. -/
structure File where
  fPos : Int := 0
  append : Bool := false
  canRead : Bool := true
  canWrite : Bool := true
  deriving DecidableEq, Repr

/-- An inode of the file system with its open files. Frames are numbered in the order
in which `pmm_alloc_block` hands them out; `content` is what each one holds, also before
it is handed out. -/
structure Inode where
  iSize : Nat := 0
  pages : List Nat := []
  allocated : Nat := 0
  content : Nat → Bytes
  files : Nat → File := fun _ => {}

/-- `tmpfs_setsize`; `none` when a page is taken from an empty list. -/
def setsize (i : Inode) (newSize : Int) : Option Inode :=
  let alignedNew := wrap (pageAlign newSize)
  let aligned := wrap (i.iSize + 4095) / 4096 * 4096
  let iSize := wrap newSize
  if aligned < alignedNew then
    let extended := (alignedNew - aligned) / 4096
    some { i with
      pages := i.pages ++ List.range' i.allocated extended
      allocated := i.allocated + extended
      iSize }
  else
    let shrink := (aligned - alignedNew) / 4096
    if shrink ≤ i.pages.length then
      some { i with pages := i.pages.take (i.pages.length - shrink), iSize }
    else none

/-- One call of `memcpy` in the loops over the pages: `len` bytes of a page from `pstart`
on, and the place in the user's buffer. -/
structure Span where
  page : Nat
  pstart : Nat
  iter : Nat
  len : Nat
  deriving DecidableEq, Repr

def span (ppos : Int) (count : Nat) (page p iter : Nat) : Span :=
  let pnext := wrap (p + blocksize)
  let pstart := if p < ppos then (ppos - p).toNat else 0
  let pend := if ppos + count < pnext then wrap (pnext - ppos - count) else 0
  { page, pstart, iter, len := wrap (blocksize - pstart - pend) }

/-- The loop over the pages, which `tmpfs_read_file` and `tmpfs_write_file` share: a page
that is skipped does not move the position. -/
def walkPages (ppos : Int) (count : Nat) : List Nat → Nat → Nat → List Span
  | [], _, _ => []
  | page :: pages, p, iter =>
    if wrap (p + blocksize) < ppos then walkPages ppos count pages p iter
    else if ppos + count ≤ p then []
    else
      span ppos count page p iter ::
        walkPages ppos count pages (wrap (p + blocksize)) (iter + blocksize)

def Span.inside (sp : Span) : Bool := decide (sp.pstart + sp.len ≤ blocksize)

abbrev Out := Nat → Option UInt8

def readSpans (content : Nat → Bytes) : List Span → Out → Out
  | [], out => out
  | sp :: rest, out =>
    readSpans content rest fun x =>
      if sp.iter ≤ x ∧ x < sp.iter + sp.len then some (content sp.page (sp.pstart + (x - sp.iter)))
      else out x

def writeSpans (buf : Bytes) : List Span → (Nat → Bytes) → Nat → Bytes
  | [], content => content
  | sp :: rest, content =>
    writeSpans buf rest (Function.update content sp.page
      ((content sp.page).copy sp.pstart sp.len (buf.view sp.iter)))

def Inode.setPos (i : Inode) (fd : Nat) (fPos : Int) : Inode :=
  { i with files := Function.update i.files fd { i.files fd with fPos } }

/-- `tmpfs_read_file`: what is stored, the inode and the value returned; `none` when a
copy would leave its page. -/
def tmpfsReadFile (i : Inode) (fd count : Nat) (ppos : Int) : Option (Out × Inode × Nat) :=
  let count := wrap (min (wrap (ppos + count)) i.iSize - ppos)
  let spans := walkPages ppos count i.pages (wrap (i.files fd).fPos) 0
  if spans.all Span.inside then
    some (readSpans i.content spans fun _ => none, i.setPos fd (ppos + count), count)
  else none

def tmpfsWriteFile (i : Inode) (fd : Nat) (buf : List UInt8) (ppos : Int) : Option Inode :=
  (if i.iSize < ppos + buf.length then setsize i (ppos + buf.length) else some i).bind fun i =>
    let spans := walkPages ppos buf.length i.pages (wrap (i.files fd).fPos) 0
    if spans.all Span.inside then
      some ({ i with content := writeSpans (fun x => buf.getD x 0) spans i.content }.setPos fd
        (ppos + buf.length))
    else none

inductive Whence where
  | seekSet
  | seekCur
  | seekEnd
  deriving DecidableEq, Repr

def genericFileLlseek (i : Inode) (fd : Nat) (offset : Int) : Whence → Inode
  | .seekSet => i.setPos fd offset
  | .seekCur => i.setPos fd ((i.files fd).fPos + offset)
  | .seekEnd => i.setPos fd (i.iSize + offset)

def ftruncate (i : Inode) (length : Int) : Option Inode :=
  if length = i.iSize then some i else setsize i length

inductive Call where
  | read (fd : Nat) (count : UInt32)
  | write (fd : Nat) (buf : List UInt8)
  | seek (fd : Nat) (offset : Int) (whence : Whence)
  | ftruncate (length : Int)
  deriving DecidableEq, Repr

def writePos (i : Inode) (fd : Nat) : Int :=
  if (i.files fd).append then i.iSize else (i.files fd).fPos

def call (i : Inode) : Call → Option Inode
  | .read fd count =>
    if (i.files fd).canRead then
      (tmpfsReadFile i fd count.toNat (i.files fd).fPos).map fun r => r.2.1
    else some i
  | .write fd buf =>
    if (i.files fd).canWrite then tmpfsWriteFile i fd buf (writePos i fd) else some i
  | .seek fd offset whence => some (genericFileLlseek i fd offset whence)
  | .ftruncate length => ftruncate i length

end Mos.Tmpfs

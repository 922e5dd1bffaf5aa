import Mos.Fs.Ext2Dir
import Mos.Fs.Ext2File

namespace Mos.Readdir
open Machine Memory Ext2

structure Dirent where
  ino : UInt32
  type : UInt8
  name : Name
  deriving DecidableEq, Repr

/-- `d_reclen`: the sixteen bytes before `d_name`, the name and its terminator. -/
def Dirent.reclen (d : Dirent) : Nat := 16 + d.name.length + 1

def sizes (ds : List Dirent) : Nat := (ds.map Dirent.reclen).sum

/-- An entry of `d_subdirs`, with a name that `d_reclen` can count. -/
structure Subdir where
  name : Name
  ino : UInt32
  counted : 16 + name.length + 1 < 2 ^ 16

/-- `d_type` is left as the caller has it, who clears the buffer before. -/
def Subdir.dirent (s : Subdir) : Dirent := { ino := s.ino, type := 0, name := s.name }

/-- An open directory. On ext2 it has an inode, and `behind` is what the heap holds behind the
buffer that the file is read to. -/
inductive Directory where
  | ext2 (v : Volume) (inode : VfsInode) (behind : Bytes)
  | memory (subdirs : List Subdir)

def genericMemoryReaddir (count : Nat) : Nat → List Subdir → List Dirent
  | _, [] => []
  | entriesSize, s :: subdirs =>
    if count < entriesSize + s.dirent.reclen then []
    else s.dirent :: genericMemoryReaddir count (entriesSize + s.dirent.reclen) subdirs

section Ext2
variable (buf : Bytes)

def entryDirent (entry : Nat) : Dirent where
  ino := entryIno buf entry
  type := buf (entry + 7)
  name := (List.range (entryNameLen buf entry)).map fun i => buf (entry + 8 + i)

/-- The loop of `ext2_readdir` from the offset `ibuf - buf` on. It goes on forever when it
has not ended after as many rounds as there are bytes. -/
def readdirFrom (count : Nat) : Nat → Nat → Option (List Dirent)
  | 0, _ => none
  | rounds + 1, ibuf =>
    if ibuf < count then
      (readdirFrom count rounds (ibuf + entryRecLen buf ibuf)).map (entryDirent buf ibuf :: ·)
    else some []

end Ext2

/-- The buffer of `ext2_readdir`, which is cleared before the file is read to it. -/
def readBuffer (behind : Bytes) (count : Nat) (data : List UInt8) : Bytes :=
  (behind.fill 0 count 0).put 0 data

def ext2Readdir (v : Volume) (inode : VfsInode) (behind : Bytes) (fpos count : Nat) :
    Option (List Dirent × Nat) :=
  (ext2ReadFile v inode count fpos).toOption.bind fun data =>
    let buf := readBuffer behind count data
    let count := readCount inode.raw count fpos
    (readdirFrom buf count (count + 1) 0).map fun ds => (ds, fpos + count)

/-- `sys_getdents` at a file position: what is written to the buffer of the caller, and the
position after it; none when the call does not return. -/
def getdents (count fpos : Nat) : Directory → Option (List Dirent × Nat)
  | .ext2 v inode behind => ext2Readdir v inode behind fpos count
  | .memory subdirs => some (genericMemoryReaddir count 0 subdirs, fpos)

/-- A `DIR` and the position of its descriptor. `pending` has the entries from `pos` on, and
`written` how much each call of `getdents` has written, the last one first. -/
structure Dir where
  fpos : Nat := 0
  size : Nat := 0
  pending : List Dirent := []
  written : List Nat := []
  deriving DecidableEq

section Libc
variable (directory : Directory) (len : Nat)

def refill (d : Dir) : Option Dir :=
  (getdents len d.fpos directory).map fun (ds, fpos) =>
    { fpos, size := sizes ds, pending := ds, written := sizes ds :: d.written }

def nextEntry (d : Dir) : Option Dirent × Dir :=
  if d.size = 0 then (none, d)
  else (d.pending.head?, { d with pending := d.pending.tail })

def readdir (d : Dir) : Option (Option Dirent × Dir) :=
  if d.size = 0 ∨ d.pending = [] then (refill directory len d).map nextEntry
  else some (nextEntry d)

/-- Call `readdir` until it returns NULL: the entries that it has returned; none when that
takes more calls than are given. -/
def enumerate : Nat → Dir → Option (List Dirent × Dir)
  | 0, _ => none
  | calls + 1, d =>
    match readdir directory len d with
    | none => none
    | some (none, d) => some ([], d)
    | some (some e, d) => (enumerate calls d).map fun (es, d) => (e :: es, d)

end Libc

end Mos.Readdir

import Mos.Fs.Ext2

namespace Mos.Ext2
open Machine Memory

abbrev Name := List UInt8

def dirRecLen (nameLen : Nat) : Nat := (nameLen + 8 + 3) / 4 * 4

section Entry
variable (buf : Bytes) (entry : Nat)

/-- A directory entry: `ino` at offset 0, `rec_len` at 4, `name_len` at 6, `file_type`
at 7 and `name` at 8. -/
def entryIno : UInt32 := buf.word entry
def entryRecLen : Nat := (buf.half (entry + 4)).toNat
def entryNameLen : Nat := (buf (entry + 6)).toNat

end Entry

def fileType (mode : UInt16) : Except Halt UInt8 :=
  if sIsReg mode then pure 1 else if sIsDir mode then pure 2 else throw .assertNotReached

def putEntry (buf : Bytes) (entry newRecLen : Nat) (ino : UInt32) (type : UInt8) (name : Name) :
    Bytes :=
  let buf := (buf.setWord entry ino).setByte (entry + 7) type
  let buf := buf.setByte (entry + 6) (UInt8.ofNat name.length)
  let buf := buf.put (entry + 8) (name.take (entryNameLen buf entry))
  buf.setHalf (entry + 4) (max (UInt16.ofNat newRecLen) (buf.half (entry + 4)))

/-- The loop of `ext2_add_entry`, which has the buffer as it is written in the end, or
none at `-ENOENT`. `size` is the offset of the entry, too. -/
def addEntryFrom (blocksize : Nat) (ino : UInt32) (mode : UInt16) (name : Name) :
    Nat → Bytes → Nat → Nat → Except Halt (Option Bytes)
  | 0, _, _, _ => throw .loops
  | rounds + 1, buf, size, newRecLen =>
    if size < blocksize then
      if entryIno buf size = 0 ∧
          (entryRecLen buf size = 0 ∨ dirRecLen name.length ≤ entryRecLen buf size) then do
        let type ← fileType mode
        pure (some (putEntry buf size newRecLen ino type name))
      else if dirRecLen name.length + dirRecLen (entryNameLen buf size) < entryRecLen buf size then
        let newRecLen := entryRecLen buf size - dirRecLen (entryNameLen buf size)
        let next := size + dirRecLen (entryNameLen buf size)
        let buf := buf.setHalf (size + 4) (UInt16.ofNat (dirRecLen (entryNameLen buf size)))
        addEntryFrom blocksize ino mode name rounds (buf.fill next newRecLen 0) next newRecLen
      else
        let next := size + entryRecLen buf size
        addEntryFrom blocksize ino mode name rounds buf next (blocksize - next)
    else pure none

/-- A walk through a block goes on forever when it has not ended after as many rounds
as the block has bytes. -/
def walkRounds (v : Volume) : Nat := v.blockSize.toNat + 1

def ext2AddEntry (v : Volume) (block : UInt32) (inode : VfsInode) (name : Name) :
    Except Halt (Option Volume) := do
  let buf ← addEntryFrom v.blockSize.toNat inode.ino inode.mode name (walkRounds v)
    (ext2BreadBlock v block) 0 0
  pure (buf.map (ext2BwriteBlock v block))

def directoryBlock (v : Volume) (dir : VfsInode) (i : Nat) : UInt32 × Volume × VfsInode :=
  if dir.block i = 0 then
    let (block, v) := ext2CreateBlock v
    let dir := { dir with
      raw := dir.raw.setWord (40 + 4 * i) block
      blocks := dir.blocks + 1
      size := dir.size + v.blockSize }
    let (v, dir) := ext2WriteInode v dir
    (block, v, dir)
  else (dir.block i, v, dir)

def createEntryFrom (inode : VfsInode) (name : Name) :
    Nat → Nat → Volume → VfsInode → Except Halt (Bool × Volume × VfsInode)
  | 0, _, _, _ => throw .loops
  | rounds + 1, i, v, dir =>
    if i < dir.blocks.toNat then
      if 12 ≤ i then throw .assertNotReached
      else
        let (block, v, dir) := directoryBlock v dir i
        do
          match ← ext2AddEntry v block inode name with
          | some v => pure (true, v, dir)
          | none => createEntryFrom inode name rounds (i + 1) v dir
    else pure (false, v, dir)

/-- `ext2_create_entry`: whether it returns 0. At the thirteenth block at the latest it
returns or its assertion fails. -/
def ext2CreateEntry (v : Volume) (dir inode : VfsInode) (name : Name) :
    Except Halt (Bool × Volume × VfsInode) :=
  createEntryFrom inode name 13 0 v dir

def takeInode (v : Volume) (mode : UInt16) : UInt32 × Volume :=
  let ino := findUnusedInodeNumber v
  let gdp := ext2GetGroupDesc v (v.groupFromInode ino)
  let v := { v with
    ext2Sb := v.ext2Sb.setWord 16 (v.freeInodesCount - 1)
    given := .inode ino :: v.given }
  let v := ext2WriteSuper v
  let gdp := gdp.setHalf 14 (gdp.half 14 - 1)
  let gdp := if sIsDir mode then gdp.setHalf 16 (gdp.half 16 + 1) else gdp
  let v := ext2WriteGroupDesc v gdp
  let bitmap := ext2BreadBlock v (gdp.word 4)
  (ino, ext2BwriteBlock v (gdp.word 4) (bitmap.setBit (v.relativeInodeInGroup ino).toNat))

def newInode (ino : UInt32) (mode : UInt16) (now : UInt32) : VfsInode :=
  { ino, mode
    nlink := 1
    atime := now
    ctime := now
    mtime := now
    raw := Bytes.setHalf (fun _ => 0) 26 1 }

def dot : Name := [46]
def dotdot : Name := [46, 46]

def dirEntries (buf : Bytes) (blocksize : Nat) (ino parent : UInt32) : Bytes :=
  let c := 0
  let buf := ((buf.setWord c ino).put (c + 8) dot).setByte (c + 6) 1
  let buf := (buf.setHalf (c + 4) (UInt16.ofNat (dirRecLen 1))).setByte (c + 7) 2
  let p := entryRecLen buf c
  let buf := ((buf.setWord p parent).put (p + 8) dotdot).setByte (p + 6) 2
  (buf.setHalf (p + 4) (UInt16.ofNat (blocksize - entryRecLen buf c))).setByte (p + 7) 2

def initDirectory (v : Volume) (dir inode : VfsInode) : Volume × VfsInode :=
  let (block, v) := ext2CreateBlock v
  let inode := { inode with
    raw := inode.raw.setWord 40 block
    blocks := inode.blocks + 1
    size := inode.size + v.blockSize }
  let (v, inode) := ext2WriteInode v inode
  let buf := dirEntries (ext2BreadBlock v block) v.blockSize.toNat inode.ino dir.ino
  (ext2BwriteBlock v block buf, inode)

/-- `ext2_create_inode` at the time `now`: the inode that it returns, or none. -/
def ext2CreateInode (v : Volume) (dir : VfsInode) (name : Name) (mode : UInt16) (now : UInt32) :
    Except Halt (Option VfsInode × Volume × VfsInode) :=
  let (ino, v) := takeInode v mode
  let inode := newInode ino mode now
  if sIsReg mode ∨ sIsDir mode then
    let (v, inode) := if sIsReg mode then (v, inode) else initDirectory v dir inode
    let (v, inode) := ext2WriteInode v inode
    do
      let (found, v, dir) ← ext2CreateEntry v dir inode name
      pure (if found then some inode else none, v, dir)
  else throw .assertNotReached

end Mos.Ext2

import Mos.Fs.Ext2

namespace Mos.Ext2
open Machine Memory

section Span
variable (blocksize ppos count p : Nat)

/-- The bytes of the block at `p` before and behind what is read or written. -/
def spanStart : Nat := if p < ppos then ppos - p else 0

def spanEnd : Nat :=
  if ppos + count < p + blocksize then p + blocksize - ppos - count else 0

def spanLength : Nat := blocksize - spanStart ppos p - spanEnd blocksize ppos count p

end Span

/-- `ext2_read_nth_block`, with what has been copied to the buffer so far and `p`. -/
def ext2ReadNthBlock (v : Volume) (ppos count : Nat) :
    Nat → UInt32 → List UInt8 × Nat → List UInt8 × Nat
  | 0, block, (out, p) =>
    let buf := ext2BreadBlock v block
    let n := spanLength v.blockSize.toNat ppos count p
    (out ++ (List.range n).map (fun i => buf (spanStart ppos p + i)),
      (p + v.blockSize.toNat) % 2 ^ 32)
  | level + 1, block, s =>
    let buf := ext2BreadBlock v block
    (List.range (v.blockSize.toNat / 4)).foldl (fun s i =>
      if s.2 < ppos + count then ext2ReadNthBlock v ppos count level (buf.word (4 * i)) s else s) s

def readFrom (v : Volume) (ei : Bytes) (ppos count : Nat) :
    Nat → List UInt8 × Nat → Except Halt (List UInt8)
  | 0, _ => throw .loops
  | rounds + 1, (out, p) =>
    if p < ppos + count then
      let relativeBlock := p / v.blockSize.toNat
      if relativeBlock < 12 then
        readFrom v ei ppos count rounds
          (ext2ReadNthBlock v ppos count 0 (ei.word (40 + 4 * relativeBlock)) (out, p))
      else if relativeBlock < 268 then
        readFrom v ei ppos count rounds (ext2ReadNthBlock v ppos count 1 (ei.word 88) (out, p))
      else if relativeBlock < 65804 then
        readFrom v ei ppos count rounds (ext2ReadNthBlock v ppos count 2 (ei.word 92) (out, p))
      else if relativeBlock < 16843020 then
        readFrom v ei ppos count rounds (ext2ReadNthBlock v ppos count 3 (ei.word 96) (out, p))
      else throw .assertNotReached
    else pure out

def readCount (ei : Bytes) (count ppos : Nat) : Nat :=
  (min ((ppos + count) % 2 ^ 32) (ei.word 4).toNat + 2 ^ 32 - ppos % 2 ^ 32) % 2 ^ 32

/-- `ext2_read_file`: the bytes that it puts into the buffer, as many as it returns. -/
def ext2ReadFile (v : Volume) (inode : VfsInode) (count ppos : Nat) : Except Halt (List UInt8) :=
  let count := readCount inode.raw count ppos
  readFrom v inode.raw ppos count (count + 2)
    ([], ppos / v.blockSize.toNat * v.blockSize.toNat)

def fileBlock (v : Volume) (inode : VfsInode) (k : Nat) (now : UInt32) :
    UInt32 × Volume × VfsInode :=
  if inode.block k = 0 then
    let (block, v) := ext2CreateBlock v
    let inode := { inode with
      raw := inode.raw.setWord (40 + 4 * k) block
      mtime := now }
    let (v, inode) := ext2WriteInode v inode
    (block, v, inode)
  else (inode.block k, v, inode)

/-- The loop of `ext2_write_file`; `buf` has what is still to be written. -/
def writeFrom (ppos count : Nat) (now : UInt32) :
    Nat → Volume → VfsInode → Nat → List UInt8 → Except Halt (Volume × VfsInode)
  | 0, _, _, _, _ => throw .loops
  | rounds + 1, v, inode, p, buf =>
    if p < ppos + count then
      let relativeBlock := p / v.blockSize.toNat
      if relativeBlock < 12 then
        let (block, v, inode) := fileBlock v inode relativeBlock now
        let n := spanLength v.blockSize.toNat ppos count p
        let v := ext2BwriteBlock v block
          ((ext2BreadBlock v block).put (spanStart ppos p) (buf.take n))
        writeFrom ppos count now rounds v inode ((p + v.blockSize.toNat) % 2 ^ 32) (buf.drop n)
      else throw .assertNotReached
    else pure (v, inode)

def growFile (v : Volume) (inode : VfsInode) (stop : Nat) : Volume × VfsInode :=
  if inode.size.toNat < stop then
    ext2WriteInode v { inode with
      size := UInt32.ofNat stop
      blocks := UInt32.ofNat ((stop + 511) / 512) }
  else (v, inode)

def ext2WriteFile (v : Volume) (inode : VfsInode) (buf : List UInt8) (ppos : Nat) (now : UInt32) :
    Except Halt (Volume × VfsInode) :=
  let (v, inode) := growFile v inode (ppos + buf.length)
  writeFrom ppos buf.length now (buf.length + 2) v inode
    (ppos / v.blockSize.toNat * v.blockSize.toNat) buf

end Mos.Ext2

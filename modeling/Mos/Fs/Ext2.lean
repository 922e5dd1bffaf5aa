import Mos.Machine.BitBytes
import Mos.Memory.Heap

namespace Mos.Ext2
open Machine Memory

inductive Given where
  | block (n : UInt32)
  | inode (n : UInt32)
  deriving DecidableEq, Repr

/-- A mounted file system: the blocks of its device and the superblock in memory.
`given` has the numbers handed out, the latest first; no code reads it. -/
structure Volume where
  dev : Nat → Bytes
  ext2Sb : Bytes
  given : List Given := []

namespace Volume

def blocksCount (v : Volume) : UInt32 := v.ext2Sb.word 4
def freeBlocksCount (v : Volume) : UInt32 := v.ext2Sb.word 12
def freeInodesCount (v : Volume) : UInt32 := v.ext2Sb.word 16
def firstDataBlock (v : Volume) : UInt32 := v.ext2Sb.word 20
def logBlockSize (v : Volume) : UInt32 := v.ext2Sb.word 24
def blocksPerGroup (v : Volume) : UInt32 := v.ext2Sb.word 32
def inodesPerGroup (v : Volume) : UInt32 := v.ext2Sb.word 40
def inodeSize (v : Volume) : UInt16 := v.ext2Sb.half 88

/-- `EXT2_BLOCK_SIZE`, which is also `s_blocksize` once the file system is mounted. -/
def blockSize (v : Volume) : UInt32 := 1024 <<< v.logBlockSize

def groupsPerBlock (v : Volume) : UInt32 := v.blockSize / 32

def inodesPerBlock (v : Volume) : UInt32 := v.blockSize / v.inodeSize.toUInt32

def groupFromInode (v : Volume) (ino : UInt32) : UInt32 := (ino - 1) / v.inodesPerGroup

def relativeInodeInGroup (v : Volume) (ino : UInt32) : UInt32 := (ino - 1) % v.inodesPerGroup

def groupFromBlock (v : Volume) (block : UInt32) : UInt32 :=
  (block - v.firstDataBlock) / v.blocksPerGroup

def relativeBlockInGroup (v : Volume) (block : UInt32) : UInt32 :=
  (block - v.firstDataBlock) % v.blocksPerGroup

end Volume

/-- The block at its own place on the device; `Volume.seen` has what `ext2_bread` makes of
numbers that are too large. -/
def ext2BreadBlock (v : Volume) (block : UInt32) : Bytes := v.dev block.toNat

def ext2BwriteBlock (v : Volume) (block : UInt32) (buf : Bytes) : Volume :=
  { v with dev := Function.update v.dev block.toNat buf }

/-- The block and the offset of a group's descriptor, which has 32 bytes:
`bg_block_bitmap` at offset 0, `bg_inode_bitmap` at 4, `bg_inode_table` at 8,
`bg_free_blocks_count` at 12, `bg_free_inodes_count` at 14 and `bg_used_dirs_count` at 16. -/
def groupDescBlock (v : Volume) (group : UInt32) : UInt32 :=
  v.firstDataBlock + 1 + group / v.groupsPerBlock

def groupDescOffset (v : Volume) (group : UInt32) : Nat := (group % v.groupsPerBlock * 32).toNat

def ext2GetGroupDesc (v : Volume) (group : UInt32) : Bytes :=
  (ext2BreadBlock v (groupDescBlock v group)).view (groupDescOffset v group)

def ext2WriteGroupDesc (v : Volume) (gdp : Bytes) : Volume :=
  let group := v.groupFromBlock (gdp.word 0)
  let buf := ext2BreadBlock v (groupDescBlock v group)
  ext2BwriteBlock v (groupDescBlock v group) (buf.copy (groupDescOffset v group) 32 gdp)

def ext2WriteSuper (v : Volume) : Volume := ext2BwriteBlock v v.firstDataBlock v.ext2Sb

def enospc : UInt32 := 0 - 28

/-- `find_unused_block_number` and `find_unused_inode_number`. -/
def findUnused (v : Volume) (bitmap : Bytes → UInt32) (perGroup starting : UInt32) : UInt32 :=
  let numberOfGroups := divCeil v.blocksCount v.blocksPerGroup
  let found := (List.range numberOfGroups.toNat).findSome? fun group =>
    let gdp := ext2GetGroupDesc v (UInt32.ofNat group)
    ((ext2BreadBlock v (bitmap gdp)).firstClear v.blockSize.toNat).map
      fun n => UInt32.ofNat group * perGroup + UInt32.ofNat n + starting
  found.getD enospc

def findUnusedBlockNumber (v : Volume) : UInt32 :=
  findUnused v (fun gdp => gdp.word 0) v.blocksPerGroup v.firstDataBlock

def findUnusedInodeNumber (v : Volume) : UInt32 :=
  findUnused v (fun gdp => gdp.word 4) v.inodesPerGroup 1

def ext2CreateBlock (v : Volume) : UInt32 × Volume :=
  let block := findUnusedBlockNumber v
  let v := { v with
    ext2Sb := v.ext2Sb.setWord 12 (v.freeBlocksCount - 1)
    given := .block block :: v.given }
  let v := ext2WriteSuper v
  let gdp := ext2GetGroupDesc v (v.groupFromBlock block)
  let gdp := gdp.setHalf 12 (gdp.half 12 - 1)
  let v := ext2WriteGroupDesc v gdp
  let bitmap := ext2BreadBlock v (gdp.word 0)
  let v := ext2BwriteBlock v (gdp.word 0) (bitmap.setBit (v.relativeBlockInGroup block).toNat)
  (block, ext2BwriteBlock v block fun _ => 0)

/-- An inode in memory. `raw` is its `struct ext2_inode` of 128 bytes: `i_mode` at offset
0, `i_uid` at 2, `i_size` at 4, the times at 8, 12 and 16, `i_gid` at 24, `i_links_count`
at 26, `i_blocks` at 28, `i_flags` at 32 and `i_block` at 40, with what follows it in memory. -/
structure VfsInode where
  ino : UInt32
  mode : UInt16 := 0
  nlink : UInt32 := 0
  uid : UInt32 := 0
  gid : UInt32 := 0
  rdev : UInt32 := 0
  atime : UInt32 := 0
  ctime : UInt32 := 0
  mtime : UInt32 := 0
  blocks : UInt32 := 0
  flags : UInt32 := 0
  size : UInt32 := 0
  raw : Bytes

def sIsReg (mode : UInt16) : Bool := mode &&& 0o170000 == 0o100000
def sIsDir (mode : UInt16) : Bool := mode &&& 0o170000 == 0o040000
def sIsChr (mode : UInt16) : Bool := mode &&& 0o170000 == 0o020000

def VfsInode.block (i : VfsInode) (k : Nat) : UInt32 := i.raw.word (40 + 4 * k)

def inodeBlock (v : Volume) (ino : UInt32) : UInt32 :=
  (ext2GetGroupDesc v (v.groupFromInode ino)).word 8 + v.relativeInodeInGroup ino / v.inodesPerBlock

def inodeOffset (v : Volume) (ino : UInt32) : Nat :=
  (v.relativeInodeInGroup ino % v.inodesPerBlock * 128).toNat

def ext2GetInode (v : Volume) (ino : UInt32) : Bytes :=
  (ext2BreadBlock v (inodeBlock v ino)).view (inodeOffset v ino)

def ext2ReadInode (v : Volume) (ino : UInt32) : VfsInode :=
  let raw := ext2GetInode v ino
  { ino
    mode := raw.half 0
    nlink := (raw.half 26).toUInt32
    uid := (raw.half 2).toUInt32
    gid := (raw.half 24).toUInt32
    rdev := if sIsChr (raw.half 0) then raw.word 40 else 0
    atime := raw.word 8
    ctime := raw.word 12
    mtime := raw.word 16
    blocks := raw.word 28
    flags := raw.word 32
    size := raw.word 4
    raw }

/-- What `ext2_write_inode` puts into the `ext2_inode` before it writes it. -/
def VfsInode.stored (i : VfsInode) : Bytes :=
  let ei := (((i.raw.setHalf 0 i.mode).setHalf 24 i.gid.toUInt16).setHalf 2 i.uid.toUInt16)
  let ei := (((ei.setWord 4 i.size).setWord 8 i.atime).setWord 12 i.ctime).setWord 16 i.mtime
  let ei := ((ei.setWord 28 i.blocks).setHalf 26 i.nlink.toUInt16).setWord 32 i.flags
  if sIsChr i.mode then ei.setWord 40 i.rdev else ei

def ext2WriteInode (v : Volume) (i : VfsInode) : Volume × VfsInode :=
  let i := { i with raw := i.stored }
  let buf := ext2BreadBlock v (inodeBlock v i.ino)
  (ext2BwriteBlock v (inodeBlock v i.ino) (buf.copy (inodeOffset v i.ino) 128 i.raw), i)

/-- Where `ext2_bread` and `ext2_bwrite` look for a block: they compute the number of its first
sector with 32 bits. -/
def Volume.deviceBlock (v : Volume) (block : UInt32) : Nat :=
  (block * (v.blockSize / 512)).toNat / (v.blockSize / 512).toNat

/-- The blocks as they are read from the device. -/
def Volume.seen (v : Volume) : Volume :=
  { v with dev := fun b => v.dev (v.deviceBlock (UInt32.ofNat b)) }

/-- `ext2_bwrite` of a block as it is in `w`. -/
def Volume.bwrite (v w : Volume) (block : UInt32) : Volume :=
  { v with dev := Function.update v.dev (v.deviceBlock block) (w.dev block.toNat) }

/-- `ext2_write_inode` and `ext2_write_group_desc` on the device; each writes one block. -/
def Volume.writeInode (v : Volume) (i : VfsInode) : Volume :=
  v.bwrite (ext2WriteInode v.seen i).1 (inodeBlock v.seen i.ino)

def Volume.writeGroupDesc (v : Volume) (gdp : Bytes) : Volume :=
  v.bwrite (ext2WriteGroupDesc v.seen gdp) (groupDescBlock v (v.groupFromBlock (gdp.word 0)))

end Mos.Ext2

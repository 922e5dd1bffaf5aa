import Mos.Fs.Ext2Dir
import Mos.Fs.Ext2File

namespace Mos.Ext2
open Machine Memory

structure Session where
  volume : Volume
  nodes : List VfsInode := []

/-- An inode is read from the disk, a file or a directory is created in a directory, or a
file is written to. -/
inductive Op where
  | load (ino : UInt32)
  | create (dir : Nat) (name : Name) (mode : UInt16) (now : UInt32)
  | write (file : Nat) (buf : List UInt8) (ppos : Nat) (now : UInt32)
  deriving DecidableEq, Repr

def perform (s : Session) : Op → Option Session
  | .load ino => some { s with nodes := s.nodes ++ [ext2ReadInode s.volume ino] }
  | .create dir name mode now =>
    match s.nodes[dir]? with
    | none => none
    | some d =>
      match ext2CreateInode s.volume d name mode now with
      | .error _ => none
      | .ok (inode, v, d) => some { volume := v, nodes := s.nodes.set dir d ++ inode.toList }
  | .write file buf ppos now =>
    match s.nodes[file]? with
    | none => none
    | some inode =>
      match ext2WriteFile s.volume inode buf ppos now with
      | .error _ => none
      | .ok (v, inode) => some { volume := v, nodes := s.nodes.set file inode }

end Mos.Ext2

import Mos.Fs.Files

namespace Mos.Namei
open Fs (System FilesStruct FileOperations)

abbrev Name := List Char

def pathMax : Nat := 4096

def oRdonly : UInt32 := 0
def oRdwr : UInt32 := 2
def oCreat : UInt32 := 0o1000
def oExcl : UInt32 := 0o4000
def atRemovedir : UInt32 := 8
def rOk : UInt32 := 4
def wOk : UInt32 := 2

def sIfmt : UInt32 := 0o170000
def sIfsock : UInt32 := 0o140000
def sIfreg : UInt32 := 0o100000
def sIfdir : UInt32 := 0o40000
def sIfchr : UInt32 := 0o20000

def enoent : Int := 2
def eacces : Int := 13
def eexist : Int := 17
def exdev : Int := 18
def enotdir : Int := 20
def eisdir : Int := 21
def enotempty : Int := 39

/-- The fields of `struct vfs_inode` that are read here. A superblock is a number. -/
structure Inode where
  iSb : Nat
  iIno : Nat
  iMode : UInt32 := 0
  iRdev : Nat := 0
  iSize : Nat := 0
  deriving DecidableEq, Repr

def Inode.is (i : Inode) (kind : UInt32) : Bool := i.iMode &&& sIfmt = kind

/-- The operations that the inodes of the mounted file systems have, over the state `F` of
these; `none` is a null pointer in `i_op` or `i_fop`. A rename also tells whether it has put
the new dentry into the list of its parent. -/
structure Driver (F : Type) where
  lookup : Inode → Option (F → Name → Option Inode)
  create : Inode → Option (F → Name → UInt32 → F × Option Inode)
  unlink : Inode → Option (F → Name → F × Int)
  rename : Inode → Option (F → Name → Inode → Name → F × Int × Bool)
  fop : Inode → Option FileOperations

/-- `struct vfs_dentry`, with numbers for the dentries and the inode objects it points to. -/
structure Dentry where
  dName : Name
  dParent : Option Nat
  dInode : Option Nat
  dSubdirs : List Nat := []
  deriving DecidableEq, Repr

/-- The dentries and inode objects allocated so far, and the mount points. -/
structure Vfs (F : Type) where
  dentry : Nat → Dentry
  dentries : Nat
  inode : Nat → Inode
  inodes : Nat
  mounts : List Nat := []
  fs : F

/-- `struct nameidata`; a mount is given by its mount point, which is also its root. -/
structure Nameidata where
  mnt : Nat
  dentry : Nat
  deriving DecidableEq, Repr

structure Proc where
  pid : Nat := 0
  dRoot : Nat := 0
  mntRoot : Nat := 0
  deriving DecidableEq, Repr

variable {F : Type} (D : Driver F) (p : Proc)

namespace Vfs

variable (v : Vfs F)

def dInode (d : Nat) : Option Inode := (v.dentry d).dInode.map v.inode

def child (d : Nat) (part : Name) : Option Nat :=
  (v.dentry d).dSubdirs.find? fun c => decide ((v.dentry c).dName = part)

def listAdd (parent d : Nat) : Vfs F :=
  { v with
    dentry := Function.update v.dentry parent
      { v.dentry parent with dSubdirs := (v.dentry parent).dSubdirs ++ [d] } }

/-- `list_del(&dentry->d_sibling)`; a second one does nothing. -/
def listDel (d : Nat) : Vfs F :=
  match (v.dentry d).dParent with
  | none => v
  | some parent =>
    { v with
      dentry := Function.update v.dentry parent
        { v.dentry parent with dSubdirs := (v.dentry parent).dSubdirs.filter (· ≠ d) } }

def allocDentry (parent : Nat) (dName : Name) (dInode : Option Nat) : Vfs F :=
  { v with
    dentry := Function.update v.dentry v.dentries { dName, dParent := some parent, dInode }
    dentries := v.dentries + 1 }

def allocInode : Option Inode → Vfs F × Option Nat
  | none => (v, none)
  | some i =>
    ({ v with inode := Function.update v.inode v.inodes i, inodes := v.inodes + 1 }, some v.inodes)

def link (parent : Nat) (part : Name) (i : Option Inode) : Vfs F :=
  let (v', object) := v.allocInode i
  (v'.allocDentry parent part object).listAdd parent v.dentries

def arrive (nd : Nameidata) (d : Nat) : Nameidata :=
  { mnt := if d ∈ v.mounts then d else nd.mnt, dentry := d }

end Vfs

/-- The loop of `path_walk` over the parts of the path: the state, the value returned and
what `nd` points to. It is undefined when a part does not fit into its buffer and when a null
pointer is followed or called. -/
def walk (flags mode : UInt32) (v : Vfs F) (nd : Nameidata) :
    List Name → Option (Vfs F × Int × Nameidata)
  | [] => some (v, 0, nd)
  | part :: rest =>
    let creates := rest = [] ∧ flags &&& oCreat ≠ 0
    if 256 ≤ part.length then none
    else
      match v.child nd.dentry part with
      | some d =>
        if creates ∧ flags &&& oExcl ≠ 0 then some (v, -eexist, { nd with dentry := d })
        else walk flags mode v (v.arrive nd d) rest
      | none =>
        match v.dInode nd.dentry with
        | none => none
        | some dir =>
          match (D.lookup dir).bind fun lookup => lookup v.fs part with
          | some i =>
            if creates ∧ flags &&& oExcl ≠ 0 then some (v, -eexist, nd)
            else
              walk flags mode (v.link nd.dentry part (some i)) (v.arrive nd v.dentries) rest
          | none =>
            if creates then
              match D.create dir with
              | none => none
              | some create =>
                let (fs, i) := create v.fs part mode
                let v := { v with fs }
                walk flags mode (v.link nd.dentry part i) (v.arrive nd v.dentries) rest
            else some (v, -enoent, nd)

def parts (path : List Char) : List Name := (path.splitOn '/').filter (· ≠ [])

def pathWalk (v : Vfs F) (path : List Char) (flags mode : UInt32) :
    Option (Vfs F × Int × Nameidata) :=
  let start := if path.head? = some '/' then p.mntRoot else p.dRoot
  walk D flags mode v { mnt := p.mntRoot, dentry := start } (parts path)

/-- How `path_walk` ends, with its buffer `part_name` in sight. -/
inductive PathWalk (F : Type) where
  | returned (v : Vfs F) (ret : Int) (nd : Nameidata)
  /-- A null pointer is followed, or the part has no end in the buffer. -/
  | undefined
  /-- A byte is stored behind the 256 bytes of the buffer. -/
  | overflow

/-- What follows a round of the loop. -/
def PathWalk.round (next : Vfs F → Nameidata → PathWalk F) :
    Option (Vfs F × Int × Nameidata) → PathWalk F
  | none => .undefined
  | some (v, ret, nd) => if ret < 0 then .returned v ret nd else next v nd

/-- The loops of `path_walk` over the bytes of the path; the buffer holds `part` by now. A part
is looked up as soon as it is copied; the flags count for the last one only. -/
def walkChars (flags mode : UInt32) : List Char → Name → Vfs F → Nameidata → PathWalk F
  | [], part, v, nd =>
    if part = [] then .returned v 0 nd
    else .round (fun v nd => .returned v 0 nd) (walk D flags mode v nd [part])
  | c :: path, part, v, nd =>
    if c ≠ '/' then
      if part.length < 256 then walkChars flags mode path (part ++ [c]) v nd else .overflow
    else if part = [] then walkChars flags mode path [] v nd
    else
      .round (walkChars flags mode path [])
        (walk D (if path.all (· == '/') then flags else oRdonly) mode v nd [part])

def walkStart (path : List Char) : Nameidata :=
  { mnt := p.mntRoot, dentry := if path.head? = some '/' then p.mntRoot else p.dRoot }

/-- `path_walk` with these loops; `int length` is negative for a path of 2 ^ 31 bytes or more. -/
def pathWalkCopied (v : Vfs F) (path : List Char) (flags mode : UInt32) : PathWalk F :=
  if path.length < 2 ^ 31 then walkChars D flags mode path [] v (walkStart p path)
  else .returned v 0 (walkStart p path)

/-- `vfs_build_path_backward`, with a bound on the depth of the tree. -/
def vfsBuildPathBackward (v : Vfs F) : Nat → Nat → Option (List Char)
  | 0, _ => none
  | fuel + 1, d =>
    match (v.dentry d).dParent with
    | none => some ['/']
    | some parent =>
      (vfsBuildPathBackward v fuel parent).map fun path =>
        if path.getLast? = some '/' then path ++ (v.dentry d).dName
        else path ++ '/' :: (v.dentry d).dName

/-- `absolutize_path_from_process`; a path that does not fit into its buffer is undefined. -/
def absolutizePathFromProcess (v : Vfs F) (path : List Char) : Option (List Char) :=
  if path.head? = some '/' then some path
  else
    (vfsBuildPathBackward v (v.dentries + 1) p.dRoot).bind fun dir =>
      if dir.length + 1 + path.length < pathMax then some (dir ++ '/' :: path) else none

def atFdcwd : Int := -2

def strcpy (_buffer src : List Char) : List Char := src

/-- `interpret_path_from_fd` of `sysapi.c`: the path, or the number it returns. `files` has the
dentry of each open file of the process. -/
def interpretPathFromFd (v : Vfs F) (files : Int → Option Nat) (dirfd : Int) (path : List Char) :
    Option (Except Int (List Char)) :=
  if path.head? = some '/' ∨ dirfd = atFdcwd then some (.ok path)
  else
    match files dirfd with
    | none => some (.error (-Fs.ebadf))
    | some d =>
      match v.dInode d with
      | none => none
      | some i =>
        if i.iMode &&& sIfdir = 0 then some (.error (-enotdir))
        else
          (vfsBuildPathBackward v (v.dentries + 1) d).bind fun dir =>
            if dir.length < pathMax ∧ path.length < pathMax then
              some (.ok (strcpy (strcpy dir ['/']) path))
            else none

structure Kernel (F : Type) where
  vfs : Vfs F
  sys : System

def Kernel.table (k : Kernel F) : Option FilesStruct := (k.sys.procs[p.pid]?).join

def vfsOpen (k : Kernel F) (path : List Char) (flags : UInt32) :
    Option (Kernel F × Int × Nameidata) :=
  match k.table p, pathWalk D p k.vfs path flags 0 with
  | some t, some (v, ret, nd) =>
    if ret < 0 then some ({ k with vfs := v }, ret, nd)
    else
      (v.dInode nd.dentry).map fun i =>
        let (sys, fd) := Fs.vfsOpen k.sys p.pid t { ret, iFop := D.fop i } flags
        ({ vfs := v, sys }, fd, nd)
  | _, _ => none

theorem slot_lt {fd : Int} (h : 0 ≤ fd ∧ fd < 256) : fd.toNat < 256 := by
  omega

/-- `vfs_close`. A number outside the table is not checked: what is then read, taken for a
null pointer here, and cleared lies beside the table. -/
def vfsClose (k : Kernel F) (fd : Int) : Option (Kernel F × Int) :=
  (k.table p).map fun t =>
    if h : 0 ≤ fd ∧ fd < 256 then
      let (sys, ret) := Fs.vfsClose k.sys p.pid t ⟨fd.toNat, slot_lt h⟩
      ({ k with sys }, ret)
    else (k, -Fs.ebadf)

/-- The body of `vfs_unlink` once the path is open in slot `fd`: the number that is then
closed. -/
def unlinkOpened (v : Vfs F) (d : Nat) (flag : UInt32) (fd : Int) : Option (Vfs F × Int) :=
  match v.dInode d with
  | none => none
  | some i =>
    if flag &&& atRemovedir ≠ 0 ∧ i.iMode &&& sIfreg ≠ 0 then some (v, -enotdir)
    else
      match (v.dentry d).dParent.bind v.dInode with
      | none => none
      | some dir =>
        match D.unlink dir with
        | none => some (v.listDel d, fd)
        | some unlink =>
          let (fs, ret) := unlink v.fs (v.dentry d).dName
          some ({ v with fs }.listDel d, ret)

def vfsUnlink (k : Kernel F) (path : List Char) (flag : UInt32) : Option (Kernel F × Int) := do
  let path ← absolutizePathFromProcess p k.vfs path
  let (k, fd, nd) ← vfsOpen D p k path oRdonly
  if fd < 0 then some (k, fd)
  else
    let (v, ret) ← unlinkOpened D k.vfs nd.dentry flag fd
    let (k, _) ← vfsClose p { k with vfs := v } ret
    some (k, ret)

/-- What `vfs_rename` returns early when the new path exists; `none` when it goes on. -/
def renameRefused (old new : Inode) (sameObject : Bool) : Option Int :=
  if !old.is sIfdir && new.is sIfdir then some (-eisdir)
  else if old.is sIfdir && !new.is sIfdir then some (-enotdir)
  else if (old.is sIfreg == new.is sIfreg && old.iIno == new.iIno) ||
      (old.is sIfchr == new.is sIfchr && old.iRdev == new.iRdev) ||
      (old.is sIfsock == new.is sIfsock && sameObject) then some 0
  else if old.is sIfdir && new.is sIfdir && decide (0 < new.iSize) then some (-enotempty)
  else none

/-- `strlsplat` at the last slash. -/
def splitLast (path : List Char) : List Char × Name :=
  let name := (path.reverse.takeWhile (· ≠ '/')).reverse
  (path.take (path.length - name.length - 1), name)

def renameEntry (v : Vfs F) (old nd : Nameidata) (filename : Name) (new : Nat) :
    Option (Vfs F × Int) :=
  if old.mnt ≠ nd.mnt then some (v, -exdev)
  else do
    let oldDir ← (v.dentry old.dentry).dParent.bind v.dInode
    match D.rename oldDir with
    | none => some (v, 0)
    | some rename =>
      let newDir ← v.dInode nd.dentry
      let (fs, ret, linked) := rename v.fs (v.dentry old.dentry).dName newDir filename
      let v := { v with fs }
      some (if linked then v.listAdd nd.dentry new else v, ret)

def renameInto (k : Kernel F) (old : Nameidata) (oldpath newpath : List Char) :
    Option (Kernel F × Int) := do
  let (dirpath, filename) := splitLast newpath
  let (v, ret, nd) ← pathWalk D p k.vfs (if dirpath = [] then ['/'] else dirpath) oRdonly sIfdir
  if ret < 0 then some ({ k with vfs := v }, -enoent)
  else
    let new := v.allocDentry nd.dentry filename (v.dentry old.dentry).dInode
    let (v, ret) ← renameEntry D new old nd filename v.dentries
    if ret < 0 then some ({ k with vfs := v }, ret)
    else
      let (k, _) ← vfsUnlink D p { k with vfs := v } oldpath 0
      some ({ k with vfs := k.vfs.listDel old.dentry }, ret)

def vfsRename (k : Kernel F) (oldpath newpath : List Char) : Option (Kernel F × Int) := do
  let oldpath ← absolutizePathFromProcess p k.vfs oldpath
  let newpath ← absolutizePathFromProcess p k.vfs newpath
  let (k, oldfd, old) ← vfsOpen D p k oldpath oRdonly
  if oldfd < 0 then some (k, oldfd)
  else
    let _ ← (k.vfs.dentry old.dentry).dParent
    let (k, newfd, new) ← vfsOpen D p k newpath oRdonly
    if newfd < 0 then renameInto D p k old oldpath newpath
    else
      let oldInode ← k.vfs.dInode old.dentry
      let newInode ← k.vfs.dInode new.dentry
      let sameObject :=
        (k.vfs.dentry old.dentry).dInode == (k.vfs.dentry new.dentry).dInode
      match renameRefused oldInode newInode sameObject with
      | some ret => some (k, ret)
      | none =>
        let (k, _) ← vfsUnlink D p k newpath 0
        renameInto D p k old oldpath newpath

def vfsMkdir (k : Kernel F) (path : List Char) (mode : UInt32) : Option (Kernel F × Int) := do
  let (k, ret, _) ← vfsOpen D p k path oRdonly
  if ret ≤ 0 ∧ ret ≠ -enoent then some (k, ret)
  else if 0 ≤ ret then some (k, -eexist)
  else
    let (v, ret, _) ← pathWalk D p k.vfs path oCreat (mode ||| sIfdir)
    some ({ k with vfs := v }, ret)

/-- `R_OK || W_OK || X_OK || F_OK`, which is 1. -/
def accessModes : UInt32 := 1

/-- The absolute path that `vfs_access` builds and never uses fits into its buffer, which
then receives the relative path itself. -/
def accessFits (v : Vfs F) (path : List Char) : Bool :=
  path.head? == some '/' ||
    (vfsBuildPathBackward v (v.dentries + 1) p.dRoot).any fun dir =>
      decide (dir.length < pathMax) && decide (path.length < pathMax)

def Kernel.fMode (k : Kernel F) (fd : Nat) : Option UInt32 :=
  (k.table p).bind fun t => t.fd[fd]?.join.map fun id => (k.sys.files id).fMode

def vfsAccess (k : Kernel F) (path : List Char) (amode : UInt32) : Option (Kernel F × Int) :=
  if amode &&& ~~~accessModes ≠ 0 then some (k, -Fs.einval)
  else if accessFits p k.vfs path = false then none
  else do
    let (k, fd, _) ← vfsOpen D p k path oRdwr
    if fd < 0 then some (k, -enoent)
    else
      let fMode ← k.fMode p fd.toNat
      if ¬(amode &&& rOk ≠ 0 ∧ fMode &&& Fs.fmodeCanRead ≠ 0) ∨
          ¬(amode &&& wOk ≠ 0 ∧ fMode &&& Fs.fmodeCanWrite ≠ 0) then
        some (k, -eacces)
      else vfsClose p k fd

end Mos.Namei

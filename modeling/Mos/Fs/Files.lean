import Mathlib

namespace Mos.Fs

/-- The operations of a file that matter here, each with the value it returns;
`none` is a null pointer. -/
structure FileOperations where
  openRet : Option Int
  release : Option Int
  deriving DecidableEq, Repr

/-- `struct vfs_file`. An `int` cannot overflow as `f_count`: there are not that many
slots in the address space. `released` counts the runs of the release operation and
`freed` the calls of `kfree`. -/
structure VfsFile where
  fOp : Option FileOperations := none
  fCount : Int := 0
  fFlags : UInt32 := 0
  fMode : UInt32 := 0
  released : Nat := 0
  freed : Nat := 0
  deriving DecidableEq, Repr

/-- `struct files_struct`; a slot holds the number of the file it points to. -/
structure FilesStruct where
  fd : Vector (Option Nat) 256 := .replicate 256 none

/-- The tables of the processes that have not exited, by `pid`, and the files opened
so far. -/
structure System where
  procs : List (Option FilesStruct) := [some {}]
  files : Nat → VfsFile := fun _ => {}
  opened : Nat := 0

def ebadf : Int := 9
def einval : Int := 22
def emfile : Int := 24

/-- `find_unused_fd_slot`; `none` is `-EINVAL`. -/
def findUnusedFdSlot (t : FilesStruct) (lowerlimit : Nat) : Option (Fin 256) :=
  (List.finRange 256).find? fun i => decide (lowerlimit ≤ i) && (t.fd.get i).isNone

def getEmptyFilp : VfsFile := { fCount := 1 }

/-- What `path_walk` returns, and `i_fop` of the inode it arrives at. -/
structure Walk where
  ret : Int
  iFop : Option FileOperations
  deriving DecidableEq, Repr

def fmodeRead : UInt32 := 0x1
def fmodeWrite : UInt32 := 0x2
def fmodeCanRead : UInt32 := 0x20000
def fmodeCanWrite : UInt32 := 0x40000

def openFmode (flag : UInt32) : UInt32 := (flag + 1) &&& 3

def openFile (walk : Walk) (flags : UInt32) : VfsFile :=
  let mode := openFmode flags
  let mode := if mode &&& fmodeRead ≠ 0 then mode ||| fmodeCanRead else mode
  let mode := if mode &&& fmodeWrite ≠ 0 then mode ||| fmodeCanWrite else mode
  { getEmptyFilp with fOp := walk.iFop, fFlags := flags, fMode := mode }

/-- What `vfs_open` returns when it fails. The object it frees when the operation
`open` fails was in no slot yet. -/
def openFails (walk : Walk) : Option Int :=
  if walk.ret < 0 then some walk.ret
  else
    match walk.iFop.bind FileOperations.openRet with
    | some ret => if ret < 0 then some ret else none
    | none => none

def setSlot (t : FilesStruct) (fd : Fin 256) (slot : Option Nat) : FilesStruct :=
  { fd := t.fd.set fd slot }

variable (s : System) (pid : Nat) (t : FilesStruct)

/-- `current_process->files->fd[fd] = slot`, where `t` is the table of process `pid`. -/
def install (fd : Fin 256) (slot : Option Nat) : System :=
  { s with procs := s.procs.set pid (some (setSlot t fd slot)) }

/-- Without a free slot the pointer is written to `fd[-EINVAL]`, outside the table. -/
def vfsOpen (walk : Walk) (flags : UInt32) : System × Int :=
  match openFails walk with
  | some ret => (s, ret)
  | none =>
    let s' := { s with
      files := Function.update s.files s.opened (openFile walk flags)
      opened := s.opened + 1 }
    match findUnusedFdSlot t 0 with
    | some fd => (install s' pid t fd (some s.opened), fd)
    | none => (s', -einval)

def VfsFile.hasRelease (f : VfsFile) : Bool := (f.fOp.bind FileOperations.release).isSome

def VfsFile.destroy (f : VfsFile) : VfsFile :=
  { f with
    released := if f.hasRelease then f.released + 1 else f.released
    freed := f.freed + 1 }

def vfsClose (fd : Fin 256) : System × Int :=
  match t.fd.get fd with
  | none => (install s pid t fd none, -ebadf)
  | some id =>
    let file := { s.files id with fCount := (s.files id).fCount - 1 }
    if file.fCount = 0 then
      (install { s with files := Function.update s.files id file.destroy } pid t fd none,
        (file.fOp.bind FileOperations.release).getD 0)
    else (install { s with files := Function.update s.files id file } pid t fd none, 0)

/-- The commands of `do_fcntl` that are implemented. -/
inductive Fcntl where
  | dupfd (arg : Nat)
  | getfd
  | setfd (arg : UInt32)
  | getfl
  | setfl (arg : UInt32)
  deriving DecidableEq, Repr

def doFcntl (fd : Fin 256) (cmd : Fcntl) : System × Int :=
  match t.fd.get fd with
  | none => (s, -ebadf)
  | some id =>
    match cmd with
    | .dupfd arg =>
      match findUnusedFdSlot t arg with
      | none => (s, -emfile)
      | some ret => (install s pid t ret (some id), ret)
    | .getfd => (s, (s.files id).fFlags.toInt32.toInt)
    | .setfd arg => ({ s with files := Function.update s.files id { s.files id with fFlags := arg } }, 0)
    | .getfl => (s, (s.files id).fMode.toInt32.toInt)
    | .setfl arg => ({ s with files := Function.update s.files id { s.files id with fMode := arg } }, 0)

def sysDup2 (oldfd newfd : Fin 256) : System × Int := (install s pid t newfd (t.fd.get oldfd), newfd)

/-- The loop of `clone_file_descriptor_table` over the slots of the parent. -/
def cloneFileDescriptorTable (files : Nat → VfsFile) : List (Option Nat) → Nat → VfsFile
  | [] => files
  | none :: slots => cloneFileDescriptorTable files slots
  | some id :: slots =>
    cloneFileDescriptorTable
      (Function.update files id { files id with fCount := (files id).fCount + 1 }) slots

/-- `sys_fork`, which returns the child's `pid` to the parent. -/
def sysFork : System × Int :=
  ({ s with
      procs := s.procs ++ [some t]
      files := cloneFileDescriptorTable s.files t.fd.toList },
    s.procs.length)

/-- The loop of `exit_files`. It tests `f_op->release` without testing `f_op`: `none`
is the fault. -/
def exitFiles (files : Nat → VfsFile) : List (Option Nat) → Option (Nat → VfsFile)
  | [] => some files
  | none :: slots => exitFiles files slots
  | some id :: slots =>
    if (files id).fCount = 1 then
      match (files id).fOp with
      | none => none
      | some op =>
        if op.release.isSome then exitFiles (Function.update files id (files id).destroy) slots
        else exitFiles files slots
    else exitFiles files slots

/-- `do_exit`, after which the process and its table are gone. -/
def doExit : Option System :=
  (exitFiles s.files t.fd.toList).map fun files => { s with procs := s.procs.set pid none, files }

inductive Call where
  | open (walk : Walk) (flags : UInt32)
  | close (fd : Fin 256)
  | fcntl (fd : Fin 256) (cmd : Fcntl)
  | dup2 (oldfd newfd : Fin 256)
  | fork
  | exit
  deriving DecidableEq, Repr

def invoke (s : System) : Nat × Call → Option System
  | (pid, call) =>
    match s.procs[pid]? with
    | some (some t) =>
      match call with
      | .open walk flags => some (vfsOpen s pid t walk flags).1
      | .close fd => some (vfsClose s pid t fd).1
      | .fcntl fd cmd => some (doFcntl s pid t fd cmd).1
      | .dup2 oldfd newfd => some (sysDup2 s pid t oldfd newfd).1
      | .fork => some (sysFork s t).1
      | .exit => doExit s pid t
    | _ => none

/-- The table of a process, with what has been stored beside it, by the index. -/
structure Descriptors where
  table : FilesStruct
  beside : List (Int × Nat) := []

namespace Descriptors

def unused (t : FilesStruct) : Int :=
  match findUnusedFdSlot t 0 with
  | some i => i.val
  | none => -einval

def store (d : Descriptors) (fd : Int) (file : Nat) : Descriptors :=
  if h : 0 ≤ fd ∧ fd < 256 then
    { d with table := setSlot d.table ⟨fd.toNat, by omega⟩ (some file) }
  else { d with beside := (fd, file) :: d.beside }

def vfsOpen (d : Descriptors) (walk : Walk) (file : Nat) : Descriptors × Int :=
  let fd := unused d.table
  match openFails walk with
  | some ret => (d, ret)
  | none => (d.store fd file, fd)

/-- `do_pipe` of the files `f1` and `f2`, with the numbers that it stores for the caller. -/
def doPipe (d : Descriptors) (f1 f2 : Nat) : Descriptors × Int × Int × Int :=
  let ufd1 := unused d.table
  let d := d.store ufd1 f1
  let ufd2 := unused d.table
  (d.store ufd2 f2, 0, ufd1, ufd2)

end Descriptors

end Mos.Fs

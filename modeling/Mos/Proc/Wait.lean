import Mos.Ipc.Signal

namespace Mos.Proc
open Signal

def wnohang : UInt32 := 0x1
def wuntraced : UInt32 := 0x2
def wstopped : UInt32 := wuntraced
def wexited : UInt32 := 0x4
def wcontinued : UInt32 := 0x8

def cldExited : UInt32 := 1
def cldKilled : UInt32 := 2
def cldDumped : UInt32 := 3
def cldStopped : UInt32 := 5
def cldContinued : UInt32 := 6

def wsexited : UInt32 := 0x0001
def wssignaled : UInt32 := 0x0002
def wscoredump : UInt32 := 0x0004
def wsstopped : UInt32 := 0x0008
def wscontinued : UInt32 := 0x0010

def echild : Int := 10

def sigKernelCoredump (sig : Nat) : Bool := siginmask sig sigKernelCoredumpMask

inductive IdType where
  | all
  | pid
  | pgid
  deriving DecidableEq, Repr

/-- `struct infop`; `si_signo` is always `SIGCHLD`. -/
structure Infop where
  siPid : Int
  siStatus : Int
  siCode : UInt32
  deriving DecidableEq, Repr

structure WaitCall where
  idtype : IdType
  id : Int
  options : UInt32
  deriving DecidableEq, Repr

inductive WaitResult where
  | returned (ret : Int) (infop : Option Infop)
  | sleeps
  deriving DecidableEq, Repr

def WaitCall.selects (c : WaitCall) (s : Kernel) (pid : Int) : Bool :=
  match c.idtype with
  | .all => true
  | .pid => pid == c.id
  | .pgid => (s.proc pid).gid == c.id

def available (options : UInt32) (p : Process) : Bool :=
  (options &&& wexited != 0 &&
      (p.flags &&& signalTerminated != 0 || p.flags &&& exitTerminated != 0)) ||
    (options &&& wstopped != 0 && p.flags &&& signalStoped != 0) ||
    (options &&& wcontinued != 0 && p.flags &&& signalContinued != 0)

def findChild (s : Kernel) (parent : Int) (c : WaitCall) : Option Int :=
  (s.proc parent).children.find? fun pid => c.selects s pid && available c.options (s.proc pid)

def childExist (s : Kernel) (parent : Int) (c : WaitCall) : Bool :=
  (s.proc parent).children.any (c.selects s)

/-- What `do_wait` says of a child. A flag for stopping or continuing hides that the child
has ended. -/
def childStatus (pid : Int) (p : Process) : Infop :=
  if p.flags &&& signalStoped ≠ 0 then ⟨pid, p.causedSignal, cldStopped⟩
  else if p.flags &&& signalContinued ≠ 0 then ⟨pid, p.causedSignal, cldContinued⟩
  else if p.flags &&& signalTerminated ≠ 0 then
    ⟨pid, p.causedSignal, if sigKernelCoredump p.causedSignal then cldDumped else cldKilled⟩
  else ⟨pid, p.exitCode, cldExited⟩

def inWaitChld (waiting : Bool) (p : Process) : Process := { p with waitChld := waiting }

def unlink (pid : Int) (p : Process) : Process :=
  { p with children := p.children.erase pid }

/-- A round of the loop in `do_wait`, with what follows when it is left. `child_exist` can
only be seen when the loop is left in its first round. -/
def doWaitRound (s : Kernel) (c : WaitCall) : Kernel × WaitResult :=
  match findChild s s.current c with
  | some pid =>
    ((s.modify s.current (inWaitChld false)).modify s.current (unlink pid),
      .returned 1 (some (childStatus pid (s.proc pid))))
  | none =>
    if c.options &&& wnohang ≠ 0 then
      (s.modify s.current (inWaitChld false),
        .returned (if childExist s s.current c then 0 else -echild) none)
    else (s.modify s.current (updateThread .waiting), .sleeps)

def doWait (s : Kernel) (c : WaitCall) : Kernel × WaitResult :=
  doWaitRound (s.modify s.current (inWaitChld true)) c

def waitpidCall (s : Kernel) (pid : Int) (options : UInt32) : WaitCall :=
  let options := if options &&& wuntraced ≠ 0 then
    (options &&& ~~~wuntraced) ||| (wexited ||| wstopped) else options
  if pid < -1 then ⟨.pgid, -pid, options⟩
  else if pid = -1 then ⟨.all, pid, options⟩
  else if pid = 0 then ⟨.pgid, (s.proc s.current).gid, options⟩
  else ⟨.pid, pid, options⟩

/-- The status that `sys_waitpid` stores; `none` when it stores nothing. -/
def wstatus (i : Infop) : Option UInt32 :=
  let status := UInt32.ofInt i.siStatus <<< 8
  if i.siCode &&& cldExited ≠ 0 then some (wsexited ||| status)
  else if i.siCode &&& cldKilled ≠ 0 ∨ i.siCode &&& cldDumped ≠ 0 then
    let w := if i.siCode &&& cldKilled ≠ 0 then wssignaled ||| status else wssignaled
    some (if i.siCode &&& cldDumped ≠ 0 then w ||| wscoredump else w)
  else if i.siCode &&& cldStopped ≠ 0 then some (wsstopped ||| status)
  else if i.siCode &&& cldContinued ≠ 0 then some wscontinued
  else none

/-- What a program sees of `sys_waitpid`, with the status it stores; `none` when the
caller sleeps. -/
def sysWaitpid (s : Kernel) (pid : Int) (options : UInt32) : Option (Int × Option UInt32) :=
  match (doWait s (waitpidCall s pid options)).2 with
  | .sleeps => none
  | .returned ret none => some (ret, none)
  | .returned ret (some i) => if ret ≤ 0 then some (ret, none) else some (i.siPid, wstatus i)

section Macros
variable (wstatus : UInt32)

def logicalAnd (a b : UInt32) : UInt32 := if a ≠ 0 ∧ b ≠ 0 then 1 else 0

def wifexited : UInt32 := wstatus &&& wsexited
def wexitstatus : UInt32 := logicalAnd (wifexited wstatus) (wstatus >>> 8 &&& 0xff)
def wifsignaled : UInt32 := wstatus &&& wssignaled
def wtermsig : UInt32 := logicalAnd (wifsignaled wstatus) (wstatus >>> 8 &&& 0xff)
def wcoredump : UInt32 := logicalAnd (logicalAnd (wifsignaled wstatus) wstatus) wscoredump
def wifstopped : UInt32 := wstatus &&& wsstopped
def wstopsig : UInt32 := logicalAnd (wifstopped wstatus) (wstatus >>> 8 &&& 0xff)
def wifcontinued : UInt32 := wstatus &&& wscontinued

end Macros

/-- A key is put into `mprocess`; the iterator may meet it at any place. -/
def putKey (place : Nat) (pid : Int) (keys : List Int) : List Int :=
  if pid ∈ keys then keys else keys.take place ++ pid :: keys.drop place

theorem putKey_nodup {place : Nat} {pid : Int} {keys : List Int} (h : keys.Nodup) :
    (putKey place pid keys).Nodup := by
  unfold putKey
  split
  · exact h
  · rename_i hn
    have hp : (keys.take place ++ pid :: keys.drop place).Perm (pid :: keys) := by
      refine List.perm_middle.trans ?_
      rw [List.take_append_drop]
    exact hp.nodup_iff.mpr (List.nodup_cons.mpr ⟨hn, h⟩)

def forked (p : Process) (parent : Int) : Process where
  gid := p.gid
  sid := p.sid
  parent := some parent
  tty := p.tty
  sighand := p.sighand
  thread := { uregs := { p.thread.uregs with eax := 0 } }

def created (p : Process) (parent : Int) : Process where
  gid := p.gid
  sid := p.sid
  parent := some parent

def link (pid : Int) (p : Process) : Process := { p with children := p.children ++ [pid] }

def addChild (s : Kernel) (place : Nat) (pid : Int) (child : Process) : Kernel :=
  { s.modify s.current (link pid) with
    mprocess := putKey place pid s.mprocess
    distinct := putKey_nodup s.distinct
    proc := Function.update (s.modify s.current (link pid)).proc pid child }

/-- A child whose status has been returned, and the process that got it. -/
structure Report where
  parent : Int
  child : Int
  code : UInt32
  deriving DecidableEq, Repr

/-- The kernel with `next_pid`, the calls of `do_wait` that have not returned and the
reports made so far. -/
structure System where
  kernel : Kernel
  nextPid : Int
  waits : Int → Option WaitCall := fun _ => none
  reports : List Report := []

inductive Op where
  | fork (place : Nat)
  | create (place : Nat)
  | exit (code : Int)
  | kill (pid signum : Int)
  | wait (c : WaitCall)
  /-- A thread that sleeps in `do_wait` goes on with the loop. -/
  | resume
  /-- `handle_signal`, at the end of an interrupt or in `schedule`. -/
  | signal (t : Trap)

def switchTo (s : Kernel) (pid : Int) : Kernel :=
  let s := if (s.proc s.current).thread.state = .running then
    s.modify s.current (updateThread .ready) else s
  { s with current := pid }.modify pid (updateThread .running)

def Report.of (parent : Int) (i : Infop) : Report := ⟨parent, i.siPid, i.siCode⟩

def System.waited (s : System) (c : WaitCall) (r : Kernel × WaitResult) : System :=
  match r.2 with
  | .sleeps =>
    { s with
      kernel := r.1
      waits := Function.update s.waits r.1.current (some c) }
  | .returned _ infop =>
    { s with
      kernel := r.1
      waits := Function.update s.waits r.1.current none
      reports := (infop.map (Report.of r.1.current)).toList ++ s.reports }

def System.onKernel (s : System) (k : Except Fault Kernel) : Option System :=
  k.toOption.map fun kernel => { s with kernel }

/-- Whether `handle_signal` leaves the system call for a handler of the process, by
`return_usermode`. -/
def interrupts (p : Process) (t : Trap) : Bool :=
  let sig := nextSignal p.thread.pending p.thread.blocked
  t.regs.intNo == 0x7F && sig != 0 && sigUserDefined p sig

/-- What the running process does; in `do_wait` only its loop and signals go on. A handler
ends the call with `-EINTR`; its entry on the stack stays in `wait_chld`. -/
def act (fuel : Nat) (s : System) (op : Op) : Option System :=
  let k := s.kernel
  match op, s.waits k.current with
  | .fork place, none =>
    some { s with
      kernel := addChild k place s.nextPid (forked (k.proc k.current) k.current)
      nextPid := s.nextPid + 1 }
  | .create place, none =>
    some { s with
      kernel := addChild k place s.nextPid (created (k.proc k.current) k.current)
      nextPid := s.nextPid + 1 }
  | .exit code, none => s.onKernel (doExit (doKill fuel) k code)
  | .kill pid signum, none => s.onKernel ((doKill fuel k pid signum).map Prod.fst)
  | .wait c, none => some (s.waited c (doWait k c))
  | .resume, some c => some (s.waited c (doWaitRound k c))
  | .signal t, _ =>
    let s := if interrupts (k.proc k.current) t then
      { s with waits := Function.update s.waits k.current none } else s
    s.onKernel ((handleSignal (doKill fuel) k t (k.proc k.current).thread.blocked).map Prod.fst)
  | _, _ => none

def step (fuel : Nat) (s : System) (e : Int × Op) : Option System :=
  if e.1 ∈ s.kernel.mprocess ∧ ((s.kernel.proc e.1).thread.state = .ready ∨
      (e.1 = s.kernel.current ∧ (s.kernel.proc e.1).thread.state = .running)) then
    act fuel { s with kernel := switchTo s.kernel e.1 } e.2
  else none

end Mos.Proc

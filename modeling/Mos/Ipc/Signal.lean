import Mos.Machine.Bytes

namespace Mos.Signal
open Machine

abbrev SigSet := BitVec 32

def nsig : Nat := 32
def sigkill : Nat := 9
def sighup : Nat := 1
def sigchld : Nat := 17
def sigcont : Nat := 18
def sigstop : Nat := 19
def einval : Int := 22

def sigmask (sig : Nat) : SigSet := BitVec.twoPow 32 (sig - 1)

def siginmask (sig : Nat) (mask : SigSet) : Bool :=
  decide (0 < sig) && decide (sig < 32) && decide (sigmask sig &&& mask ≠ 0)

def sigKernelOnlyMask : SigSet := sigmask sigkill ||| sigmask sigstop

/-- `SIGSTOP`, `SIGTSTP`, `SIGTTIN` and `SIGTTOU`. -/
def sigKernelStopMask : SigSet := sigmask sigstop ||| sigmask 20 ||| sigmask 21 ||| sigmask 22

/-- `SIGQUIT`, `SIGILL`, `SIGTRAP`, `SIGABRT`, `SIGFPE`, `SIGSEGV`, `SIGBUS`, `SIGSYS`,
`SIGXCPU` and `SIGXFSZ`. -/
def sigKernelCoredumpMask : SigSet :=
  sigmask 3 ||| sigmask 4 ||| sigmask 5 ||| sigmask 6 ||| sigmask 8 ||| sigmask 11 |||
    sigmask 7 ||| sigmask 31 ||| sigmask 24 ||| sigmask 25

/-- `SIGCONT`, `SIGCHLD`, `SIGWINCH` and `SIGURG`. -/
def sigKernelIgnoreMask : SigSet :=
  sigmask sigcont ||| sigmask sigchld ||| sigmask 28 ||| sigmask 23

def sigKernelOnly (sig : Nat) : Bool := siginmask sig sigKernelOnlyMask
def sigKernelIgnore (sig : Nat) : Bool := siginmask sig sigKernelIgnoreMask
def sigKernelStop (sig : Nat) : Bool := siginmask sig sigKernelStopMask

def validSignal (sig : Int) : Bool := decide (0 ≤ sig) && decide (sig ≤ nsig)

def sigismember (set : SigSet) (sig : Nat) : Bool := set.getLsbD (sig - 1)

/-- The lowest bit that is not set in the word; `ffz` is called on words with one. -/
def ffz (word : BitVec 32) : Nat := ((List.range 32).find? fun i => !word.getLsbD i).getD 0

def nextSignal (pending blocked : SigSet) : Nat :=
  let mask := pending &&& ~~~blocked
  if mask &&& sigKernelCoredumpMask ≠ 0 then ffz (~~~(mask &&& sigKernelCoredumpMask)) + 1
  else if mask &&& ~~~sigmask sigcont ≠ 0 then ffz (~~~(mask &&& ~~~sigmask sigcont)) + 1
  else if mask &&& sigmask sigcont ≠ 0 then sigcont
  else 0

@[ext] structure Registers where
  gs : UInt32 := 0
  fs : UInt32 := 0
  es : UInt32 := 0
  ds : UInt32 := 0
  edi : UInt32 := 0
  esi : UInt32 := 0
  ebp : UInt32 := 0
  esp : UInt32 := 0
  ebx : UInt32 := 0
  edx : UInt32 := 0
  ecx : UInt32 := 0
  eax : UInt32 := 0
  intNo : UInt32 := 0
  errCode : UInt32 := 0
  eip : UInt32 := 0
  cs : UInt32 := 0x1B
  eflags : UInt32 := 0x202
  useresp : UInt32 := 0
  ss : UInt32 := 0x23
  deriving DecidableEq, Repr

inductive ThreadState where
  | new
  | ready
  | running
  | waiting
  | terminated
  deriving DecidableEq, Repr

/-- `SIG_DFL` and `SIG_IGN`; every other handler is the address of a user function. -/
def sigDfl : UInt32 := 0
def sigIgn : UInt32 := 1

/-- `struct sigaction`; nothing reads `sa_flags`. -/
structure SigAction where
  saHandler : UInt32 := sigDfl
  saFlags : UInt32 := 0
  saMask : SigSet := 0
  deriving DecidableEq, Repr

def tifSignalManual : UInt32 := 0x1

/-- `struct thread`. While `do_sigsuspend` waits, `saveset` is its local variable. -/
structure Thread where
  state : ThreadState := .ready
  flags : UInt32 := 0
  uregs : Registers := {}
  pending : SigSet := 0
  blocked : SigSet := 0
  signaling : Bool := false
  saveset : Option SigSet := none

def signalStoped : UInt32 := 0x01
def signalContinued : UInt32 := 0x02
def signalTerminated : UInt32 := 0x04
def exitTerminated : UInt32 := 0x08

def initialHandlers (i : Nat) : SigAction :=
  { saHandler := if sigKernelIgnore (i + 1) then sigIgn else sigDfl }

/-- `struct process`. `parent` and `tty` are pointers, `children` is the list that the
processes are linked in by their `sibling`; `waitChld` says that the thread stands in the
process's own queue `wait_chld`, where only `do_wait` enters it. -/
structure Process where
  gid : Int := 0
  sid : Int := 0
  parent : Option Int := none
  children : List Int := []
  thread : Thread := {}
  tty : Option Nat := none
  sighand : Nat → SigAction := initialHandlers
  exitCode : Int := 0
  causedSignal : Nat := 0
  flags : UInt32 := 0
  waitChld : Bool := false

/-- The processes by `pid`, the keys of `mprocess` in the order of its iterator, the
running process and `session` of each terminal. The ready lists of the scheduler
follow the states of the threads. -/
structure Kernel where
  mprocess : List Int
  distinct : mprocess.Nodup
  proc : Int → Process
  current : Int
  session : Nat → Int := fun _ => 0
  sigreturnAt : UInt32 := 0xC0100000

/-- How a call ends other than by returning: a null pointer, one of the assertions in
`handle_signal`, `assert_not_reached`, or a recursion without end. -/
inductive Fault where
  | null
  | assertion
  | unreachable
  | recursion
  | disabled
  deriving DecidableEq, Repr

def Kernel.modify (s : Kernel) (pid : Int) (f : Process → Process) : Kernel :=
  { s with proc := Function.update s.proc pid (f (s.proc pid)) }

def Process.onThread (p : Process) (f : Thread → Thread) : Process := { p with thread := f p.thread }

def updateThread (state : ThreadState) (p : Process) : Process :=
  p.onThread fun th => { th with state }

def findProcessByPid (s : Kernel) (pid : Int) : Option Process :=
  if pid ∈ s.mprocess then some (s.proc pid) else none

def sigHandler (p : Process) (sig : Nat) : UInt32 := (p.sighand (sig - 1)).saHandler

def ignores (handler : UInt32) (sig : Nat) : Bool :=
  handler == sigIgn || (handler == sigDfl && sigKernelIgnore sig)

def sigIgnored (p : Process) (sig : Nat) : Bool :=
  if sigismember p.thread.blocked sig then false else ignores (sigHandler p sig) sig

def sigUserDefined (p : Process) (sig : Nat) : Bool :=
  sigHandler p sig != sigDfl && sigHandler p sig != sigIgn

def sigDefaultAction (p : Process) (sig : Nat) : Bool := sigHandler p sig == sigDfl

def sigFatal (p : Process) (sig : Nat) : Bool :=
  !siginmask sig (sigKernelIgnoreMask ||| sigKernelStopMask) && sigHandler p sig == sigDfl

def Process.continued (p : Process) : Process :=
  { p with
    flags := (p.flags ||| signalContinued) &&& ~~~signalStoped
    thread := { p.thread with pending := p.thread.pending &&& ~~~sigKernelStopMask } }

def Process.stoped (p : Process) : Process :=
  { p with
    flags := (p.flags ||| signalStoped) &&& ~~~signalContinued
    thread := { p.thread with pending := p.thread.pending &&& ~~~sigmask sigcont } }

def Process.addPending (sig : Nat) (p : Process) : Process :=
  p.onThread fun th => { th with pending := th.pending ||| sigmask sig }

def Process.wakeUp (p : Process) : Process := if p.waitChld then updateThread .ready p else p

abbrev Kill := Kernel → Int → Int → Except Fault (Kernel × Int)

def notifyParent (kill : Kill) (s : Kernel) : Except Fault Kernel :=
  match (s.proc s.current).parent with
  | none => .error .null
  | some parent => (kill s parent sigchld).map fun r => r.1.modify parent Process.wakeUp

/-- `do_kill` with a positive `pid`. It marks the running process as stopped or
continued, whichever process was named. A thread that stops itself then gives the
processor away. -/
def killProcess (kill : Kill) (s : Kernel) (pid : Int) (sig : Nat) : Except Fault Kernel :=
  match findProcessByPid s pid with
  | none => .error .null
  | some proc =>
    if sig = sigcont then
      let s := s.modify s.current Process.continued
      notifyParent kill (if pid ≠ s.current then s.modify pid (updateThread .ready) else s)
    else if sigKernelStop sig then
      let s := s.modify s.current Process.stoped
      notifyParent kill (s.modify pid (updateThread .waiting))
    else if sigIgnored proc sig then .ok s
    else
      let s := s.modify pid (Process.addPending sig)
      .ok (if sig = sigkill ∧ pid ≠ s.current then s.modify pid (updateThread .ready) else s)

def selects (s : Kernel) (pid key : Int) : Bool :=
  if pid = 0 then (s.proc key).gid == (s.proc s.current).gid
  else if pid = -1 then decide (1 < key)
  else (s.proc key).gid == -pid

/-- The loops of `do_kill` over the processes, which pass on `proc->gid`. -/
def killEach (kill : Kill) (pid sig : Int) (s : Kernel) (key : Int) : Except Fault Kernel :=
  if selects s pid key then (kill s (s.proc key).gid sig).map Prod.fst else .ok s

def killWith (kill : Kill) (s : Kernel) (pid signum : Int) : Except Fault (Kernel × Int) :=
  if validSignal signum = false then .ok (s, -einval)
  else if signum = 0 then .ok (s, 0)
  else if 0 < pid then (killProcess kill s pid signum.toNat).map fun s => (s, 0)
  else (s.mprocess.foldlM (killEach kill pid signum) s).map fun s => (s, 0)

/-- `do_kill`, with a bound on the depth of its recursion. -/
def doKill : Nat → Kill
  | 0 => fun _ _ _ => .error .recursion
  | fuel + 1 => killWith (doKill fuel)

/-- The mask `do_sigprocmask` leaves; `none` is `-EINVAL`, before which nothing changes. -/
def newMask (how : Int) (set blocked : SigSet) : Option SigSet :=
  if how = 0 then some ((blocked ||| set) &&& ~~~sigKernelOnlyMask)
  else if how = 1 then some (blocked &&& ~~~set &&& ~~~sigKernelOnlyMask)
  else if how = 2 then some (set &&& ~~~sigKernelOnlyMask)
  else none

def Process.block (set : SigSet) (p : Process) : Process :=
  p.onThread fun th => { th with blocked := set }

def doSigprocmask (s : Kernel) (how : Int) (set : Option SigSet) : Kernel :=
  match set.bind fun set => newMask how set (s.proc s.current).thread.blocked with
  | some mask => s.modify s.current (Process.block mask)
  | none => s

def sigactionValid (signum : Int) : Bool :=
  validSignal signum && decide (1 ≤ signum) && !sigKernelOnly signum.toNat

def Process.install (sig : Nat) (action : SigAction) (p : Process) : Process :=
  { p with sighand := Function.update p.sighand (sig - 1) action }

def doSigaction (s : Kernel) (signum : Int) (action : Option SigAction) : Kernel :=
  match action with
  | some action =>
    if sigactionValid signum then s.modify s.current (Process.install signum.toNat action) else s
  | none => s

/-- The registers at a kernel entry and the memory of the user program. -/
structure Trap where
  regs : Registers := {}
  mem : Bytes := fun _ => 0

def Registers.words (r : Registers) : List UInt32 :=
  [r.gs, r.fs, r.es, r.ds, r.edi, r.esi, r.ebp, r.esp, r.ebx, r.edx, r.ecx, r.eax, r.intNo,
    r.errCode, r.eip, r.cs, r.eflags, r.useresp, r.ss]

def loadRegisters (m : Bytes) (a : Nat) : Registers where
  gs := m.word a
  fs := m.word (a + 4)
  es := m.word (a + 8)
  ds := m.word (a + 12)
  edi := m.word (a + 16)
  esi := m.word (a + 20)
  ebp := m.word (a + 24)
  esp := m.word (a + 28)
  ebx := m.word (a + 32)
  edx := m.word (a + 36)
  ecx := m.word (a + 40)
  eax := m.word (a + 44)
  intNo := m.word (a + 48)
  errCode := m.word (a + 52)
  eip := m.word (a + 56)
  cs := m.word (a + 60)
  eflags := m.word (a + 64)
  useresp := m.word (a + 68)
  ss := m.word (a + 72)

/-- `sizeof(struct signal_frame)`; the flag at offset 8 is followed by padding. -/
def frameSize : UInt32 := 92

def storeFrame (m : Bytes) (a : Nat) (sigreturn : UInt32) (signum : Nat) (signaling : Bool)
    (blocked : SigSet) (uregs : Registers) : Bytes :=
  let m := (m.setWord a sigreturn).setWord (a + 4) (UInt32.ofNat signum)
  let m := (m.setByte (a + 8) (if signaling then 1 else 0)).setWord (a + 12) ⟨blocked⟩
  m.setWords (a + 16) uregs.words

def Process.interrupted (regs : Registers) (sig : Nat) (p : Process) : Process :=
  p.onThread fun th =>
    { th with
      signaling := true
      uregs := regs
      pending := th.pending &&& ~~~sigmask sig }

def Process.terminated (sig : Nat) (p : Process) : Process :=
  { p with
    causedSignal := sig
    flags := (p.flags ||| signalTerminated) &&& ~~~(signalContinued ||| signalStoped)
    thread := { p.thread with signaling := false, pending := 0 } }

def initPid : Int := 1

/-- The children of a process that exits get init as their parent, but they stay in the
list they are in. -/
def reparent (s : Kernel) : Kernel :=
  { s with
    proc := fun pid =>
      if pid ∈ (s.proc s.current).children then
        { s.proc pid with parent := if initPid ∈ s.mprocess then some initPid else none }
      else s.proc pid }

/-- A leader whose terminal belongs to its session gives it up. The group is cleared
before it is read, so that the hangup goes to the leader's own group. -/
def hangup (kill : Kill) (s : Kernel) : Except Fault Kernel :=
  let proc := s.proc s.current
  match proc.tty with
  | none => .ok s
  | some tty =>
    if s.current = proc.sid ∧ s.current = s.session tty then
      (kill { s with session := Function.update s.session tty 0 } 0 sighup).map Prod.fst
    else .ok s

def exitNotify (kill : Kill) (s : Kernel) : Except Fault Kernel := do
  let s := reparent s
  let s := if (s.proc s.current).causedSignal = 0 then
    s.modify s.current fun p => { p with flags := p.flags ||| exitTerminated } else s
  notifyParent kill (← hangup kill s)

/-- `do_exit`, up to its call of `schedule`; memory and files are left out. -/
def doExit (kill : Kill) (s : Kernel) (code : Int) : Except Fault Kernel :=
  exitNotify kill
    (s.modify s.current fun p => { updateThread .terminated p with exitCode := code })

/-- The registers `handle_signal` saves: an interrupted system call returns `-EINTR`. -/
def savedRegisters (regs : Registers) : Registers :=
  if regs.intNo = 0x7F then { regs with eax := -4 } else regs

/-- The user function runs on the frame, with the signal and its mask blocked. -/
def deliver (s : Kernel) (t : Trap) (sig : Nat) (prevSignaling : Bool) (restored : SigSet) :
    Kernel × Trap :=
  let regs := savedRegisters t.regs
  let esp := regs.useresp - frameSize
  let action := (s.proc s.current).sighand (sig - 1)
  (s.modify s.current fun p =>
      p.onThread fun th => { th with blocked := th.blocked ||| (sigmask sig ||| action.saMask) },
    { regs := { regs with useresp := esp, eip := action.saHandler }
      mem := storeFrame t.mem esp.toNat s.sigreturnAt sig prevSignaling restored regs })

def handleSignal (kill : Kill) (s : Kernel) (t : Trap) (restored : SigSet) :
    Except Fault (Kernel × Trap) :=
  let th := (s.proc s.current).thread
  let sig := nextSignal th.pending th.blocked
  if th.pending = 0 ∨ sig = 0 then .ok (s, t)
  else
    let s := s.modify s.current (Process.interrupted (savedRegisters t.regs) sig)
    let proc := s.proc s.current
    if sigIgnored proc sig then .error .assertion
    else if sigDefaultAction proc sig then
      if sigFatal proc sig then
        (doExit kill (s.modify s.current (Process.terminated sig)) sig).map fun s => (s, t)
      else .error .assertion
    else if sigUserDefined proc sig then .ok (deliver s t sig th.signaling restored)
    else .ok (s, t)

def dies (p : Process) : Bool :=
  let sig := nextSignal p.thread.pending p.thread.blocked
  p.thread.pending != 0 && sig != 0 && sigDefaultAction p sig && sigFatal p sig

def frameAt (regs : Registers) : Nat := (regs.useresp - 4).toNat

def frameBlocked (t : Trap) : SigSet := (t.mem.word (frameAt t.regs + 12)).toBitVec

def frameRegisters (t : Trap) : Registers := loadRegisters t.mem (frameAt t.regs + 16)

def sigreturn (s : Kernel) (t : Trap) : Kernel × Trap :=
  (s.modify s.current fun p =>
      p.onThread fun th =>
        { th with
          uregs := frameRegisters t
          signaling := t.mem (frameAt t.regs + 8) != 0
          blocked := frameBlocked t
          flags := th.flags &&& ~~~tifSignalManual },
    { t with regs := frameRegisters t })

def userCs : UInt32 := 0x1B

/-- `thread_page_fault` at a fault from user mode other than the one that ends a
process; elsewhere it asserts. -/
def threadPageFault (s : Kernel) (t : Trap) (faultAddr : UInt32) : Except Fault (Kernel × Trap) :=
  if t.regs.cs = userCs then
    .ok (if faultAddr = s.sigreturnAt then sigreturn s t else (s, t))
  else .error .unreachable

def doSigsuspend (s : Kernel) (set : SigSet) : Kernel :=
  s.modify s.current fun p =>
    p.onThread fun th =>
      { th with blocked := set, flags := th.flags ||| tifSignalManual, saveset := some th.blocked }

inductive Event where
  | kill (pid signum : Int)
  | sigaction (signum : Int) (action : Option SigAction)
  | sigprocmask (how : Int) (set : Option SigSet)
  | sigsuspend (set : SigSet)
  | suspended (t : Trap)
  /-- The end of an interrupt or a system call, where `signal_handler` is called. -/
  | interrupt (t : Trap)
  | pageFault (t : Trap) (faultAddr : UInt32)
  /-- The running thread is preempted, or waits. -/
  | yield (state : ThreadState)
  /-- A waiting thread is woken for another reason than a signal. -/
  | wakeUp (pid : Int)
  /-- `schedule` takes the thread of a process from the ready lists. -/
  | schedule (next : Int) (t : Trap)

def Kernel.inUser (s : Kernel) : Bool :=
  (s.proc s.current).thread.state == .running && (s.proc s.current).thread.saveset.isNone

def signalHandler (kill : Kill) (s : Kernel) (t : Trap) : Except Fault Kernel :=
  let th := (s.proc s.current).thread
  if th.pending = 0 ∨ th.signaling then .ok s
  else (handleSignal kill s t th.blocked).map Prod.fst

def endSuspend (kill : Kill) (s : Kernel) (t : Trap) : Except Fault Kernel :=
  let th := (s.proc s.current).thread
  match th.saveset with
  | none => .error .disabled
  | some saveset =>
    if th.pending = 0 ∨ th.state ≠ .running then .error .disabled
    else
      let s := s.modify s.current fun p => p.onThread fun th => { th with saveset := none }
      (handleSignal kill s t saveset).map Prod.fst

/-- `schedule`, when the running thread has been taken off the processor. -/
def schedule (kill : Kill) (s : Kernel) (next : Int) (t : Trap) : Except Fault Kernel :=
  if (s.proc s.current).thread.state = .running then .ok s
  else if next ∈ s.mprocess ∧ (s.proc next).thread.state = .ready then
    let s := { s with current := next }.modify next (updateThread .running)
    let th := (s.proc next).thread
    if th.pending ≠ 0 ∧ th.flags &&& tifSignalManual = 0 then
      (handleSignal kill s t th.blocked).map Prod.fst
    else .ok s
  else .error .disabled

def step (fuel : Nat) (s : Kernel) : Event → Except Fault Kernel
  | .kill pid signum =>
    if s.inUser then (doKill fuel s pid signum).map Prod.fst else .error .disabled
  | .sigaction signum action =>
    if s.inUser then .ok (doSigaction s signum action) else .error .disabled
  | .sigprocmask how set => if s.inUser then .ok (doSigprocmask s how set) else .error .disabled
  | .sigsuspend set => if s.inUser then .ok (doSigsuspend s set) else .error .disabled
  | .suspended t => endSuspend (doKill fuel) s t
  | .interrupt t => if s.inUser then signalHandler (doKill fuel) s t else .error .disabled
  | .pageFault t faultAddr =>
    if s.inUser then (threadPageFault s t faultAddr).map Prod.fst else .error .disabled
  | .yield state =>
    if (s.proc s.current).thread.state = .running ∧ (state = .ready ∨ state = .waiting) then
      .ok (s.modify s.current (updateThread state)) else .error .disabled
  | .wakeUp pid =>
    if (s.proc pid).thread.state = .waiting then .ok (s.modify pid (updateThread .ready))
    else .error .disabled
  | .schedule next t => schedule (doKill fuel) s next t

def next (fuel : Nat) (s : Kernel) (e : Event) : Option Kernel := (step fuel s e).toOption

structure Process.Fresh (p : Process) : Prop where
  pending : p.thread.pending = 0
  blocked : p.thread.blocked = 0
  sighand : p.sighand = initialHandlers

end Mos.Signal

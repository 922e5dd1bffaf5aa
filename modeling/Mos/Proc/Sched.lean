import Mos.Ipc.Signal

namespace Mos.Sched
open Signal (ThreadState)

inductive Policy where
  | kernel
  | system
  | app
  deriving DecidableEq, Repr

inductive PList where
  | kernelReady
  | systemReady
  | appReady
  | waiting
  | terminated
  deriving DecidableEq, Repr

/-- `struct thread`, as far as the scheduler reads it; `prio` is that of `sched_sibling`.
`placed` says that the thread was queued or its state was updated; no code reads it. -/
structure Thread where
  state : ThreadState
  policy : Policy
  prio : Int
  timeSlice : Nat := 0
  placed : Bool := false

/-- The threads by number, of which `count` exist, the lists, the current thread and the
threads that stand in the idle loop of `schedule`. -/
structure Scheduler where
  threads : Nat → Thread
  count : Nat
  lists : PList → List Nat
  current : Nat
  idling : List Nat := []

def getListFromThread (state : ThreadState) (policy : Policy) : Option PList :=
  match state with
  | .ready =>
    match policy with
    | .kernel => some .kernelReady
    | .system => some .systemReady
    | .app => some .appReady
  | .waiting => some .waiting
  | .terminated => some .terminated
  | _ => none

def Thread.list (th : Thread) : Option PList := getListFromThread th.state th.policy

/-- `plist_add`: before the first node of a larger `prio`. -/
def plistAdd (prio : Nat → Int) (t : Nat) : List Nat → List Nat
  | [] => [t]
  | u :: l => if prio t < prio u then t :: u :: l else u :: plistAdd prio t l

/-- `plist_del`; a node that is in no list stays as it is. -/
def plistDel (t : Nat) (l : List Nat) : List Nat := l.erase t

namespace Scheduler

def prio (s : Scheduler) (t : Nat) : Int := (s.threads t).prio

def modify (s : Scheduler) (t : Nat) (f : Thread → Thread) : Scheduler :=
  { s with threads := Function.update s.threads t (f (s.threads t)) }

def setList (s : Scheduler) (h : PList) (l : List Nat) : Scheduler :=
  { s with lists := Function.update s.lists h l }

def queueThread (s : Scheduler) (t : Nat) : Scheduler :=
  match (s.threads t).list with
  | some h => s.setList h (plistAdd s.prio t (s.lists h))
  | none => s

def removeThread (s : Scheduler) (t : Nat) : Scheduler :=
  match (s.threads t).list with
  | some h => s.setList h (plistDel t (s.lists h))
  | none => s

def updateThread (s : Scheduler) (t : Nat) (state : ThreadState) : Scheduler :=
  if (s.threads t).state = state then s
  else ((s.removeThread t).modify t fun th => { th with state, placed := true }).queueThread t

/-- The list `get_next_thread_to_run` and `pop_next_thread_to_run` take a thread from. -/
def nextList (s : Scheduler) : PList :=
  if s.lists .kernelReady ≠ [] then .kernelReady
  else if s.lists .systemReady ≠ [] then .systemReady
  else .appReady

def getNextThreadToRun (s : Scheduler) : Option Nat := (s.lists s.nextList).head?

/-- `switch_thread`; for the current thread too it sets the time slice and the state. -/
def switchThread (s : Scheduler) (nt : Nat) : Scheduler :=
  ({ s with current := nt }.modify nt fun th => { th with timeSlice := 0 }).updateThread nt .running

def popAndSwitch (s : Scheduler) (nt : Nat) : Scheduler :=
  (s.setList s.nextList (plistDel nt (s.lists s.nextList))).switchThread nt

def schedule (s : Scheduler) : Scheduler :=
  if (s.threads s.current).state = .running then s
  else
    match s.getNextThreadToRun with
    | some nt => s.popAndSwitch nt
    | none => { s with idling := s.current :: s.idling }

def idle (s : Scheduler) : Scheduler :=
  let left := { s with idling := s.idling.erase s.current }
  match s.getNextThreadToRun with
  | some nt => left.popAndSwitch nt
  | none => if (s.threads s.current).state = .running then left.switchThread s.current else s

def sliceThreshold : Nat := 8

/-- The priorities of the application list are scaled to zero, and the current thread gets the
one behind the last of them. -/
def rescale (s : Scheduler) : Scheduler :=
  match (s.lists .appReady).head?, (s.lists .appReady).getLast? with
  | some first, some last =>
    let scale := s.prio first
    let s := { s with
      threads := fun t => if t ∈ s.lists .appReady then
        { s.threads t with prio := (s.threads t).prio - scale } else s.threads t }
    s.modify s.current fun th => { th with prio := s.prio last + 1 }
  | _, _ => s

/-- `irq_schedule_handler`; `locked` says that the scheduler was locked when it came. -/
def irqScheduleHandler (s : Scheduler) (locked : Bool) : Scheduler :=
  let th := s.threads s.current
  if th.policy ≠ .app ∨ th.state ≠ .running then s
  else
    let s := s.modify s.current fun th => { th with timeSlice := th.timeSlice + 1 }
    if (s.threads s.current).timeSlice < sliceThreshold then s
    else
      match s.getNextThreadToRun with
      | none => s
      | some nt =>
        let s := if (s.threads nt).policy = .app then s.rescale else s
        let s := s.updateThread s.current .ready
        if locked then s else s.schedule

end Scheduler

inductive Event where
  /-- A thread is created; `queued` says that `queue_thread` follows. -/
  | create (state : ThreadState) (policy : Policy) (prio : Int) (queued : Bool)
  | update (t : Nat) (state : ThreadState)
  | schedule
  | idle
  | timer (locked : Bool)

def step (s : Scheduler) : Event → Option Scheduler
  | .create state policy prio queued =>
    let s' := { s with
      threads := Function.update s.threads s.count { state, policy, prio, placed := queued }
      count := s.count + 1 }
    some (if queued then s'.queueThread s.count else s')
  | .update t state => if t < s.count then some (s.updateThread t state) else none
  | .schedule => some s.schedule
  | .idle => if s.current ∈ s.idling then some s.idle else none
  | .timer locked => some (s.irqScheduleHandler locked)

end Mos.Sched

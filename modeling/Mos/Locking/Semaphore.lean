import Mos.Ipc.Signal

namespace Mos.Locking
open Signal

/-- `struct semaphore`; the lock is held through each call. The waiters are known by the
processes of their threads. -/
structure Semaphore where
  count : UInt32
  capacity : UInt32
  waitList : List Int := []
  deriving DecidableEq, Repr

def semaInit (val : UInt32) : Semaphore := { count := val, capacity := val }

/-- The threads that use a semaphore. `inside` are those that gave the processor away in
`acquire_semaphore` and have not come back, `holders` those past `acquire_semaphore` and not
yet past `release_semaphore`, one entry for each call. `arrivals` and `grants` record, the
latest last, who entered the list and who was taken from it; no code reads them. -/
structure System where
  kernel : Kernel
  sem : Semaphore
  inside : List Int := []
  holders : List Int := []
  arrivals : List Int := []
  grants : List Int := []

def acquireSemaphore (s : System) : System :=
  let cur := s.kernel.current
  if 0 < s.sem.count then
    { s with
      sem := { s.sem with count := s.sem.count - 1 }
      holders := cur :: s.holders }
  else
    { s with
      sem := { s.sem with waitList := s.sem.waitList ++ [cur] }
      kernel := s.kernel.modify cur (updateThread .waiting)
      inside := cur :: s.inside
      arrivals := s.arrivals ++ [cur] }

def releaseSemaphore (s : System) : System :=
  let s := { s with holders := s.holders.erase s.kernel.current }
  match s.sem.waitList with
  | [] =>
    if s.sem.count < s.sem.capacity then { s with sem := { s.sem with count := s.sem.count + 1 } }
    else s
  | waiter :: waitList =>
    { s with
      sem := { s.sem with waitList }
      kernel := s.kernel.modify waiter (updateThread .ready)
      grants := s.grants ++ [waiter] }

inductive Event where
  | acquire
  | release
  | kill (pid signum : Int)
  | preempt
  /-- The running thread begins to wait for something else. -/
  | block
  /-- Something other than the semaphore or a signal makes a thread ready: a sleep timer, a
  wait queue, a message queue, or a packet for the owner of a socket. -/
  | wake (pid : Int)
  /-- The running thread enters or leaves `wait_chld` of its process. -/
  | waitChild (waiting : Bool)
  /-- The thread of `next` gets the processor, and with it a call of `acquire_semaphore`
  that it had made is over, unless a signal ends it first. -/
  | schedule (next : Int) (t : Trap)

def running (k : Kernel) (pid : Int) : Bool := (k.proc pid).thread.state == .running

/-- One thread does something; only what it acquired is released. -/
def step (fuel : Nat) (s : System) (e : Event) : Option System :=
  let cur := s.kernel.current
  match e with
  | .acquire =>
    if running s.kernel cur then some (acquireSemaphore s) else none
  | .release =>
    if running s.kernel cur && decide (cur ∈ s.holders) then some (releaseSemaphore s) else none
  | .kill pid signum =>
    if running s.kernel cur then
      (doKill fuel s.kernel pid signum).toOption.map fun r => { s with kernel := r.1 }
    else none
  | .preempt =>
    if running s.kernel cur then
      some { s with kernel := s.kernel.modify cur (updateThread .ready) }
    else none
  | .block =>
    if running s.kernel cur then
      some { s with kernel := s.kernel.modify cur (updateThread .waiting) }
    else none
  | .wake pid => some { s with kernel := s.kernel.modify pid (updateThread .ready) }
  | .waitChild waiting =>
    if running s.kernel cur then
      some { s with kernel := s.kernel.modify cur fun p => { p with waitChld := waiting } }
    else none
  | .schedule next t =>
    if running s.kernel cur then none
    else
      (schedule (doKill fuel) s.kernel next t).toOption.map fun k =>
        if next ∈ s.inside ∧ running k next = true then
          { s with
            kernel := k
            inside := s.inside.erase next
            holders := next :: s.holders }
        else { s with kernel := k }

end Mos.Locking

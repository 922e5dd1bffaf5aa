import Mos.Ipc.Signal

namespace Mos.Proc.Wakeup
open Signal

/-- The lists in which threads stand to be made ready: those of a semaphore, the senders and
the receivers of a message queue, and a `struct wait_queue_head`. -/
inductive Place where
  | semaphore (n : Nat)
  | senders (n : Nat)
  | receivers (n : Nat)
  | queue (n : Nat)
  deriving DecidableEq, Repr

/-- The kernel with the entries of the lists, those of each list in its order, and the
threads whose `sleep_timer` is pending. `exited` are those that went through `do_exit`; no
code reads it. -/
structure System where
  kernel : Kernel
  entries : List (Place × Int) := []
  sleeping : Int → Bool := fun _ => false
  exited : List Int := []

def System.ready (s : System) (pid : Int) : System :=
  { s with kernel := s.kernel.modify pid (updateThread .ready) }

/-- The first of a list is taken out and made ready, as by `release_semaphore`, `mq_send` and
`mq_receive`. -/
def System.wakeFirst (s : System) (place : Place) : System :=
  match s.entries.find? fun e => e.1 == place with
  | none => s
  | some e => { s with entries := s.entries.erase e }.ready e.2

def System.list (s : System) (place : Place) : List Int :=
  (s.entries.filter fun e => e.1 == place).map Prod.snd

def System.wakeUp (s : System) (n : Nat) : System := (s.list (.queue n)).foldl System.ready s

/-- A list of `mq_unlink` is emptied, and all in it are made ready. -/
def System.drain (s : System) (place : Place) : System :=
  (s.list place).foldl System.ready
    { s with entries := s.entries.filter fun e => e.1 != place }

def System.gone (s : System) (kernel : Kernel) (pid : Int) : System :=
  { s with
    kernel
    sleeping := Function.update s.sleeping pid false
    exited := pid :: s.exited }

inductive Event where
  /-- The running thread enters a list, at any place of it. -/
  | enter (place : Place) (i : Nat)
  /-- The running thread takes an entry of its own out of a list. -/
  | leave (place : Place)
  /-- The running thread enters or leaves the queue of its process's children. -/
  | waitChild (waiting : Bool)
  | sleep
  | block
  | preempt
  | schedule (next : Int) (t : Trap)
  | exit (code : Int)
  | kill (pid signum : Int)
  | release (n : Nat)
  | mqSend (n : Nat)
  | mqReceive (n : Nat)
  | mqUnlink (n : Nat)
  | wakeUp (n : Nat)
  /-- The `sleep_timer` of a thread expires. -/
  | expire (pid : Int)
  /-- A packet handler or `tcp_msl_timer` makes the `owner_thread` of a socket ready. -/
  | wakeOwner (pid : Int)

def running (s : System) : Bool := (s.kernel.proc s.kernel.current).thread.state == .running

/-- Whether a thread that gets the processor is ended by `handle_signal`. -/
def ends (p : Process) : Bool := dies p && p.thread.flags &&& tifSignalManual == 0

def step (fuel : Nat) (s : System) (e : Event) : Option System :=
  let cur := s.kernel.current
  match e with
  | .enter place i =>
    if running s then
      some { s with entries := s.entries.take i ++ (place, cur) :: s.entries.drop i }
    else none
  | .leave place =>
    if running s then some { s with entries := s.entries.erase (place, cur) } else none
  | .waitChild waiting =>
    if running s then
      some { s with kernel := s.kernel.modify cur fun p => { p with waitChld := waiting } }
    else none
  | .sleep =>
    if running s then
      some { s with
        kernel := s.kernel.modify cur (updateThread .waiting)
        sleeping := Function.update s.sleeping cur true }
    else none
  | .block =>
    if running s then some { s with kernel := s.kernel.modify cur (updateThread .waiting) } else none
  | .preempt => if running s then some (s.ready cur) else none
  | .schedule next t =>
    if running s then none
    else
      (schedule (doKill fuel) s.kernel next t).toOption.map fun k =>
        if ends (s.kernel.proc next) then s.gone k next else { s with kernel := k }
  | .exit code =>
    if running s then
      (doExit (doKill fuel) s.kernel code).toOption.map fun k => s.gone k cur
    else none
  | .kill pid signum =>
    (doKill fuel s.kernel pid signum).toOption.map fun r => { s with kernel := r.1 }
  | .release n => some (s.wakeFirst (.semaphore n))
  | .mqSend n => some (s.wakeFirst (.receivers n))
  | .mqReceive n => some (s.wakeFirst (.senders n))
  | .mqUnlink n => some ((s.drain (.senders n)).drain (.receivers n))
  | .wakeUp n => some (s.wakeUp n)
  | .expire pid =>
    if s.sleeping pid then
      some ({ s with sleeping := Function.update s.sleeping pid false }.ready pid)
    else none
  | .wakeOwner pid => some (s.ready pid)

end Mos.Proc.Wakeup

import Mathlib

namespace Mos.MessageQueue

/-- `struct mq_message`; its size is that of the buffer. -/
structure Message where
  buf : List UInt8
  priority : UInt32
  deriving DecidableEq, Repr

structure Waiter where
  thread : Nat
  priority : UInt32
  deriving DecidableEq, Repr

/-- Where a thread stands. A call waits while its entry is in a list of the queue; once
the entry has been taken out the thread is ready and has yet to run. -/
inductive Status where
  | idle
  | sending (msg : Message) (woken : Bool)
  | receiving (priority : UInt32) (woken : Bool)
  deriving DecidableEq, Repr

structure Queue where
  maxmsg : Int
  msgsize : UInt32 := 512
  nonblock : Bool := false
  curmsgs : Int := 0
  messages : List Message := []
  senders : List Waiter := []
  receivers : List Waiter := []
  threads : List Status
  deriving DecidableEq, Repr

inductive Fault where
  | assertion
  | disabled
  deriving DecidableEq, Repr

inductive Outcome where
  | blocked
  | returned (ret : Int)
  deriving DecidableEq, Repr

def ebadf : Int := 9
def eagain : Int := 11
def einval : Int := 22
def emsgsize : Int := 90

/-- Entries stand by falling priority; a new one goes behind those of its own. -/
def addByPriority {α : Type} (priority : α → UInt32) (x : α) : List α → List α
  | [] => [x]
  | y :: ys =>
    if priority y < priority x then x :: y :: ys else y :: addByPriority priority x ys

def mqAddMessage (q : Queue) (msg : Message) : Queue :=
  { q with
    messages := addByPriority Message.priority msg q.messages
    curmsgs := q.curmsgs + 1 }

def mqAddSender (q : Queue) (mqs : Waiter) : Queue :=
  { q with senders := addByPriority Waiter.priority mqs q.senders }

def mqAddReceiver (q : Queue) (mqr : Waiter) : Queue :=
  { q with receivers := addByPriority Waiter.priority mqr q.receivers }

def Queue.setThread (q : Queue) (t : Nat) (status : Status) : Queue :=
  { q with threads := q.threads.set t status }

def Status.wake : Status → Status
  | .idle => .idle
  | .sending msg _ => .sending msg true
  | .receiving priority _ => .receiving priority true

def Queue.wake (q : Queue) (t : Nat) : Queue :=
  match q.threads[t]? with
  | some status => q.setThread t status.wake
  | none => q

def waitSend (q : Queue) (t : Nat) (msg : Message) : Queue :=
  (mqAddSender q { thread := t, priority := msg.priority }).setThread t (.sending msg false)

def waitReceive (q : Queue) (t : Nat) (priority : UInt32) : Queue :=
  (mqAddReceiver q { thread := t, priority }).setThread t (.receiving priority false)

def wakeReceiver (q : Queue) : Except Fault Queue :=
  match q.receivers with
  | [] => .ok q
  | mqr :: receivers =>
    if q.curmsgs = 1 then .ok ({ q with receivers }.wake mqr.thread) else .error .assertion

/-- The rest of `mq_send`, once there is room. The threads that poll the queue are left
out. -/
def finishSend (q : Queue) (t : Nat) (msg : Message) : Except Fault (Queue × Outcome) :=
  if q.curmsgs < q.maxmsg then
    (wakeReceiver (mqAddMessage (q.setThread t .idle) msg)).map fun q => (q, .returned 0)
  else .error .assertion

/-- `mq_send`. When it has to wait, its first test reads an entry that does not exist yet. Where
that read does not fault, the queue is full whatever it finds there. -/
def mqSend (q : Queue) (t : Nat) (canWrite : Bool) (msg : Message) :
    Except Fault (Queue × Outcome) :=
  if canWrite = false then .ok (q, .returned (-ebadf))
  else if q.msgsize.toNat < msg.buf.length then .ok (q, .returned (-emsgsize))
  else if q.maxmsg < q.curmsgs then .error .assertion
  else if q.curmsgs = q.maxmsg then
    if q.nonblock then .ok (q, .returned (-eagain)) else .ok (waitSend q t msg, .blocked)
  else finishSend q t msg

/-- A sender that was woken tests the queue again: its entry has been taken out. -/
def resumeSend (q : Queue) (t : Nat) (msg : Message) : Except Fault (Queue × Outcome) :=
  if q.curmsgs < q.maxmsg then finishSend q t msg else .ok (waitSend q t msg, .blocked)

def wakeSender (q : Queue) : Queue :=
  match q.senders with
  | [] => q
  | mqs :: senders => { q with senders }.wake mqs.thread

def finishReceive (q : Queue) (t : Nat) : Except Fault (Queue × Outcome) :=
  match q.messages with
  | [] => .error .assertion
  | _ :: messages =>
    .ok ({ q with messages, curmsgs := q.curmsgs - 1 }.setThread t .idle, .returned 0)

def mqReceive (q : Queue) (t : Nat) (canRead : Bool) (priority msize : UInt32) :
    Except Fault (Queue × Outcome) :=
  if canRead = false then .ok (q, .returned (-einval))
  else if msize < q.msgsize then .ok (q, .returned (-emsgsize))
  else if q.curmsgs < 0 ∨ q.maxmsg < q.curmsgs then .error .assertion
  else if q.curmsgs = q.maxmsg then finishReceive (wakeSender q) t
  else if q.curmsgs = 0 then
    if q.nonblock then .ok (q, .returned (-eagain)) else .ok (waitReceive q t priority, .blocked)
  else finishReceive q t

def resumeReceive (q : Queue) (t : Nat) (priority : UInt32) : Except Fault (Queue × Outcome) :=
  if 0 < q.curmsgs then finishReceive q t else .ok (waitReceive q t priority, .blocked)

/-- What `mq_receive` copies into the buffer of its caller at the end: `msize` bytes from the start
of the first message, where `behind` is what the heap has behind its buffer. -/
def userBuf (q : Queue) (behind : Nat → UInt8) (msize : UInt32) : Option (List UInt8) :=
  q.messages.head?.map fun msg =>
    (List.range msize.toNat).map fun i => msg.buf.getD i (behind (i - msg.buf.length))

inductive Event where
  | send (t : Nat) (canWrite : Bool) (msg : Message)
  | receive (t : Nat) (canRead : Bool) (priority msize : UInt32)
  | run (t : Nat)
  deriving DecidableEq, Repr

def step (q : Queue) : Event → Except Fault (Queue × Outcome)
  | .send t canWrite msg =>
    if q.threads[t]? = some .idle then mqSend q t canWrite msg else .error .disabled
  | .receive t canRead priority msize =>
    if q.threads[t]? = some .idle then mqReceive q t canRead priority msize else .error .disabled
  | .run t =>
    match q.threads[t]? with
    | some (.sending msg true) => resumeSend q t msg
    | some (.receiving priority true) => resumeReceive q t priority
    | _ => .error .disabled

def next (q : Queue) (e : Event) : Option Queue := ((step q e).map Prod.fst).toOption

structure Queue.Fresh (q : Queue) : Prop where
  curmsgs : q.curmsgs = 0
  messages : q.messages = []
  senders : q.senders = []
  receivers : q.receivers = []
  threads : ∀ status ∈ q.threads, status = .idle

end Mos.MessageQueue

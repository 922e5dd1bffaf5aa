import Mos.Machine.Run
import Mos.Net.TcpTimer

namespace Mos.Tcp

def randR (seed : UInt32) : UInt32 × UInt32 :=
  let a := seed * 1103515245 + 12345
  let b := a * 1103515245 + 12345
  let c := b * 1103515245 + 12345
  let result := a / 65536 % 2048
  let result := (result <<< 10) ^^^ (b / 65536 % 1024)
  ((result <<< 10) ^^^ (c / 65536 % 1024), c)

/-- The parameters and locals of a `tcp_sendmsg` call; `sent` is `msg_sent_len`. -/
structure SendLocals where
  msg : List UInt8
  mmss : UInt32
  startingNxt : UInt32
  sent : Nat
  deriving DecidableEq, Repr

inductive Caller where
  | connect
  | probe (l : SendLocals)
  | chunks (l : SendLocals)
  | shutdown
  deriving DecidableEq, Repr

/-- Where the thread that owns the socket stands. Interrupts, and with them the
net thread and the timers, can come in at each of these points except
`transmitLocked`, which is inside `lock_scheduler`. -/
inductive Pc where
  | user
  | sendLoop (l : SendLocals)
  | sendChunk (l : SendLocals) (mwnd iwnd : Nat)
  | transmit (k : Caller)
  | transmitLocked (k : Caller)
  | transmitSleep (k : Caller)
  | recvLoop (msgLen : UInt32)
  | recvSleep (msgLen : UInt32)
  | shutdownLoop
  | shutdownSleep
  deriving DecidableEq, Repr

/-- The socket, its thread, the value its last call returned and the bytes
`tcp_recvmsg` has copied out so far. -/
structure Sys where
  sk : Sock := {}
  pc : Pc := .user
  ret : Int := 0
  received : List UInt8 := []

inductive Event where
  | connect (seed : UInt32)
  | sendmsg (msg : List UInt8)
  | recvmsg (msgLen : UInt32)
  | shutdown
  /-- The owner's thread runs to the next point of `Pc`. -/
  | app
  | receive (seg : Segment) (garbage : UInt16 × UInt8)
  | retransmitTimer
  | persistTimer
  | mslTimer
  | tick (ms : Nat)
  | wake
  deriving DecidableEq, Repr

def tcpConnect (s : Sock) (seed : UInt32) : Sock :=
  let iss := (randR seed).1
  let s := { tcpCreateTcb { s with sockState := .connecting } with sndIss := iss }
  tcpTxQueueAddSkb s (tcpCreateSkb s iss 0 { syn := true } (tcpBuildSynOptions s) [])

def tcpShutdown (s : Sock) : Sock :=
  tcpTxQueueAddSkb s (tcpCreateSkb s s.sndNxt s.rcvNxt { ack := true, fin := true } [] [])

def sendWindow (s : Sock) (l : SendLocals) : Nat :=
  min (min s.cwnd.toNat (tcpSenderAvailableWindow s).toNat) (l.msg.length - l.sent)

/-- The zero window probe of `tcp_sendmsg`, queued with the persist timer set. -/
def queueProbe (s : Sock) (l : SendLocals) : Except Panic Sock :=
  if s.sndUna ≠ s.sndNxt then .error .probeUnacked
  else if s.sndWnd ≠ 0 then .error .probeWindow
  else
    let skb := tcpCreateSkb s s.sndNxt s.rcvNxt { ack := true, psh := l.sent + 1 = l.msg.length }
      [] ((l.msg.drop l.sent).take 1)
    .ok (tcpTxQueueAddSkb { s with persistTimer := some (s.now + 1000) } skb)

/-- The bytes the next pass of the inner loop of `tcp_sendmsg` cuts off; the last
pass is not shortened to what is left of `mwnd`. -/
def chunkLen (l : SendLocals) (mwnd : Nat) : Nat :=
  min (min l.mmss.toNat mwnd) (l.msg.length - l.sent)

def queueChunk (s : Sock) (l : SendLocals) (mwnd : Nat) : Sock :=
  let n := chunkLen l mwnd
  tcpTxQueueAddSkb s (tcpCreateSkb s (l.startingNxt + UInt32.ofNat l.sent) s.rcvNxt
    { ack := true, psh := l.sent + n = l.msg.length } [] ((l.msg.drop l.sent).take n))

/-- The scan of `tcp_recvmsg`: how many queued segments make up the reply, if
the queue holds a pushed segment or exactly `msg_len` bytes. -/
def recvScan (msgLen : UInt32) : List Segment → UInt16 → Except Panic (Option Nat)
  | [], _ => .ok none
  | seg :: rest, receivedLen =>
    let receivedLen := receivedLen + UInt16.ofNat seg.payload.length
    if msgLen < receivedLen.toUInt32 then .error .receivedPastEnd
    else if msgLen = receivedLen.toUInt32 ∨ seg.flags.psh then .ok (some 1)
    else (recvScan msgLen rest receivedLen).map fun found => found.map (· + 1)

def recvReturn (s : Sys) (n : Nat) : Sys :=
  let bytes := (s.sk.rxQueue.take n).flatMap Segment.payload
  { s with
    sk := { s.sk with rxQueue := s.sk.rxQueue.drop n }
    pc := .user
    ret := tcpReturnCode s.sk (asInt bytes.length)
    received := s.received ++ bytes }

def recvPass (s : Sys) (msgLen : UInt32) : Except Panic Sys :=
  if s.sk.state = .established ∨ s.sk.state = .finWait1 then
    (recvScan msgLen s.sk.rxQueue 0).map fun
      | some n => recvReturn s n
      | none => { s with sk := { s.sk with ownerReady := false }, pc := .recvSleep msgLen }
  else .ok (recvReturn s s.sk.rxQueue.length)

def transmitReturn (s : Sys) : Caller → Sys
  | .connect =>
    { s with sk := { s.sk with sockState := .connected }, pc := .user, ret := tcpReturnCode s.sk 0 }
  | .probe l => { s with sk := { s.sk with persistTimer := none }, pc := .transmit (.chunks l) }
  | .chunks l => { s with pc := .sendLoop l }
  | .shutdown => { s with pc := .shutdownLoop }

def transmitPass (s : Sys) (k : Caller) : Except Panic Sys :=
  match s.sk.sendHead with
  | some h =>
    if 0 < tcpSenderAvailableWindow s.sk then
      (transmitHead s.sk h).map fun sk => { s with sk := sk }
    else .ok { s with sk := { s.sk with ownerReady := false }, pc := .transmitSleep k }
  | none => .ok { s with sk := { s.sk with ownerReady := false }, pc := .transmitSleep k }

def sendRound (s : Sys) (l : SendLocals) : Except Panic Sys :=
  if l.sent < l.msg.length ∧ s.sk.state = .established then
    if sendWindow s.sk l = 0 then
      (queueProbe s.sk l).map fun sk => { s with sk := sk, pc := .transmit (.probe l) }
    else .ok { s with pc := .sendChunk l (sendWindow s.sk l) 0 }
  else .ok { s with pc := .user, ret := tcpReturnCode s.sk (asInt l.sent) }

/-- The owner's thread runs on from `pc`. `none` while it waits. -/
def appStep (s : Sys) : Option (Except Panic Sys) :=
  match s.pc with
  | .user => none
  | .sendLoop l => some (sendRound s l)
  | .sendChunk l mwnd iwnd =>
    some <|
      if iwnd < mwnd then
        if l.msg.length < l.sent + chunkLen l mwnd then .error .chunkPastEnd
        else .ok { s with
          sk := queueChunk s.sk l mwnd
          pc := .sendChunk { l with sent := l.sent + chunkLen l mwnd } mwnd (iwnd + chunkLen l mwnd) }
      else .ok { s with pc := .transmit (.chunks l) }
  | .transmit k =>
    some (.ok (if s.sk.txQueue = [] then transmitReturn s k else { s with pc := .transmitLocked k }))
  | .transmitLocked k => some (transmitPass s k)
  | .transmitSleep k => if s.sk.ownerReady then some (.ok { s with pc := .transmit k }) else none
  | .recvLoop msgLen => some (recvPass s msgLen)
  | .recvSleep msgLen => if s.sk.ownerReady then some (.ok { s with pc := .recvLoop msgLen }) else none
  | .shutdownLoop =>
    some (.ok (if s.sk.state ≠ .close then
      { s with sk := { s.sk with ownerReady := false }, pc := .shutdownSleep }
      else { s with pc := .user, ret := 0 }))
  | .shutdownSleep => if s.sk.ownerReady then some (.ok { s with pc := .shutdownLoop }) else none

/-- A system call, made while the thread is in user mode. `ESHUTDOWN` is 108. -/
def call (s : Sys) (enter : Sys) : Option (Except Panic Sys) :=
  if s.pc ≠ .user then none
  else if s.sk.sockState = .disconnected then some (.ok { s with ret := -108 })
  else some (.ok enter)

/-- An interrupt: the handler `f` on the socket, unless interrupts are off. -/
def interrupt (s : Sys) (f : Sock → Except Panic Sock) : Option (Except Panic Sys) :=
  match s.pc with
  | .transmitLocked _ => none
  | _ => some ((f s.sk).map fun sk => { s with sk := sk })

def expired (timer : Option Nat) (now : Nat) : Bool := timer.any (· ≤ now)

def step (s : Sys) : Event → Option (Except Panic Sys)
  | .connect seed =>
    if s.pc ≠ .user then none
    else some (.ok { s with sk := tcpConnect s.sk seed, pc := .transmit .connect })
  | .sendmsg msg =>
    if msg.length < 2 ^ 32 then
      call s { s with pc := .sendLoop ⟨msg, min s.sk.sndMss s.sk.rcvMss, s.sk.sndNxt, 0⟩ }
    else none
  | .recvmsg msgLen => call s { s with pc := .recvLoop msgLen }
  | .shutdown => call s { s with sk := tcpShutdown s.sk, pc := .transmit .shutdown }
  | .app => appStep s
  | .receive seg garbage => interrupt s (fun sk => tcpHandler sk seg garbage)
  | .retransmitTimer =>
    if expired s.sk.retransmitTimer s.sk.now then interrupt s tcpRetransmitTimer else none
  | .persistTimer => if expired s.sk.persistTimer s.sk.now then interrupt s tcpPersistTimer else none
  | .mslTimer => if expired s.sk.mslTimer s.sk.now then interrupt s tcpMslTimer else none
  | .tick ms => interrupt s (fun sk => .ok { sk with now := sk.now + ms })
  | .wake => interrupt s (fun sk => .ok (wakeOwner sk))

def advance (s : Sys) (e : Event) : Option Sys :=
  match step s e with
  | some (.ok t) => some t
  | _ => none

end Mos.Tcp

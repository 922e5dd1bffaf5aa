import Mos.Proofs.Inversion

namespace Mos.Tcp
open Machine

theorem retransmit_ok {s t : Sock} (h : tcpRetransmitTimer s = .ok t) :
    ∃ skb rest n, s.txQueue = skb :: rest ∧ (s.rttTime ≠ 0 → skb.endSeq = s.rttEndSeq) ∧
      t.view = { s.view with
        state := nextState s.state skb.flags
        retransmit := some n
        head := some skb.addr
        rttTime := 0 } ∧
      t.wire = skb :: s.wire := by
  unfold tcpRetransmitTimer at h
  dsimp only at h
  split at h
  · cases h
  · rename_i skb rest hq
    split at h
    · cases h
    · rename_i hrtt
      cases h
      refine ⟨skb, rest, s.now + (s.rto * 2).toNat, hq, ?_, ?_, rfl⟩
      · intro hne
        by_contra hends
        exact hrtt ⟨hne, hends⟩
      · simp [Sock.view, tcpSendSkb, tcpStateTransition, activedSend]

theorem persist_ok {s t : Sock} (h : tcpPersistTimer s = .ok t) :
    s.sndWnd ≠ 0 ∧ t.view = { s.view with persist := none } ∧ t.wire = s.wire ∨
    s.sndWnd = 0 ∧ ∃ skb rest n, s.txQueue = skb :: rest ∧ skb.payload.length = 1 ∧
      t.view = { s.view with state := nextState s.state skb.flags, persist := some n } ∧
      t.wire = skb :: s.wire := by
  unfold tcpPersistTimer at h
  split at h
  · rename_i hw
    cases h
    exact .inl ⟨hw, rfl, rfl⟩
  · rename_i hw
    split at h
    · cases h
    · rename_i skb rest hq
      split at h
      · cases h
      · rename_i hl
        cases h
        refine .inr ⟨by simpa using hw, skb, rest, s.now + (s.persistBackoff * 2).toNat, hq,
          by simpa using hl, ?_, rfl⟩
        rw [view_send, SendView.send_again]
        rfl

theorem msl_ok {s t : Sock} (h : tcpMslTimer s = .ok t) :
    (s.state = .timeWait ∨ s.state = .lastAck) ∧ t.view = { s.view with
      state := .close, msl := none, retransmit := none, persist := none, rttTime := 0, rttEnd := 0 } ∧
      t.wire = s.wire := by
  unfold tcpMslTimer at h
  split at h
  · rename_i hs
    cases h
    exact ⟨hs, rfl, rfl⟩
  · cases h

/-- One pass of the loop in `tcp_transmit`: the buffer at `send_head` goes out,
and is timed if none is. -/
theorem transmitHead_ok {s t : Sock} {h : Nat} (ok : transmitHead s h = .ok t) :
    ∃ skb, s.txQueue.find? (fun x => x.addr == h) = some skb ∧
      (s.rttTime = 0 → s.txQueue.head?.map SkBuff.addr = some h) ∧
      t.view = { s.view.send skb false (s.now + s.rto.toNat) with
        head := (following s.txQueue h).map SkBuff.addr
        rttTime := if s.rttTime ≠ 0 then s.rttTime else s.now
        rttEnd := if s.rttTime ≠ 0 then s.rttEndSeq else skb.endSeq } ∧
      t.wire = skb :: s.wire := by
  unfold transmitHead at ok
  split at ok
  · cases ok
  · rename_i skb hf
    refine ⟨skb, hf, ?_⟩
    have ha : skb.addr = h := by simpa using List.find?_some hf
    dsimp only at ok
    split at ok
    · rename_i hr
      cases ok
      refine ⟨fun h0 => absurd h0 hr, ?_, rfl⟩
      change s.rttTime ≠ 0 at hr
      rw [if_pos hr, if_pos hr]
      rfl
    · rename_i hr
      change ¬ s.rttTime ≠ 0 at hr
      split at ok
      · cases ok
      · rename_i hfirst
        cases ok
        refine ⟨fun _ => Decidable.not_not.mp hfirst, ?_, rfl⟩
        rw [if_neg hr, if_neg hr]
        simp [Sock.view, tcpSendSkb, tcpStateTransition, SendView.send, ha]

theorem queueProbe_ok {s t : Sock} {l : SendLocals} (h : queueProbe s l = .ok t) :
    s.sndUna = s.sndNxt ∧ s.sndWnd = 0 ∧ t = tcpTxQueueAddSkb
      { s with persistTimer := some (s.now + 1000) }
      (tcpCreateSkb s s.sndNxt s.rcvNxt { ack := true, psh := l.sent + 1 = l.msg.length } []
        ((l.msg.drop l.sent).take 1)) := by
  unfold queueProbe at h
  split at h
  · cases h
  · rename_i hu
    split at h
    · cases h
    · rename_i hw
      exact ⟨by simpa using hu, by simpa using hw, (Except.ok.inj h).symm⟩

def Pc.unlocked : Pc → Bool
  | .transmitLocked _ => false
  | _ => true

/-- What one step of the system does, with everything that enabled it. -/
inductive Moves (s : Sys) : Event → Sys → Prop where
  | refused {e : Event} (hp : s.pc = .user) : Moves s e { s with ret := -108 }
  | connect (seed : UInt32) (hp : s.pc = .user) :
      Moves s (.connect seed) { s with sk := tcpConnect s.sk seed, pc := .transmit .connect }
  | sendmsg (msg : List UInt8) (hp : s.pc = .user) (short : msg.length < 2 ^ 32) :
      Moves s (.sendmsg msg)
        { s with pc := .sendLoop ⟨msg, min s.sk.sndMss s.sk.rcvMss, s.sk.sndNxt, 0⟩ }
  | recvmsg (msgLen : UInt32) (hp : s.pc = .user) :
      Moves s (.recvmsg msgLen) { s with pc := .recvLoop msgLen }
  | shutdown (hp : s.pc = .user) :
      Moves s .shutdown { s with sk := tcpShutdown s.sk, pc := .transmit .shutdown }
  | sendReturn {l : SendLocals} (hp : s.pc = .sendLoop l)
      (done : ¬ (l.sent < l.msg.length ∧ s.sk.state = .established)) :
      Moves s .app { s with pc := .user, ret := tcpReturnCode s.sk (asInt l.sent) }
  | probe {l : SendLocals} {sk : Sock} (hp : s.pc = .sendLoop l) (more : l.sent < l.msg.length)
      (hs : s.sk.state = .established) (ok : queueProbe s.sk l = .ok sk) :
      Moves s .app { s with sk := sk, pc := .transmit (.probe l) }
  | round {l : SendLocals} (hp : s.pc = .sendLoop l) (more : l.sent < l.msg.length)
      (hs : s.sk.state = .established) (pos : sendWindow s.sk l ≠ 0) :
      Moves s .app { s with pc := .sendChunk l (sendWindow s.sk l) 0 }
  | chunk {l : SendLocals} {mwnd iwnd : Nat} (hp : s.pc = .sendChunk l mwnd iwnd) (lt : iwnd < mwnd)
      (le : l.sent + chunkLen l mwnd ≤ l.msg.length) :
      Moves s .app { s with
        sk := queueChunk s.sk l mwnd
        pc := .sendChunk { l with sent := l.sent + chunkLen l mwnd } mwnd (iwnd + chunkLen l mwnd) }
  | chunksDone {l : SendLocals} {mwnd iwnd : Nat} (hp : s.pc = .sendChunk l mwnd iwnd)
      (ge : mwnd ≤ iwnd) : Moves s .app { s with pc := .transmit (.chunks l) }
  | transmitReturn {k : Caller} (hp : s.pc = .transmit k) (empty : s.sk.txQueue = []) :
      Moves s .app (transmitReturn s k)
  | lock {k : Caller} (hp : s.pc = .transmit k) (full : s.sk.txQueue ≠ []) :
      Moves s .app { s with pc := .transmitLocked k }
  | transmit {k : Caller} {h : Nat} {sk : Sock} (hp : s.pc = .transmitLocked k)
      (head : s.sk.sendHead = some h) (avail : 0 < tcpSenderAvailableWindow s.sk)
      (ok : transmitHead s.sk h = .ok sk) : Moves s .app { s with sk := sk }
  | sleep {k : Caller} (hp : s.pc = .transmitLocked k) :
      Moves s .app { s with sk := { s.sk with ownerReady := false }, pc := .transmitSleep k }
  | awake {k : Caller} (hp : s.pc = .transmitSleep k) : Moves s .app { s with pc := .transmit k }
  | recvReturn {msgLen : UInt32} {n : Nat} (hp : s.pc = .recvLoop msgLen) : Moves s .app (recvReturn s n)
  | recvWait {msgLen : UInt32} (hp : s.pc = .recvLoop msgLen) :
      Moves s .app { s with sk := { s.sk with ownerReady := false }, pc := .recvSleep msgLen }
  | recvAwake {msgLen : UInt32} (hp : s.pc = .recvSleep msgLen) :
      Moves s .app { s with pc := .recvLoop msgLen }
  | shutdownReturn (hp : s.pc = .shutdownLoop) (hs : s.sk.state = .close) :
      Moves s .app { s with pc := .user, ret := 0 }
  | shutdownWait (hp : s.pc = .shutdownLoop) :
      Moves s .app { s with sk := { s.sk with ownerReady := false }, pc := .shutdownSleep }
  | shutdownAwake (hp : s.pc = .shutdownSleep) : Moves s .app { s with pc := .shutdownLoop }
  | receive {seg : Segment} {garbage : UInt16 × UInt8} {sk : Sock} (unlocked : s.pc.unlocked = true)
      (ok : tcpHandler s.sk seg garbage = .ok sk) : Moves s (.receive seg garbage) { s with sk := sk }
  | retransmitTimer {sk : Sock} (unlocked : s.pc.unlocked = true) (armed : s.sk.retransmitTimer ≠ none)
      (ok : tcpRetransmitTimer s.sk = .ok sk) : Moves s .retransmitTimer { s with sk := sk }
  | persistTimer {sk : Sock} (unlocked : s.pc.unlocked = true) (armed : s.sk.persistTimer ≠ none)
      (ok : tcpPersistTimer s.sk = .ok sk) : Moves s .persistTimer { s with sk := sk }
  | mslTimer {sk : Sock} (unlocked : s.pc.unlocked = true) (armed : s.sk.mslTimer ≠ none)
      (ok : tcpMslTimer s.sk = .ok sk) : Moves s .mslTimer { s with sk := sk }
  | tick (ms : Nat) (unlocked : s.pc.unlocked = true) :
      Moves s (.tick ms) { s with sk := { s.sk with now := s.sk.now + ms } }
  | wake (unlocked : s.pc.unlocked = true) : Moves s .wake { s with sk := wakeOwner s.sk }

theorem call_ok {s t u : Sys} (h : call s u = some (.ok t)) :
    s.pc = .user ∧ (t = { s with ret := -108 } ∨ t = u) := by
  unfold call at h
  split at h
  · cases h
  · rename_i hp
    refine ⟨by simpa using hp, ?_⟩
    split at h
    · exact .inl (Except.ok.inj (Option.some.inj h)).symm
    · exact .inr (Except.ok.inj (Option.some.inj h)).symm

theorem interrupt_ok {s t : Sys} {f : Sock → Except Panic Sock} (h : interrupt s f = some (.ok t)) :
    s.pc.unlocked = true ∧ ∃ sk, f s.sk = .ok sk ∧ t = { s with sk := sk } := by
  unfold interrupt at h
  split at h
  · cases h
  · rename_i hp
    obtain ⟨sk, hf, ht⟩ := map_ok.mp (Option.some.inj h)
    refine ⟨?_, sk, hf, ht.symm⟩
    cases hpc : s.pc <;> first | rfl | exact absurd hpc (hp _)

theorem expired_armed {timer : Option Nat} {now : Nat} (h : expired timer now = true) :
    timer ≠ none := by
  rintro rfl
  cases h

theorem sendRound_moves {s t : Sys} {l : SendLocals} (hp : s.pc = .sendLoop l)
    (h : sendRound s l = .ok t) : Moves s .app t := by
  unfold sendRound at h
  split at h
  · rename_i hm
    split at h
    · obtain ⟨sk, hq, rfl⟩ := map_ok.mp h
      exact .probe hp hm.1 hm.2 hq
    · rename_i hw
      cases h
      exact .round hp hm.1 hm.2 hw
  · rename_i hd
    cases h
    exact .sendReturn hp hd

theorem transmitPass_moves {s t : Sys} {k : Caller} (hp : s.pc = .transmitLocked k)
    (h : transmitPass s k = .ok t) : Moves s .app t := by
  unfold transmitPass at h
  split at h
  · rename_i a ha
    split at h
    · rename_i hw
      obtain ⟨sk, hq, rfl⟩ := map_ok.mp h
      exact .transmit hp ha hw hq
    · cases h
      exact .sleep hp
  · cases h
    exact .sleep hp

theorem recvPass_moves {s t : Sys} {n : UInt32} (hp : s.pc = .recvLoop n)
    (h : recvPass s n = .ok t) : Moves s .app t := by
  unfold recvPass at h
  split at h
  · obtain ⟨found, -, rfl⟩ := map_ok.mp h
    cases found with
    | some m => exact .recvReturn hp
    | none => exact .recvWait hp
  · cases h
    exact .recvReturn hp

theorem appStep_moves {s t : Sys} (h : appStep s = some (.ok t)) : Moves s .app t := by
  unfold appStep at h
  split at h
  · cases h
  · rename_i hp
    exact sendRound_moves hp (Option.some.inj h)
  · rename_i hp
    split at h
    · rename_i hlt
      split at h
      · cases h
      · rename_i hle
        cases h
        exact .chunk hp hlt (Nat.not_lt.mp hle)
    · rename_i hge
      cases h
      exact .chunksDone hp (Nat.not_lt.mp hge)
  · rename_i hp
    cases h
    split
    · rename_i he
      exact .transmitReturn hp he
    · rename_i he
      exact .lock hp he
  · rename_i hp
    exact transmitPass_moves hp (Option.some.inj h)
  · rename_i hp
    split at h
    · cases h
      exact .awake hp
    · cases h
  · rename_i hp
    exact recvPass_moves hp (Option.some.inj h)
  · rename_i hp
    split at h
    · cases h
      exact .recvAwake hp
    · cases h
  · rename_i hp
    cases h
    split
    · exact .shutdownWait hp
    · rename_i hs
      exact .shutdownReturn hp (by simpa using hs)
  · rename_i hp
    split at h
    · cases h
      exact .shutdownAwake hp
    · cases h

/-- Every step is one of the moves, which the invariants go over. -/
theorem moves_of_step {s t : Sys} {e : Event} (h : step s e = some (.ok t)) : Moves s e t := by
  cases e with
  | connect seed =>
    simp only [step] at h
    split at h
    · cases h
    · rename_i hp
      cases h
      exact .connect seed (by simpa using hp)
  | sendmsg msg =>
    simp only [step] at h
    split at h
    · rename_i hl
      obtain ⟨hp, rfl | rfl⟩ := call_ok h
      · exact .refused hp
      · exact .sendmsg msg hp hl
    · cases h
  | recvmsg n =>
    obtain ⟨hp, rfl | rfl⟩ := call_ok h
    · exact .refused hp
    · exact .recvmsg n hp
  | shutdown =>
    obtain ⟨hp, rfl | rfl⟩ := call_ok h
    · exact .refused hp
    · exact .shutdown hp
  | app => exact appStep_moves h
  | receive seg garbage =>
    simp only [step] at h
    obtain ⟨hu, sk, hf, rfl⟩ := interrupt_ok h
    exact .receive hu hf
  | retransmitTimer =>
    simp only [step] at h
    split at h
    · rename_i ha
      obtain ⟨hu, sk, hf, rfl⟩ := interrupt_ok h
      exact .retransmitTimer hu (expired_armed ha) hf
    · cases h
  | persistTimer =>
    simp only [step] at h
    split at h
    · rename_i ha
      obtain ⟨hu, sk, hf, rfl⟩ := interrupt_ok h
      exact .persistTimer hu (expired_armed ha) hf
    · cases h
  | mslTimer =>
    simp only [step] at h
    split at h
    · rename_i ha
      obtain ⟨hu, sk, hf, rfl⟩ := interrupt_ok h
      exact .mslTimer hu (expired_armed ha) hf
    · cases h
  | tick ms =>
    simp only [step] at h
    obtain ⟨hu, sk, hf, rfl⟩ := interrupt_ok h
    cases hf
    exact .tick ms hu
  | wake =>
    simp only [step] at h
    obtain ⟨hu, sk, hf, rfl⟩ := interrupt_ok h
    cases hf
    exact .wake hu

theorem moves_of_advance {s t : Sys} {e : Event} (h : advance s e = some t) : Moves s e t := by
  unfold advance at h
  split at h
  · rename_i u hu
    exact moves_of_step (Option.some.inj h ▸ hu)
  · cases h

def failsWith (p : Panic) : Option (Except Panic Sys) → Bool
  | some (.error q) => p == q
  | _ => false

theorem failsWith_eq {p : Panic} {o : Option (Except Panic Sys)} (h : failsWith p o = true) :
    o = some (.error p) := by
  unfold failsWith at h
  split at h
  · rw [beq_iff_eq.mp h]
  · cases h

def synAck (window : UInt16) : Segment where
  seq := 5
  ackNumber := 476707714
  flags := { syn := true, ack := true }
  window := window

def pureAck (ackNumber : UInt32) (window : UInt16) : Segment where
  seq := 6
  ackNumber := ackNumber
  flags := { ack := true }
  window := window

def pureFin (ackNumber : UInt32) (window : UInt16) : Segment where
  seq := 6
  ackNumber := ackNumber
  flags := { fin := true, ack := true }
  window := window

/-- The steps from a fresh socket to a connection open on both sides, if the peer
answers the SYN by `reply`. -/
def opening (reply : Segment) : List Event :=
  [.tick 1000, .connect 1, .app, .app, .app, .receive reply (0, 0), .app, .app]

end Mos.Tcp

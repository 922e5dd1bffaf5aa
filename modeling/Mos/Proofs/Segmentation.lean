import Mos.Proofs.Frame

namespace Mos.Tcp
open Machine List

/-- The segments `xs` carry the first `n` bytes of a message from the number `start` on, in
order and without a gap, at most `mmss` bytes each; one that ends the message is pushed. -/
structure Tiled (msg : List UInt8) (mmss start : UInt32) (n : Nat) (xs : List SkBuff) : Prop where
  bytes : xs.flatMap SkBuff.payload = msg.take n
  each : ∀ ys x zs, xs = ys ++ x :: zs →
    x.seq = start + UInt32.ofNat (ys.flatMap SkBuff.payload).length ∧
    0 < x.payload.length ∧ x.payload.length ≤ mmss.toNat ∧
    (x.flags.psh = true ↔ zs = [] ∧ n = msg.length)

theorem Tiled.nil (msg : List UInt8) (mmss start : UInt32) : Tiled msg mmss start 0 [] := by
  refine ⟨rfl, ?_⟩
  intro ys x zs h
  simp at h

theorem Tiled.snoc {msg : List UInt8} {mmss start : UInt32} {n k : Nat} {xs : List SkBuff}
    {x : SkBuff} (h : Tiled msg mmss start n xs) (le : n + k ≤ msg.length) (pos : 0 < k)
    (short : k ≤ mmss.toNat) (seq : x.seq = start + UInt32.ofNat n)
    (payload : x.payload = (msg.drop n).take k) (psh : x.flags.psh = decide (n + k = msg.length)) :
    Tiled msg mmss start (n + k) (xs ++ [x]) := by
  have hlen : x.payload.length = k := by
    rw [payload, length_take, length_drop]
    omega
  constructor
  · rw [flatMap_append, h.bytes, flatMap_singleton, payload, take_add]
  · intro ys y zs hxs
    rcases eq_nil_or_concat zs with rfl | ⟨zs, z, rfl⟩
    · obtain ⟨rfl, hx⟩ := append_inj' hxs rfl
      obtain rfl := (List.cons.inj hx).1
      have hn : (xs.flatMap SkBuff.payload).length = n := by
        rw [h.bytes, length_take]
        omega
      refine ⟨by rw [hn, seq], by omega, by omega, ?_⟩
      simp [psh]
    · rw [concat_eq_append, ← cons_append, ← append_assoc] at hxs
      obtain ⟨rfl, -⟩ := append_inj' hxs rfl
      obtain ⟨hseq, hpos, hle, hpsh⟩ := h.each ys y zs rfl
      refine ⟨hseq, hpos, hle, ?_⟩
      constructor
      · intro hy
        have := (hpsh.mp hy).2
        omega
      · rintro ⟨hz, -⟩
        simp at hz

/-- The system, with the segments queued since a call of `tcp_sendmsg` began. -/
structure Sending where
  sys : Sys
  queued : List SkBuff

def queueStep (s : Sending) (e : Event) : Option Sending :=
  (advance s.sys e).map fun t => ⟨t, s.queued ++ t.sk.txQueue.drop s.sys.sk.txQueue.length⟩

def sendmsgEntered (s : Sys) (msg : List UInt8) : Sending :=
  ⟨{ s with pc := .sendLoop ⟨msg, min s.sk.sndMss s.sk.rcvMss, s.sk.sndNxt, 0⟩ }, []⟩

def Event.isCall : Event → Bool
  | .connect _ | .sendmsg _ | .recvmsg _ | .shutdown => true
  | _ => false

def Pc.atRound : Pc → Bool
  | .sendLoop _ => true
  | _ => false

/-- The connection stays open, and whenever a round of `tcp_sendmsg` begins the peer's
window is. -/
structure StaysOpen (s : Sending) (e : Event) : Prop where
  established : s.sys.sk.state = .established
  inside : e.isCall = false
  window : s.sys.pc.atRound = true → 0 < tcpSenderAvailableWindow s.sys.sk

instance (s : Sending) (e : Event) : Decidable (StaysOpen s e) :=
  decidable_of_iff (s.sys.sk.state = .established ∧ e.isCall = false ∧
      (s.sys.pc.atRound = true → 0 < tcpSenderAvailableWindow s.sys.sk))
    ⟨fun h => ⟨h.1, h.2.1, h.2.2⟩, fun h => ⟨h.established, h.inside, h.window⟩⟩

structure Cuts (msg : List UInt8) (mmss start : UInt32) (xs : List SkBuff) (l : SendLocals) : Prop where
  tiled : Tiled msg mmss start l.sent xs
  sent : l.sent ≤ msg.length
  locals : l.msg = msg ∧ l.mmss = mmss ∧ l.startingNxt = start

inductive Stage (msg : List UInt8) (mmss start : UInt32) (xs : List SkBuff) (ret : Int) : Pc → Prop where
  | loop {l : SendLocals} (cuts : Cuts msg mmss start xs l) : Stage msg mmss start xs ret (.sendLoop l)
  | chunk {l : SendLocals} {mwnd iwnd : Nat} (cuts : Cuts msg mmss start xs l) (pos : 0 < mwnd)
      (left : mwnd + l.sent ≤ msg.length + iwnd) : Stage msg mmss start xs ret (.sendChunk l mwnd iwnd)
  | transmit {l : SendLocals} (cuts : Cuts msg mmss start xs l) :
      Stage msg mmss start xs ret (.transmit (.chunks l))
  | locked {l : SendLocals} (cuts : Cuts msg mmss start xs l) :
      Stage msg mmss start xs ret (.transmitLocked (.chunks l))
  | sleep {l : SendLocals} (cuts : Cuts msg mmss start xs l) :
      Stage msg mmss start xs ret (.transmitSleep (.chunks l))
  | returned (all : Tiled msg mmss start msg.length xs) (length : ret = asInt msg.length) :
      Stage msg mmss start xs ret .user

variable {msg : List UInt8} {mmss start : UInt32} {xs : List SkBuff} {ret : Int}

variable {l : SendLocals} {mwnd iwnd : Nat} {s t : Sys} {e : Event}

theorem Stage.cuts {pc : Pc} (h : Stage msg mmss start xs ret pc)
    (hl : pc.locals = some l) : Cuts msg mmss start xs l := by
  cases h with
  | loop cuts | chunk cuts | transmit cuts | locked cuts | sleep cuts =>
    cases hl
    exact cuts
  | returned => cases hl

theorem chunkLen_pos (hm : 0 < l.mmss.toNat) (lt : iwnd < mwnd)
    (left : mwnd + l.sent ≤ l.msg.length + iwnd) : 0 < chunkLen l mwnd := by
  unfold chunkLen
  omega

theorem queueChunk_payload (s : Sock) (mwnd : Nat) (hm : l.mmss.toNat < 65536) :
    ∃ x, (queueChunk s l mwnd).txQueue = s.txQueue ++ [x] ∧
      x.seq = l.startingNxt + UInt32.ofNat l.sent ∧
      x.payload = (l.msg.drop l.sent).take (chunkLen l mwnd) ∧
      x.flags.psh = decide (l.sent + chunkLen l mwnd = l.msg.length) := by
  refine ⟨_, rfl, rfl, ?_, rfl⟩
  have hlen : ((l.msg.drop l.sent).take (chunkLen l mwnd)).length < 65536 := by
    simp only [length_take, length_drop, chunkLen]
    omega
  simp only [tcpCreateSkb, Nat.mod_eq_of_lt hlen, take_length]

theorem advance_interrupt (inside : e.isCall = false) (app : e ≠ .app)
    (h : advance s e = some t) : ∃ sk, t = { s with sk := sk } := by
  have of_interrupt {f : Sock → Except Panic Sock} (hi : interrupt s f = some (.ok t)) :
      ∃ sk, t = { s with sk := sk } := by
    obtain ⟨-, sk, -, ht⟩ := interrupt_ok hi
    exact ⟨sk, ht⟩
  have hstep : step s e = some (.ok t) := by
    unfold advance at h
    split at h
    · rename_i u hu
      rw [hu, Option.some.inj h]
    · cases h
  cases e with
  | connect | sendmsg | recvmsg | shutdown => cases inside
  | app => exact absurd rfl app
  | receive | tick | wake =>
    simp only [step] at hstep
    exact of_interrupt hstep
  | retransmitTimer | persistTimer | mslTimer =>
    simp only [step] at hstep
    split at hstep
    · exact of_interrupt hstep
    · cases hstep

theorem interrupt_queue (hs : s.sk.state = .established)
    (inside : e.isCall = false) (app : e ≠ .app) (hm : Moves s e t) :
    t.sk.txQueue.length ≤ s.sk.txQueue.length := by
  cases hm with
  | connect | sendmsg | recvmsg | shutdown => cases inside
  | refused | tick | wake => exact le_rfl
  | receive unlocked ok =>
    have hn : s.sk.state ≠ .synRecv := by simp [hs]
    exact (handler_handled hn ok).framed.queue.length_le
  | retransmitTimer unlocked armed ok =>
    obtain ⟨x, rest, n, -, -, hv, -⟩ := retransmit_ok ok
    exact le_of_eq (congrArg (fun v : SendView => v.queue.length) hv)
  | persistTimer unlocked armed ok =>
    rcases persist_ok ok with ⟨-, hv, -⟩ | ⟨-, x, rest, n, -, -, hv, -⟩
    · exact le_of_eq (congrArg (fun v : SendView => v.queue.length) hv)
    · exact le_of_eq (congrArg (fun v : SendView => v.queue.length) hv)
  | mslTimer unlocked armed ok =>
    obtain ⟨-, hv, -⟩ := msl_ok ok
    exact le_of_eq (congrArg (fun v : SendView => v.queue.length) hv)
  | _ => exact absurd rfl app

theorem Stage.round (cuts : Cuts msg mmss start xs l)
    (hp : s.pc = .sendLoop l) (hs : s.sk.state = .established)
    (window : 0 < tcpSenderAvailableWindow s.sk) (hm : Moves s .app t) :
    Stage msg mmss start xs t.ret t.pc ∧ t.sk = s.sk := by
  cases hm with
  | sendReturn hp' done =>
    obtain rfl := Pc.sendLoop.inj (hp.symm.trans hp')
    have hlen : l.sent = msg.length := by
      have := cuts.sent
      rw [cuts.locals.1] at done
      by_contra hne
      exact done ⟨by omega, hs⟩
    refine ⟨.returned (hlen ▸ cuts.tiled) ?_, rfl⟩
    simp [tcpReturnCode, hs, hlen]
  | probe hp' more hs' ok =>
    obtain ⟨hu, hz, -⟩ := queueProbe_ok ok
    simp [tcpSenderAvailableWindow, hu, hz] at window
  | round hp' more hs' pos =>
    obtain rfl := Pc.sendLoop.inj (hp.symm.trans hp')
    refine ⟨.chunk cuts (Nat.pos_of_ne_zero pos) ?_, rfl⟩
    have := cuts.locals.1
    subst this
    unfold sendWindow
    omega
  | refused hp' | chunk hp' | chunksDone hp' | transmitReturn hp' | lock hp' | transmit hp' | sleep hp'
  | awake hp' | recvReturn hp' | recvWait hp' | recvAwake hp' | shutdownReturn hp' | shutdownWait hp'
  | shutdownAwake hp' =>
    rw [hp] at hp'
    cases hp'

theorem Stage.cut (cuts : Cuts msg mmss start xs l)
    (pos : 0 < mmss.toNat) (short : mmss.toNat < 65536) (hp : s.pc = .sendChunk l mwnd iwnd)
    (hw : 0 < mwnd) (left : mwnd + l.sent ≤ msg.length + iwnd) (hm : Moves s .app t) :
    Stage msg mmss start (xs ++ t.sk.txQueue.drop s.sk.txQueue.length) t.ret t.pc := by
  obtain ⟨rfl, rfl, rfl⟩ := cuts.locals
  cases hm with
  | chunk hp' lt le =>
    obtain ⟨rfl, rfl, rfl⟩ := Pc.sendChunk.inj (hp.symm.trans hp')
    obtain ⟨x, hq, hseq, hpay, hpsh⟩ := queueChunk_payload s.sk mwnd short
    have hc := chunkLen_pos pos lt left
    have hle : chunkLen l mwnd ≤ l.mmss.toNat := by
      unfold chunkLen
      omega
    rw [hq, drop_left]
    refine .chunk ⟨cuts.tiled.snoc le hc hle hseq hpay hpsh, le, rfl, rfl, rfl⟩ hw ?_
    dsimp only
    omega
  | chunksDone hp' ge =>
    obtain ⟨rfl, rfl, rfl⟩ := Pc.sendChunk.inj (hp.symm.trans hp')
    rw [drop_length, append_nil]
    exact .transmit ⟨cuts.tiled, cuts.sent, rfl, rfl, rfl⟩
  | refused hp' | sendReturn hp' | probe hp' | round hp' | transmitReturn hp' | lock hp'
  | transmit hp' | sleep hp' | awake hp' | recvReturn hp' | recvWait hp' | recvAwake hp'
  | shutdownReturn hp' | shutdownWait hp' | shutdownAwake hp' =>
    rw [hp] at hp'
    cases hp'

theorem Stage.send (cuts : Cuts msg mmss start xs l)
    (hp : s.pc = .transmit (.chunks l) ∨ s.pc = .transmitLocked (.chunks l) ∨
      s.pc = .transmitSleep (.chunks l)) (hm : Moves s .app t) :
    Stage msg mmss start xs t.ret t.pc ∧ t.sk.txQueue.length ≤ s.sk.txQueue.length := by
  cases hm with
  | @transmitReturn k hp' empty =>
    rw [hp'] at hp
    simp only [Pc.transmit.injEq, reduceCtorEq, or_false] at hp
    subst hp
    exact ⟨.loop cuts, le_rfl⟩
  | @lock k hp' full =>
    rw [hp'] at hp
    simp only [Pc.transmit.injEq, reduceCtorEq, or_false] at hp
    subst hp
    exact ⟨.locked cuts, le_rfl⟩
  | @transmit k h sk hp' head avail ok =>
    obtain ⟨x, -, -, hv, -⟩ := transmitHead_ok ok
    rw [hp'] at hp
    simp only [Pc.transmitLocked.injEq, reduceCtorEq, or_false, false_or] at hp
    subst hp
    refine ⟨?_, le_of_eq (congrArg (fun v : SendView => v.queue.length) hv)⟩
    rw [hp']
    exact .locked cuts
  | @sleep k hp' =>
    rw [hp'] at hp
    simp only [Pc.transmitLocked.injEq, reduceCtorEq, or_false, false_or] at hp
    subst hp
    exact ⟨.sleep cuts, le_rfl⟩
  | @awake k hp' =>
    rw [hp'] at hp
    simp only [Pc.transmitSleep.injEq, reduceCtorEq, false_or] at hp
    subst hp
    exact ⟨.transmit cuts, le_rfl⟩
  | refused hp' | sendReturn hp' | probe hp' | round hp' | chunk hp' | chunksDone hp' | recvReturn hp'
  | recvWait hp' | recvAwake hp' | shutdownReturn hp' | shutdownWait hp' | shutdownAwake hp' =>
    rw [hp'] at hp
    simp at hp

/-- The chunks queued so far and the rest of the message make the message. -/
theorem Stage.step {s t : Sending} (pos : 0 < mmss.toNat) (short : mmss.toNat < 65536)
    (h : Stage msg mmss start s.queued s.sys.ret s.sys.pc) (open_ : StaysOpen s e)
    (next : queueStep s e = some t) : Stage msg mmss start t.queued t.sys.ret t.sys.pc := by
  obtain ⟨u, hu, rfl⟩ := Option.map_eq_some_iff.mp next
  have hm := moves_of_advance hu
  by_cases app : e = .app
  · subst app
    generalize hp : s.sys.pc = pc at h
    cases h with
    | loop cuts =>
      obtain ⟨hst, hsk⟩ := Stage.round cuts hp open_.established (open_.window (by rw [hp]; rfl)) hm
      rwa [hsk, drop_length, append_nil]
    | chunk cuts hw left => exact Stage.cut cuts pos short hp hw left hm
    | transmit cuts =>
      obtain ⟨hst, hq⟩ := Stage.send cuts (.inl hp) hm
      rwa [drop_eq_nil_of_le hq, append_nil]
    | locked cuts =>
      obtain ⟨hst, hq⟩ := Stage.send cuts (.inr (.inl hp)) hm
      rwa [drop_eq_nil_of_le hq, append_nil]
    | sleep cuts =>
      obtain ⟨hst, hq⟩ := Stage.send cuts (.inr (.inr hp)) hm
      rwa [drop_eq_nil_of_le hq, append_nil]
    | returned all length => simp [advance, Tcp.step, appStep, hp] at hu
  · have hq := interrupt_queue open_.established open_.inside app hm
    obtain ⟨sk, rfl⟩ := advance_interrupt open_.inside app hu
    rwa [drop_eq_nil_of_le hq, append_nil]

theorem chunk_loop_ends (hp : s.pc = .sendChunk l mwnd iwnd)
    (pos : 0 < l.mmss.toNat) (left : mwnd + l.sent ≤ l.msg.length + iwnd) :
    ∃ t l', Run advance (fun _ e => e = .app) s t ∧ t.pc = .transmit (.chunks l') ∧
      l.sent ≤ l'.sent ∧ (iwnd < mwnd → l.sent < l'.sent) := by
  obtain ⟨k, hk⟩ : ∃ k, k = mwnd - iwnd := ⟨_, rfl⟩
  induction k using Nat.strong_induction_on generalizing s l iwnd with
  | _ k ih =>
    by_cases lt : iwnd < mwnd
    · have hc := chunkLen_pos pos lt left
      have hle : l.sent + chunkLen l mwnd ≤ l.msg.length := by
        unfold chunkLen
        omega
      obtain ⟨u, next, hu⟩ : ∃ u, advance s .app = some u ∧ u.pc =
          .sendChunk { l with sent := l.sent + chunkLen l mwnd } mwnd (iwnd + chunkLen l mwnd) := by
        simp [advance, Tcp.step, appStep, hp, lt, Nat.not_lt.mpr hle]
      obtain ⟨t, l', run, ht, hmono, -⟩ := ih _ (by omega) hu pos (by dsimp only; omega) rfl
      dsimp only at hmono
      have first : Run advance (fun _ e => e = .app) s u := .tail .refl rfl next
      exact ⟨t, l', first.trans run, ht, by omega, fun _ => by omega⟩
    · refine ⟨{ s with pc := .transmit (.chunks l) }, l, .tail .refl rfl ?_, rfl, le_rfl,
        fun h => absurd h lt⟩
      simp [advance, Tcp.step, appStep, hp, lt]

theorem round_ends (hp : s.pc = .sendLoop l) (pos : 0 < l.mmss.toNat)
    (more : l.sent < l.msg.length) (hs : s.sk.state = .established)
    (window : 0 < tcpSenderAvailableWindow s.sk) (cwnd : s.sk.cwnd ≠ 0) :
    ∃ t l', Run advance (fun _ e => e = .app) s t ∧ t.pc = .transmit (.chunks l') ∧
      l.sent < l'.sent := by
  have hw : 0 < sendWindow s.sk l := by
    have := UInt32.lt_iff_toNat_lt.mp window
    have : s.sk.cwnd.toNat ≠ 0 := fun hz => cwnd (UInt32.toNat_inj.mp hz)
    unfold sendWindow
    omega
  obtain ⟨u, next, hu⟩ : ∃ u, advance s .app = some u ∧ u.pc = .sendChunk l (sendWindow s.sk l) 0 := by
    simp [advance, Tcp.step, appStep, hp, sendRound, more, hs, Nat.ne_of_gt hw]
  have first : Run advance (fun _ e => e = .app) s u := .tail .refl rfl next
  have left : sendWindow s.sk l + l.sent ≤ l.msg.length + 0 := by
    unfold sendWindow
    omega
  obtain ⟨t, l', run, ht, -, hlt⟩ := chunk_loop_ends hu pos left
  exact ⟨t, l', first.trans run, ht, hlt hw⟩

/-- While the connection and the window stay open, what `tcp_sendmsg` has queued tiles what
it has sent of the message, and all of it when the call returns; every round that begins
with a congestion window ends and sends something. The length of a segment has 16 bits. -/
theorem message_segmented {s : Sys} {msg : List UInt8} {t : Sending}
    (pos : 0 < min s.sk.sndMss s.sk.rcvMss) (short : (min s.sk.sndMss s.sk.rcvMss).toNat < 65536)
    (run : Run queueStep StaysOpen (sendmsgEntered s msg) t) :
    (∀ l, t.sys.pc.locals = some l →
      Tiled msg (min s.sk.sndMss s.sk.rcvMss) s.sk.sndNxt l.sent t.queued) ∧
    (t.sys.pc = .user → t.sys.ret = asInt msg.length ∧
      Tiled msg (min s.sk.sndMss s.sk.rcvMss) s.sk.sndNxt msg.length t.queued) ∧
    (∀ l, t.sys.pc = .sendLoop l → l.sent < msg.length → t.sys.sk.state = .established →
      0 < tcpSenderAvailableWindow t.sys.sk → t.sys.sk.cwnd ≠ 0 →
      ∃ u l', Run advance (fun _ e => e = .app) t.sys u ∧ u.pc = .transmit (.chunks l') ∧
        l.sent < l'.sent) := by
  have hpos : 0 < (min s.sk.sndMss s.sk.rcvMss).toNat := UInt32.lt_iff_toNat_lt.mp pos
  have h : Stage msg (min s.sk.sndMss s.sk.rcvMss) s.sk.sndNxt t.queued t.sys.ret t.sys.pc := by
    refine run.invariant (I := fun t =>
      Stage msg (min s.sk.sndMss s.sk.rcvMss) s.sk.sndNxt t.queued t.sys.ret t.sys.pc) ?_ ?_
    · exact .loop ⟨.nil _ _ _, Nat.zero_le _, rfl, rfl, rfl⟩
    · intro a e b ha hok hb
      exact ha.step hpos short hok hb
  refine ⟨fun l hl => (h.cuts hl).tiled, ?_, ?_⟩
  · intro hp
    rw [hp] at h
    cases h with
    | returned all length => exact ⟨length, all⟩
  · intro l hp more hs window cwnd
    obtain ⟨rfl, hm, -⟩ := (h.cuts (l := l) (by rw [hp]; rfl)).locals
    exact round_ends hp (hm ▸ hpos) more hs window cwnd

def openToSend : Sys where
  sk :=
    { state := .established
      sndMss := 2
      rcvMss := 1460
      sndUna := 100
      sndNxt := 100
      sndWnd := 10
      rcvNxt := 6
      rcvWnd := 65535
      cwnd := 4
      rto := 1000
      now := 1000 }

theorem message_segmented_three_bytes : ∃ t,
    Run queueStep StaysOpen (sendmsgEntered openToSend [1, 2, 3]) t ∧ t.sys.ret = 3 ∧
    t.queued.map SkBuff.payload = [[1, 2], [3]] ∧ Tiled [1, 2, 3] 2 100 3 t.queued := by
  obtain ⟨t, run, hp, hret, hq⟩ := replay_reaches queueStep StaysOpen (sendmsgEntered openToSend [1, 2, 3])
    [.app, .app, .app, .app, .app, .app, .app, .app, .receive (pureAck 103 10) (0, 0), .app, .app, .app]
    (P := fun t => t.sys.pc = .user ∧ t.sys.ret = 3 ∧ t.queued.map SkBuff.payload = [[1, 2], [3]])
    (by decide)
  exact ⟨t, run, hret, hq, ((message_segmented (by decide) (by decide) run).2.1 hp).2⟩

/-- Without a congestion window the round fails an assertion, although the peer's window
is open. -/
theorem segmentation_fails : ∃ s msg, 0 < min s.sk.sndMss s.sk.rcvMss ∧ s.sk.state = .established ∧
    0 < tcpSenderAvailableWindow s.sk ∧ msg ≠ [] ∧
    step (sendmsgEntered s msg).sys .app = some (.error .probeWindow) := by
  refine ⟨{ openToSend with sk := { openToSend.sk with cwnd := 0 } }, [7], by decide, rfl, by decide,
    by simp, ?_⟩
  exact failsWith_eq (by decide)

end Mos.Tcp

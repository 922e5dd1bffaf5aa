import Mos.Proofs.WellFormed

namespace Mos.Tcp
open Machine

def CoveredBy (una : UInt32) (queue : List SkBuff) (l : SendLocals) : Prop :=
  ∀ i < l.sent, l.startingNxt.toNat + i < una.toNat ∨
    ∃ x ∈ queue, x.seq.toNat ≤ l.startingNxt.toNat + i ∧ l.startingNxt.toNat + i ≤ x.endSeq.toNat

variable {q : List SkBuff} {l : SendLocals} {v w : SendView} {pc : Pc} {seg : Segment} {s : Sock}

theorem CoveredBy.mono {una una' : UInt32} {q' : List SkBuff}
    (h : CoveredBy una q l) (hu : una ≤ una') (hq : ∀ x ∈ q, x ∈ q' ∨ x.endSeq < una') :
    CoveredBy una' q' l := by
  intro i hi
  rcases h i hi with ha | ⟨x, hx, hlo, hhi⟩
  · exact .inl (Nat.lt_of_lt_of_le ha hu)
  · rcases hq x hx with hx | hx
    · exact .inr ⟨x, hx, hlo, hhi⟩
    · exact .inl (Nat.lt_of_le_of_lt hhi (UInt32.lt_iff_toNat_lt.mp hx))

theorem CoveredBy.empty {una : UInt32} (h : CoveredBy una [] l) :
    ∀ i < l.sent, l.startingNxt.toNat + i < una.toNat := by
  intro i hi
  rcases h i hi with ha | ⟨x, hx, -⟩
  · exact ha
  · cases hx

/-- The queue that holds the bytes `msg_sent_len` counts. A zero window probe is
not counted, and is sent only when everything else is acknowledged. -/
def Caller.counted (queue : List SkBuff) : Caller → Option (SendLocals × List SkBuff)
  | .probe l => some (l, [])
  | .chunks l => some (l, queue)
  | _ => none

def Pc.counted (queue : List SkBuff) : Pc → Option (SendLocals × List SkBuff)
  | .sendLoop l => some (l, [])
  | .sendChunk l _ _ => some (l, queue)
  | .transmit k | .transmitLocked k | .transmitSleep k => k.counted queue
  | _ => none

def Counts (v : SendView) (pc : Pc) : Prop :=
  ∀ l q, pc.counted v.queue = some (l, q) → l.startingNxt.toNat + l.msg.length < 2 ^ 32 ∧
    (v.state = .established → CoveredBy v.una q l)

/-- A window update that reopens the window of an open connection, and so flushes
its queue. -/
def reopensWindow (s : Sock) (seg : Segment) : Bool :=
  s.state == .established && acceptableSegment s seg && seg.flags.ack && !seg.flags.syn &&
    !seg.flags.rst && windowUpdate s seg && reopens s seg

def Caller.counting : Caller → Bool
  | .chunks _ => true
  | _ => false

def Pc.counting : Pc → Bool
  | .sendChunk .. => true
  | .transmit k | .transmitLocked k | .transmitSleep k => k.counting
  | _ => false

/-- No message wraps around the sequence space, and no window reopens while the
queue holds counted bytes. -/
def keepsCounted (s : Sys) : Event → Bool
  | .sendmsg msg => s.sk.sndNxt.toNat + msg.length < 2 ^ 32
  | .receive seg _ => !(reopensWindow s.sk seg && s.pc.counting && !s.sk.txQueue.isEmpty)
  | _ => true

/-- From `v` to `w` the connection, if open, was so before, and buffers left the
queue only by being acknowledged. -/
def Keeps (v w : SendView) : Prop :=
  w.state = .established → v.state = .synSent ∨
    v.state = .established ∧ v.una ≤ w.una ∧ ∀ x ∈ v.queue, x ∈ w.queue ∨ x.endSeq < w.una

theorem Keeps.of_eq (una : w.una = v.una) (queue : w.queue = v.queue)
    (state : w.state = .established → v.state = .synSent ∨ v.state = .established) : Keeps v w := by
  intro hw
  rcases state hw with hs | hs
  · exact .inl hs
  · refine .inr ⟨hs, una ▸ UInt32.le_refl _, fun x hx => .inl ?_⟩
    rwa [queue]

theorem Keeps.refl (v : SendView) : Keeps v v := .of_eq rfl rfl .inr

theorem Keeps.of_state (h : w.state ≠ .established) : Keeps v w :=
  fun hw => absurd hw h

theorem Pc.counted_connecting (h : pc.phase = .connecting) :
    pc.counted q = none := by
  cases pc with
  | transmit k | transmitLocked k | transmitSleep k => cases k <;> first | rfl | cases h
  | _ => cases h

theorem Pc.counted_queue {q' r : List SkBuff}
    (h : pc.counted q = some (l, r)) :
    r = [] ∧ pc.counted q' = some (l, []) ∨ r = q ∧ pc.counted q' = some (l, q') := by
  have caller {k : Caller} (hk : k.counted q = some (l, r)) :
      r = [] ∧ k.counted q' = some (l, []) ∨ r = q ∧ k.counted q' = some (l, q') := by
    cases k <;> simp_all [Caller.counted]
  cases pc with
  | transmit k | transmitLocked k | transmitSleep k => exact caller h
  | _ => simp_all [Pc.counted]

theorem Counts.keep (h : Counts v pc) (hw : Wf v pc) (hk : Keeps v w) :
    Counts w pc := by
  intro l r hr
  obtain ⟨r', hr', hcov⟩ : ∃ r', pc.counted v.queue = some (l, r') ∧
      (r = [] ∧ r' = [] ∨ r = w.queue ∧ r' = v.queue) := by
    rcases Pc.counted_queue hr with ⟨rfl, h'⟩ | ⟨rfl, h'⟩
    · exact ⟨[], h', .inl ⟨rfl, rfl⟩⟩
    · exact ⟨_, h', .inr ⟨rfl, rfl⟩⟩
  obtain ⟨hwrap, hc⟩ := h l r' hr'
  refine ⟨hwrap, fun hs => ?_⟩
  rcases hk hs with hsyn | ⟨hest, hu, hq⟩
  · rw [Pc.counted_connecting (hw.connecting hsyn)] at hr'
    cases hr'
  · rcases hcov with ⟨rfl, rfl⟩ | ⟨rfl, rfl⟩
    · exact (hc hest).mono hu nofun
    · exact (hc hest).mono hu hq

theorem Counts.flush (h : Counts v pc) (hc : pc.counting = false)
    (una : w.una = v.una) (state : w.state = .established → v.state = .established) : Counts w pc := by
  intro l r hr
  obtain ⟨hr', rfl⟩ : pc.counted v.queue = some (l, []) ∧ r = [] := by
    rcases Pc.counted_queue hr with ⟨rfl, h'⟩ | ⟨rfl, h'⟩
    · exact ⟨h', rfl⟩
    · cases pc with
      | transmit k | transmitLocked k | transmitSleep k =>
        cases k <;> simp_all [Pc.counted, Caller.counted, Pc.counting, Caller.counting]
      | _ => simp_all [Pc.counted, Pc.counting]
  obtain ⟨hwrap, hcov⟩ := h l [] hr'
  exact ⟨hwrap, fun hs => una ▸ hcov (state hs)⟩

theorem reply_established {u w t : Sock} (fin : FinMove u w)
    (reply : ReplyMove w seg t) (ht : t.state = .established) : t.view = u.view := by
  have hst : t.view.state = .established := ht
  cases reply with
  | quiet same =>
    cases fin with
    | idle same' => rw [same.view, same'.view]
    | finWait2 | timeWait =>
      rw [same.view] at hst
      cases hst
  | again fin' hs view mute =>
    rw [view] at hst
    have : w.state = .established := hst
    rw [hs] at this
    cases this
  | passive _ _ _ view | answered _ _ _ _ view | closing _ _ view | timeWait _ _ view =>
    rw [view] at hst
    cases hst

theorem next_state_established {st : TcpState} {flags : Flags} (h : nextState st flags = .established) :
    st = .synSent ∨ st = .established := by
  unfold nextState at h
  split at h
  · split at h <;> cases h
  · split at h <;> cases h
  · exact .inl rfl
  · exact .inr rfl
  · split at h <;> cases h
  · exact .inr h

theorem Keeps.accept {u : Sock} (new : newAck s seg = true)
    (ok : tcpAcceptAck (tcpCalculateCongestion s seg.ackNumber) seg.ackNumber false = .ok u) :
    Keeps s.view (takeWindow u seg).view := by
  obtain ⟨-, r, rto, srtt, rttvar, rfl, -⟩ := accept_ok ok
  have hlt : s.sndUna < seg.ackNumber := (of_decide_eq_true new).1
  have hq : ∀ x ∈ s.txQueue, x ∈ s.txQueue.filter (fun x => !ackRemoves seg.ackNumber false x) ∨
      x.endSeq < seg.ackNumber := by
    intro x hx
    by_cases he : x.endSeq < seg.ackNumber
    · exact .inr he
    · refine .inl (List.mem_filter.mpr ⟨hx, ?_⟩)
      simp [ackRemoves, he]
  unfold takeWindow
  split <;> exact fun hs => .inr ⟨hs, UInt32.le_of_lt hlt, hq⟩

/-- A segment keeps what the queue covers, unless it reopens the window, which empties the queue. -/
theorem handled_keeps {t : Sock} (h : Handled s seg t) :
    Keeps s.view t.view ∨ reopensWindow s seg = true ∧ t.sndUna = s.sndUna ∧ t.txQueue = [] := by
  cases h with
  | quiet same =>
    rw [same.view]
    exact .inl (.refl _)
  | refused hs => exact .inl (.of_state nofun)
  | opened hs after sent base wire ok view mute => exact .inl fun _ => .inl hs
  | rejected _ view | flushed _ _ view | aborted _ _ view | closed _ _ _ _ _ _ view =>
    rw [view]
    exact .inl (.of_state nofun)
  | processed hs acceptable flag syn rst ack fin reply =>
    by_cases ht : t.state = .established
    · have hv := reply_established fin reply ht
      rw [hv]
      cases ack with
      | idle same =>
        rw [same.view]
        exact .inl (.refl _)
      | accepted takes new ok => exact .inl (.accept new ok)
      | updated takes old update =>
        unfold updateWindow at hv ⊢
        split at hv
        · rename_i hre
          right
          have he : s.state = .established := (congrArg SendView.state hv).symm.trans ht
          have hrst : seg.flags.rst = false := by
            by_contra hr
            rw [rst (by simpa using hr)] at he
            cases he
          refine ⟨?_, congrArg SendView.una hv, congrArg SendView.queue hv⟩
          simp [reopensWindow, he, acceptable, flag, syn, hrst, update, hre]
        · rename_i hre
          rw [if_neg hre]
          exact .inl (.of_eq rfl rfl .inr)
      | resent third same first =>
        rw [view_send, SendView.send_again, same.view]
        exact .inl (.of_eq rfl rfl next_state_established)
    · exact .inl (.of_state ht)

theorem Counts.receive {s : Sys} {garbage : UInt16 × UInt8} {sk : Sock}
    (h : Counts s.sk.view s.pc) (hw : Wf s.sk.view s.pc)
    (ok : keepsCounted s (.receive seg garbage) = true)
    (ht : tcpHandler s.sk seg garbage = .ok sk) : Counts sk.view s.pc := by
  rcases handled_keeps (handler_handled hw.reached ht) with hk | ⟨hre, hu, hq⟩
  · exact h.keep hw hk
  · have hs : s.sk.state = .established := by
      simp only [reopensWindow, Bool.and_eq_true, beq_iff_eq] at hre
      exact hre.1.1.1.1.1.1
    cases hc : s.pc.counting with
    | false => exact h.flush hc hu fun _ => hs
    | true =>
      have hempty : s.sk.txQueue = [] := by simpa [keepsCounted, hre, hc] using ok
      exact h.keep hw (.of_eq hu (hq.trans hempty.symm) fun _ => .inr hs)

theorem queueChunk_seq {mwnd : Nat} (hl : l.Ok)
    (le : l.sent + chunkLen l mwnd ≤ l.msg.length)
    (wrap : l.startingNxt.toNat + l.msg.length < 2 ^ 32) :
    ∃ x, (queueChunk s l mwnd).view = s.view.enqueue x ∧
      x.seq.toNat = l.startingNxt.toNat + l.sent ∧
      x.endSeq.toNat = l.startingNxt.toNat + l.sent + (chunkLen l mwnd - 1) ∧
      x.payload = (l.msg.drop l.sent).take (chunkLen l mwnd) := by
  have hn : chunkLen l mwnd ≤ 1460 := by
    have := hl.mmss
    unfold chunkLen
    omega
  have hlen : ((l.msg.drop l.sent).take (chunkLen l mwnd)).length = chunkLen l mwnd := by
    simp only [List.length_take, List.length_drop]
    omega
  have hpay : (tcpCreateSkb s (l.startingNxt + UInt32.ofNat l.sent) s.rcvNxt
      { ack := true, psh := l.sent + chunkLen l mwnd = l.msg.length } []
      ((l.msg.drop l.sent).take (chunkLen l mwnd))).payload =
        (l.msg.drop l.sent).take (chunkLen l mwnd) := by
    refine List.take_of_length_le ?_
    omega
  have hseq : (l.startingNxt + UInt32.ofNat l.sent).toNat = l.startingNxt.toNat + l.sent := by
    simp only [UInt32.toNat_add, UInt32.toNat_ofNat']
    omega
  refine ⟨_, enqueue_view s _, hseq, ?_, hpay⟩
  change (l.startingNxt + UInt32.ofNat l.sent + UInt32.ofNat
    (((tcpCreateSkb s (l.startingNxt + UInt32.ofNat l.sent) s.rcvNxt
      { ack := true, psh := l.sent + chunkLen l mwnd = l.msg.length } []
      ((l.msg.drop l.sent).take (chunkLen l mwnd))).payload).length - 1)).toNat = _
  rw [hpay, hlen]
  simp only [UInt32.toNat_add, UInt32.toNat_ofNat'] at hseq ⊢
  omega

theorem Counts.chunk {mwnd iwnd : Nat}
    (h : Counts s.view (.sendChunk l mwnd iwnd)) (hw : Wf s.view (.sendChunk l mwnd iwnd))
    (le : l.sent + chunkLen l mwnd ≤ l.msg.length) : Counts (queueChunk s l mwnd).view
      (.sendChunk { l with sent := l.sent + chunkLen l mwnd } mwnd (iwnd + chunkLen l mwnd)) := by
  obtain ⟨hwrap, hcov⟩ := h l _ rfl
  obtain ⟨x, hv, hseq, hend, -⟩ := queueChunk_seq (s := s) (hw.locals l rfl) le hwrap
  rintro _ _ ⟨⟩
  refine ⟨hwrap, fun hs => ?_⟩
  rw [hv] at hs ⊢
  intro i hi
  by_cases hold : i < l.sent
  · rcases hcov hs i hold with ha | ⟨y, hy, hlo, hhi⟩
    · exact .inl ha
    · exact .inr ⟨y, List.mem_append_left _ hy, hlo, hhi⟩
  · refine .inr ⟨x, List.mem_append_right _ (.head _), ?_, ?_⟩
    · dsimp only
      omega
    · dsimp only at hi ⊢
      omega

/-- What a call has counted stays covered by the numbers in use. -/
theorem Counts.step {s t : Sys} {e : Event} (h : Counts s.sk.view s.pc) (hw : Wf s.sk.view s.pc)
    (ok : keepsCounted s e = true) (hm : Moves s e t) : Counts t.sk.view t.pc := by
  cases hm with
  | refused hp => exact h
  | connect | recvmsg | shutdown | sendReturn | recvReturn | recvWait | recvAwake | shutdownReturn
  | shutdownWait | shutdownAwake => rintro _ _ ⟨⟩
  | sendmsg msg hp short =>
    rintro _ _ ⟨⟩
    refine ⟨?_, fun _ => nofun⟩
    simpa [keepsCounted] using ok
  | probe hp more hs ok' =>
    rw [hp] at h
    obtain ⟨-, -, rfl⟩ := queueProbe_ok ok'
    rintro _ _ ⟨⟩
    exact h _ _ rfl
  | round hp more hs pos =>
    rw [hp] at h
    rintro _ _ ⟨⟩
    obtain ⟨hwrap, hcov⟩ := h _ _ rfl
    exact ⟨hwrap, fun hst => (hcov hst).mono (UInt32.le_refl _) nofun⟩
  | chunk hp lt le =>
    rw [hp] at h hw
    exact h.chunk hw le
  | chunksDone hp ge =>
    rw [hp] at h
    exact h
  | @transmitReturn k hp empty =>
    rw [hp] at h
    cases k with
    | connect => rintro _ _ ⟨⟩
    | probe l =>
      rintro _ _ ⟨⟩
      obtain ⟨hwrap, hcov⟩ := h _ _ rfl
      exact ⟨hwrap, fun hst => (hcov hst).mono (UInt32.le_refl _) nofun⟩
    | chunks l =>
      rintro _ _ ⟨⟩
      obtain ⟨hwrap, hcov⟩ := h _ _ rfl
      exact ⟨hwrap, fun hst => empty ▸ hcov hst⟩
    | shutdown => rintro _ _ ⟨⟩
  | lock hp | sleep hp | awake hp =>
    rw [hp] at h
    exact h
  | transmit hp head avail ok' =>
    obtain ⟨skb, -, -, hv, -⟩ := transmitHead_ok ok'
    refine h.keep hw (.of_eq ?_ ?_ ?_)
    · rw [hv]
      rfl
    · rw [hv]
      rfl
    · rw [hv]
      exact next_state_established
  | receive unlocked ht => exact h.receive hw ok ht
  | retransmitTimer unlocked armed ok' =>
    obtain ⟨skb, rest, n, -, -, hv, -⟩ := retransmit_ok ok'
    rw [hv]
    exact h.keep hw (.of_eq rfl rfl next_state_established)
  | persistTimer unlocked armed ok' =>
    rcases persist_ok ok' with ⟨-, hv, -⟩ | ⟨-, skb, rest, n, -, -, hv, -⟩
    · rw [hv]
      exact h
    · rw [hv]
      exact h.keep hw (.of_eq rfl rfl next_state_established)
  | mslTimer unlocked armed ok' =>
    obtain ⟨-, hv, -⟩ := msl_ok ok'
    rw [hv]
    exact h.keep hw (.of_state nofun)
  | tick ms unlocked => exact h
  | wake unlocked => exact h

theorem asInt_nonneg {n : Nat} (h : n < 2 ^ 32) (hn : 0 ≤ asInt n) : asInt n = n := by
  unfold asInt at hn ⊢
  rw [Int.bmod_def] at hn ⊢
  omega

theorem sendLoop_returns {s t : Sys} (hp : s.pc = .sendLoop l)
    (hm : Moves s .app t) (returned : t.pc = .user) :
    t = { s with pc := .user, ret := tcpReturnCode s.sk (asInt l.sent) } := by
  cases hm with
  | sendReturn hp' =>
    obtain rfl := Pc.sendLoop.inj (hp.symm.trans hp')
    rfl
  | refused hp' | transmitReturn hp' | transmit hp' | recvReturn hp' | shutdownReturn hp' =>
    rw [hp] at hp'
    cases hp'
  | _ => cases returned

/-- The same along every run. -/
theorem Counts.run {s : Sys} (run : Run advance (fun a e => keepsCounted a e = true) {} s) :
    Counts s.sk.view s.pc := by
  refine (run.invariant (I := fun s => Counts s.sk.view s.pc ∧ Wf s.sk.view s.pc) ?_ ?_).1
  · exact ⟨nofun, Wf.start⟩
  · intro a e b ⟨ha, hwa⟩ hok hb
    have hm := moves_of_advance hb
    exact ⟨ha.step hwa hok hm, hwa.moves hm⟩

/-- `tcp_sendmsg` returns a length only once everything up to there is
acknowledged, in every run that keeps what is counted. -/
theorem sendmsg_returns_acknowledged {s t : Sys} {l : SendLocals}
    (run : Run advance (fun a e => keepsCounted a e = true) {} s) (hp : s.pc = .sendLoop l)
    (next : advance s .app = some t) (returned : t.pc = .user) (hn : 0 ≤ t.ret) :
    ∀ i : Nat, i < t.ret → l.startingNxt.toNat + i < t.sk.sndUna.toNat := by
  have hw := Wf.run run
  have hc := Counts.run run
  obtain rfl := sendLoop_returns hp (moves_of_advance next) returned
  rw [hp] at hw hc
  have hl := hw.locals l rfl
  intro i hi
  change 0 ≤ tcpReturnCode s.sk (asInt l.sent) at hn
  unfold tcpReturnCode at hn hi
  split at hn
  · rename_i hs
    rw [hs] at hi
    rw [asInt_nonneg (Nat.lt_of_le_of_lt hl.sent hl.short) hn] at hi
    exact ((hc l [] rfl).2 hs).empty i (Int.ofNat_lt.mp hi)
  · rename_i hs
    have := hw.closing_phase (.inl hs)
    cases this
  · cases hn

def smallPeer : Segment := { synAck 4 with options := [2, 4, 0, 2], fits := by decide }

def fourBytesSent : List Event :=
  opening smallPeer ++ .sendmsg [1, 2, 3, 4] :: List.replicate 8 .app

theorem sendmsg_returns_four : ∃ s t, Run advance (fun a e => keepsCounted a e = true) {} s ∧
    s.pc = .sendLoop ⟨[1, 2, 3, 4], 2, 476707714, 4⟩ ∧ advance s .app = some t ∧
    t.ret = 4 ∧
    ∀ i : Nat, i < t.ret → (476707714 : UInt32).toNat + i < t.sk.sndUna.toNat := by
  obtain ⟨s, run, hp, hnext⟩ := replay_reaches advance (fun a e => keepsCounted a e = true) {}
    (fourBytesSent ++ [.receive (pureAck 476707718 4) (0, 0), .app, .app])
    (P := fun s => s.pc = .sendLoop ⟨[1, 2, 3, 4], 2, 476707714, 4⟩ ∧
      (advance s .app).any (fun t => decide (t.pc = .user ∧ t.ret = 4)) = true) (by decide)
  obtain ⟨t, ht, h⟩ := (Option.any_eq_true _ _).mp hnext
  obtain ⟨hu, hr⟩ := of_decide_eq_true h
  exact ⟨s, t, run, hp, ht, hr, sendmsg_returns_acknowledged run hp ht hu (by rw [hr]; decide)⟩

/-- The peer takes two bytes, closes its window and reopens it: the other two are
flushed, yet counted in what `tcp_sendmsg` returns. -/
theorem sendmsg_returns_unacknowledged : ∃ s t l, Run advance (fun _ _ => True) {} s ∧
    s.pc = .sendLoop l ∧ advance s .app = some t ∧ t.pc = .user ∧ 0 ≤ t.ret ∧
    ¬ ∀ i : Nat, i < t.ret → l.startingNxt.toNat + i < t.sk.sndUna.toNat := by
  obtain ⟨s, run, hp, hnext⟩ := replay_reaches advance (fun _ _ => True) {}
    (fourBytesSent ++ [.receive (pureAck 476707716 0) (0, 0), .receive (pureAck 476707716 4) (0, 0),
      .app, .app])
    (P := fun s => s.pc = .sendLoop ⟨[1, 2, 3, 4], 2, 476707714, 4⟩ ∧ (advance s .app).any (fun t =>
      decide (t.pc = .user ∧ t.ret = 4 ∧ t.sk.sndUna = 476707716)) = true) (by decide)
  obtain ⟨t, ht, h⟩ := (Option.any_eq_true _ _).mp hnext
  obtain ⟨hu, hr, huna⟩ := of_decide_eq_true h
  refine ⟨s, t, _, run, hp, ht, hu, by rw [hr]; decide, fun hall => ?_⟩
  have := hall 3 (by rw [hr]; decide)
  rw [huna] at this
  revert this
  decide

end Mos.Tcp

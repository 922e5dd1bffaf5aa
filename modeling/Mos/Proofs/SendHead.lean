import Mos.Proofs.Frame
import Mos.Proofs.SendReliable

namespace Mos.Tcp
open Machine List UInt32

/-- `send_head` stands at a segment already sent: a timeout has moved it back, and
`tcp_transmit` has not run since. -/
def rewound (s : Sock) : Bool :=
  s.txQueue.any fun x => s.sendHead == some x.addr && decide (x.endSeq < s.sndNxt)

/-- The number covers the segment that `tcp_accept_ack` moves `send_head` to. -/
def coversSendHead (s : Sock) (ackNumber : UInt32) : Bool :=
  s.txQueue.any fun x => ackSendHead s == some x.addr && decide (x.endSeq < ackNumber)

def acceptsAck (s : Sock) (seg : Segment) : Bool :=
  acceptableSegment s seg && seg.flags.ack && !seg.flags.syn &&
    (!seg.flags.rst || s.state == .closeWait) && takesAcks s.state && newAck s seg

/-- No message wraps around the sequence space, and after a timeout no accepted
acknowledgement covers the segment `send_head` is moved to. -/
def sendHeadStays (s : Sys) : Event → Bool
  | .sendmsg msg => s.sk.sndNxt.toNat + msg.length < 2 ^ 32
  | .receive seg _ => !(acceptsAck s.sk seg && rewound s.sk && coversSendHead s.sk seg.ackNumber)
  | _ => true

/-- The queue is in the order of its sequence numbers, and a handshake waits on one
buffer only. -/
structure Ordered (v : SendView) (pc : Pc) : Prop where
  sorted : v.queue.Pairwise fun x y => x.endSeq ≤ y.endSeq
  short : ∀ l, pc.locals = some l → l.startingNxt.toNat + l.msg.length < 2 ^ 32
  bound : pc.counting = true → ∀ l, pc.locals = some l → ∀ x ∈ v.queue,
    x.endSeq.toNat ≤ l.startingNxt.toNat + l.sent
  single : pc.phase = .connecting → v.queue.length ≤ 1
  timed : v.state = .synSent → v.head ≠ none → v.rttTime = 0

variable {v : SendView} {pc : Pc} {s : Sock} {seg : Segment} {garbage : UInt16 × UInt8}

theorem Ordered.sub {w : SendView} (h : Ordered v pc) (queue : w.queue.Sublist v.queue)
    (timed : w.state = .synSent → w.head ≠ none → w.rttTime = 0) : Ordered w pc :=
  ⟨h.sorted.sublist queue, h.short, fun hc l hl x hx => h.bound hc l hl x (queue.subset hx),
    fun hp => Nat.le_trans queue.length_le (h.single hp), timed⟩

theorem Ordered.state {w : SendView} (h : Ordered v pc) (queue : w.queue = v.queue)
    (state : w.state ≠ .synSent) : Ordered w pc :=
  h.sub (queue ▸ .refl _) fun hs => absurd hs state

theorem Ordered.goto (h : Ordered v pc) (pc' : Pc) (hq : v.queue = [])
    (short : ∀ l, pc'.locals = some l → l.startingNxt.toNat + l.msg.length < 2 ^ 32) :
    Ordered v pc' :=
  ⟨h.sorted, short, by simp [hq], by simp [hq], h.timed⟩

theorem Ordered.chunk {l : SendLocals} {mwnd iwnd : Nat}
    (h : Ordered s.view (.sendChunk l mwnd iwnd)) (hw : Wf s.view (.sendChunk l mwnd iwnd))
    (le : l.sent + chunkLen l mwnd ≤ l.msg.length) : Ordered (queueChunk s l mwnd).view
      (.sendChunk { l with sent := l.sent + chunkLen l mwnd } mwnd (iwnd + chunkLen l mwnd)) := by
  have hb := h.bound rfl l rfl
  obtain ⟨x, hv, hseq, hend, -⟩ := queueChunk_seq (s := s) (hw.locals l rfl) le (h.short l rfl)
  rw [hv]
  refine ⟨?_, ?_, ?_, nofun, ?_⟩
  · refine pairwise_append.mpr ⟨h.sorted, pairwise_singleton _ _, ?_⟩
    intro y hy z hz
    simp only [mem_cons, not_mem_nil, or_false] at hz
    subst hz
    have := hb y hy
    rw [le_iff_toNat_le]
    omega
  · rintro _ ⟨⟩
    exact h.short l rfl
  · rintro - _ ⟨⟩ y hy
    dsimp only
    rcases mem_append.mp hy with hy | hy
    · have := hb y hy
      omega
    · simp only [mem_cons, not_mem_nil, or_false] at hy
      subst hy
      omega
  · intro hs
    have := hw.connecting hs
    cases this

theorem following_single {q : List SkBuff} {h : Nat} (hq : q.length ≤ 1) : following q h = none := by
  have hl : (q.dropWhile (fun x => x.addr != h)).length ≤ 1 :=
    Nat.le_trans (dropWhile_suffix _).sublist.length_le hq
  unfold following
  cases hd : q.dropWhile (fun x => x.addr != h) with
  | nil => rfl
  | cons x rest =>
    rw [hd] at hl
    have : rest = [] := eq_nil_of_length_eq_zero (by simpa using hl)
    simp [this]

theorem Ordered.transmit {t : Sock} {a : Nat} (h : Ordered s.view pc) (hw : Wf s.view pc)
    (ok : transmitHead s a = .ok t) : Ordered t.view pc := by
  have hwt := hw.transmit ok
  obtain ⟨skb, -, -, hv, -⟩ := transmitHead_ok ok
  refine h.sub (by rw [hv]; exact .refl _) fun hs hn => absurd ?_ hn
  have hl : s.txQueue.length ≤ 1 := h.single (hwt.connecting hs)
  rw [hv]
  simp [following_single hl]

/-- A move keeps the queue in the order of its numbers. -/
theorem Ordered.step {s t : Sys} {e : Event} (h : Ordered s.sk.view s.pc) (hw : Wf s.sk.view s.pc)
    (hp : s.sk.persistTimer ≠ none → s.pc.probing = true) (ok : sendHeadStays s e = true)
    (hm : Moves s e t) : Ordered t.sk.view t.pc := by
  have hwt := hw.moves hm
  cases hm with
  | refused hpc => exact h
  | connect seed hpc =>
    rw [hpc] at hw
    have hq : s.sk.txQueue = [] := hw.no_queue (fun _ hc => by cases hc)
    have hc : (tcpConnect s.sk seed).txQueue.length = 1 := by
      simp [tcpConnect, tcpTxQueueAddSkb, tcpCreateTcb, hq]
    obtain ⟨x, hx⟩ := length_eq_one_iff.mp hc
    refine ⟨?_, (fun _ hc => by cases hc), (fun hc => by cases hc), fun _ => Nat.le_of_eq hc,
      fun hc => by cases hc⟩
    change (tcpConnect s.sk seed).txQueue.Pairwise _
    rw [hx]
    exact pairwise_singleton _ _
  | sendmsg msg hpc short =>
    rw [hpc] at hw
    refine h.goto _ (hw.no_queue (fun _ hc => by cases hc)) ?_
    rintro _ ⟨⟩
    simpa [sendHeadStays] using ok
  | recvmsg msgLen hpc =>
    rw [hpc] at hw
    exact h.goto _ (hw.no_queue (fun _ hc => by cases hc)) (fun _ hc => by cases hc)
  | shutdown hpc =>
    rw [hpc] at hw
    have hq : s.sk.txQueue = [] := hw.no_queue (fun _ hc => by cases hc)
    refine ⟨?_, (fun _ hc => by cases hc), (fun hc => by cases hc), (fun hc => by cases hc),
      fun hs => by cases hwt.connecting hs⟩
    change (s.sk.txQueue ++ [_]).Pairwise _
    rw [hq]
    exact pairwise_singleton _ _
  | sendReturn hpc done =>
    rw [hpc] at hw
    exact h.goto _ (hw.no_queue (fun _ hc => by cases hc)) (fun _ hc => by cases hc)
  | @probe l sk hpc more hs ok' =>
    rw [hpc] at hw h
    obtain ⟨-, -, rfl⟩ := queueProbe_ok ok'
    have hq : s.sk.txQueue = [] := hw.no_queue (fun _ hc => by cases hc)
    refine ⟨?_, h.short, (fun hc => by cases hc), (fun hc => by cases hc),
      fun hs => by cases hwt.connecting hs⟩
    rw [hq]
    exact pairwise_singleton _ _
  | round hpc more hs pos =>
    rw [hpc] at hw h
    exact h.goto _ (hw.no_queue (fun _ hc => by cases hc)) h.short
  | chunk hpc lt le =>
    rw [hpc] at hw h
    exact h.chunk hw le
  | chunksDone hpc ge =>
    rw [hpc] at h
    exact ⟨h.sorted, h.short, h.bound, (fun hc => by cases hc), h.timed⟩
  | @transmitReturn k hpc empty =>
    rw [hpc] at h
    cases k with
    | connect => exact (h.goto .user empty (fun _ hc => by cases hc)).sub (.refl _) h.timed
    | probe l => exact (h.goto (.transmit (.chunks l)) empty h.short).sub (.refl _) h.timed
    | chunks l => exact h.goto _ empty h.short
    | shutdown => exact h.goto _ empty (fun _ hc => by cases hc)
  | lock hpc | sleep hpc | awake hpc =>
    rw [hpc] at h
    exact ⟨h.sorted, h.short, h.bound, h.single, h.timed⟩
  | transmit hpc head avail ok' => exact h.transmit hw ok'
  | recvReturn hpc | recvWait hpc | recvAwake hpc | shutdownReturn hpc | shutdownWait hpc
  | shutdownAwake hpc =>
    exact ⟨h.sorted, (fun _ hc => by cases hc), (fun hc => by cases hc), (fun hc => by cases hc), h.timed⟩
  | receive unlocked ht =>
    have hh := handler_handled hw.reached ht
    refine h.sub hh.framed.queue fun hs => ?_
    have hv := hh.synSent hs
    rw [hv] at hs ⊢
    exact h.timed hs
  | retransmitTimer unlocked armed ok' =>
    obtain ⟨skb, rest, n, -, -, hv, -⟩ := retransmit_ok ok'
    rw [show Sock.view _ = _ from hv]
    exact h.sub (.refl _) fun _ _ => rfl
  | persistTimer unlocked armed ok' =>
    refine h.sub ?_ fun hs => ?_
    · rcases persist_ok ok' with ⟨-, hv, -⟩ | ⟨-, skb, rest, n, -, -, hv, -⟩ <;> rw [hv]
    · have hconn : s.pc.phase = .connecting := hwt.connecting hs
      rw [Pc.probing_phase (hp armed)] at hconn
      cases hconn
  | mslTimer unlocked armed ok' =>
    obtain ⟨-, hv, -⟩ := msl_ok ok'
    exact h.state (by rw [hv]) (by rw [hv]; intro hc; cases hc)
  | tick ms unlocked => exact h
  | wake unlocked => exact h

/-- Unless a timeout moved `send_head` back, an acknowledgement of sent bytes does
not reach the segment `send_head` stands at or moves to. -/
theorem Ordered.head_stays {a : UInt32} (h : Ordered s.view pc)
    (hw : Wf s.view pc) (sent : a ≤ s.sndNxt) (hr : rewound s = true → coversSendHead s a = false) :
    ∀ x ∈ s.txQueue, ackRemoves a false x = true → ackSendHead s ≠ some x.addr := by
  intro x hx hrem hhead
  have hlt : x.endSeq < a := by simpa [ackRemoves] using hrem
  have hcov : coversSendHead s a = true := any_eq_true.mpr ⟨x, hx, by simp [hhead, hlt]⟩
  have hnot : ∀ y ∈ s.txQueue, s.sendHead = some y.addr → s.sndNxt ≤ y.endSeq := by
    intro y hy hyh
    by_contra hlt'
    have : rewound s = true :=
      List.any_eq_true.mpr ⟨y, hy, by simp [hyh, UInt32.not_le.mp hlt']⟩
    rw [hr this] at hcov
    cases hcov
  have hge : s.sndNxt ≤ x.endSeq := by
    unfold ackSendHead at hhead
    split at hhead
    · rename_i hre
      simp only [ackFromRetransmitted, Bool.and_eq_true, beq_iff_eq] at hre
      have hsorted : s.txQueue.Pairwise fun x y => x.endSeq ≤ y.endSeq := h.sorted
      have hnodup : (s.txQueue.map SkBuff.addr).Nodup := hw.nodup
      cases hq : s.txQueue with
      | nil =>
        rw [hq] at hx
        cases hx
      | cons first rest =>
        rw [hq] at hhead hx hsorted hnodup
        have hfirst : s.sndNxt ≤ first.endSeq := by
          refine hnot first (by rw [hq]; exact .head _) ?_
          rw [hre.1.2, hq]
          rfl
        obtain ⟨z, hz, hza⟩ := Option.map_eq_some_iff.mp hhead
        have hzr : z ∈ rest := mem_of_head? hz
        have hxz : x = z := inj_on_of_nodup_map hnodup hx (mem_cons_of_mem _ hzr) hza.symm
        subst hxz
        exact UInt32.le_trans hfirst ((List.pairwise_cons.mp hsorted).1 x hzr)
    · exact hnot x hx hhead
  exact absurd (UInt32.lt_of_lt_of_le hlt (UInt32.le_trans sent hge)) (UInt32.lt_irrefl _)

theorem tcpAcceptAck_outcome {a : UInt32} {all : Bool}
    (h : ∀ x ∈ s.txQueue, ackRemoves a all x = true → ackSendHead s ≠ some x.addr) :
    tcpAcceptAck s a all = .error .expiresUnset ∨ ∃ t, tcpAcceptAck s a all = .ok t := by
  unfold tcpAcceptAck
  rw [if_neg]
  · unfold ackTimer
    split
    · split
      · exact .inr ⟨_, rfl⟩
      · split
        · exact .inl rfl
        · exact .inr ⟨_, rfl⟩
    · exact .inr ⟨_, rfl⟩
  · intro hany
    obtain ⟨x, hx, hb⟩ := any_eq_true.mp hany
    simp only [Bool.and_eq_true, beq_iff_eq] at hb
    exact h x hx hb.1 hb.2

theorem count_error {p : Panic} (h : countDuplicateAck s = .error p) :
    p = .fastRetransmitEmpty := by
  unfold countDuplicateAck at h
  dsimp only at h
  split at h
  · split at h
    · exact (Except.error.inj h).symm
    · cases h
  · split at h <;> cases h

/-- The only error of this step is the lost head of the send queue. -/
theorem stepAck_error (h : stepAck s seg = .error .sendHeadRemoved) :
    takesAcks s.state = true ∧ newAck s seg = true ∧
      tcpAcceptAck (tcpCalculateCongestion s seg.ackNumber) seg.ackNumber false =
        .error .sendHeadRemoved := by
  unfold stepAck at h
  split at h
  · cases h
  · split at h
    · rename_i ht
      split at h
      · rename_i hn
        refine ⟨ht, hn, ?_⟩
        rcases bind_error.mp h with he | ⟨u, -, he⟩
        · exact he
        · cases he
      · split at h
        · cases h
        · split at h
          · rcases bind_error.mp h with he | ⟨u, -, he⟩
            · have := count_error he
              cases this
            · cases he
          · split at h <;> cases h
    · cases h

theorem stepRest_error {p : Panic} (h : stepRest s seg = .error p) :
    stepAck s seg = .error p := by
  rcases bind_error.mp h with he | ⟨⟨u, b⟩, -, he⟩
  · exact he
  · dsimp only at he
    split at he
    · cases he
    · split at he <;> cases he

/-- Step five is the one place where a synchronized connection fails so. -/
theorem established_error (hs : connected s.state = true)
    (h : tcpHandlerEstablished s seg = .error .sendHeadRemoved) : acceptsAck s seg = true ∧
      tcpAcceptAck (tcpCalculateCongestion s seg.ackNumber) seg.ackNumber false =
        .error .sendHeadRemoved := by
  unfold tcpHandlerEstablished at h
  split at h
  · cases h
  · rename_i hacc
    have hacc : acceptableSegment s seg = true := by simpa using hacc
    split at h
    · rename_i outcome ho
      split at ho
      · subst h
        unfold stepReset at ho
        split at ho
        · rename_i he
          simp [he, connected] at hs
        all_goals cases ho
      · cases ho
    · rename_i ho
      have hrst : seg.flags.rst = true → s.state = .closeWait := by
        intro hr
        rw [if_pos hr] at ho
        exact stepReset_none ho hs
      split at h
      · cases h
      · rename_i hsyn
        have hsyn : seg.flags.syn = false := by
          simpa [(connected_iff.mp hs).1] using hsyn
        split at h
        · cases h
        · rename_i hflag
          have hflag : seg.flags.ack = true := by simpa using hflag
          obtain ⟨ht, hn, he⟩ := stepAck_error (stepRest_error h)
          refine ⟨?_, he⟩
          cases hr : seg.flags.rst with
          | false => simp [acceptsAck, hacc, hflag, hsyn, hr, ht, hn]
          | true => simp [acceptsAck, hacc, hflag, hsyn, hrst hr, hrst hr ▸ ht, hn]

theorem sync_error
    (h : tcpHandlerSync s seg garbage = .error .sendHeadRemoved) :
    ∃ b : Sock, b.txQueue = s.txQueue ∧ b.sendHead = s.sendHead ∧
      b.rttTime = s.rttTime ∧ tcpAcceptAck b seg.ackNumber false = .error .sendHeadRemoved := by
  unfold tcpHandlerSync at h
  split at h
  · split at h <;> cases h
  · dsimp only at h
    split at h
    · split at h <;> cases h
    · split at h
      · split at h
        · cases h
        · rcases bind_error.mp h with he | ⟨u, -, he⟩
          · refine ⟨_, ?_, ?_, ?_, he⟩ <;> rfl
          · cases he
      · cases h

theorem Ordered.syn_head {b : Sock} (h : Ordered s.view pc) (hw : Wf s.view pc)
    (hs : s.state = .synSent) (queue : b.txQueue = s.txQueue) (head : b.sendHead = s.sendHead)
    (rtt : b.rttTime = s.rttTime) : ackSendHead b = none := by
  have hl : s.txQueue.length ≤ 1 := h.single (hw.connecting hs)
  unfold ackSendHead
  cases hh : s.sendHead with
  | none => simp [ackFromRetransmitted, head, hh]
  | some a =>
    have ht : s.rttTime = 0 := h.timed hs (by rw [show s.view.head = _ from hh]; simp)
    obtain ⟨x, hx, hxa⟩ := hw.head a hh
    obtain ⟨y, hy⟩ : ∃ y, s.txQueue = [y] := by
      refine length_eq_one_iff.mp (Nat.le_antisymm hl ?_)
      exact length_pos_of_mem hx
    have hxy : x = y := by
      change x ∈ s.txQueue at hx
      simpa [hy] using hx
    rw [if_pos, queue, hy]
    · rfl
    · simp [ackFromRetransmitted, head, hh, queue, hy, rtt, ht, ← hxy, hxa]

/-- In every run the queue is in order. -/
theorem Ordered.run {s : Sys} (run : Run advance (fun a e => sendHeadStays a e = true) {} s) :
    Ordered s.sk.view s.pc ∧ Wf s.sk.view s.pc := by
  refine (run.invariant (I := fun s => (Ordered s.sk.view s.pc ∧ Wf s.sk.view s.pc) ∧
    (s.sk.persistTimer ≠ none → s.pc.probing = true)) ?_ ?_).1
  · exact ⟨⟨⟨List.Pairwise.nil, nofun, nofun, nofun, nofun⟩, Wf.start⟩, absurd rfl⟩
  · intro a e b ⟨⟨ha, hw⟩, hp⟩ hok hb
    have hm := moves_of_advance hb
    exact ⟨⟨ha.step hw hp hok hm, hw.moves hm⟩, persist_step hp hw hm⟩

theorem Ordered.accept {s : Sys}
    (h : Ordered s.sk.view s.pc) (hw : Wf s.sk.view s.pc)
    (stays : sendHeadStays s (.receive seg garbage) = true) (ack : acceptsAck s.sk seg = true) :
    let outcome := tcpAcceptAck (tcpCalculateCongestion s.sk seg.ackNumber) seg.ackNumber false
    outcome = .error .expiresUnset ∨ ∃ t, outcome = .ok t := by
  have hnew : newAck s.sk seg = true := by
    simp only [acceptsAck, Bool.and_eq_true] at ack
    exact ack.2
  refine tcpAcceptAck_outcome (h.head_stays hw (of_decide_eq_true hnew).2 fun hr => ?_)
  simpa [sendHeadStays, ack, hr] using stays

theorem Ordered.handler {s : Sys}
    (h : Ordered s.sk.view s.pc) (hw : Wf s.sk.view s.pc)
    (stays : sendHeadStays s (.receive seg garbage) = true) :
    tcpHandler s.sk seg garbage ≠ .error .sendHeadRemoved := by
  intro he
  unfold tcpHandler at he
  split at he
  · cases he
  · split at he
    · cases he
    · rename_i hs
      obtain ⟨b, hq, hh, ht, hb⟩ := sync_error he
      have hn := h.syn_head hw hs hq hh ht
      rcases tcpAcceptAck_outcome (fun x _ _ => by rw [hn]; nofun) with ho | ⟨u, ho⟩
      · rw [hb] at ho
        cases ho
      · rw [hb] at ho
        cases ho
    · cases he
    · cases he
    · have hc : connected s.sk.state = true := by
        have := hw.reached
        change s.sk.state ≠ .synRecv at this
        cases hst : s.sk.state <;> simp_all [connected, synchronized]
      obtain ⟨hack, hb⟩ := established_error hc he
      rcases h.accept hw stays hack with ho | ⟨u, ho⟩
      · rw [hb] at ho
        cases ho
      · rw [hb] at ho
        cases ho

/-- In every run whose acknowledgements leave a moved back `send_head` alone, no
acknowledgement removes the segment at `send_head`, and each one keeps exactly the
segments that it does not cover. -/
theorem ack_leaves_send_head {s : Sys} {seg : Segment} {garbage : UInt16 × UInt8}
    (run : Run advance (fun a e => sendHeadStays a e = true) {} s)
    (stays : sendHeadStays s (.receive seg garbage) = true) :
    step s (.receive seg garbage) ≠ some (.error .sendHeadRemoved) ∧
    (acceptsAck s.sk seg = true →
      let outcome := tcpAcceptAck (tcpCalculateCongestion s.sk seg.ackNumber) seg.ackNumber false
      outcome = .error .expiresUnset ∨ ∃ t, outcome = .ok t ∧
        t.txQueue = s.sk.txQueue.filter (fun x => decide (seg.ackNumber ≤ x.endSeq)) ∧
        ∀ a, t.sendHead = some a → ∃ x ∈ t.txQueue, x.addr = a) := by
  obtain ⟨h, hw⟩ := Ordered.run run
  constructor
  · intro he
    simp only [step, interrupt] at he
    split at he
    · cases he
    · exact h.handler hw stays (map_error.mp (Option.some.inj he))
  · intro ack
    rcases h.accept hw stays ack with ho | ⟨t, ho⟩
    · exact .inl ho
    · refine .inr ⟨t, ho, ?_, ?_⟩
      · obtain ⟨-, r, rto, srtt, rttvar, rfl, -⟩ := accept_ok ho
        refine filter_congr fun x _ => ?_
        simp [ackRemoves, ← decide_not]
      · intro a ha
        have hh : ∀ a, (tcpCalculateCongestion s.sk seg.ackNumber).sendHead = some a →
            ∃ x ∈ s.sk.txQueue, x.addr = a := hw.head
        have hmem := acked_head hh ho (a := a)
        obtain ⟨-, r, rto, srtt, rttvar, rfl, -⟩ := accept_ok ho
        exact hmem ha

theorem ack_leaves_send_head_first : ∃ s : Sys,
    Run advance (fun a e => sendHeadStays a e = true) {} s ∧ rewound s.sk = true ∧
    acceptsAck s.sk (pureAck 476707716 4) = true ∧
    step s (.receive (pureAck 476707716 4) (0, 0)) ≠ some (.error .sendHeadRemoved) := by
  obtain ⟨s, run, hr, ha, hs⟩ := replay_reaches advance (fun a e => sendHeadStays a e = true) {}
    (fourBytesSent ++ [.tick 1000, .retransmitTimer])
    (P := fun s => rewound s.sk = true ∧ acceptsAck s.sk (pureAck 476707716 4) = true ∧
      sendHeadStays s (.receive (pureAck 476707716 4) (0, 0)) = true) (by decide)
  exact ⟨s, run, hr, ha, (ack_leaves_send_head run hs).1⟩

/-- Both segments are acknowledged at once after a timeout: `send_head` has moved
to the second, which is being removed. -/
theorem ack_removes_send_head : ∃ s, Run advance (fun _ _ => True) {} s ∧
    acceptsAck s.sk (pureAck 476707718 4) = true ∧
    step s (.receive (pureAck 476707718 4) (0, 0)) = some (.error .sendHeadRemoved) := by
  obtain ⟨s, run, ha, hs⟩ := replay_reaches advance (fun _ _ => True) {}
    (fourBytesSent ++ [.tick 1000, .retransmitTimer])
    (P := fun s => acceptsAck s.sk (pureAck 476707718 4) = true ∧
      failsWith .sendHeadRemoved (step s (.receive (pureAck 476707718 4) (0, 0))) = true) (by decide)
  exact ⟨s, run, ha, failsWith_eq hs⟩

end Mos.Tcp

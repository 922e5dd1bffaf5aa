import Mos.Proofs.View

namespace Mos.Tcp
open Machine

variable {s t u : Sock} {seg : Segment} {st : TcpState}

theorem ackTimer_ok {b : Bool} (h : ackTimer s b = .ok t) :
    ∃ r, t = { s with retransmitTimer := r } ∧ (r ≠ none → s.txQueue ≠ []) := by
  unfold ackTimer at h
  split at h
  · rename_i skb hq
    have hne : s.txQueue ≠ [] := by
      intro he
      simp [he] at hq
    split at h
    · exact ⟨none, (Except.ok.inj h).symm, fun _ => hne⟩
    · split at h
      · cases h
      · exact ⟨_, (Except.ok.inj h).symm, fun _ => hne⟩
  · exact ⟨none, (Except.ok.inj h).symm, absurd rfl⟩

theorem ackRtt_eq (s : Sock) (a : UInt32) :
    ∃ rto srtt rttvar, ackRtt s a =
      { s with
        rto := rto
        srtt := srtt
        rttvar := rttvar
        rttTime := if s.rttTime ≠ 0 ∧ s.rttEndSeq < a then 0 else s.rttTime } := by
  by_cases h : s.rttTime ≠ 0 ∧ s.rttEndSeq < a
  · simp only [ackRtt, if_pos h]
    exact ⟨_, _, _, rfl⟩
  · simp only [ackRtt, if_neg h]
    exact ⟨_, _, _, rfl⟩

/-- The state `tcp_accept_ack` leaves, up to the round-trip estimate and the
retransmission timer `r`. -/
def acked (s : Sock) (a : UInt32) (all : Bool) (r : Option Nat) (rto srtt rttvar : UInt32) : Sock :=
  { s with
    sndUna := a
    flightSize := s.sndNxt - a
    numberOfDupAcks := 0
    cwnd := if ackFromRetransmitted s then s.ssthresh else s.cwnd
    sendHead := ackSendHead s
    txQueue := s.txQueue.filter (fun x => !ackRemoves a all x)
    retransmitTimer := r
    rto := rto
    srtt := srtt
    rttvar := rttvar
    rttTime := if s.rttTime ≠ 0 ∧ s.rttEndSeq < a then 0 else s.rttTime }

/-- `tcp_accept_ack` unlinks what the number covers, never the buffer `send_head`
has moved to, and arms the timer only when something is left. -/
theorem accept_ok {a : UInt32} {all : Bool} (h : tcpAcceptAck s a all = .ok t) :
    (∀ x ∈ s.txQueue, ackRemoves a all x = true → ackSendHead s ≠ some x.addr) ∧
    ∃ r rto srtt rttvar, t = acked s a all r rto srtt rttvar ∧
      (r ≠ none → s.txQueue.filter (fun x => !ackRemoves a all x) ≠ []) := by
  unfold tcpAcceptAck at h
  dsimp only at h
  split at h
  · cases h
  · rename_i hany
    constructor
    · intro x hx hr hh
      refine hany (List.any_eq_true.mpr ⟨x, hx, ?_⟩)
      simp [hr, hh]
    · obtain ⟨u, hu, hp⟩ := bind_ok.mp h
      obtain ⟨r, rfl, hr⟩ := ackTimer_ok hu
      obtain ⟨rto, srtt, rttvar, he⟩ := ackRtt_eq _ a
      have ht := (Except.ok.inj hp).symm.trans he
      exact ⟨r, rto, srtt, rttvar, ht, hr⟩

def SendView.accept (v : SendView) (a : UInt32) (head : Option Nat) (r : Option Nat) : SendView :=
  { v with
    una := a
    head := head
    queue := v.queue.filter (fun x => !ackRemoves a false x)
    retransmit := r
    rttTime := if v.rttTime ≠ 0 ∧ v.rttEnd < a then 0 else v.rttTime }

theorem accept_view {a : UInt32} (h : tcpAcceptAck s a false = .ok t) :
    ∃ r, t.view = s.view.accept a (ackSendHead s) r ∧ t.wire = s.wire ∧
      (r ≠ none → (s.view.accept a (ackSendHead s) r).queue ≠ []) := by
  obtain ⟨-, r, rto, srtt, rttvar, rfl, hr⟩ := accept_ok h
  exact ⟨r, rfl, rfl, hr⟩

theorem takeWindow_view (s : Sock) (seg : Segment) :
    (takeWindow s seg).view = { s.view with wnd := (takeWindow s seg).sndWnd } := by
  unfold takeWindow
  split <;> rfl

def fastRetransmits (s : Sock) (seg : Segment) : Bool :=
  takesAcks s.state && !newAck s seg && !windowUpdate s seg && duplicateAck s seg &&
    s.numberOfDupAcks + 1 == 3

inductive AckMove (s : Sock) (seg : Segment) : Sock → Prop where
  | idle {u : Sock} (same : Quiet s u)
      (plain : takesAcks s.state = true → newAck s seg = false ∧ windowUpdate s seg = false) :
      AckMove s seg u
  | accepted {u : Sock} (takes : takesAcks s.state = true) (new : newAck s seg = true)
      (ok : tcpAcceptAck (tcpCalculateCongestion s seg.ackNumber) seg.ackNumber false = .ok u) :
      AckMove s seg (takeWindow u seg)
  | updated (takes : takesAcks s.state = true) (old : newAck s seg = false)
      (update : windowUpdate s seg = true) : AckMove s seg (updateWindow s seg)
  | resent {u : Sock} {skb : SkBuff} {rest : List SkBuff} (third : fastRetransmits s seg = true)
      (same : Quiet s u) (first : s.txQueue = skb :: rest) : AckMove s seg (tcpSendSkb u skb true)

theorem count_move (takes : takesAcks s.state = true)
    (old : newAck s seg = false) (noUpdate : windowUpdate s seg = false)
    (dup : duplicateAck s seg = true) (h : countDuplicateAck s = .ok t) : AckMove s seg t := by
  unfold countDuplicateAck at h
  dsimp only at h
  split at h
  · rename_i h3
    split at h
    · cases h
    · rename_i skb rest hq
      cases h
      refine .resent ?_ (.of_view rfl rfl) hq
      simp only [fastRetransmits, takes, old, noUpdate, dup, h3]
      rfl
  · split at h
    · cases h
      exact .idle (.of_view rfl rfl) fun _ => ⟨old, noUpdate⟩
    · cases h
      exact .idle (.of_view rfl rfl) fun _ => ⟨old, noUpdate⟩

/-- Step five, outside `TCP_SYN_RECV`; when it returns, nothing has changed. -/
theorem stepAck_move {b : Bool} (hs : s.state ≠ .synRecv)
    (h : stepAck s seg = .ok (t, b)) : AckMove s seg t ∧ (b = true → Quiet s t) := by
  unfold stepAck at h
  rw [if_neg hs] at h
  split at h
  · rename_i ht
    split at h
    · rename_i hn
      obtain ⟨u, hu, hp⟩ := bind_ok.mp h
      cases hp
      exact ⟨.accepted ht hn hu, nofun⟩
    · rename_i hn
      have hn := Bool.eq_false_iff.mpr hn
      split at h
      · rename_i hw
        cases h
        exact ⟨.updated ht hn hw, nofun⟩
      · rename_i hw
        have hw := Bool.eq_false_iff.mpr hw
        split at h
        · rename_i hd
          obtain ⟨u, hu, hp⟩ := bind_ok.mp h
          cases hp
          exact ⟨count_move ht hn hw hd hu, nofun⟩
        · split at h
          · cases h
            have hq : Quiet s (sendAck s) := quiet_sendAck (by rintro hs; simp [hs, takesAcks] at ht)
            exact ⟨.idle hq fun _ => ⟨hn, hw⟩, fun _ => hq⟩
          · cases h
            exact ⟨.idle (.refl s) fun _ => ⟨hn, hw⟩, nofun⟩
  · rename_i ht
    cases h
    exact ⟨.idle (.refl s) fun hn => absurd hn ht, nofun⟩

theorem AckMove.state (h : AckMove s seg u) :
    u.state = s.state ∨ ∃ flags, u.state = nextState s.state flags := by
  cases h with
  | idle same => exact .inl same.state
  | accepted takes new ok =>
    obtain ⟨-, r, rto, srtt, rttvar, rfl, -⟩ := accept_ok ok
    left
    unfold takeWindow
    split <;> rfl
  | updated takes old update =>
    left
    unfold updateWindow
    split <;> rfl
  | resent third same first =>
    right
    exact ⟨_, congrArg (nextState · _) same.state⟩

theorem AckMove.wire (h : AckMove s seg u) : ∀ x ∈ s.wire, x ∈ u.wire := by
  intro x hx
  cases h with
  | idle same => exact same.wire.mono hx
  | accepted takes new ok =>
    obtain ⟨-, r, rto, srtt, rttvar, rfl, -⟩ := accept_ok ok
    unfold takeWindow
    split <;> exact hx
  | updated takes old update =>
    unfold updateWindow
    split <;> exact hx
  | resent third same first => exact List.mem_cons_of_mem _ (same.wire.mono hx)

/-- What the rest of step five does to the sending half, where it does not return. -/
inductive FinMove (s : Sock) : Sock → Prop where
  | idle {t : Sock} (same : Quiet s t)
      (waits : s.state = .finWait1 ∨ s.state = .closing → tcpIsFinAcked s = false) : FinMove s t
  | finWait2 (hs : s.state = .finWait1) (finAcked : tcpIsFinAcked s = true) :
      FinMove s { s with state := .finWait2 }
  | timeWait (hs : s.state = .closing) (finAcked : tcpIsFinAcked s = true) :
      FinMove s { s with state := .timeWait }

/-- What an acknowledged FIN can lead to. -/
theorem stepFinAcked_move (s : Sock) :
    (∃ t, stepFinAcked s = (t, false) ∧ FinMove s t) ∨
    (s.state = .lastAck ∧ tcpIsFinAcked s = true ∧
      stepFinAcked s = (wakeOwner (tcpEnterCloseState s), true)) := by
  unfold stepFinAcked
  split
  · rename_i hs
    left
    split
    · rename_i ha
      exact ⟨_, rfl, .finWait2 hs ha⟩
    · rename_i ha
      exact ⟨_, rfl, .idle (.refl s) fun _ => Bool.eq_false_iff.mpr ha⟩
  · rename_i hs
    left
    split
    · rename_i ha
      exact ⟨_, rfl, .timeWait hs ha⟩
    · rename_i ha
      exact ⟨_, rfl, .idle (.refl s) fun _ => Bool.eq_false_iff.mpr ha⟩
  · rename_i hs
    split
    · rename_i ha
      exact .inr ⟨hs, ha, rfl⟩
    · exact .inl ⟨_, rfl, .idle (.refl s) fun hf => by simp [hs] at hf⟩
  · rename_i hs
    exact .inl ⟨_, rfl, .idle (quiet_sendAck (by simp [hs])) fun hf => by simp [hs] at hf⟩
  · rename_i h1 h2 _ _
    exact .inl ⟨_, rfl, .idle (.refl s) fun hf => absurd hf (not_or.mpr ⟨h1, h2⟩)⟩

structure IsFin (x : SkBuff) (n : UInt32) : Prop where
  flags : x.flags = { fin := true, ack := true }
  payload : x.payload = []
  seq : x.seq = n
  endSeq : x.endSeq = n

theorem SendView.send_fin {v : SendView} {x : SkBuff} {n : Nat} (hx : IsFin x v.nxt)
    (hs : v.state = .closeWait) : v.send x false n =
      { v with
        state := .lastAck
        nxt := v.nxt + 1
        retransmit := if v.retransmit.isNone then some n else v.retransmit } := by
  simp [SendView.send, activedSend, hx.flags, hx.payload, hx.endSeq, hs, nextState]

theorem finReply_quiet (hs : s.state ≠ .closeWait) (hn : s.state ≠ .synSent) :
    Quiet s (finReply s) := by
  unfold finReply
  refine Quiet.trans (t := { s with rcvNxt := s.rcvNxt + 1 }) (.of_view rfl rfl) ?_
  simp only [hs, decide_false]
  exact quiet_send (by simp [create_occupies]) (next_state_ack hn)

theorem finReply_fin (hs : s.state = .closeWait) :
    ∃ x r, IsFin x s.sndNxt ∧ r ≠ none ∧ (finReply s).wire = x :: s.wire ∧ (finReply s).view =
      { s.view with state := .lastAck, nxt := s.sndNxt + 1, retransmit := r } := by
  have hx : IsFin (tcpCreateSkb { s with rcvNxt := s.rcvNxt + 1 } s.sndNxt (s.rcvNxt + 1)
      { fin := decide (s.state = .closeWait), ack := true } [] []) s.sndNxt :=
    ⟨by simp [tcpCreateSkb, hs], rfl, rfl, by simp [tcpCreateSkb]⟩
  refine ⟨_, _, hx, ?_, rfl, (view_send _ _ _).trans (SendView.send_fin hx hs)⟩
  split
  · simp
  · rename_i h
    simpa using h

inductive ReplyMove (s : Sock) (seg : Segment) : Sock → Prop where
  | quiet {t : Sock} (same : Quiet s t) : ReplyMove s seg t
  | passive {t : Sock} (fin : seg.flags.fin = true) (hs : s.state = .established)
      (data : seg.payload ≠ []) (view : t.view = { s.view with state := .closeWait })
      (mute : Mute s.wire t.wire) : ReplyMove s seg t
  | answered {t : Sock} {x : SkBuff} {r : Option Nat} {w : List SkBuff} (fin : seg.flags.fin = true)
      (hs : s.state = .established ∧ seg.payload = [] ∨ s.state = .closeWait)
      (isFin : IsFin x s.sndNxt) (armed : r ≠ none)
      (view : t.view = { s.view with state := .lastAck, nxt := s.sndNxt + 1, retransmit := r })
      (mute : Mute s.wire w) (wire : t.wire = x :: w) : ReplyMove s seg t
  | closing {t : Sock} (fin : seg.flags.fin = true) (hs : s.state = .finWait1)
      (view : t.view = { s.view with state := .closing }) (mute : Mute s.wire t.wire) :
      ReplyMove s seg t
  | timeWait {t : Sock} {n : Nat} (fin : seg.flags.fin = true) (hs : s.state = .finWait2)
      (view : t.view = { s.view with
        state := .timeWait, retransmit := none, persist := none, msl := some n })
      (mute : Mute s.wire t.wire) : ReplyMove s seg t
  | again {t : Sock} {n : Nat} (fin : seg.flags.fin = true) (hs : s.state = .timeWait)
      (view : t.view = { s.view with msl := some n }) (mute : Mute s.wire t.wire) : ReplyMove s seg t

theorem ReplyMove.state (h : ReplyMove s seg t) :
    t.state = s.state ∨ (s.state = .established ∨ s.state = .closeWait ∨ s.state = .finWait2) ∨
      s.state = .finWait1 ∧ t.state = .closing := by
  cases h with
  | quiet same => exact .inl same.state
  | passive _ hs => exact .inr (.inl (.inl hs))
  | answered _ hs =>
    rcases hs with ⟨hs, -⟩ | hs
    · exact .inr (.inl (.inl hs))
    · exact .inr (.inl (.inr (.inl hs)))
  | closing _ hs view => exact .inr (.inr ⟨hs, congrArg SendView.state view⟩)
  | timeWait _ hs => exact .inr (.inl (.inr (.inr hs)))
  | again _ hs view => exact .inl (congrArg SendView.state view)

theorem quiet_reply {b : Prop} [Decidable b] (hs : s.state ≠ .closeWait)
    (hn : s.state ≠ .synSent) : Quiet s (wakeOwner (if b then s else finReply s)) := by
  split
  · exact quiet_wake s
  · exact (finReply_quiet hs hn).trans (quiet_wake _)

theorem stepDataFin_move (hs : synchronized s.state = true)
    (hr : s.state ≠ .synRecv) (hf : s.state = .finWait1 → tcpIsFinAcked s = false) :
    ReplyMove s seg (stepDataFin s seg) := by
  have hq : Quiet s (stepData s seg) := quiet_data
  unfold stepDataFin
  dsimp only
  generalize stepData s seg = u at hq
  have hst := hq.state
  split
  · rename_i hfin
    rw [if_neg (by rw [hst]; rintro (h | h | h) <;> simp [h, synchronized] at hs)]
    cases he : s.state with
    | established =>
      have hu : finState u = { u with state := .closeWait } := by simp [finState, hst, he]
      rw [hu]
      by_cases hp : seg.payload = []
      · rw [if_neg (by simp [hp])]
        obtain ⟨x, r, hx, hr, hw, hv⟩ := finReply_fin (s := { u with state := .closeWait }) rfl
        have hn : u.sndNxt = s.sndNxt := congrArg SendView.nxt hq.view
        refine .answered hfin (.inl ⟨he, hp⟩) (hn ▸ hx) hr ?_ hq.wire hw
        change (finReply { u with state := .closeWait }).view = _
        rw [hv, ← hn, ← hq.view]
        rfl
      · rw [if_pos (by simp [takesData, hp])]
        refine .passive hfin he hp ?_ hq.wire
        rw [← hq.view]
        rfl
    | closeWait =>
      have hu : finState u = u := by simp [finState, hst, he]
      rw [hu, if_neg (by simp [takesData])]
      obtain ⟨x, r, hx, hr, hw, hv⟩ := finReply_fin (hst.trans he)
      have hn : u.sndNxt = s.sndNxt := congrArg SendView.nxt hq.view
      refine .answered hfin (.inr he) (hn ▸ hx) hr ?_ hq.wire hw
      change (finReply u).view = _
      rw [hv, ← hn, ← hq.view]
    | finWait1 =>
      have hna : tcpIsFinAcked u = false := by
        have := hf he
        unfold tcpIsFinAcked at this ⊢
        rwa [show u.txQueue = s.txQueue from congrArg SendView.queue hq.view]
      have hu : finState u = { u with state := .closing } := by simp [finState, hst, he, hna]
      rw [hu]
      have hw := quiet_reply (s := { u with state := .closing })
        (b := (takesData .finWait1 && seg.payload ≠ []) = true) (fun hc => by cases hc)
          (fun hc => by cases hc)
      refine .closing hfin he (hw.view.trans ?_) (hq.wire.trans hw.wire)
      rw [← hq.view]
      rfl
    | finWait2 =>
      have hu : finState u = enterTimeWait u := by simp [finState, hst, he]
      rw [hu]
      have hw := quiet_reply (s := enterTimeWait u)
        (b := (takesData .finWait2 && seg.payload ≠ []) = true) (fun hc => by cases hc)
          (fun hc => by cases hc)
      refine .timeWait (n := u.now + maxSegmentLifetime * 2) hfin he (hw.view.trans ?_)
        (hq.wire.trans hw.wire)
      rw [← hq.view]
      rfl
    | timeWait =>
      have hu : finState u = { u with mslTimer := some (u.now + maxSegmentLifetime * 2) } := by
        simp [finState, hst, he]
      rw [hu]
      have hw := quiet_reply (s := { u with mslTimer := some (u.now + maxSegmentLifetime * 2) })
        (b := (takesData .timeWait && seg.payload ≠ []) = true) (by simp [hst, he]) (by simp [hst, he])
      refine .again (n := u.now + maxSegmentLifetime * 2) hfin he (hw.view.trans ?_)
        (hq.wire.trans hw.wire)
      rw [← hq.view]
      rfl
    | lastAck | closing =>
      have hu : finState u = u := by simp [finState, hst, he]
      rw [hu]
      exact .quiet (hq.trans (quiet_reply (by simp [hst, he]) (by simp [hst, he])))
    | _ => simp_all [synchronized]
  · exact .quiet (hq.trans (quiet_wake u))

/-- A synchronized state that the code reaches; `TCP_SYN_RECV` is not one. -/
def connected (state : TcpState) : Bool := synchronized state && state != .synRecv

/-- Connected is synchronized behind the handshake. -/
theorem connected_iff :
    connected st = true ↔ synchronized st = true ∧ st ≠ .synRecv := by
  simp [connected]

theorem connected_ne_synSent (h : connected st = true) : st ≠ .synSent := by
  intro he
  simp [he, connected, synchronized] at h

theorem next_state_connected (flags : Flags) (h : connected st = true) :
    nextState st flags = st ∨ flags.fin = true ∧
      (st = .established ∧ nextState st flags = .finWait1 ∨
        st = .closeWait ∧ nextState st flags = .lastAck) := by
  cases hf : flags.fin <;> cases st <;> simp_all [connected, synchronized, nextState]

theorem connected_next (flags : Flags) (h : connected st = true) :
    connected (nextState st flags) = true := by
  rcases next_state_connected flags h with he | ⟨-, ⟨-, he⟩ | ⟨-, he⟩⟩
  · rwa [he]
  · rw [he]
    rfl
  · rw [he]
    rfl

theorem AckMove.keeps_connected (h : AckMove s seg u)
    (hs : connected s.state = true) : connected u.state = true := by
  cases h with
  | idle same => rwa [same.state]
  | accepted takes new ok =>
    obtain ⟨-, r, rto, srtt, rttvar, rfl, -⟩ := accept_ok ok
    unfold takeWindow
    split <;> exact hs
  | updated takes old update =>
    unfold updateWindow
    split <;> exact hs
  | resent third same first => exact connected_next _ (same.state ▸ hs)

theorem FinMove.keeps_connected (h : FinMove s t) (hs : connected s.state = true) :
    connected t.state = true := by
  cases h with
  | idle same => rwa [same.state]
  | finWait2 | timeWait => rfl

theorem isFinAcked_view (h : t.view = s.view) : tcpIsFinAcked t = tcpIsFinAcked s :=
  congrArg (fun v : SendView => v.queue.all fun x => !x.flags.fin) h

theorem FinMove.waits (h : FinMove s t) (ht : t.state = .finWait1) :
    tcpIsFinAcked t = false := by
  cases h with
  | idle same waits =>
    rw [isFinAcked_view same.view]
    exact waits (.inl (same.state ▸ ht))
  | finWait2 | timeWait => cases ht

theorem next_state_open {flags : Flags}
    (h : nextState st flags = .established ∨ nextState st flags = .closeWait)
    (hs : connected st = true) : nextState st flags = st := by
  rcases next_state_connected flags hs with he | ⟨-, ⟨-, he⟩ | ⟨-, he⟩⟩
  · exact he
  · simp [he] at h
  · simp [he] at h

theorem AckMove.open_state {w : Sock} (ack : AckMove s seg u)
    (fin : FinMove u w) (hs : connected s.state = true)
    (hw : w.state = .established ∨ w.state = .closeWait) : w.state = s.state := by
  cases fin with
  | idle same =>
    rw [same.state] at hw ⊢
    rcases ack.state with he | ⟨flags, he⟩
    · exact he
    · rw [he] at hw ⊢
      exact next_state_open hw hs
  | finWait2 | timeWait => simp at hw

/-- A reset or a SYN that gives the connection up. -/
def aborts (s : Sock) (seg : Segment) : Bool :=
  acceptableSegment s seg && (seg.flags.rst && s.state != .closeWait || seg.flags.syn)

/-- A FIN that step eight answers by one of its own, which it does not queue. -/
def answersFin (s : Sock) (seg : Segment) : Bool :=
  acceptableSegment s seg && seg.flags.ack && seg.flags.fin &&
    (s.state == .established && seg.payload.isEmpty || s.state == .closeWait)

/-- The ways `tcp_handler` comes back, in the states the code reaches. -/
inductive Handled (s : Sock) (seg : Segment) : Sock → Prop where
  | quiet {t : Sock} (same : Quiet s t) : Handled s seg t
  | rejected {t : Sock} (hs : s.state = .synSent) (view : t.view = { s.view with state := .close })
      (mute : Mute s.wire t.wire) : Handled s seg t
  | refused (hs : s.state = .synSent) : Handled s seg (tcpDeleteTcb (tcpEnterCloseState s))
  | opened {b u t : Sock} (hs : s.state = .synSent) (after : s.sndIss < seg.ackNumber)
      (sent : seg.ackNumber ≤ s.sndNxt)
      (base : b.view = { s.view with nxt := seg.ackNumber, wnd := seg.window.toUInt32 })
      (wire : b.wire = s.wire) (ok : tcpAcceptAck b seg.ackNumber false = .ok u)
      (view : t.view = { u.view with state := .established }) (mute : Mute u.wire t.wire) :
      Handled s seg t
  | flushed {t : Sock} (hs : connected s.state = true) (why : seg.flags.rst = true ∨ seg.flags.syn = true)
      (view : t.view = { s.view with state := .close, retransmit := none, queue := [], head := none })
      (mute : Mute s.wire t.wire) (cause : aborts s seg = true) : Handled s seg t
  | aborted {t : Sock} (hs : s.state = .closing ∨ s.state = .lastAck ∨ s.state = .timeWait)
      (why : seg.flags.rst = true) (view : t.view = { s.view with state := .close, retransmit := none })
      (mute : Mute s.wire t.wire) (cause : aborts s seg = true) : Handled s seg t
  | closed {t : Sock} (hs : s.state = .lastAck) (acceptable : acceptableSegment s seg = true)
      (flag : seg.flags.ack = true) (syn : seg.flags.syn = false)
      (rst : seg.flags.rst = true → s.state = .closeWait) (finAcked : tcpIsFinAcked s = true)
      (view : t.view = { s.view with state := .close, retransmit := none })
      (mute : Mute s.wire t.wire) : Handled s seg t
  | processed {u w t : Sock} (hs : connected s.state = true)
      (acceptable : acceptableSegment s seg = true) (flag : seg.flags.ack = true)
      (syn : seg.flags.syn = false) (rst : seg.flags.rst = true → s.state = .closeWait)
      (ack : AckMove s seg u) (fin : FinMove u w) (reply : ReplyMove w seg t) : Handled s seg t

theorem stepReset_none (h : stepReset s = none) (hs : connected s.state = true) :
    s.state = .closeWait := by
  unfold stepReset at h
  split at h
  all_goals cases h
  cases he : s.state <;> simp_all [connected, synchronized]

theorem stepReset_handled (hs : connected s.state = true)
    (acceptable : acceptableSegment s seg = true) (rst : seg.flags.rst = true)
    (h : stepReset s = some (.ok t)) : Handled s seg t := by
  have cause (hne : s.state ≠ .closeWait) : aborts s seg = true := by
    simp [aborts, acceptable, rst, hne]
  unfold stepReset at h
  split at h
  · rename_i he
    simp [he, connected] at hs
  · rename_i he
    cases h
    exact .flushed hs (.inl rst) rfl (.refl _) (cause (by simp [he]))
  · rename_i he
    cases h
    exact .flushed hs (.inl rst) rfl (.refl _) (cause (by simp [he]))
  · rename_i he
    cases h
    exact .flushed hs (.inl rst) rfl (.refl _) (cause (by simp [he]))
  · rename_i he
    cases h
    exact .aborted (.inl he) rst rfl (.refl _) (cause (by simp [he]))
  · rename_i he
    cases h
    exact .aborted (.inr (.inl he)) rst rfl (.refl _) (cause (by simp [he]))
  · rename_i he
    cases h
    exact .aborted (.inr (.inr he)) rst rfl (.refl _) (cause (by simp [he]))
  · cases h

theorem AckMove.lastAck (h : AckMove s seg u)
    (hs : connected s.state = true) (hu : u.state = .lastAck) (ha : tcpIsFinAcked u = true) :
    s.state = .lastAck ∧ Quiet s u := by
  cases h with
  | idle same => exact ⟨same.state.symm.trans hu, same⟩
  | accepted takes new ok =>
    obtain ⟨-, r, rto, srtt, rttvar, rfl, -⟩ := accept_ok ok
    have he : s.state = .lastAck := by
      unfold takeWindow at hu
      split at hu <;> exact hu
    simp [he, takesAcks] at takes
  | updated takes old update =>
    have he : s.state = .lastAck := by
      unfold updateWindow at hu
      split at hu <;> exact hu
    simp [he, takesAcks] at takes
  | @resent w skb rest third same first =>
    have hskb : skb.flags.fin = false := by
      have hw : w.txQueue = skb :: rest := (congrArg SendView.queue same.view).trans first
      have hall := List.all_eq_true.mp ha skb (first_mem hw)
      simpa using hall
    have hn : nextState s.state skb.flags = .lastAck := same.state ▸ hu
    rcases next_state_connected skb.flags hs with he | ⟨hf, -⟩
    · have := he.symm.trans hn
      simp [fastRetransmits, this, takesAcks] at third
    · rw [hskb] at hf
      cases hf

/-- The rest of the handler is one of the moves of `Handled`. -/
theorem stepRest_handled (hs : connected s.state = true)
    (acceptable : acceptableSegment s seg = true) (flag : seg.flags.ack = true)
    (syn : seg.flags.syn = false) (rst : seg.flags.rst = true → s.state = .closeWait)
    (h : stepRest s seg = .ok t) : Handled s seg t := by
  obtain ⟨⟨u, b⟩, hu, hp⟩ := bind_ok.mp h
  obtain ⟨hack, hquiet⟩ := stepAck_move (connected_iff.mp hs).2 hu
  dsimp only at hp
  split at hp
  · rename_i hb
    cases hp
    exact .quiet (hquiet hb)
  · rcases stepFinAcked_move u with ⟨w, hw, hfin⟩ | ⟨hlast, hacked, hw⟩
    · rw [hw] at hp
      cases hp
      have hc := connected_iff.mp (hfin.keeps_connected (hack.keeps_connected hs))
      exact .processed hs acceptable flag syn rst hack hfin (stepDataFin_move hc.1 hc.2 hfin.waits)
    · rw [hw] at hp
      cases hp
      obtain ⟨he, hq⟩ := hack.lastAck hs hlast hacked
      refine .closed he acceptable flag syn rst (isFinAcked_view hq.view ▸ hacked) ?_ hq.wire
      rw [← hq.view]
      rfl

theorem established_handled (hs : connected s.state = true)
    (h : tcpHandlerEstablished s seg = .ok t) : Handled s seg t := by
  have hn := connected_ne_synSent hs
  unfold tcpHandlerEstablished at h
  split at h
  · cases h
    exact .quiet (quiet_refuse hn)
  · rename_i hacc
    have hacc : acceptableSegment s seg = true := by simpa using hacc
    split at h
    · rename_i outcome ho
      split at ho
      · rename_i hrst
        subst h
        exact stepReset_handled hs hacc hrst ho
      · cases ho
    · rename_i ho
      have hrst : seg.flags.rst = true → s.state = .closeWait := by
        intro hr
        rw [if_pos hr] at ho
        exact stepReset_none ho hs
      split at h
      · rename_i hsyn
        cases h
        have hq : Quiet s (sendRst s seg s.rcvNxt) := quiet_sendRst hn
        refine .flushed hs (.inr hsyn.1) ?_ hq.wire (by simp [aborts, hacc, hsyn.1])
        rfl
      · rename_i hsyn
        have hsyn : seg.flags.syn = false := by
          simpa [(connected_iff.mp hs).1] using hsyn
        split at h
        · cases h
          exact .quiet (.refl s)
        · rename_i hflag
          exact stepRest_handled hs hacc (by simpa using hflag) hsyn hrst h

theorem synAccepted_opened (hu : s.sndIss < s.sndUna)
    (hs : s.state = .synSent) : (synAccepted s seg).view = { s.view with state := .established } ∧
      Mute s.wire (synAccepted s seg).wire := by
  unfold synAccepted
  rw [if_pos hu]
  constructor
  · change (sendAck _).view = _
    rw [sendAck, view_send, SendView.send_mute (by simp [create_occupies])]
    simp [Sock.view, hs, nextState, tcpCreateSkb]
  · exact mute_send (b := false) (by simp [create_occupies])

theorem sync_handled {garbage : UInt16 × UInt8}
    (hs : s.state = .synSent) (h : tcpHandlerSync s seg garbage = .ok t) : Handled s seg t := by
  unfold tcpHandlerSync at h
  split at h
  · split at h
    · cases h
      exact .quiet (.refl s)
    · cases h
      refine .rejected hs ?_ (mute_send (b := false) (by simp [create_occupies]))
      change (sendRst s seg 0).view = _
      rw [sendRst, view_send, SendView.send_mute (by simp [create_occupies])]
      simp [Sock.view, hs, nextState, tcpCreateSkb]
  · rename_i hbad
    dsimp only at h
    split at h
    · split at h
      · cases h
        exact .refused hs
      · cases h
        exact .quiet (.refl s)
    · split at h
      · rename_i hsyn
        obtain ⟨-, hflag, -, hle⟩ := hsyn
        have hiss : s.sndIss < seg.ackNumber := by
          have := fun hh => hbad ⟨hflag, .inl hh⟩
          exact UInt32.not_le.mp this
        split at h
        · cases h
        · obtain ⟨u, hu, hp⟩ := bind_ok.mp h
          cases hp
          obtain ⟨-, r, rto, srtt, rttvar, hue, -⟩ := accept_ok hu
          obtain ⟨hv, hm⟩ :=
            synAccepted_opened (s := u) (by rw [hue]; exact hiss) (by rw [hue]; exact hs)
          refine .opened hs hiss hle ?_ ?_ hu hv hm
          · rfl
          · rfl
      · cases h
        exact .quiet (.refl s)

/-- `tcp_handler` does one of these things; `TCP_SYN_RECV` apart, which the code
never enters. -/
theorem handler_handled {garbage : UInt16 × UInt8}
    (hs : s.state ≠ .synRecv) (h : tcpHandler s seg garbage = .ok t) : Handled s seg t := by
  unfold tcpHandler at h
  split at h
  · cases h
    exact .quiet (.refl s)
  · split at h
    · rename_i he
      cases h
      exact .quiet (quiet_close he)
    · rename_i he
      exact sync_handled he h
    · cases h
      exact .quiet (.refl s)
    · cases h
      exact .quiet (.refl s)
    · refine established_handled ?_ h
      cases he : s.state <;> simp_all [connected, synchronized]

end Mos.Tcp

import Mos.Proofs.ReceiveStream

namespace Mos.Tcp
open Machine

variable {s t u : Sock} {seg : Segment} {a : UInt32} {b : Bool}

/-- `rcv_nxt` has moved on by the payload and the FIN, and where there is either, a segment
that acknowledges the new number has been sent. -/
structure Acknowledged (s : Sock) (seg : Segment) (t : Sock) : Prop where
  advanced : t.rcvNxt = s.rcvNxt + seg.payloadLen + if seg.flags.fin then 1 else 0
  sent : seg.payload ≠ [] ∨ seg.flags.fin = true →
    ∃ new, t.wire = new ++ s.wire ∧ ∃ x ∈ new, x.flags.ack = true ∧ x.ackNumber = t.rcvNxt

def entersAck (s : Sock) (seg : Segment) : Bool :=
  acceptableSegment s seg && !seg.flags.rst && !seg.flags.syn && seg.flags.ack

/-- An assertion of `tcp_accept_ack` fails: the buffer that `send_head` has moved to is
acknowledged, or the first one that stays has never been sent. -/
def acceptFails (s : Sock) (a : UInt32) : Bool :=
  s.txQueue.any (fun x => ackRemoves a false x && ackSendHead s == some x.addr) ||
    !ackFromRetransmitted s &&
      (s.txQueue.find? fun x => !ackRemoves a false x).any fun x => (s.cb x.addr).expires == 0

def ackFails (s : Sock) (seg : Segment) : Bool :=
  newAck s seg && acceptFails s seg.ackNumber ||
    fastRetransmits s seg && s.txQueue.isEmpty

def acksUnsent (s : Sock) (seg : Segment) : Bool :=
  decide (s.sndNxt < seg.ackNumber) && !windowUpdate s seg && !duplicateAck s seg

section AcceptAck

theorem ackTimer_fails (b : Bool) : (∃ t, ackTimer s b = .ok t) ↔
    ¬(b = false ∧ ∃ x, s.txQueue.head? = some x ∧ (s.cb x.addr).expires = 0) := by
  unfold ackTimer
  cases s.txQueue.head? with
  | none => simp
  | some x =>
    cases b with
    | true => simp
    | false => by_cases hx : (s.cb x.addr).expires = 0 <;> simp [hx]

/-- `tcp_accept_ack` fails by its assertions only. -/
theorem acceptAck_returns : (∃ t, tcpAcceptAck s a false = .ok t) ↔ acceptFails s a = false := by
  have hhead : (s.txQueue.filter fun x => !ackRemoves a false x).head? =
      s.txQueue.find? fun x => !ackRemoves a false x := List.head?_filter
  unfold tcpAcceptAck acceptFails
  dsimp only
  split
  · rename_i hany
    simp [hany]
  · rename_i hany
    rw [Bool.eq_false_iff.mpr hany, Bool.false_or]
    constructor
    · intro ⟨t, h⟩
      obtain ⟨w, hw, -⟩ := bind_ok.mp h
      have hno := (ackTimer_fails _).mp ⟨w, hw⟩
      simp only [hhead] at hno
      by_contra hc
      simp [Option.any_eq_true] at hc
      exact hno hc
    · intro h
      have hno : ¬(ackFromRetransmitted s = false ∧
          ∃ x, (s.txQueue.filter fun x => !ackRemoves a false x).head? = some x ∧
            (s.cb x.addr).expires = 0) := by
        intro ⟨hr, x, hx, h0⟩
        rw [hhead] at hx
        simp [hr, hx, h0] at h
      obtain ⟨w, hw⟩ := (ackTimer_fails (s := { s with
        sndUna := a
        flightSize := s.sndNxt - a
        numberOfDupAcks := 0
        cwnd := if ackFromRetransmitted s then s.ssthresh else s.cwnd
        sendHead := ackSendHead s
        txQueue := s.txQueue.filter (fun x => !ackRemoves a false x) }) _).mpr hno
      rw [hw]
      exact ⟨ackRtt w a, rfl⟩

end AcceptAck

structure Untaken (s t : Sock) : Prop where
  rcvNxt : t.rcvNxt = s.rcvNxt
  wire : s.wire <:+ t.wire
  state : takesData t.state = true

theorem takesData_takesAcks {st : TcpState} (h : takesData st = true) :
    takesAcks st = true ∧ st ≠ .synRecv := by
  cases st <;> simp_all [takesData, takesAcks]

theorem send_untaken (hs : takesData s.state = true) (x : SkBuff) (b : Bool) :
    Untaken s (tcpSendSkb s x b) :=
  ⟨rfl, List.suffix_cons _ _, takesData_next _ hs⟩

theorem accept_untaken (hs : takesData s.state = true) (h : tcpAcceptAck s a false = .ok t) :
    Untaken s t := by
  obtain ⟨-, r, rto, srtt, rttvar, rfl, -⟩ := accept_ok h
  exact ⟨rfl, List.suffix_rfl, hs⟩

theorem takeWindow_untaken (h : Untaken s t) : Untaken s (takeWindow t seg) := by
  unfold takeWindow
  split
  · exact ⟨h.rcvNxt, h.wire, h.state⟩
  · exact h

theorem updateWindow_untaken (hs : takesData s.state = true) : Untaken s (updateWindow s seg) := by
  unfold updateWindow
  split
  · exact ⟨rfl, List.suffix_rfl, hs⟩
  · exact ⟨rfl, List.suffix_rfl, hs⟩

theorem countDuplicateAck_cases (hs : takesData s.state = true) :
    if s.numberOfDupAcks + 1 = 3 ∧ s.txQueue = [] then ∀ t, countDuplicateAck s ≠ .ok t
    else ∃ t, countDuplicateAck s = .ok t ∧ Untaken s t := by
  unfold countDuplicateAck
  by_cases h3 : s.numberOfDupAcks + 1 = 3
  · simp only [h3, true_and]
    cases hq : s.txQueue with
    | nil => simp
    | cons x rest =>
      exact ⟨_, rfl, rfl, List.suffix_cons _ _, takesData_next _ hs⟩
  · simp only [h3, false_and, if_false]
    split
    · exact ⟨_, rfl, rfl, List.suffix_rfl, hs⟩
    · exact ⟨_, rfl, rfl, List.suffix_rfl, hs⟩

/-- The acknowledgement is refused by an assertion, or it takes nothing of the data. -/
theorem stepAck_cases (seg : Segment) (hs : takesData s.state = true) :
    if ackFails s seg = true then ∀ r, stepAck s seg ≠ .ok r
    else ∃ t, stepAck s seg = .ok (t, acksUnsent s seg) ∧ Untaken s t := by
  obtain ⟨htakes, hrecv⟩ := takesData_takesAcks hs
  unfold stepAck ackFails acksUnsent fastRetransmits
  simp only [if_neg hrecv, htakes, if_true, Bool.true_and]
  cases hn : newAck s seg with
  | true =>
    have hle : ¬s.sndNxt < seg.ackNumber := by
      have h := of_decide_eq_true hn
      exact UInt32.not_lt.mpr h.2
    simp only [if_true, Bool.true_and, Bool.not_true, Bool.false_and, Bool.or_false,
      decide_eq_false hle]
    have hc : acceptFails (tcpCalculateCongestion s seg.ackNumber) seg.ackNumber =
        acceptFails s seg.ackNumber := rfl
    split
    · rename_i hf
      intro r h
      obtain ⟨w, hw, -⟩ := bind_ok.mp h
      have := acceptAck_returns.mp ⟨w, hw⟩
      rw [hc, hf] at this
      cases this
    · rename_i hf
      obtain ⟨w, hw⟩ := acceptAck_returns.mpr (hc.trans (Bool.eq_false_iff.mpr hf))
      have hu : Untaken (tcpCalculateCongestion s seg.ackNumber) w := accept_untaken hs hw
      refine ⟨takeWindow w seg, by rw [hw]; rfl, takeWindow_untaken ⟨hu.rcvNxt, hu.wire, hu.state⟩⟩
  | false =>
    simp only [Bool.false_eq_true, if_false, Bool.false_and, Bool.false_or, Bool.not_false,
      Bool.true_and]
    cases hw : windowUpdate s seg with
    | true =>
      simp only [if_true, Bool.not_true, Bool.false_and, Bool.and_false, Bool.false_eq_true,
        if_false]
      exact ⟨_, rfl, updateWindow_untaken hs⟩
    | false =>
      simp only [Bool.false_eq_true, if_false, Bool.not_false, Bool.true_and, Bool.and_true]
      cases hd : duplicateAck s seg with
      | true =>
        have hcount := countDuplicateAck_cases hs
        simp only [if_true, Bool.true_and, Bool.not_true, Bool.and_false, Bool.and_eq_true,
          beq_iff_eq, List.isEmpty_iff]
        split at hcount
        · rename_i hf
          rw [if_pos hf]
          intro r h
          obtain ⟨w, hw, -⟩ := bind_ok.mp h
          exact hcount w hw
        · rename_i hf
          rw [if_neg hf]
          obtain ⟨w, hw, hu⟩ := hcount
          exact ⟨w, by rw [hw]; rfl, hu⟩
      | false =>
        simp only [Bool.false_eq_true, if_false, Bool.false_and, Bool.not_false, Bool.and_true]
        split
        · rename_i hlt
          exact ⟨sendAck s, by rw [decide_eq_true hlt], send_untaken hs _ _⟩
        · rename_i hlt
          exact ⟨_, by rw [decide_eq_false hlt], rfl, List.suffix_rfl, hs⟩

theorem stepFinAcked_untaken (hs : takesData s.state = true) :
    ∃ t, stepFinAcked s = (t, false) ∧ Untaken s t := by
  unfold stepFinAcked
  cases he : s.state <;> simp_all [takesData]
  · exact ⟨rfl, List.suffix_rfl, by rw [he]; rfl⟩
  · split
    · exact ⟨rfl, List.suffix_rfl, rfl⟩
    · exact ⟨rfl, List.suffix_rfl, by rw [he]; rfl⟩
  · exact ⟨rfl, List.suffix_rfl, by rw [he]; rfl⟩

/-- Data are answered with the number behind them. -/
theorem stepData_takes (seg : Segment) (hs : takesData s.state = true) :
    (stepData s seg).rcvNxt = s.rcvNxt + seg.payloadLen ∧
      takesData (stepData s seg).state = true ∧
      ∃ new, (stepData s seg).wire = new ++ s.wire ∧ (seg.payload ≠ [] →
        ∃ x ∈ new, x.flags.ack = true ∧ x.ackNumber = (stepData s seg).rcvNxt) := by
  have hw : ∀ w : Sock, w = { s with rxQueue := w.rxQueue } →
      let r := sendAck { w with rcvNxt := w.rcvNxt + seg.payloadLen }
      r.rcvNxt = s.rcvNxt + seg.payloadLen ∧ takesData r.state = true ∧
        ∃ x : SkBuff, r.wire = x :: s.wire ∧ x.flags.ack = true ∧ x.ackNumber = r.rcvNxt := by
    intro w he
    rw [he]
    exact ⟨rfl, takesData_next _ hs, _, rfl, rfl, rfl⟩
  unfold stepData
  simp only [hs, if_true]
  by_cases hp : seg.payload = []
  · have hz : seg.payloadLen = 0 := by
      unfold Segment.payloadLen
      rw [hp]
      rfl
    simp only [hp, ne_eq, not_true_eq_false, if_false, false_or, hz, UInt32.add_zero]
    split
    · exact ⟨rfl, hs, [], rfl, fun h => h.elim⟩
    · exact ⟨rfl, hs, [], rfl, fun h => h.elim⟩
  · simp only [ne_eq, hp, not_false_eq_true, if_true, true_or]
    obtain ⟨hr, ht, x, hx, hack⟩ := hw { s with rxQueue := s.rxQueue ++ [seg] } rfl
    exact ⟨hr, ht, [x], hx, fun _ => ⟨x, List.mem_singleton_self x, hack⟩⟩

theorem finState_same (s : Sock) : (finState s).rcvNxt = s.rcvNxt ∧ (finState s).wire = s.wire := by
  unfold finState
  split
  case h_3 => split <;> exact ⟨rfl, rfl⟩
  all_goals exact ⟨rfl, rfl⟩

theorem finReply_acks (s : Sock) : (finReply s).rcvNxt = s.rcvNxt + 1 ∧
    ∃ x : SkBuff, (finReply s).wire = x :: s.wire ∧ x.flags.ack = true ∧
      x.ackNumber = (finReply s).rcvNxt := ⟨rfl, _, rfl, rfl, rfl⟩

/-- Steps seven and eight: a FIN that comes with data is not counted. -/
theorem stepDataFin_takes (seg : Segment) (hs : takesData s.state = true) :
    (stepDataFin s seg).rcvNxt = s.rcvNxt + seg.payloadLen +
        (if seg.flags.fin = true ∧ seg.payload = [] then 1 else 0) ∧
      (seg.payload ≠ [] ∨ seg.flags.fin = true → ∃ new, (stepDataFin s seg).wire = new ++ s.wire ∧
        ∃ x ∈ new, x.flags.ack = true ∧ x.ackNumber = (stepDataFin s seg).rcvNxt) := by
  obtain ⟨hr, ht, new, hw, hack⟩ := stepData_takes seg hs
  unfold stepDataFin
  simp only [hs, Bool.true_and]
  generalize stepData s seg = w at hr ht hw hack
  by_cases hf : seg.flags.fin = true
  · have hopen : ¬(w.state = .close ∨ w.state = .listen ∨ w.state = .synSent) := by
      intro h
      rcases h with h | h | h <;> rw [h] at ht <;> cases ht
    obtain ⟨hsr, hsw⟩ := finState_same w
    simp only [hf, if_true, if_neg hopen, true_and, or_true, forall_const]
    by_cases hp : seg.payload = []
    · obtain ⟨hfr, x, hx, hxa⟩ := finReply_acks (finState w)
      simp only [hp, ne_eq, not_true_eq_false, decide_false, Bool.false_eq_true, if_false, if_true]
      constructor
      · change (finReply (finState w)).rcvNxt = _
        rw [hfr, hsr, hr]
      · refine ⟨x :: new, ?_, x, List.mem_cons_self, hxa⟩
        change (finReply (finState w)).wire = _
        rw [hx, hsw, hw]
        rfl
    · simp only [ne_eq, hp, not_false_eq_true, decide_true, if_true, if_false, UInt32.add_zero]
      obtain ⟨x, hx, hxa⟩ := hack hp
      refine ⟨hsr.trans hr, new, hsw.trans hw, x, hx, hxa.1, ?_⟩
      exact hxa.2.trans hsr.symm
  · simp only [hf, Bool.false_eq_true, if_false, false_and, UInt32.add_zero, or_false]
    exact ⟨hr, fun hp => ⟨new, hw, hack hp⟩⟩

/-- A segment that is dropped before its ACK is looked at takes nothing. -/
theorem handler_unreached (hs : takesData s.state = true) (h : entersAck s seg = false) :
    ∃ t, tcpHandlerEstablished s seg = .ok t ∧ t.rcvNxt = s.rcvNxt := by
  unfold entersAck at h
  unfold tcpHandlerEstablished
  cases ha : acceptableSegment s seg with
  | false =>
    refine ⟨refuse s seg, rfl, ?_⟩
    unfold refuse
    split <;> rfl
  | true =>
    cases hr : seg.flags.rst with
    | true =>
      cases he : s.state <;> simp_all [takesData, stepReset]
      all_goals rfl
    | false =>
      have hsync : synchronized s.state = true := by
        cases he : s.state <;> simp_all [takesData, synchronized]
      cases hy : seg.flags.syn with
      | true => exact ⟨stepSyn s seg, by simp [hsync], rfl⟩
      | false =>
        have hk : seg.flags.ack = false := by simpa [ha, hr, hy] using h
        exact ⟨s, by simp [hk], rfl⟩

/-- Otherwise the rest of the handler decides. -/
theorem handler_reached (h : entersAck s seg = true) :
    tcpHandlerEstablished s seg = stepRest s seg := by
  simp only [entersAck, Bool.and_eq_true, Bool.not_eq_true'] at h
  obtain ⟨⟨⟨ha, hr⟩, hy⟩, hk⟩ := h
  simp [tcpHandlerEstablished, ha, hr, hy, hk]

theorem stepRest_cases (seg : Segment) (hs : takesData s.state = true) :
    if ackFails s seg = true then ∀ t, stepRest s seg ≠ .ok t
    else if acksUnsent s seg = true then ∃ t, stepRest s seg = .ok t ∧ t.rcvNxt = s.rcvNxt
    else ∃ t w, stepRest s seg = .ok t ∧ Untaken s w ∧ t = stepDataFin w seg := by
  have hstep := stepAck_cases seg hs
  unfold stepRest
  split at hstep
  · rename_i hf
    rw [if_pos hf]
    intro t h
    obtain ⟨r, hr, -⟩ := bind_ok.mp h
    exact hstep r hr
  · rename_i hf
    rw [if_neg hf]
    obtain ⟨w, hw, hu⟩ := hstep
    rw [hw]
    split
    · rename_i hb
      exact ⟨w, by rw [hb]; rfl, hu.rcvNxt⟩
    · rename_i hb
      obtain ⟨x, hx, hux⟩ := stepFinAcked_untaken hu.state
      refine ⟨stepDataFin x seg, x, ?_, ?_, rfl⟩
      · rw [Bool.eq_false_iff.mpr hb]
        change (if (stepFinAcked w).2 = true then pure (stepFinAcked w).1
          else pure (stepDataFin (stepFinAcked w).1 seg)) = _
        rw [hx]
        rfl
      · exact ⟨hux.rcvNxt.trans hu.rcvNxt, hu.wire.trans hux.wire, hux.state⟩

def acknowledges (s : Sock) (seg : Segment) : Prop :=
  ¬(entersAck s seg = true ∧ ackFails s seg = true) ∧
    (seg.payload ≠ [] ∨ seg.flags.fin = true →
      entersAck s seg = true ∧ acksUnsent s seg = false ∧
        ¬(seg.payload ≠ [] ∧ seg.flags.fin = true))

theorem add_small_ne {x : UInt32} {n : Nat} (pos : 0 < n) (lt : n < 2 ^ 32) :
    x + UInt32.ofNat n ≠ x := by
  intro h
  have hn := congrArg UInt32.toNat h
  rw [UInt32.toNat_add, UInt32.toNat_ofNat_of_lt' lt] at hn
  omega

theorem taken_ne (seg : Segment) (h : seg.payload ≠ [] ∨ seg.flags.fin = true) (x : UInt32) :
    x + seg.payloadLen + (if seg.flags.fin then 1 else 0) ≠ x := by
  have hlt := seg.payload_length_lt
  have he : x + seg.payloadLen + (if seg.flags.fin then 1 else 0) =
      x + UInt32.ofNat (seg.payload.length + if seg.flags.fin then 1 else 0) := by
    rw [UInt32.ofNat_add, ← UInt32.add_assoc]
    split <;> rfl
  rw [he]
  apply add_small_ne
  · rcases h with h | h
    · have := List.length_pos_iff.mpr h
      omega
    · rw [h]
      simp
  · split <;> omega

theorem Acknowledged.unmoved (h : Acknowledged s seg t) (same : t.rcvNxt = s.rcvNxt) :
    ¬(seg.payload ≠ [] ∨ seg.flags.fin = true) := by
  intro hn
  exact taken_ne seg hn s.rcvNxt (h.advanced.symm.trans same)

theorem acknowledged_empty (h : ¬(seg.payload ≠ [] ∨ seg.flags.fin = true))
    (same : t.rcvNxt = s.rcvNxt) : Acknowledged s seg t := by
  refine ⟨?_, fun hn => absurd hn h⟩
  rw [not_or, not_not] at h
  have hz : seg.payloadLen = 0 := by
    unfold Segment.payloadLen
    rw [h.1]
    rfl
  rw [if_neg h.2, hz, same, UInt32.add_zero, UInt32.add_zero]

/-- Only data together with a FIN are not acknowledged as a whole. -/
theorem stepDataFin_acknowledged {w : Sock} (hu : Untaken s w) :
    Acknowledged s seg (stepDataFin w seg) ↔ ¬(seg.payload ≠ [] ∧ seg.flags.fin = true) := by
  obtain ⟨hr, hsent⟩ := stepDataFin_takes seg hu.state
  rw [hu.rcvNxt] at hr
  constructor
  · intro h ⟨hp, hf⟩
    have ha := h.advanced
    rw [hr, if_pos hf, if_neg (fun hc => hp hc.2), UInt32.add_zero] at ha
    exact add_small_ne (n := 1) (by decide) (by decide) ha.symm
  · intro h
    constructor
    · rw [hr]
      by_cases hf : seg.flags.fin = true
      · have hp : seg.payload = [] := by
          by_contra hp
          exact h ⟨hp, hf⟩
        rw [if_pos ⟨hf, hp⟩, if_pos hf]
      · rw [if_neg (fun hc => hf hc.1), if_neg hf]
    · intro hn
      obtain ⟨new, hw, x, hx, hack⟩ := hsent hn
      obtain ⟨more, hm⟩ := hu.wire
      refine ⟨new ++ more, ?_, x, List.mem_append_left _ hx, hack⟩
      rw [hw, ← hm, List.append_assoc]

/-- It does not matter whether the segment is in order: the handler takes every segment as if it
started at `rcv_nxt`. -/
theorem segment_acknowledged (hs : takesData s.state = true) :
    (∃ t, tcpHandlerEstablished s seg = .ok t ∧ Acknowledged s seg t) ↔ acknowledges s seg := by
  unfold acknowledges
  cases hreach : entersAck s seg with
  | false =>
    obtain ⟨t, ht, same⟩ := handler_unreached hs hreach
    simp only [Bool.false_eq_true, false_and, not_false_eq_true, true_and, imp_false]
    constructor
    · intro ⟨t', ht', h⟩
      obtain rfl := Except.ok.inj (ht.symm.trans ht')
      exact h.unmoved same
    · intro h
      exact ⟨t, ht, acknowledged_empty h same⟩
  | true =>
    have hrest := stepRest_cases seg hs
    rw [handler_reached hreach]
    simp only [true_and]
    split at hrest
    · rename_i hf
      simp only [hf, not_true_eq_false, false_and, iff_false]
      intro ⟨t, ht, _⟩
      exact hrest t ht
    · rename_i hf
      simp only [hf, Bool.false_eq_true, not_false_eq_true, true_and]
      split at hrest
      · rename_i hun
        obtain ⟨t, ht, same⟩ := hrest
        simp only [hun, Bool.true_eq_false, false_and, imp_false]
        constructor
        · intro ⟨t', ht', h⟩
          obtain rfl := Except.ok.inj (ht.symm.trans ht')
          exact h.unmoved same
        · intro h
          exact ⟨t, ht, acknowledged_empty h same⟩
      · rename_i hun
        obtain ⟨t, w, ht, hu, rfl⟩ := hrest
        simp only [Bool.eq_false_iff.mpr hun, true_and]
        constructor
        · intro ⟨t', ht', h⟩ _
          obtain rfl := Except.ok.inj (ht.symm.trans ht')
          exact (stepDataFin_acknowledged hu).mp h
        · intro h
          refine ⟨_, ht, (stepDataFin_acknowledged hu).mpr ?_⟩
          intro hboth
          exact h (.inl hboth.1) hboth

def idleSock : Sock :=
  { sockState := .connected
    state := .established
    sndUna := 1
    sndNxt := 1
    sndWnd := 1000
    rcvNxt := 5
    rcvWnd := 65535 }

def dataSegment (fin : Bool) : Segment where
  seq := 5
  ackNumber := 1
  flags := { ack := true, fin }
  window := 1000
  payload := [7, 8]

theorem segment_acknowledged_data : ∃ t, tcpHandlerEstablished idleSock (dataSegment false) = .ok t ∧
    Acknowledged idleSock (dataSegment false) t :=
  (segment_acknowledged rfl).mpr ⟨by decide, fun _ => by decide⟩

/-- With data and a FIN in one segment `rcv_nxt` stops in front of the FIN. -/
theorem fin_with_data_unacknowledged :
    acceptableSegment idleSock (dataSegment true) = true ∧
    (dataSegment true).seq = idleSock.rcvNxt ∧
    ∃ t, tcpHandlerEstablished idleSock (dataSegment true) = .ok t ∧ t.rcvNxt = 7 ∧
      ¬Acknowledged idleSock (dataSegment true) t := by
  have hstep : ∃ t, tcpHandlerEstablished idleSock (dataSegment true) = .ok t ∧ t.rcvNxt = 7 :=
    ⟨_, rfl, rfl⟩
  obtain ⟨t, ht, hr⟩ := hstep
  refine ⟨by decide, rfl, t, ht, hr, ?_⟩
  intro h
  have ha := h.advanced
  rw [hr] at ha
  exact absurd ha (by decide)

end Mos.Tcp

import Mos.Proofs.CloseTimers

namespace Mos.Tcp
open Machine

/-- The SYN has been sent, once or more, and is all that is queued. -/
structure SynOutstanding (s : Sock) : Prop where
  state : s.state = .synSent
  queue : s.txQueue.map (fun x => (x.flags, x.endSeq)) = [({ syn := true }, s.sndIss)]
  head : s.sendHead = none ∨ s.sendHead = s.txQueue.head?.map SkBuff.addr ∧ s.rttTime = 0
  una : s.sndUna ≤ s.sndIss
  next : s.sndNxt = s.sndIss + 1

def Answers (s : Sock) (seg : Segment) (t : Sock) (flags : Flags) (seq : UInt32) : Prop :=
  ∃ skb, t.wire = skb :: s.wire ∧ skb.flags = flags ∧ skb.seq = seq ∧
    (flags.ack = true → skb.ackNumber = seg.seq + 1)

/-- The documented handshake in `TCP_SYN_SENT`. An acknowledgement is acceptable if it is
that of the SYN. -/
def Documented (s : Sock) (seg : Segment) (t : Sock) : Prop :=
  if seg.flags.ack ∧ seg.ackNumber ≠ s.sndIss + 1 then
    if seg.flags.rst then t = s
    else t.state = s.state ∧ t.txQueue = s.txQueue ∧
      (t.retransmitTimer, t.persistTimer, t.mslTimer) =
        (s.retransmitTimer, s.persistTimer, s.mslTimer) ∧
      Answers s seg t { rst := true } seg.ackNumber
  else if seg.flags.rst then
    if seg.flags.ack then t.state = .close ∧ t.wire = s.wire else t = s
  else if seg.flags.syn then
    if seg.flags.ack then
      t.state = .established ∧ t.txQueue = [] ∧ Answers s seg t { ack := true } (s.sndIss + 1)
    else t.state = .synRecv ∧ Answers s seg t { ack := true, syn := true } s.sndIss
  else t = s

def meetsEmpty (byte : Nat → UInt8) (len : Nat) : Nat → Nat → Bool
  | 0, _ => false
  | rounds + 1, i =>
    if len ≤ i then false
    else if byte i = 0 ∨ byte i = 1 then meetsEmpty byte len rounds (i + 1)
    else byte (i + 1) == 0 || meetsEmpty byte len rounds (i + (byte (i + 1)).toNat)

def Segment.hasEmptyOption (seg : Segment) : Bool :=
  meetsEmpty (fun i => (seg.options ++ seg.payload).getD i 0) seg.options.length seg.options.length 0

/-- The parser runs on forever exactly at an option of length zero. -/
theorem parse_none_iff (byte : Nat → UInt8) (len rounds i : Nat) (rmms : UInt16) (scale : UInt8) :
    parseSynOptions byte len rmms scale rounds i = none ↔ meetsEmpty byte len rounds i = true := by
  induction rounds generalizing i rmms scale with
  | zero => simp [parseSynOptions, meetsEmpty]
  | succ rounds ih =>
    simp only [parseSynOptions, meetsEmpty]
    split
    · simp
    · split
      · exact ih _ _ _
      · split
        · rename_i hzero
          simp [hzero]
        · rename_i hzero
          rw [ih]
          simp [hzero]

theorem options_none_iff (s : Sock) (seg : Segment) (garbage : UInt16 × UInt8) :
    (if seg.options.isEmpty then some (s.rcvMss, s.sndWds) else tcpParseSynOptions seg garbage) =
      none ↔ seg.hasEmptyOption = true := by
  by_cases hempty : seg.options = []
  · simp [hempty, Segment.hasEmptyOption, meetsEmpty]
  · have : seg.options.isEmpty = false := by simpa using hempty
    rw [this, if_neg Bool.false_ne_true, tcpParseSynOptions, Option.map_eq_none_iff, parse_none_iff,
      Segment.hasEmptyOption]

namespace SynOutstanding

variable {s : Sock} {seg : Segment} {garbage : UInt16 × UInt8}

theorem headPasses (h : SynOutstanding s) : HeadPasses s := by
  obtain ⟨x, hq, -⟩ := List.map_eq_singleton_iff.mp h.queue
  intro y hy hhead
  have hyx : y = x := by simpa [hq] using hy
  subst hyx
  rcases h.head with hnone | ⟨-, hrtt⟩
  · rw [hnone] at hhead
    cases hhead
  · exact ⟨hrtt, hq⟩

theorem removes (h : SynOutstanding s) (hmax : s.sndIss ≠ 0xffffffff) :
    ∀ x ∈ s.txQueue, ackRemoves (s.sndIss + 1) false x = true := by
  obtain ⟨x, hq, he⟩ := List.map_eq_singleton_iff.mp h.queue
  intro y hy
  have hyx : y = x := by simpa [hq] using hy
  subst hyx
  have hend : y.endSeq = s.sndIss := congrArg Prod.snd he
  simp [ackRemoves, hend, UInt32.lt_add_one hmax]

/-- The handler compares plainly: with the largest initial number no acknowledgement
is acceptable. -/
theorem unacceptable_iff (h : SynOutstanding s) :
    (seg.ackNumber ≤ s.sndIss ∨ seg.ackNumber > s.sndNxt) ↔
      (s.sndIss ≠ 0xffffffff → seg.ackNumber ≠ s.sndIss + 1) := by
  have hi := s.sndIss.toNat_lt
  have hmax : s.sndIss = 0xffffffff ↔ s.sndIss.toNat = 4294967295 := by
    rw [← UInt32.toNat_inj]
    rfl
  rw [h.next, gt_iff_lt, UInt32.le_iff_toNat_le, UInt32.lt_iff_toNat_lt, ne_eq, ne_eq, hmax,
    ← UInt32.toNat_inj, UInt32.toNat_add, UInt32.toNat_one]
  omega

theorem refused (h : SynOutstanding s) (ack : seg.flags.ack = true)
    (bad : s.sndIss ≠ 0xffffffff → seg.ackNumber ≠ s.sndIss + 1) :
    tcpHandlerSync s seg garbage =
      if seg.flags.rst then .ok s else .ok (wakeOwner (sendRst s seg 0)) := by
  unfold tcpHandlerSync
  rw [if_pos ⟨ack, h.unacceptable_iff.mpr bad⟩]

theorem sendRst_close (h : SynOutstanding s) : (wakeOwner (sendRst s seg 0)).state = .close := by
  change nextState s.state _ = _
  rw [h.state]
  rfl

theorem acceptable (h : SynOutstanding s) (hmax : s.sndIss ≠ 0xffffffff)
    (hack : seg.ackNumber = s.sndIss + 1) :
    s.sndUna ≤ seg.ackNumber ∧ seg.ackNumber ≤ s.sndNxt := by
  rw [hack, h.next]
  exact ⟨UInt32.le_trans h.una (UInt32.le_of_lt (UInt32.lt_add_one hmax)), UInt32.le_refl _⟩

theorem reset (h : SynOutstanding s) (hmax : s.sndIss ≠ 0xffffffff) (ack : seg.flags.ack = true)
    (hack : seg.ackNumber = s.sndIss + 1) (rst : seg.flags.rst = true) :
    tcpHandlerSync s seg garbage = .ok (tcpDeleteTcb (tcpEnterCloseState s)) := by
  have hbad : ¬(seg.ackNumber ≤ s.sndIss ∨ seg.ackNumber > s.sndNxt) := fun hb =>
    h.unacceptable_iff.mp hb hmax hack
  simp [tcpHandlerSync, ack, rst, hbad, h.acceptable hmax hack]

theorem opened (h : SynOutstanding s) (hmax : s.sndIss ≠ 0xffffffff) (ack : seg.flags.ack = true)
    (hack : seg.ackNumber = s.sndIss + 1) (rst : seg.flags.rst = false) (syn : seg.flags.syn = true)
    (hoptions : seg.hasEmptyOption = false) :
    ∃ t, tcpHandlerSync s seg garbage = .ok t ∧ t.state = .established ∧ t.txQueue = [] ∧
      Answers s seg t { ack := true } (s.sndIss + 1) := by
  obtain ⟨⟨mss, wds⟩, hread⟩ := Option.ne_none_iff_exists'.mp
    ((options_none_iff s seg garbage).not.mpr (by simp [hoptions]))
  let u : Sock :=
    { s with
      rcvMss := mss
      sndWds := wds
      rcvIrs := seg.seq
      rcvNxt := seg.seq + 1
      sndNxt := seg.ackNumber
      sndWnd := seg.window.toUInt32 }
  have hpasses : HeadPasses u := h.headPasses
  have hremoves : ∀ x ∈ u.txQueue, ackRemoves seg.ackNumber false x = true := by
    rw [hack]
    exact h.removes hmax
  obtain ⟨v, hv⟩ := hpasses.accept hremoves
  have hbad : ¬(seg.ackNumber ≤ s.sndIss ∨ seg.ackNumber > s.sndNxt) := fun hb =>
    h.unacceptable_iff.mp hb hmax hack
  have hsync : tcpHandlerSync s seg garbage = .ok (synAccepted v seg) := by
    simp only [tcpHandlerSync, ack, rst, syn, hbad, h.acceptable hmax hack, true_and, and_self,
      if_false, if_true, Bool.false_eq_true, hread]
    rw [hv]
    rfl
  obtain ⟨-, r, rto, srtt, rttvar, rfl, -⟩ := accept_ok hv
  refine ⟨_, hsync, ?_⟩
  have hnew : s.sndIss < seg.ackNumber := hack ▸ UInt32.lt_add_one hmax
  have hqueue : u.txQueue.filter (fun x => !ackRemoves seg.ackNumber false x) = [] :=
    List.filter_eq_nil_iff.mpr (fun x hx => by simp [hremoves x hx])
  have hsynced : synAccepted (acked u seg.ackNumber false r rto srtt rttvar) seg = _ := if_pos hnew
  rw [hsynced]
  refine ⟨?_, hqueue, _, rfl, rfl, hack, fun _ => rfl⟩
  change nextState s.state _ = _
  rw [h.state]
  rfl

theorem endless (h : SynOutstanding s) (hmax : s.sndIss ≠ 0xffffffff) (ack : seg.flags.ack = true)
    (hack : seg.ackNumber = s.sndIss + 1) (rst : seg.flags.rst = false) (syn : seg.flags.syn = true)
    (hoptions : seg.hasEmptyOption = true) :
    tcpHandlerSync s seg garbage = .error .optionLoop := by
  have hbad : ¬(seg.ackNumber ≤ s.sndIss ∨ seg.ackNumber > s.sndNxt) := fun hb =>
    h.unacceptable_iff.mp hb hmax hack
  have hread := (options_none_iff s seg garbage).mpr hoptions
  simp only [tcpHandlerSync, ack, rst, syn, hbad, h.acceptable hmax hack, true_and, and_self,
    if_false, if_true, Bool.false_eq_true, hread]

theorem ignored (h : SynOutstanding s) (hmax : s.sndIss ≠ 0xffffffff)
    (hack : seg.ackNumber = s.sndIss + 1) (rst : seg.flags.rst = false) (syn : seg.flags.syn = false) :
    tcpHandlerSync s seg garbage = .ok s := by
  have hbad : ¬(seg.ackNumber ≤ s.sndIss ∨ seg.ackNumber > s.sndNxt) := fun hb =>
    h.unacceptable_iff.mp hb hmax hack
  simp [tcpHandlerSync, rst, syn, hbad]

theorem refused_closes (h : SynOutstanding s) (ack : seg.flags.ack = true)
    (bad : s.sndIss ≠ 0xffffffff → seg.ackNumber ≠ s.sndIss + 1) (rst : seg.flags.rst = false)
    {t : Sock} (ht : tcpHandlerSync s seg garbage = .ok t) : t.state = .close := by
  rw [h.refused ack bad, rst, if_neg Bool.false_ne_true] at ht
  cases ht
  exact h.sendRst_close

end SynOutstanding

theorem tcpHandlerSync_no_ack {s : Sock} {seg : Segment} {garbage : UInt16 × UInt8}
    (ack : seg.flags.ack = false) : tcpHandlerSync s seg garbage = .ok s := by
  simp [tcpHandlerSync, ack]

/-- The segments that are handled as documented: no acknowledgement of anything but the SYN
unless it is a reset, no SYN by itself, no SYN-ACK with an option of length 0, and no
acknowledgement of the SYN at all if its number is the largest one. -/
def handshakeConforms (s : Sock) (seg : Segment) : Prop :=
  if seg.flags.ack then
    if seg.ackNumber = s.sndIss + 1 then
      s.sndIss ≠ 0xffffffff ∧
        (seg.flags.syn = true → seg.flags.rst = false → seg.hasEmptyOption = false)
    else seg.flags.rst = true
  else seg.flags.rst = true ∨ seg.flags.syn = false

section Conforms

variable {s : Sock} {seg : Segment} {garbage : UInt16 × UInt8}

theorem conforms_no_ack (h : SynOutstanding s) (ack : seg.flags.ack = false) :
    (∃ t, tcpHandlerSync s seg garbage = .ok t ∧ Documented s seg t) ↔
      seg.flags.rst = true ∨ seg.flags.syn = false := by
  rw [tcpHandlerSync_no_ack ack]
  have hdoc (t : Sock) : Documented s seg t ↔
      if seg.flags.rst = true ∨ seg.flags.syn = false then t = s
      else t.state = .synRecv ∧ Answers s seg t { ack := true, syn := true } s.sndIss := by
    unfold Documented
    cases hr : seg.flags.rst <;> cases hs : seg.flags.syn <;> simp [ack]
  simp only [Except.ok.injEq, exists_eq_left', hdoc]
  split
  · rename_i hc
    exact iff_of_true trivial hc
  · rename_i hc
    refine iff_of_false ?_ hc
    intro ⟨hs, _⟩
    rw [h.state] at hs
    cases hs

theorem conforms_unacceptable (h : SynOutstanding s) (ack : seg.flags.ack = true)
    (hack : seg.ackNumber ≠ s.sndIss + 1) :
    (∃ t, tcpHandlerSync s seg garbage = .ok t ∧ Documented s seg t) ↔ seg.flags.rst = true := by
  constructor
  · intro ⟨t, ht, hd⟩
    by_contra hr
    have hclose := h.refused_closes ack (fun _ => hack) (by simpa using hr) ht
    simp only [Documented, ack, true_and, hack, ne_eq, not_false_eq_true, if_true, hr] at hd
    rw [hclose, h.state] at hd
    exact absurd hd.1 (by simp)
  · intro hr
    refine ⟨s, ?_, ?_⟩
    · rw [h.refused ack (fun _ => hack), if_pos hr]
    · simp [Documented, ack, hack, hr]

theorem conforms_acceptable (h : SynOutstanding s) (ack : seg.flags.ack = true)
    (hack : seg.ackNumber = s.sndIss + 1) :
    (∃ t, tcpHandlerSync s seg garbage = .ok t ∧ Documented s seg t) ↔
      s.sndIss ≠ 0xffffffff ∧
        (seg.flags.syn = true → seg.flags.rst = false → seg.hasEmptyOption = false) := by
  have hdoc (t : Sock) : Documented s seg t ↔
      if seg.flags.rst then t.state = .close ∧ t.wire = s.wire
      else if seg.flags.syn then
        t.state = .established ∧ t.txQueue = [] ∧ Answers s seg t { ack := true } (s.sndIss + 1)
      else t = s := by
    simp [Documented, ack, hack]
  simp only [hdoc]
  by_cases hmax : s.sndIss = 0xffffffff
  · refine iff_of_false ?_ (fun hc => hc.1 hmax)
    intro ⟨t, ht, hd⟩
    have hbad : s.sndIss ≠ 0xffffffff → seg.ackNumber ≠ s.sndIss + 1 := absurd hmax
    cases hr : seg.flags.rst with
    | true =>
      rw [h.refused ack hbad, if_pos hr] at ht
      cases ht
      rw [if_pos hr, h.state] at hd
      exact absurd hd.1 (by simp)
    | false =>
      have hclose := h.refused_closes ack hbad hr ht
      rw [if_neg (by simp [hr])] at hd
      split at hd
      · exact absurd (hclose.symm.trans hd.1) (by simp)
      · rw [hd, h.state] at hclose
        cases hclose
  · rw [and_iff_right hmax]
    cases hr : seg.flags.rst with
    | true => simp [h.reset hmax ack hack hr, tcpDeleteTcb, tcpEnterCloseState]
    | false =>
      cases hs : seg.flags.syn with
      | false => simp [h.ignored hmax hack hr hs]
      | true =>
        cases hoptions : seg.hasEmptyOption with
        | true => simp [h.endless hmax ack hack hr hs hoptions]
        | false => simpa using h.opened hmax ack hack hr hs hoptions

end Conforms

/-- In `TCP_SYN_SENT` with the SYN outstanding, a segment is handled as documented exactly
if it is none of those that `handshakeConforms` excludes. -/
theorem syn_sent_documented_iff (s : Sock) (seg : Segment) (garbage : UInt16 × UInt8)
    (h : SynOutstanding s) :
    (∃ t, tcpHandlerSync s seg garbage = .ok t ∧ Documented s seg t) ↔ handshakeConforms s seg := by
  unfold handshakeConforms
  split
  · rename_i ack
    split
    · rename_i hack
      exact conforms_acceptable h ack hack
    · rename_i hack
      exact conforms_unacceptable h ack hack
  · rename_i ack
    exact conforms_no_ack h (by simpa using ack)

theorem synOutstanding_reached : ∃ s : Sys, Run advance (fun _ _ => True) {} s ∧
    SynOutstanding s.sk ∧ s.sk.sndIss = 476707713 := by
  obtain ⟨s, run, h1, h2, h3, h4, h5, h6⟩ := replay_reaches advance (fun _ _ => True) {}
    [.tick 1000, .connect 1, .app, .app, .app]
    (P := fun s => s.sk.state = .synSent ∧
      s.sk.txQueue.map (fun x => (x.flags, x.endSeq)) = [({ syn := true }, s.sk.sndIss)] ∧
      s.sk.sendHead = none ∧ s.sk.sndUna ≤ s.sk.sndIss ∧ s.sk.sndNxt = s.sk.sndIss + 1 ∧
      s.sk.sndIss = 476707713) (by decide)
  exact ⟨s, run, ⟨h1, h2, .inl h3, h4, h5⟩, h6⟩

theorem syn_sent_documented_syn_ack : ∃ s : Sys, Run advance (fun _ _ => True) {} s ∧
    SynOutstanding s.sk ∧
    ∃ t, tcpHandlerSync s.sk (synAck 1000) (0, 0) = .ok t ∧ Documented s.sk (synAck 1000) t := by
  obtain ⟨s, run, h, hiss⟩ := synOutstanding_reached
  refine ⟨s, run, h, (syn_sent_documented_iff s.sk (synAck 1000) (0, 0) h).mpr ?_⟩
  unfold handshakeConforms
  rw [hiss]
  decide

/-- The documented case of a half-open peer: the acknowledgement of something that was never
sent closes the connection. -/
theorem half_open_closes : ∃ s : Sys, Run advance (fun _ _ => True) {} s ∧ SynOutstanding s.sk ∧
    ¬ ∃ t, tcpHandlerSync s.sk (pureAck 400 1000) (0, 0) = .ok t ∧
      Documented s.sk (pureAck 400 1000) t := by
  obtain ⟨s, run, h, hiss⟩ := synOutstanding_reached
  refine ⟨s, run, h, ?_⟩
  have hack : (pureAck 400 1000).ackNumber ≠ s.sk.sndIss + 1 := by
    rw [hiss]
    decide
  rw [conforms_unacceptable h rfl hack]
  decide

end Mos.Tcp

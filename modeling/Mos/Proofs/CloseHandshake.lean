import Mos.Proofs.Frame

namespace Mos.Tcp
open Machine List Bool

def plainAck (s : Sock) (seg : Segment) : Bool :=
  acceptableSegment s seg && seg.flags.ack && !seg.flags.syn && !seg.flags.rst

/-- A window update that flushes the FIN this side waits for. -/
def dropsFin (s : Sock) (seg : Segment) : Bool :=
  (s.state == .finWait1 || s.state == .closing) && plainAck s seg && windowUpdate s seg && reopens s seg

/-- With this segment, all that was sent is acknowledged. -/
def acksAll (s : Sock) (seg : Segment) : Bool :=
  s.sndUna == s.sndNxt || newAck s seg && seg.ackNumber == s.sndNxt

/-- A segment that closes a connection in `TCP_LAST_ACK` and acknowledges nothing. -/
def closesUnacked (s : Sock) (seg : Segment) : Bool :=
  s.state == .lastAck && plainAck s seg && tcpIsFinAcked s && !decide (s.sndUna < seg.ackNumber)

/-- No queued FIN is flushed; a FIN is answered when all else is acknowledged, and
what then closes the connection acknowledges something. -/
def finWaits (s : Sys) : Event → Bool
  | .connect _ => s.sk.state != .lastAck
  | .receive seg _ =>
    !dropsFin s.sk seg && (!answersFin s.sk seg || acksAll s.sk seg) && !closesUnacked s.sk seg
  | _ => true

def OnlyFin (wire : List SkBuff) (f : SkBuff) : Prop :=
  ∀ x ∈ wire, x.flags.fin = true → x.seq = f.endSeq

/-- Where the FINs of a connection are, but for the one this side waits for. -/
structure FinsSent (v : SendView) (wire : List SkBuff) (pc : Pc) : Prop where
  msl : v.msl ≠ none → v.state = .timeWait ∨ v.state = .close ∧ pc.phase ≠ .connecting
  single : pc.phase = .closing → v.queue.length ≤ 1
  fresh : v.state = .established ∨ v.state = .closeWait ∨ pc.phase = .connecting ∧ v.queue ≠ [] →
    ∀ x ∈ wire, x.flags.fin = false
  sent : v.state = .finWait1 ∨ v.state = .closing ∨ v.state = .lastAck →
    ∃ x ∈ wire, x.flags.fin = true
  last : v.state = .lastAck →
    (∃ f ∈ v.queue, f.flags.fin = true) ∨ ∀ x ∈ wire, x.flags.fin = true → x.seq = v.una

/-- A FIN this side waits for is queued. -/
structure Fins (v : SendView) (wire : List SkBuff) (pc : Pc) : Prop extends FinsSent v wire pc where
  waiting : v.state = .finWait1 ∨ v.state = .closing →
    ∃ f ∈ v.queue, f.flags.fin = true ∧ OnlyFin wire f

variable {x : SkBuff} {w w' wire wire' : List SkBuff} {v : SendView} {pc : Pc} {s t u : Sock}
    {seg : Segment}

theorem fin_occupies (h : x.flags.fin = true) : x.occupies = true := by
  simp [SkBuff.occupies, h]

theorem Mute.fins (h : Mute w w') (hx : x ∈ w')
    (hf : x.flags.fin = true) : x ∈ w := h.mem hx (fin_occupies hf)

theorem Mute.no_fin (h : Mute w w') (hw : ∀ x ∈ w, x.flags.fin = false) :
    ∀ x ∈ w', x.flags.fin = false := by
  intro x hx
  by_contra hf
  have hf : x.flags.fin = true := by simpa using hf
  rw [hw x (h.fins hx hf)] at hf
  cases hf

theorem Mute.only_fin {f : SkBuff} (h : Mute w w') (hw : OnlyFin w f) :
    OnlyFin w' f := fun x hx hf => hw x (h.fins hx hf) hf

theorem Mute.fin_sent (h : Mute w w') (hw : ∃ x ∈ w, x.flags.fin = true) :
    ∃ x ∈ w', x.flags.fin = true := by
  obtain ⟨x, hx, hf⟩ := hw
  exact ⟨x, h.mono hx, hf⟩

theorem FinsSent.congr {w : SendView} (h : FinsSent v wire pc)
    (mute : Mute wire wire')
    (same : (w.state, w.una, w.queue, w.msl) = (v.state, v.una, v.queue, v.msl)) :
    FinsSent w wire' pc := by
  simp only [Prod.mk.injEq] at same
  obtain ⟨state, una, queue, msl⟩ := same
  constructor
  · rw [msl, state]
    exact h.msl
  · rw [queue]
    exact h.single
  · rw [state, queue]
    exact fun hs => mute.no_fin (h.fresh hs)
  · rw [state]
    exact fun hs => mute.fin_sent (h.sent hs)
  · rw [state, queue, una]
    intro hs
    rcases h.last hs with hf | hf
    · exact .inl hf
    · exact .inr fun x hx hxf => hf x (mute.fins hx hxf) hxf

theorem Fins.congr {w : SendView} (h : Fins v wire pc)
    (mute : Mute wire wire')
    (same : (w.state, w.una, w.queue, w.msl) = (v.state, v.una, v.queue, v.msl)) :
    Fins w wire' pc := by
  refine ⟨h.toFinsSent.congr mute same, ?_⟩
  simp only [Prod.mk.injEq] at same
  rw [same.1, same.2.2.1]
  intro hs
  obtain ⟨f, hf, hfin, ho⟩ := h.waiting hs
  exact ⟨f, hf, hfin, mute.only_fin ho⟩

theorem Fins.quiet (h : Fins s.view s.wire pc) (hq : Quiet s t) :
    Fins t.view t.wire pc := by
  rw [hq.view]
  exact h.congr hq.wire rfl

theorem FinsSent.no_msl (h : FinsSent v wire pc)
    (ht : v.state ≠ .timeWait) (hc : v.state ≠ .close) : v.msl = none := by
  by_contra hm
  rcases h.msl hm with hs | ⟨hs, -⟩
  · exact ht hs
  · exact hc hs

theorem no_fin_cons (hx : x.flags.fin = false)
    (hw : ∀ y ∈ w, y.flags.fin = false) : ∀ y ∈ x :: w, y.flags.fin = false := by
  intro y hy
  rcases mem_cons.mp hy with rfl | hy
  · exact hx
  · exact hw y hy

theorem only_fin_cons {f : SkBuff} (hx : x.flags.fin = true → x.seq = f.endSeq)
    (hw : OnlyFin w f) : OnlyFin (x :: w) f := by
  intro y hy hf
  rcases mem_cons.mp hy with rfl | hy
  · exact hx hf
  · exact hw y hy hf

theorem fin_sent_cons (hw : ∃ y ∈ w, y.flags.fin = true) :
    ∃ y ∈ x :: w, y.flags.fin = true := by
  obtain ⟨y, hy, hf⟩ := hw
  exact ⟨y, mem_cons_of_mem _ hy, hf⟩

theorem Fins.send_plain
    (h : Fins v wire pc) (hx : x.flags.fin = false) : Fins v (x :: wire) pc := by
  have absent {y : SkBuff} (hy : y ∈ x :: wire) (hyf : y.flags.fin = true) : y ∈ wire := by
    rcases mem_cons.mp hy with rfl | hy
    · rw [hx] at hyf
      cases hyf
    · exact hy
  refine ⟨⟨h.msl, h.single, fun hs => no_fin_cons hx (h.fresh hs), ?_, ?_⟩, ?_⟩
  · exact fun hs => fin_sent_cons (h.sent hs)
  · intro hs
    rcases h.last hs with hf | hf
    · exact .inl hf
    · exact .inr fun y hy hyf => hf y (absent hy hyf) hyf
  · intro hs
    obtain ⟨f, hf, hfin, ho⟩ := h.waiting hs
    exact ⟨f, hf, hfin, fun y hy hyf => ho y (absent hy hyf) hyf⟩

theorem Wf.fin_seq (h : Wf v pc) (hx : x ∈ v.queue)
    (hp : pc.phase = .closing) : x.seq = x.endSeq := by
  have ha := h.allows x hx
  cases pc with
  | transmit k | transmitLocked k | transmitSleep k =>
    cases k with
    | shutdown => exact ha.2.2
    | _ => cases hp
  | shutdownLoop | shutdownSleep => exact ha.elim
  | _ => cases hp

theorem eq_of_mem_short {l : List SkBuff} {y : SkBuff} (h : l.length ≤ 1) (hx : x ∈ l)
    (hy : y ∈ l) : x = y := by
  match l, h with
  | [_], _ => rw [mem_singleton.mp hx, mem_singleton.mp hy]

theorem Fins.send_fin
    (h : Fins v wire pc) (hw : Wf v pc) (hx : x ∈ v.queue) (hp : pc.phase = .closing)
    (hf : x.flags = { ack := true, fin := true }) :
    Fins { v with state := nextState v.state x.flags } (x :: wire) pc := by
  have hfin : x.flags.fin = true := by rw [hf]
  have hseq : x.flags.fin = true → x.seq = x.endSeq := fun _ => hw.fin_seq hx hp
  have again (hs : nextState v.state x.flags = v.state)
      (hne : v.state ≠ .established ∧ v.state ≠ .closeWait) :
      Fins { v with state := nextState v.state x.flags } (x :: wire) pc := by
    rw [hs]
    refine ⟨⟨h.msl, h.single, ?_, fun _ => ⟨x, .head _, hfin⟩, fun _ => .inl ⟨x, hx, hfin⟩⟩, ?_⟩
    · rintro (he | he | ⟨hc, -⟩)
      · exact absurd he hne.1
      · exact absurd he hne.2
      · rw [hp] at hc
        cases hc
    · intro he
      obtain ⟨f, hq, hff, ho⟩ := h.waiting he
      obtain rfl := eq_of_mem_short (h.single hp) hx hq
      exact ⟨x, hx, hff, only_fin_cons hseq ho⟩
  have first (st : TcpState) (hs : nextState v.state x.flags = st) (hn : v.msl = none)
      (hne : st = .finWait1 ∧ v.state = .established ∨ st = .lastAck) :
      Fins { v with state := nextState v.state x.flags } (x :: wire) pc := by
    rw [hs]
    refine ⟨⟨absurd hn, h.single, ?_, fun _ => ⟨x, .head _, hfin⟩,
      fun _ => .inl ⟨x, hx, hfin⟩⟩, ?_⟩
    · rintro (he | he | ⟨hc, -⟩)
      · rcases hne with ⟨rfl, -⟩ | rfl <;> cases he
      · rcases hne with ⟨rfl, -⟩ | rfl <;> cases he
      · rw [hp] at hc
        cases hc
    · intro he
      rcases hne with ⟨rfl, hest⟩ | rfl
      · refine ⟨x, hx, hfin, only_fin_cons hseq fun y hy hyf => ?_⟩
        rw [h.fresh (.inl hest) y hy] at hyf
        cases hyf
      · rcases he with he | he <;> cases he
  have ha := hw.admits
  rw [hp] at ha
  cases hst : v.state with
  | established =>
    rw [hf, hst] at first
    rw [hf]
    exact first _ rfl (h.no_msl (by simp [hst]) (by simp [hst])) (.inl ⟨rfl, rfl⟩)
  | closeWait =>
    rw [hf, hst] at first
    rw [hf]
    exact first _ rfl (h.no_msl (by simp [hst]) (by simp [hst])) (.inr rfl)
  | synSent | synRecv | listen =>
    rw [hst] at ha
    cases ha
  | _ =>
    rw [hst, hf] at again
    rw [hf]
    exact again rfl ⟨nofun, nofun⟩

theorem Fins.send
    (h : Fins v wire pc) (hw : Wf v pc) (hx : x ∈ v.queue) :
    Fins { v with state := nextState v.state x.flags } (x :: wire) pc := by
  rcases hw.queued hx with ⟨hp, hf, hn⟩ | ⟨-, hd, hn⟩ | ⟨hp, hf⟩
  · have hq := ne_nil_of_mem hx
    have hx : x.flags.fin = false := by rw [hf]
    have hmsl : v.msl = none := by
      by_contra hm
      rcases h.msl hm with hs | ⟨-, hc⟩
      · rw [hw.closing_phase (.inr (.inr (.inr hs)))] at hp
        cases hp
      · exact hc hp
    rw [hn]
    have hfresh := h.fresh (.inr (.inr ⟨hp, hq⟩))
    refine ⟨⟨absurd hmsl, h.single, fun _ => no_fin_cons hx hfresh, ?_, nofun⟩, ?_⟩
    · rintro (he | he | he) <;> cases he
    · rintro (he | he) <;> cases he
  · rw [hn]
    exact h.send_plain hd.fin
  · exact h.send_fin hw hx hp hf

def Covers (wire : List SkBuff) (a : UInt32) : Prop := ∀ x ∈ wire, x.flags.fin = true → x.seq < a

theorem FinsSent.settled {w : SendView}
    (h : FinsSent v wire pc) (mute : Mute wire wire') (queue : w.queue.Sublist v.queue)
    (hs : w.state = .finWait2 ∨ w.state = .timeWait ∨ w.state = .close)
    (msl : w.msl ≠ none → w.state = .timeWait ∨ w.state = .close ∧ pc.phase ≠ .connecting) :
    Fins w wire' pc := by
  refine ⟨⟨msl, fun hp => Nat.le_trans queue.length_le (h.single hp), ?_, ?_, ?_⟩, ?_⟩
  · rintro (he | he | ⟨hp, hq⟩)
    · rcases hs with hs | hs | hs <;> rw [hs] at he <;> cases he
    · rcases hs with hs | hs | hs <;> rw [hs] at he <;> cases he
    · refine mute.no_fin (h.fresh (.inr (.inr ⟨hp, fun hn => hq ?_⟩)))
      rw [hn] at queue
      exact sublist_nil.mp queue
  · rcases hs with hs | hs | hs <;> simp [hs]
  · rcases hs with hs | hs | hs <;> simp [hs]
  · rcases hs with hs | hs | hs <;> simp [hs]

theorem FinsSent.not_connecting
    (h : FinsSent v wire pc) (hw : Wf v pc) (hm : v.msl ≠ none) : pc.phase ≠ .connecting := by
  rcases h.msl hm with hs | ⟨-, hp⟩
  · rw [hw.closing_phase (.inr (.inr (.inr hs)))]
    nofun
  · exact hp

theorem Fins.closed {w : SendView} (h : Fins v wire pc)
    (hw : Wf v pc) (mute : Mute wire wire') (queue : w.queue.Sublist v.queue) (hs : w.state = .close)
    (msl : w.msl = v.msl) : Fins w wire' pc := by
  refine h.toFinsSent.settled mute queue (.inr (.inr hs)) fun hm => .inr ⟨hs, ?_⟩
  exact h.not_connecting hw (msl ▸ hm)

theorem FinsSent.shrink {w : SendView} (h : FinsSent v wire pc)
    (queue : w.queue.Sublist v.queue) (hs : w.state = v.state) (hl : v.state ≠ .lastAck)
    (msl : w.msl = v.msl) : FinsSent w wire pc := by
  refine ⟨by rw [msl, hs]; exact h.msl, fun hp => Nat.le_trans queue.length_le (h.single hp), ?_,
    by rw [hs]; exact h.sent, fun he => absurd (hs.symm.trans he) hl⟩
  rw [hs]
  rintro (he | he | ⟨hp, hq⟩)
  · exact h.fresh (.inl he)
  · exact h.fresh (.inr (.inl he))
  · refine h.fresh (.inr (.inr ⟨hp, fun hn => hq ?_⟩))
    rw [hn] at queue
    exact sublist_nil.mp queue

def WaitsOrCovered (v : SendView) (wire : List SkBuff) (a : UInt32) : Prop :=
  v.state = .finWait1 ∨ v.state = .closing → (∃ f ∈ v.queue, f.flags.fin = true ∧ OnlyFin wire f) ∨
    (∀ x ∈ v.queue, x.flags.fin = false) ∧ Covers wire a

theorem takesAcks_not_last {st : TcpState} (h : takesAcks st = true) : st ≠ .lastAck := by
  rintro rfl
  cases h

theorem WaitsOrCovered.filter {a : UInt32}
    (h : Fins v wire pc) (hw : Wf v pc) {w : SendView} (hs : w.state = v.state)
    (hq : w.queue = v.queue.filter (fun x => !ackRemoves a false x)) : WaitsOrCovered w wire a := by
  intro he
  rw [hs] at he
  obtain ⟨f, hf, hfin, ho⟩ := h.waiting he
  have hp : pc.phase = .closing := by
    rcases he with he | he
    · exact hw.closing_phase (.inl he)
    · exact hw.closing_phase (.inr (.inr (.inl he)))
  rw [hq]
  by_cases hr : f.endSeq < a
  · right
    constructor
    · intro x hx
      obtain ⟨hx, hk⟩ := mem_filter.mp hx
      obtain rfl := eq_of_mem_short (h.single hp) hx hf
      simp [ackRemoves, hr] at hk
    · intro x hx hxf
      rw [ho x hx hxf]
      exact hr
  · left
    exact ⟨f, mem_filter.mpr ⟨hf, by simpa [ackRemoves] using hr⟩, hfin, ho⟩

theorem Fins.ackMove (h : Fins s.view s.wire pc)
    (hw : Wf s.view pc) (keep : s.state = .finWait1 ∨ s.state = .closing →
      windowUpdate s seg = true → reopens s seg = false) (hm : AckMove s seg u) :
    FinsSent u.view u.wire pc ∧ WaitsOrCovered u.view u.wire seg.ackNumber := by
  cases hm with
  | idle same =>
    have hu := h.quiet same
    exact ⟨hu.toFinsSent, fun hs => .inl (hu.waiting hs)⟩
  | accepted takes new ok =>
    obtain ⟨-, r, rto, srtt, rttvar, rfl, -⟩ := accept_ok ok
    unfold takeWindow
    have hl := takesAcks_not_last takes
    split
    · exact ⟨h.toFinsSent.shrink filter_sublist rfl hl rfl, .filter h hw rfl rfl⟩
    · exact ⟨h.toFinsSent.shrink filter_sublist rfl hl rfl, .filter h hw rfl rfl⟩
  | updated takes old update =>
    unfold updateWindow
    split
    · rename_i hr
      refine ⟨h.toFinsSent.shrink (nil_sublist _) rfl (takesAcks_not_last takes) rfl, fun hs => ?_⟩
      rw [keep hs update] at hr
      cases hr
    · have hu : Fins { s with sndWnd := segWnd s seg }.view s.wire pc := h.congr (.refl _) rfl
      exact ⟨hu.toFinsSent, fun hs => .inl (hu.waiting hs)⟩
  | @resent r skb rest third same first =>
    have hr := h.quiet same
    have hmem : skb ∈ r.view.queue := by
      rw [same.view]
      exact first_mem first
    have hu := hr.send (same.view ▸ hw) hmem
    rw [view_send, SendView.send_again]
    exact ⟨hu.toFinsSent, fun hs => .inl (hu.waiting hs)⟩

/-- The code takes its FIN as acknowledged when the queue has none. -/
theorem isFinAcked_iff : tcpIsFinAcked s = true ↔ ∀ x ∈ s.txQueue, x.flags.fin = false := by
  simp [tcpIsFinAcked]

theorem FinsSent.finMove {w : Sock} {a : UInt32} (h : FinsSent u.view u.wire pc)
    (hk : WaitsOrCovered u.view u.wire a) (hm : FinMove u w) :
    Fins w.view w.wire pc ∧ (w.state ≠ u.state → Covers u.wire a) := by
  have covered (hs : u.state = .finWait1 ∨ u.state = .closing) (ha : tcpIsFinAcked u = true) :
      Covers u.wire a := by
    rcases hk hs with ⟨f, hf, hfin, -⟩ | ⟨-, hc⟩
    · rw [isFinAcked_iff.mp ha f hf] at hfin
      cases hfin
    · exact hc
  cases hm with
  | idle same waits =>
    refine ⟨Fins.quiet ⟨h, fun hs => ?_⟩ same, fun hne => absurd same.state hne⟩
    rcases hk hs with hf | ⟨hn, -⟩
    · exact hf
    · rw [isFinAcked_iff.mpr hn] at waits
      cases waits hs
  | finWait2 hs finAcked =>
    have hn : u.mslTimer = none := h.no_msl (by simp [Sock.view, hs]) (by simp [Sock.view, hs])
    refine ⟨h.settled (.refl _) (.refl _) (.inl rfl) fun hm => absurd hn hm, fun _ => ?_⟩
    exact covered (.inl hs) finAcked
  | timeWait hs finAcked =>
    have hn : u.mslTimer = none := h.no_msl (by simp [Sock.view, hs]) (by simp [Sock.view, hs])
    refine ⟨h.settled (.refl _) (.refl _) (.inr (.inl rfl)) fun hm => absurd hn hm, fun _ => ?_⟩
    exact covered (.inr hs) finAcked

theorem Fins.replyMove {w : Sock} (h : Fins w.view w.wire pc)
    (hw : Wf w.view pc) (answer : seg.flags.fin = true →
      w.state = .established ∧ seg.payload = [] ∨ w.state = .closeWait → w.sndUna = w.sndNxt)
    (hm : ReplyMove w seg t) : Fins t.view t.wire pc := by
  cases hm with
  | quiet same => exact h.quiet same
  | passive fin hs data view mute =>
    have hn : w.mslTimer = none := h.no_msl (by simp [Sock.view, hs]) (by simp [Sock.view, hs])
    rw [view]
    refine ⟨⟨absurd hn, h.single, fun _ => mute.no_fin (h.fresh (.inl hs)), ?_,
      fun hc => by cases hc⟩, ?_⟩
    · rintro (he | he | he) <;> cases he
    · rintro (he | he) <;> cases he
  | @answered x r wire fin hs isFin armed view mute hwire =>
    have hn : w.mslTimer = none := by
      rcases hs with ⟨hs, -⟩ | hs <;> exact h.no_msl (by simp [Sock.view, hs]) (by simp [Sock.view, hs])
    have hfresh : ∀ y ∈ w.wire, y.flags.fin = false := by
      rcases hs with ⟨hs, -⟩ | hs
      · exact h.fresh (.inl hs)
      · exact h.fresh (.inr (.inl hs))
    have hc : pc.phase = .connecting → w.view.queue = [] := by
      refine hw.empty ?_
      rcases hs with ⟨hs, -⟩ | hs <;> simp [Sock.view, hs, connected, synchronized]
    rw [view, hwire]
    refine ⟨⟨absurd hn, h.single, ?_, ?_, fun _ => .inr ?_⟩, ?_⟩
    · rintro (he | he | ⟨hp, hq⟩)
      · cases he
      · cases he
      · exact absurd (hc hp) hq
    · exact fun _ => ⟨x, .head _, by rw [isFin.flags]⟩
    · intro y hy hyf
      rcases mem_cons.mp hy with rfl | hy
      · rw [isFin.seq]
        exact (answer fin hs).symm
      · rw [mute.no_fin hfresh y hy] at hyf
        cases hyf
    · rintro (he | he) <;> cases he
  | closing fin hs view mute =>
    have hn : w.mslTimer = none := h.no_msl (by simp [Sock.view, hs]) (by simp [Sock.view, hs])
    have hp := hw.closing_phase (.inl hs)
    obtain ⟨f, hf, hfin, ho⟩ := h.waiting (.inl hs)
    rw [view]
    refine ⟨⟨absurd hn, h.single, ?_, ?_, fun hc => by cases hc⟩, fun _ => ⟨f, hf,
      hfin, mute.only_fin ho⟩⟩
    · rintro (he | he | ⟨hc, -⟩)
      · cases he
      · cases he
      · rw [hp] at hc
        cases hc
    · exact fun _ => mute.fin_sent (h.sent (.inl hs))
  | timeWait fin hs view mute =>
    rw [view]
    exact h.toFinsSent.settled mute (.refl _) (.inr (.inl rfl)) fun _ => .inl rfl
  | again fin hs view mute =>
    rw [view]
    exact h.toFinsSent.settled mute (.refl _) (.inr (.inl hs)) fun _ => .inl hs

/-- The steps of the closing handshake that wait for an acknowledgement. From
`TCP_FIN_WAIT1` one segment can take the connection through `TCP_FIN_WAIT2`. -/
def leavesFin : TcpState → TcpState → Bool
  | .finWait1, .finWait2 | .finWait1, .timeWait | .closing, .timeWait | .lastAck, .close => true
  | _, _ => false

theorem leavesFin_next (st : TcpState) (flags : Flags) : leavesFin st (nextState st flags) = false := by
  cases st <;> simp [nextState, leavesFin]

theorem leavesFin_self (st : TcpState) : leavesFin st st = false := by
  cases st <;> rfl

theorem leavesFin_ne {a b c d : TcpState} (h : leavesFin a d = true)
    (hb : b = a ∨ ∃ flags, b = nextState a flags)
    (hd : d = c ∨ (c = .established ∨ c = .closeWait ∨ c = .finWait2) ∨ c = .finWait1 ∧ d = .closing) :
    c ≠ b := by
  have ha : b = a := by
    rcases hb with hb | ⟨flags, rfl⟩
    · exact hb
    · cases a <;> first | rfl | cases h
  rw [ha]
  rintro rfl
  rcases hd with rfl | (rfl | rfl | rfl) | ⟨rfl, rfl⟩
  · rw [leavesFin_self] at h
    cases h
  all_goals cases h

theorem AckMove.acksAll (hm : AckMove s seg u)
    (takes : takesAcks s.state = true) (ha : acksAll s seg = true) : u.sndUna = u.sndNxt := by
  simp only [Tcp.acksAll, or_eq_true, and_eq_true, beq_iff_eq] at ha
  have old (hn : newAck s seg = false) : s.sndUna = s.sndNxt := by
    rcases ha with ha | ⟨ha, -⟩
    · exact ha
    · rw [hn] at ha
      cases ha
  cases hm with
  | idle same plain =>
    have hv := same.view
    exact (congrArg SendView.una hv).trans
      ((old (plain takes).1).trans (congrArg SendView.nxt hv).symm)
  | accepted _ new ok =>
    obtain ⟨-, r, rto, srtt, rttvar, rfl, -⟩ := accept_ok ok
    have hn : seg.ackNumber = s.sndNxt := by
      rcases ha with ha | ⟨-, ha⟩
      · simp only [newAck, decide_eq_true_eq, ha] at new
        exact absurd new.1 (UInt32.not_lt.mpr new.2)
      · exact ha
    unfold takeWindow
    split <;> exact hn
  | updated _ hn update =>
    unfold updateWindow
    split <;> exact old hn
  | @resent r skb rest third same first =>
    simp only [fastRetransmits, and_eq_true, not_eq_true'] at third
    change (tcpSendSkb r skb true).view.una = (tcpSendSkb r skb true).view.nxt
    rw [view_send, SendView.send_again, same.view]
    exact old third.1.1.1.2

theorem FinMove.numbers {w : Sock} (h : FinMove u w) (hn : u.sndUna = u.sndNxt) :
    w.sndUna = w.sndNxt := by
  cases h with
  | idle same =>
    exact (congrArg SendView.una same.view).trans (hn.trans (congrArg SendView.nxt same.view).symm)
  | finWait2 | timeWait => exact hn

theorem Fins.processed {w : Sock} (h : Fins s.view s.wire pc)
    (hw : Wf s.view pc) (hs : connected s.state = true) (acceptable : acceptableSegment s seg = true)
    (flag : seg.flags.ack = true) (syn : seg.flags.syn = false)
    (rst : seg.flags.rst = true → s.state = .closeWait) (ack : AckMove s seg u) (fin : FinMove u w)
    (reply : ReplyMove w seg t) (drops : dropsFin s seg = false)
    (answers : answersFin s seg = true → acksAll s seg = true) :
    Fins t.view t.wire pc ∧ (leavesFin s.state t.state = true → Covers s.wire seg.ackNumber) := by
  have keep (hst : s.state = .finWait1 ∨ s.state = .closing) (update : windowUpdate s seg = true) :
      reopens s seg = false := by
    have hrst : seg.flags.rst = false := by
      refine eq_false_iff.mpr fun hr => ?_
      rcases hst with hst | hst <;> simp [rst hr] at hst
    have hd : (s.state == .finWait1 || s.state == .closing) = true := by simpa using hst
    simpa [dropsFin, plainAck, hd, acceptable, flag, syn, hrst, update] using drops
  obtain ⟨hu, hk⟩ := h.ackMove hw keep ack
  obtain ⟨hf, hcov⟩ := hu.finMove hk fin
  refine ⟨hf.replyMove ((hw.ackMove hs ack).finMove fin) ?_ reply, fun hl => ?_⟩
  · intro hfin hst
    have he : w.state = s.state := ack.open_state fin hs (hst.imp_left And.left)
    rw [he] at hst
    have ha : answersFin s seg = true := by
      rcases hst with ⟨hst, hp⟩ | hst <;> simp [answersFin, *]
    have takes : takesAcks s.state = true := by
      rcases hst with ⟨hst, -⟩ | hst <;> rw [hst] <;> rfl
    exact fin.numbers (ack.acksAll takes (answers ha))
  · have hc := hcov (leavesFin_ne hl ack.state reply.state)
    exact fun x hx => hc x (ack.wire x hx)

theorem Fins.handled (h : Fins s.view s.wire pc)
    (hw : Wf s.view pc) (drops : dropsFin s seg = false)
    (answers : answersFin s seg = true → acksAll s seg = true)
    (closes : closesUnacked s seg = false) (hm : Handled s seg t) : Fins t.view t.wire pc ∧
      (leavesFin s.state t.state = true → seg.flags.rst = true ∨ seg.flags.syn = true ∨
        seg.flags.ack = true ∧ Covers s.wire seg.ackNumber) := by
  cases hm with
  | quiet same =>
    refine ⟨h.quiet same, fun hl => ?_⟩
    rw [same.state, leavesFin_self] at hl
    cases hl
  | rejected hs view mute =>
    refine ⟨view ▸ h.closed hw mute (.refl _) rfl rfl, fun hl => ?_⟩
    rw [hs] at hl
    cases hl
  | refused hs =>
    refine ⟨h.toFinsSent.settled (.refl _) (.refl _) (.inr (.inr rfl)) fun hm => absurd rfl hm, ?_⟩
    rw [hs]
    intro hc
    cases hc
  | @opened b u _ hs after sent base wire ok view mute =>
    have hp := hw.connecting hs
    have hf := h.fresh (.inr (.inr ⟨hp, hw.syn hs⟩))
    have hn : s.mslTimer = none := h.no_msl (by simp [Sock.view, hs]) (by simp [Sock.view, hs])
    obtain ⟨-, r, rto, srtt, rttvar, rfl, -⟩ := accept_ok ok
    have hmsl : b.mslTimer = none := (congrArg SendView.msl base).trans hn
    have hmute : Mute s.wire t.wire := wire ▸ mute
    rw [view]
    refine ⟨⟨⟨fun hm => absurd hmsl hm, ?_, fun _ => hmute.no_fin hf, ?_, fun hc => by cases hc⟩,
      ?_⟩, fun hl => ?_⟩
    · rw [hp]
      intro hc
      cases hc
    · rintro (he | he | he) <;> cases he
    · rintro (he | he) <;> cases he
    · rw [hs] at hl
      cases hl
  | flushed hs why view mute =>
    refine ⟨view ▸ h.closed hw mute (nil_sublist _) rfl rfl, fun _ => ?_⟩
    exact why.imp_right .inl
  | aborted hs why view mute =>
    exact ⟨view ▸ h.closed hw mute (.refl _) rfl rfl, fun _ => .inl why⟩
  | closed hs acceptable flag syn rst finAcked view mute =>
    refine ⟨view ▸ h.closed hw mute (.refl _) rfl rfl, fun _ => .inr (.inr ⟨flag, ?_⟩)⟩
    have hrst : seg.flags.rst = false := by
      refine eq_false_iff.mpr fun hr => ?_
      simp [rst hr] at hs
    have hlt : s.sndUna < seg.ackNumber := by
      simpa [closesUnacked, plainAck, hs, acceptable, flag, syn, hrst, finAcked] using closes
    rcases h.last hs with ⟨f, hf, hfin⟩ | hlast
    · rw [isFinAcked_iff.mp finAcked f hf] at hfin
      cases hfin
    · intro x hx hxf
      rw [hlast x hx hxf]
      exact hlt
  | processed hs acceptable flag syn rst ack fin reply =>
    obtain ⟨hf, hl⟩ := h.processed hw hs acceptable flag syn rst ack fin reply drops answers
    exact ⟨hf, fun hx => .inr (.inr ⟨flag, hl hx⟩)⟩

theorem Fins.rephase {pc' : Pc} (h : Fins v wire pc)
    (hp : pc'.phase = pc.phase) : Fins v wire pc' :=
  ⟨⟨by rw [hp]; exact h.msl, by rw [hp]; exact h.single, by rw [hp]; exact h.fresh, h.sent, h.last⟩,
    h.waiting⟩

theorem Fins.goto (h : Fins v wire pc) (pc' : Pc)
    (hq : v.queue = []) (hp : pc'.phase ≠ .connecting) : Fins v wire pc' := by
  refine ⟨⟨fun hm => ?_, fun _ => by simp [hq], ?_, h.sent, h.last⟩, h.waiting⟩
  · exact (h.msl hm).imp_right fun ⟨hs, _⟩ => ⟨hs, hp⟩
  · rintro (hs | hs | ⟨hc, -⟩)
    · exact h.fresh (.inl hs)
    · exact h.fresh (.inr (.inl hs))
    · exact absurd hc hp

theorem Fins.enqueue (h : Fins v wire pc)
    (hp : pc.phase ≠ .connecting) (hl : pc.phase = .closing → v.queue = []) :
    Fins (v.enqueue x) wire pc := by
  refine ⟨⟨h.msl, fun hc => ?_, ?_, h.sent, fun hs => ?_⟩, fun hs => ?_⟩
  · simp [SendView.enqueue, hl hc]
  · rintro (hs | hs | ⟨hc, -⟩)
    · exact h.fresh (.inl hs)
    · exact h.fresh (.inr (.inl hs))
    · exact absurd hc hp
  · rcases h.last hs with ⟨f, hf, hfin⟩ | hlast
    · exact .inl ⟨f, mem_append_left _ hf, hfin⟩
    · exact .inr hlast
  · obtain ⟨f, hf, hfin, ho⟩ := h.waiting hs
    exact ⟨f, mem_append_left _ hf, hfin, ho⟩

theorem Fins.transmitReturn {s : Sys} {k : Caller} (h : Fins s.sk.view s.sk.wire (.transmit k))
    (empty : s.sk.txQueue = []) :
    Fins (transmitReturn s k).sk.view (transmitReturn s k).sk.wire (transmitReturn s k).pc := by
  cases k with
  | connect =>
    have hu := h.goto .user empty nofun
    exact hu.congr (.refl _) rfl
  | probe l =>
    have hu := h.goto (.transmit (.chunks l)) empty nofun
    exact hu.congr (.refl _) rfl
  | chunks l => exact h.goto _ empty nofun
  | shutdown => exact h.goto _ empty nofun

theorem finWaits_receive {s : Sys} {garbage : UInt16 × UInt8}
    (h : finWaits s (.receive seg garbage) = true) : dropsFin s.sk seg = false ∧
      (answersFin s.sk seg = true → acksAll s.sk seg = true) ∧ closesUnacked s.sk seg = false := by
  simp only [finWaits, and_eq_true, not_eq_true', or_eq_true] at h
  refine ⟨h.1.1, fun ha => ?_, h.2⟩
  rcases h.1.2 with hn | hn
  · rw [ha] at hn
    cases hn
  · exact hn

theorem Fins.moves {s t : Sys} {e : Event} (h : Fins s.sk.view s.sk.wire s.pc)
    (hw : Wf s.sk.view s.pc) (ok : finWaits s e = true) (hm : Moves s e t) :
    Fins t.sk.view t.sk.wire t.pc := by
  cases hm with
  | refused hp => exact h
  | connect seed hp =>
    refine ⟨⟨fun hn => absurd rfl hn, nofun, fun _ => nofun, ?_, nofun⟩, ?_⟩
    · rintro (he | he | he) <;> cases he
    · rintro (he | he) <;> cases he
  | sendmsg _ hp | recvmsg _ hp | sendReturn hp | round hp | shutdownReturn hp =>
    rw [hp] at h hw
    exact h.goto _ (hw.no_queue nofun) nofun
  | shutdown hp =>
    rw [hp] at h hw
    have hq := hw.no_queue nofun
    exact (h.goto (.transmit .shutdown) hq nofun).enqueue nofun fun _ => hq
  | @probe l _ hp more hs ok' =>
    obtain ⟨-, -, rfl⟩ := queueProbe_ok ok'
    rw [hp] at h hw
    have hb := h.goto (.transmit (.probe l)) (hw.no_queue nofun) nofun
    exact Fins.enqueue (v := { s.sk with persistTimer := some (s.sk.now + 1000) }.view)
      (hb.congr (.refl _) rfl) nofun nofun
  | chunk hp lt le =>
    rw [hp] at h
    exact (h.enqueue nofun nofun).rephase rfl
  | chunksDone hp | lock hp | recvReturn hp | recvAwake hp | awake hp | shutdownAwake hp =>
    rw [hp] at h
    exact h.rephase rfl
  | sleep hp | recvWait hp | shutdownWait hp =>
    rw [hp] at h
    exact h.rephase rfl
  | transmitReturn hp empty => exact Fins.transmitReturn (hp ▸ h) empty
  | transmit hp head avail ok' =>
    obtain ⟨skb, hf, -, hv, hwire⟩ := transmitHead_ok ok'
    rw [hv, hwire]
    exact (h.send hw (mem_of_find?_eq_some hf)).congr (.refl _) rfl
  | receive unlocked ok' =>
    obtain ⟨drops, answers, closes⟩ := finWaits_receive ok
    exact (h.handled hw drops answers closes (handler_handled hw.reached ok')).1
  | retransmitTimer unlocked armed ok' =>
    obtain ⟨skb, rest, n, hq, -, hv, hwire⟩ := retransmit_ok ok'
    rw [hv, hwire]
    exact (h.send hw (first_mem hq)).congr (.refl _) rfl
  | persistTimer unlocked armed ok' =>
    rcases persist_ok ok' with ⟨-, hv, hwire⟩ | ⟨-, skb, rest, n, hq, -, hv, hwire⟩
    · rw [hv, hwire]
      exact h.congr (.refl _) rfl
    · rw [hv, hwire]
      exact (h.send hw (first_mem hq)).congr (.refl _) rfl
  | mslTimer unlocked armed ok' =>
    obtain ⟨-, hv, hwire⟩ := msl_ok ok'
    rw [hv, hwire]
    exact h.toFinsSent.settled (.refl _) (.refl _) (.inr (.inr rfl)) fun hn => absurd rfl hn
  | tick | wake => exact h.congr (.refl _) rfl

/-- Only a segment takes one of these steps. -/
theorem Fins.leaves {s t : Sys} {e : Event} (h : Fins s.sk.view s.sk.wire s.pc)
    (ok : finWaits s e = true) (hm : Moves s e t)
    (hl : leavesFin s.sk.state t.sk.state = true) : ∃ seg garbage, e = .receive seg garbage := by
  have next {flags : Flags} (ht : t.sk.state = nextState s.sk.state flags) : False := by
    rw [ht, leavesFin_next] at hl
    cases hl
  have same (ht : t.sk.state = s.sk.state) : False := by
    rw [ht, leavesFin_self] at hl
    cases hl
  cases hm with
  | receive => exact ⟨_, _, rfl⟩
  | connect seed hp =>
    have hs : s.sk.state ≠ .lastAck := by simpa [finWaits] using ok
    cases hst : s.sk.state <;> rw [hst] at hl <;> first | exact absurd hst hs | cases hl
  | probe hp more hs ok' =>
    obtain ⟨-, -, rfl⟩ := queueProbe_ok ok'
    exact (same rfl).elim
  | @transmitReturn k hp empty => cases k <;> exact (same rfl).elim
  | transmit hp head avail ok' =>
    obtain ⟨skb, -, -, hv, -⟩ := transmitHead_ok ok'
    exact (next (congrArg SendView.state hv)).elim
  | retransmitTimer unlocked armed ok' =>
    obtain ⟨skb, rest, n, -, -, hv, -⟩ := retransmit_ok ok'
    exact (next (congrArg SendView.state hv)).elim
  | persistTimer unlocked armed ok' =>
    rcases persist_ok ok' with ⟨-, hv, -⟩ | ⟨-, skb, rest, n, -, -, hv, -⟩
    · exact (same (congrArg SendView.state hv)).elim
    · exact (next (congrArg SendView.state hv)).elim
  | @mslTimer sk unlocked armed ok' =>
    obtain ⟨-, hv, -⟩ := msl_ok ok'
    have ht : sk.state = .close := congrArg SendView.state hv
    rcases h.msl armed with hs | ⟨hs, -⟩
    · change s.sk.state = .timeWait at hs
      rw [hs] at hl
      cases hl
    · change s.sk.state = .close at hs
      rw [hs] at hl
      cases hl
  | _ => exact (same rfl).elim

/-- In every run a FIN that this side waits for is queued. -/
theorem Fins.run {s : Sys} (run : Run advance (fun a e => finWaits a e = true) {} s) :
    Fins s.sk.view s.sk.wire s.pc := by
  refine (run.invariant (I := fun s => Fins s.sk.view s.sk.wire s.pc ∧ Wf s.sk.view s.pc) ?_ ?_).1
  · refine ⟨⟨⟨absurd rfl, nofun, fun _ => nofun, ?_, nofun⟩, ?_⟩, Wf.start⟩
    · rintro (he | he | he) <;> cases he
    · rintro (he | he) <;> cases he
  · intro a e b ⟨ha, hwa⟩ hok hb
    have hm := moves_of_advance hb
    exact ⟨ha.moves hwa hok hm, hwa.moves hm⟩

theorem leavesFin_sent {st : TcpState}
    (h : Fins v wire pc) (hl : leavesFin v.state st = true) : ∃ x ∈ wire, x.flags.fin = true := by
  refine h.sent ?_
  cases hs : v.state <;> rw [hs] at hl <;> first | cases hl | simp

/-- The closing handshake goes on only with a segment that acknowledges the FIN
this side has sent, in every run that does not lose track of it. -/
theorem fin_acknowledged_before_leaving {s t : Sys} {e : Event}
    (run : Run advance (fun a e => finWaits a e = true) {} s) (ok : finWaits s e = true)
    (next : advance s e = some t) (leaves : leavesFin s.sk.state t.sk.state = true) :
    ∃ seg garbage, e = .receive seg garbage ∧
      (seg.flags.rst = true ∨ seg.flags.syn = true ∨ seg.flags.ack = true ∧
        (∃ x ∈ s.sk.wire, x.flags.fin = true) ∧
        ∀ x ∈ s.sk.wire, x.flags.fin = true → x.seq.toNat + 1 ≤ seg.ackNumber.toNat) := by
  have hw := Wf.run run
  have hf := Fins.run run
  have hm := moves_of_advance next
  obtain ⟨seg, garbage, rfl⟩ := hf.leaves ok hm leaves
  refine ⟨seg, garbage, rfl, ?_⟩
  cases hm with
  | refused hp =>
    rw [leavesFin_self] at leaves
    cases leaves
  | receive unlocked ok' =>
    obtain ⟨drops, answers, closes⟩ := finWaits_receive ok
    have hh := (hf.handled hw drops answers closes (handler_handled hw.reached ok')).2 leaves
    refine hh.imp_right (Or.imp_right fun ⟨flag, hc⟩ => ⟨flag, leavesFin_sent hf leaves, ?_⟩)
    exact fun x hx hxf => UInt32.lt_iff_toNat_lt.mp (hc x hx hxf)

theorem fin_acknowledged_active_close : ∃ s t,
    Run advance (fun a e => finWaits a e = true) {} s ∧
    advance s (.receive (pureAck 476707715 1000) (0, 0)) = some t ∧
    s.sk.state = .finWait1 ∧ t.sk.state = .finWait2 ∧
    ∀ x ∈ s.sk.wire, x.flags.fin = true → x.seq.toNat + 1 ≤ 476707715 := by
  obtain ⟨s, run, ⟨ok, hs⟩, hnext⟩ := replay_reaches advance (fun a e => finWaits a e = true) {}
    (opening (synAck 1000) ++ [.shutdown, .app, .app, .app])
    (P := fun s => (finWaits s (.receive (pureAck 476707715 1000) (0, 0)) = true ∧
      s.sk.state = .finWait1) ∧ (advance s (.receive (pureAck 476707715 1000) (0, 0))).any
        (fun t => decide (t.sk.state = .finWait2)) = true) (by decide)
  obtain ⟨t, next, ht⟩ := (Option.any_eq_true _ _).mp hnext
  have ht := of_decide_eq_true ht
  obtain ⟨_, _, he, h⟩ := fin_acknowledged_before_leaving run ok next (by rw [hs, ht]; rfl)
  obtain ⟨rfl, rfl⟩ := Event.receive.inj he
  rcases h with h | h | ⟨-, -, h⟩
  · cases h
  · cases h
  · exact ⟨s, t, run, next, hs, ht, h⟩

/-- A passive close: the FIN numbered 476707714 answers the peer's. The next
segment, which acknowledges nothing new, closes the connection. -/
theorem fin_unacknowledged_passive_close : ∃ s t, ∃ seg : Segment,
    Run advance (fun _ _ => True) {} s ∧ advance s (.receive seg (0, 0)) = some t ∧
    seg.flags = { ack := true } ∧ s.sk.state = .lastAck ∧ t.sk.state = .close ∧
    ∃ x ∈ s.sk.wire, x.flags.fin = true ∧ ¬ x.seq.toNat + 1 ≤ seg.ackNumber.toNat := by
  obtain ⟨s, run, hs, hx, hnext⟩ := replay_reaches advance (fun _ _ => True) {}
    (opening (synAck 1000) ++ [.receive (pureFin 476707714 1000) (0, 0)])
    (P := fun s => s.sk.state = .lastAck ∧ (∃ x ∈ s.sk.wire, x.flags.fin = true ∧ x.seq = 476707714) ∧
      (advance s (.receive { pureAck 476707714 1000 with seq := 7 } (0, 0))).any
        (fun t => decide (t.sk.state = .close)) = true) (by decide)
  obtain ⟨x, hx, hfin, hseq⟩ := hx
  obtain ⟨t, next, ht⟩ := (Option.any_eq_true _ _).mp hnext
  refine ⟨s, t, _, run, next, rfl, hs, of_decide_eq_true ht, x, hx, hfin, ?_⟩
  rw [hseq]
  decide

end Mos.Tcp

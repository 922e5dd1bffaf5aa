import Mos.Proofs.CloseHandshake
import Mos.Proofs.SendHead

namespace Mos.Tcp
open Machine

/-! ### `TCP_TIME_WAIT` -/

/-- Step five leaves no FIN queued: the segment acknowledges it, or reopens a closed
window, which flushes the queue. -/
def takesFin (s : Sock) (seg : Segment) : Bool :=
  s.txQueue.all (fun x => !x.flags.fin || newAck s seg && x.endSeq < seg.ackNumber) ||
    windowUpdate s seg && reopens s seg

/-- No segment takes the FIN off the queue in `TCP_CLOSING`. -/
def closingWaits (s : Sys) : Event → Bool
  | .receive seg _ => !(s.sk.state == .closing && plainAck s.sk seg && takesFin s.sk seg)
  | _ => true

variable {s u t : Sock} {seg : Segment}

theorem AckMove.takesFin (h : AckMove s seg u)
    (ha : tcpIsFinAcked u = true) : takesFin s seg = true := by
  have same (hq : u.txQueue = s.txQueue) : Tcp.takesFin s seg = true := by
    rw [isFinAcked_iff, hq] at ha
    simp only [Tcp.takesFin, Bool.or_eq_true, List.all_eq_true]
    left
    intro x hx
    simp [ha x hx]
  cases h with
  | idle quiet => exact same (congrArg SendView.queue quiet.view)
  | accepted takes new ok =>
    obtain ⟨-, r, rto, srtt, rttvar, rfl, -⟩ := accept_ok ok
    have ha : ∀ x ∈ s.txQueue.filter (fun x => !ackRemoves seg.ackNumber false x),
        x.flags.fin = false := by
      rw [isFinAcked_iff] at ha
      unfold takeWindow at ha
      split at ha <;> exact ha
    simp only [Tcp.takesFin, new, Bool.or_eq_true, List.all_eq_true]
    left
    intro x hx
    by_cases hr : x.endSeq < seg.ackNumber
    · simp [hr]
    · have := ha x (List.mem_filter.mpr ⟨hx, by simp [ackRemoves, hr]⟩)
      simp [this]
  | updated takes old update =>
    by_cases hr : reopens s seg = true
    · simp [Tcp.takesFin, update, hr]
    · apply same
      simp [updateWindow, hr]
  | resent third quiet first => exact same (congrArg SendView.queue quiet.view)

theorem AckMove.msl (h : AckMove s seg u) : u.mslTimer = s.mslTimer := by
  cases h with
  | idle quiet => exact congrArg SendView.msl quiet.view
  | accepted takes new ok =>
    obtain ⟨-, r, rto, srtt, rttvar, rfl, -⟩ := accept_ok ok
    unfold takeWindow
    split <;> rfl
  | updated takes old update =>
    unfold updateWindow
    split <;> rfl
  | resent third quiet first => exact congrArg SendView.msl quiet.view

theorem next_state_closing {st : TcpState} {flags : Flags}
    (h : nextState st flags = .timeWait ∨ nextState st flags = .closing) :
    st = nextState st flags := by
  cases st <;> simp [nextState] at h ⊢
  all_goals split_ifs at h <;> simp at h

theorem AckMove.closing (h : AckMove s seg u)
    (hu : u.state = .timeWait ∨ u.state = .closing) : s.state = u.state := by
  rcases h.state with he | ⟨flags, he⟩
  · exact he.symm
  · rw [he] at hu ⊢
    exact next_state_closing hu

def Expires (s : Sock) : Prop := s.state = .timeWait → s.mslTimer ≠ none

theorem Expires.view {v : SendView} (h : t.view = v)
    (hv : v.state = .timeWait → v.msl ≠ none) : Expires t := by
  subst h
  exact hv

theorem Expires.finMove {w : Sock} (h : Expires u) (hm : FinMove u w)
    (waits : u.state = .closing → tcpIsFinAcked u = false) : Expires w := by
  cases hm with
  | idle quiet => exact .view quiet.view h
  | finWait2 => exact fun hs => by cases hs
  | timeWait hs finAcked =>
    rw [waits hs] at finAcked
    cases finAcked

theorem Expires.replyMove {w : Sock} (h : Expires w) (hm : ReplyMove w seg t) :
    Expires t := by
  cases hm with
  | quiet quiet => exact .view quiet.view h
  | passive _ _ _ view | answered _ _ _ _ view | closing _ _ view =>
    exact .view view fun hs => by cases hs
  | timeWait _ _ view | again _ _ view => exact .view view fun _ => by simp

theorem Expires.handled (h : Expires s)
    (waits : s.state = .closing → plainAck s seg = true → takesFin s seg = false)
    (hm : Handled s seg t) : Expires t := by
  cases hm with
  | quiet quiet => exact .view quiet.view h
  | refused hs => exact fun ht => by cases ht
  | rejected _ view | opened _ _ _ _ _ _ view | flushed _ _ view | aborted _ _ view
  | closed _ _ _ _ _ _ view => exact .view view fun hs => by cases hs
  | @processed u w _ hs acceptable flag syn rst ack fin reply =>
    have hu : Expires u := by
      intro hu
      rw [ack.msl]
      exact h ((ack.closing (.inl hu)).trans hu)
    refine (hu.finMove fin fun hc => ?_).replyMove reply
    have hs : s.state = .closing := (ack.closing (.inr hc)).trans hc
    by_contra hne
    have hrst : seg.flags.rst = false := by
      by_contra hr
      have := rst (by simpa using hr)
      rw [hs] at this
      cases this
    have hp : plainAck s seg = true := by simp [plainAck, acceptable, flag, syn, hrst]
    have := ack.takesFin (Bool.eq_true_of_not_eq_false hne)
    rw [waits hs hp] at this
    cases this

theorem Expires.resent {flags : Flags} (h : Expires s)
    (state : t.state = nextState s.state flags) (msl : t.mslTimer = s.mslTimer) : Expires t := by
  intro ht
  rw [msl]
  rw [state] at ht
  exact h ((next_state_closing (.inl ht)).trans ht)

/-- A socket in TIME_WAIT has its timer. -/
theorem Expires.step {s t : Sys} {e : Event} (h : Expires s.sk) (hw : Wf s.sk.view s.pc)
    (ok : closingWaits s e = true) (hm : Moves s e t) : Expires t.sk := by
  cases hm with
  | connect seed hp => exact fun hs => by cases hs
  | @transmitReturn k hp empty => cases k <;> exact h
  | probe hp more hs ok' =>
    obtain ⟨-, -, rfl⟩ := queueProbe_ok ok'
    exact h
  | transmit hp head avail ok' =>
    obtain ⟨x, -, -, hv, -⟩ := transmitHead_ok ok'
    exact h.resent (congrArg SendView.state hv) (congrArg SendView.msl hv)
  | receive unlocked ok' =>
    refine h.handled (fun hs hp => ?_) (handler_handled hw.reached ok')
    simpa [closingWaits, hs, hp] using ok
  | retransmitTimer unlocked armed ok' =>
    obtain ⟨x, rest, n, -, -, hv, -⟩ := retransmit_ok ok'
    exact h.resent (congrArg SendView.state hv) (congrArg SendView.msl hv)
  | persistTimer unlocked armed ok' =>
    rcases persist_ok ok' with ⟨-, hv, -⟩ | ⟨-, x, rest, n, -, -, hv, -⟩
    · exact .view hv h
    · exact h.resent (congrArg SendView.state hv) (congrArg SendView.msl hv)
  | mslTimer unlocked armed ok' =>
    obtain ⟨-, hv, -⟩ := msl_ok ok'
    exact .view hv fun hs => by cases hs
  | _ => exact h

/-- Once its time has come, the MSL timer closes the connection and wakes the thread. -/
theorem msl_closes {s : Sys} {n : Nat} (hs : s.sk.state = .timeWait) (armed : s.sk.mslTimer = some n)
    (due : n ≤ s.sk.now) (unlocked : s.pc.unlocked = true) :
    ∃ t, advance s .mslTimer = some t ∧ t.sk.state = .close ∧ t.sk.ownerReady = true := by
  have hexp : expired s.sk.mslTimer s.sk.now = true := by simp [expired, armed, due]
  have hint : interrupt s tcpMslTimer = some ((tcpMslTimer s.sk).map fun sk => { s with sk := sk }) := by
    unfold interrupt
    split
    · rename_i hp
      rw [hp] at unlocked
      cases unlocked
    · rfl
  simp only [advance, step, hexp, if_true, hint, tcpMslTimer, hs, true_or]
  exact ⟨_, rfl, rfl, rfl⟩

/-- Where no segment takes the FIN off the queue in `TCP_CLOSING`, a connection in
`TCP_TIME_WAIT` has its MSL timer armed, and the timer closes it. -/
theorem time_wait_expires {s : Sys}
    (run : Run advance (fun a e => closingWaits a e = true) {} s) (hs : s.sk.state = .timeWait) :
    ∃ n, s.sk.mslTimer = some n ∧ (n ≤ s.sk.now → s.pc.unlocked = true →
      ∃ t, advance s .mslTimer = some t ∧ t.sk.state = .close ∧ t.sk.ownerReady = true) := by
  have hexp : Expires s.sk ∧ Wf s.sk.view s.pc := by
    refine run.invariant (I := fun s => Expires s.sk ∧ Wf s.sk.view s.pc) ?_ ?_
    · exact ⟨(fun hs => by cases hs), Wf.start⟩
    · intro a e b ⟨ha, hw⟩ hok hb
      have hm := moves_of_advance hb
      exact ⟨ha.step hw hok hm, hw.moves hm⟩
  obtain ⟨n, hn⟩ := Option.ne_none_iff_exists'.mp (hexp.1 hs)
  exact ⟨n, hn, msl_closes hs hn⟩

theorem time_wait_expires_active_close : ∃ s : Sys,
    Run advance (fun a e => closingWaits a e = true) {} s ∧ s.sk.state = .timeWait ∧
    ∃ n, s.sk.mslTimer = some n := by
  obtain ⟨s, run, hs⟩ := replay_reaches advance (fun a e => closingWaits a e = true) {}
    (opening (synAck 1000) ++ [.shutdown, .app, .app, .app, .receive (pureAck 476707715 1000) (0, 0),
      .receive (pureFin 476707715 1000) (0, 0)])
    (P := fun s => s.sk.state = .timeWait) (by decide)
  obtain ⟨n, hn, -⟩ := time_wait_expires run hs
  exact ⟨s, run, hs, n, hn⟩

/-- A simultaneous close: the peer's FIN comes before its acknowledgement of ours, which
then brings `TCP_TIME_WAIT` about without a timer. -/
theorem time_wait_unarmed : ∃ s : Sys, Run advance (fun _ _ => True) {} s ∧
    s.sk.state = .timeWait ∧ s.sk.mslTimer = none ∧ s.pc = .shutdownSleep := by
  obtain ⟨s, run, hs⟩ := replay_reaches advance (fun _ _ => True) {}
    (opening (synAck 1000) ++ [.shutdown, .app, .app, .app, .receive (pureFin 476707714 1000) (0, 0),
      .receive { pureAck 476707715 1000 with seq := 7 } (0, 0), .app, .app, .app])
    (P := fun s => s.sk.state = .timeWait ∧ s.sk.mslTimer = none ∧ s.pc = .shutdownSleep) (by decide)
  exact ⟨s, run, hs⟩

/-! ### Resets -/

structure ResetDone (s t : Sock) : Prop where
  state : t.state = .close
  ready : t.ownerReady = true
  retransmit : t.retransmitTimer = none
  persist : t.persistTimer = none
  msl : t.mslTimer = none
  wire : t.wire = s.wire

/-- `send_head` is at no queued buffer, unless that is the only one, and is not timed. -/
def HeadPasses (s : Sock) : Prop :=
  ∀ x ∈ s.txQueue, s.sendHead = some x.addr → s.rttTime = 0 ∧ s.txQueue = [x]

/-- The same as `ackSendHead` sees it, once the measurement is over. -/
theorem headPasses_iff (s : Sock) :
    HeadPasses s ↔ ∀ x ∈ s.txQueue, ackSendHead s ≠ some x.addr := by
  constructor
  · intro h x hx he
    unfold ackSendHead at he
    split at he
    · rename_i hr
      simp only [ackFromRetransmitted, Bool.and_eq_true, beq_iff_eq] at hr
      cases hq : s.txQueue with
      | nil => simp [hq] at hx
      | cons y rest =>
        obtain ⟨-, hone⟩ := h y (by simp [hq]) (by simp [hr.1.2, hq])
        rw [hone] at he
        cases he
    · rename_i hr
      obtain ⟨hz, hone⟩ := h x hx he
      simp [ackFromRetransmitted, he, hone, hz] at hr
  · intro h x hx he
    by_cases hr : ackFromRetransmitted s = true
    · have hz : s.rttTime = 0 := by
        simp only [ackFromRetransmitted, Bool.and_eq_true, beq_iff_eq] at hr
        exact hr.2
      refine ⟨hz, ?_⟩
      cases hq : s.txQueue with
      | nil => simp [hq] at hx
      | cons y rest =>
        cases rest with
        | nil =>
          rw [hq, List.mem_singleton] at hx
          rw [hx]
        | cons z rest =>
          exact absurd (by simp [ackSendHead, hr, hq]) (h z (by simp [hq]))
    · exact absurd (by simp [ackSendHead, hr, he]) (h x hx)

theorem HeadPasses.accept (h : HeadPasses s) {a : UInt32} {all : Bool}
    (removes : ∀ x ∈ s.txQueue, ackRemoves a all x = true) : ∃ t, tcpAcceptAck s a all = .ok t := by
  have hhead := (headPasses_iff s).mp h
  have hqueue : s.txQueue.filter (fun x => !ackRemoves a all x) = [] :=
    List.filter_eq_nil_iff.mpr (fun x hx => by simp [removes x hx])
  unfold tcpAcceptAck
  rw [if_neg (by simpa using fun x hx _ => hhead x hx), hqueue]
  exact ⟨_, rfl⟩

/-- Accepting everything fails only on the head of the send queue. -/
theorem accept_all_iff (s : Sock) (a : UInt32) :
    (∃ t, tcpAcceptAck s a true = .ok t) ↔ HeadPasses s := by
  have hall (x : SkBuff) : ackRemoves a true x = true := by simp [ackRemoves]
  constructor
  · rintro ⟨t, ht⟩
    exact (headPasses_iff s).mpr fun x hx => (accept_ok ht).1 x hx (hall x)
  · intro h
    exact h.accept (fun x _ => hall x)

theorem ReplyMove.keeps_connected (h : ReplyMove s seg t)
    (hs : connected s.state = true) : connected t.state = true := by
  have of_view {v : SendView} (hv : t.view = v) (hc : connected v.state = true) :
      connected t.state = true := by
    subst hv
    exact hc
  cases h with
  | quiet quiet => exact of_view quiet.view hs
  | passive _ _ _ view | answered _ _ _ _ view | closing _ _ view | timeWait _ _ view =>
    exact of_view view rfl
  | again _ _ view => exact of_view view hs

theorem stepRest_closeWait (hs : s.state = .closeWait)
    (h : stepRest s seg = .ok t) : t.state ≠ .close := by
  have hc : connected s.state = true := by rw [hs]; rfl
  have of_connected {u : Sock} (hu : connected u.state = true) : u.state ≠ .close := by
    intro he
    simp [he, connected, synchronized] at hu
  obtain ⟨⟨u, b⟩, hu, hp⟩ := bind_ok.mp h
  obtain ⟨hack, -⟩ := stepAck_move (connected_iff.mp hc).2 hu
  have hcu := hack.keeps_connected hc
  dsimp only at hp
  split at hp
  · cases hp
    exact of_connected hcu
  · rcases stepFinAcked_move u with ⟨w, hw, hfin⟩ | ⟨hlast, hacked, -⟩
    · rw [hw] at hp
      cases hp
      have hcw := hfin.keeps_connected hcu
      have hsync := connected_iff.mp hcw
      exact of_connected ((stepDataFin_move hsync.1 hsync.2 hfin.waits).keeps_connected hcw)
    · rw [(hack.lastAck hc hlast hacked).1] at hs
      cases hs

theorem reset_closeWait (hs : s.state = .closeWait)
    (acceptable : acceptableSegment s seg = true) (rst : seg.flags.rst = true)
    (h : tcpHandlerEstablished s seg = .ok t) : ¬ ResetDone s t := by
  intro hd
  have hnone : (if seg.flags.rst then stepReset s else none) = none := by simp [rst, stepReset, hs]
  simp only [tcpHandlerEstablished, acceptable, Bool.not_true, Bool.false_eq_true, if_false,
    hnone] at h
  split at h
  · cases h
    have hlen := congrArg List.length hd.wire
    simp [stepSyn, wakeOwner, tcpEnterCloseState, tcpFlushRx, tcpFlushTx, sendRst, tcpSendSkb,
      tcpStateTransition] at hlen
  · split at h
    · cases h
      have := hd.state
      rw [hs] at this
      cases this
    · exact stepRest_closeWait hs h hd.state

theorem reset_handled (acceptable : acceptableSegment s seg = true)
    (rst : seg.flags.rst = true) {outcome : Except Panic Sock} (h : stepReset s = some outcome) :
    tcpHandlerEstablished s seg = outcome := by
  simp [tcpHandlerEstablished, acceptable, rst, h]

/-- A reset is complete only if it stops both timers. -/
theorem resetDone_iff (state : t.state = .close) (ready : t.ownerReady = true)
    (retransmit : t.retransmitTimer = none) (persist : t.persistTimer = s.persistTimer)
    (msl : t.mslTimer = s.mslTimer) (wire : t.wire = s.wire) :
    ResetDone s t ↔ s.persistTimer = none ∧ s.mslTimer = none := by
  rw [← persist, ← msl]
  exact ⟨fun h => ⟨h.persist, h.msl⟩, fun h => ⟨state, ready, retransmit, h.1, h.2, wire⟩⟩

/-- A reset closes a synchronized connection and leaves none of its timers armed exactly if
the connection is not in `TCP_CLOSE_WAIT` and neither the persist nor the MSL timer is
running; in `TCP_SYN_RECV`, `send_head` must not be in the way either. -/
theorem reset_closes_iff (s : Sock) (seg : Segment) (hs : synchronized s.state = true)
    (acceptable : acceptableSegment s seg = true) (rst : seg.flags.rst = true) :
    (∃ t, tcpHandlerEstablished s seg = .ok t ∧ ResetDone s t) ↔
      s.state ≠ .closeWait ∧ s.persistTimer = none ∧ s.mslTimer = none ∧
        (s.state = .synRecv → HeadPasses s) := by
  by_cases hcw : s.state = .closeWait
  · refine iff_of_false ?_ (fun h => h.1 hcw)
    rintro ⟨t, ht, hd⟩
    exact reset_closeWait hcw acceptable rst ht hd
  · rw [and_iff_right hcw]
    by_cases hsr : s.state = .synRecv
    · have hreset : stepReset s =
          some ((tcpAcceptAck s 0 true).map fun s => wakeOwner (tcpEnterCloseState s)) := by
        simp [stepReset, hsr]
      rw [reset_handled acceptable rst hreset]
      have hdone {u : Sock} (hu : tcpAcceptAck s 0 true = .ok u) :
          ResetDone s (wakeOwner (tcpEnterCloseState u)) ↔
            s.persistTimer = none ∧ s.mslTimer = none := by
        obtain ⟨-, r, rto, srtt, rttvar, rfl, -⟩ := accept_ok hu
        exact resetDone_iff rfl rfl rfl rfl rfl rfl
      constructor
      · rintro ⟨t, ht, hd⟩
        obtain ⟨u, hu, rfl⟩ := map_ok.mp ht
        obtain ⟨hp, hm⟩ := (hdone hu).mp hd
        exact ⟨hp, hm, fun _ => (accept_all_iff s 0).mp ⟨u, hu⟩⟩
      · rintro ⟨hp, hm, hpass⟩
        obtain ⟨u, hu⟩ := (accept_all_iff s 0).mpr (hpass hsr)
        exact ⟨_, map_ok.mpr ⟨u, hu, rfl⟩, (hdone hu).mpr ⟨hp, hm⟩⟩
    · obtain ⟨t, hreset, hdone⟩ : ∃ t, stepReset s = some (.ok t) ∧
          (ResetDone s t ↔ s.persistTimer = none ∧ s.mslTimer = none) := by
        unfold stepReset
        cases he : s.state with
        | established | finWait1 | finWait2 | closing | lastAck | timeWait =>
          exact ⟨_, rfl, resetDone_iff rfl rfl rfl rfl rfl rfl⟩
        | closeWait => exact absurd he hcw
        | synRecv => exact absurd he hsr
        | _ => simp [he, synchronized] at hs
      rw [reset_handled acceptable rst hreset]
      constructor
      · rintro ⟨u, hu, hd⟩
        cases hu
        exact ⟨(hdone.mp hd).1, (hdone.mp hd).2, fun h => absurd h hsr⟩
      · rintro ⟨hp, hm, -⟩
        exact ⟨t, rfl, hdone.mpr ⟨hp, hm⟩⟩

theorem empty_fits : ([] : List UInt8).length < 65536 ∧ ([] : List UInt8).length < 65536 := by decide

def pureRst (seq : UInt32) : Segment where
  seq := seq
  ackNumber := 0
  flags := { rst := true }
  window := 0
  fits := empty_fits

def calmSock : Sock := { state := .established, rcvNxt := 6, rcvWnd := 65535 }

theorem reset_closes_established :
    acceptableSegment calmSock (pureRst 6) = true ∧
    ∃ t, tcpHandlerEstablished calmSock (pureRst 6) = .ok t ∧ ResetDone calmSock t := by
  refine ⟨by decide, ?_⟩
  exact (reset_closes_iff calmSock (pureRst 6) (by decide) (by decide) (by decide)).mpr
    ⟨by decide, rfl, rfl, fun h => by cases h⟩

def dataFin (ackNumber : UInt32) : Segment where
  seq := 6
  ackNumber := ackNumber
  flags := { fin := true, ack := true }
  window := 1000
  payload := [1]

/-- The peer's FIN comes with data and is not answered; the reset that follows it in
`TCP_CLOSE_WAIT` is ignored. -/
theorem reset_ignored : ∃ s : Sys, Run advance (fun _ _ => True) {} s ∧
    s.sk.state = .closeWait ∧ acceptableSegment s.sk (pureRst 7) = true ∧
    ¬ ∃ t, tcpHandlerEstablished s.sk (pureRst 7) = .ok t ∧ ResetDone s.sk t := by
  obtain ⟨s, run, hs, hacc⟩ := replay_reaches advance (fun _ _ => True) {}
    (opening (synAck 1000) ++ [.receive (dataFin 476707714) (0, 0)])
    (P := fun s => s.sk.state = .closeWait ∧ acceptableSegment s.sk (pureRst 7) = true) (by decide)
  refine ⟨s, run, hs, hacc, ?_⟩
  rintro ⟨t, ht, hd⟩
  have : tcpHandlerEstablished s.sk (pureRst 7) = .ok s.sk := by
    have hnone : stepReset s.sk = none := by simp [stepReset, hs]
    simp only [tcpHandlerEstablished, hacc, Bool.not_true, Bool.false_eq_true, if_false]
    simp [pureRst, hnone]
  rw [this] at ht
  cases ht
  have := hd.state
  rw [hs] at this
  cases this

end Mos.Tcp

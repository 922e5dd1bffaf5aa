import Mos.Proofs.SendReliable

namespace Mos.Tcp
open Machine UInt32 List

/-- What a round of `tcp_sendmsg` has still to queue: whole chunks of `c` bytes
until `need` bytes are reached, or all that is left of the message. -/
def roundRest (c left need : Nat) : Nat := min left ((need + c - 1) / c * c)

theorem roundRest_chunk (c left need : Nat) (h : 0 < need) :
    min c left + roundRest c (left - min c left) (need - min c left) = roundRest c left need := by
  rcases Nat.eq_zero_or_pos c with rfl | hc
  · simp [roundRest]
  · by_cases hl : c ≤ left
    · rw [Nat.min_eq_left hl]
      have hdiv : (need - c + c - 1) / c = (need - 1) / c := by
        by_cases hn : c ≤ need
        · rw [Nat.sub_add_cancel hn]
        · rw [Nat.div_eq_of_lt (by omega), Nat.div_eq_of_lt (by omega)]
      have hnext : (need + c - 1) / c = (need - 1) / c + 1 := by
        rw [show need + c - 1 = need - 1 + c by omega, Nat.add_div_right _ hc]
      unfold roundRest
      rw [hdiv, hnext, Nat.add_mul, Nat.one_mul]
      omega
    · have hge : c ≤ (need + c - 1) / c * c := by
        refine Nat.le_mul_of_pos_left c (Nat.div_pos ?_ hc)
        omega
      unfold roundRest
      omega

def roundLen (l : SendLocals) (mwnd : Nat) : Nat :=
  roundRest (min l.mmss.toNat mwnd) (l.msg.length - l.sent) mwnd

def retracts (s : Sock) (seg : Segment) : Bool :=
  s.state == .established && acceptableSegment s seg && seg.flags.ack && !seg.flags.syn &&
    (newAck s seg && newerWindow s seg &&
      decide (seg.ackNumber.toNat + (segWnd s seg).toNat < s.sndUna.toNat + s.sndWnd.toNat) ||
    windowUpdate s seg && decide (segWnd s seg < s.sndWnd))

/-- The peer takes nothing back of the window it has granted. -/
def edgeKept (s : Sys) : Event → Bool
  | .receive seg _ => !retracts s.sk seg
  | _ => true

/-- The peer does not retract its window, no message wraps around the sequence
space, and a round of whole chunks ends within the window. -/
def staysInWindow (s : Sys) : Event → Bool
  | .sendmsg msg => s.sk.sndNxt.toNat + msg.length < 2 ^ 32
  | .app =>
    match s.pc with
    | .sendLoop l => s.sk.state != .established ||
        decide (roundLen l (sendWindow s.sk l) ≤ (tcpSenderAvailableWindow s.sk).toNat)
    | _ => true
  | .receive seg _ => !retracts s.sk seg
  | _ => true

def SendLocals.end (l : SendLocals) : Nat := l.startingNxt.toNat + l.sent

structure Level (v : SendView) (l : SendLocals) : Prop where
  wrap : l.startingNxt.toNat + l.msg.length < 2 ^ 32
  una : v.una = v.nxt
  nxt : v.nxt.toNat = l.end

/-- All that is queued, and `rest` bytes more, lies below the right edge. -/
structure InWindow (v : SendView) (l : SendLocals) (rest : Nat) : Prop where
  wrap : l.startingNxt.toNat + l.msg.length < 2 ^ 32
  fits : l.end + rest ≤ v.una.toNat + v.wnd.toNat
  una : v.una.toNat ≤ v.nxt.toNat
  nxt : v.nxt.toNat ≤ l.end
  queued : ∀ x ∈ v.queue, x.payload ≠ [] → v.una.toNat ≤ x.endSeq.toNat ∧
    x.endSeq.toNat + 1 ≤ l.end ∧ x.seq.toNat + x.payload.length = x.endSeq.toNat + 1
  last : v.una = v.nxt ∧ v.nxt.toNat = l.end ∨
    ∃ x ∈ v.queue, x.payload ≠ [] ∧ x.endSeq.toNat + 1 = l.end

def Caller.window (v : SendView) : Caller → Prop
  | .connect => v.una = v.nxt
  | .probe l => Level v l ∧ (v.queue ≠ [] → v.wnd = 0)
  | .chunks l => InWindow v l 0
  | .shutdown => True

def Pc.window (v : SendView) : Pc → Prop
  | .user | .recvLoop _ | .recvSleep _ => v.una = v.nxt
  | .sendLoop l => Level v l
  | .sendChunk l mwnd iwnd =>
    InWindow v l (roundRest (min l.mmss.toNat mwnd) (l.msg.length - l.sent) (mwnd - iwnd))
  | .transmit k | .transmitLocked k | .transmitSleep k => k.window v
  | .shutdownLoop | .shutdownSleep => True

inductive Shift (v w : SendView) : Prop where
  | same (una : w.una = v.una) (nxt : w.nxt = v.nxt) (wnd : w.wnd = v.wnd) (queue : w.queue = v.queue)
  | ack (new : v.una < w.una) (sent : w.una ≤ v.nxt) (nxt : w.nxt = v.nxt)
      (queue : w.queue = v.queue.filter (fun x => !ackRemoves w.una false x))
      (edge : v.una.toNat + v.wnd.toNat ≤ w.una.toNat + w.wnd.toNat)
  | update (una : w.una = v.una) (nxt : w.nxt = v.nxt) (queue : w.queue = v.queue)
      (edge : v.wnd ≤ w.wnd) (closed : v.wnd = 0 → w.wnd = 0)
  | reopen (una : w.una = v.una) (nxt : w.nxt = v.nxt) (queue : w.queue = []) (closed : v.wnd = 0)

variable {v w : SendView} {l : SendLocals} {pc : Pc} {s : Sock} {seg : Segment} {skb : SkBuff}
    {k : Caller}

theorem Level.shift (h : Level v l) (hs : Shift v w) : Level w l := by
  cases hs with
  | same una nxt | update una nxt | reopen una nxt =>
    exact ⟨h.wrap, by rw [una, nxt, h.una], by rw [nxt, h.nxt]⟩
  | ack new sent =>
    rw [h.una] at new
    exact absurd new (UInt32.not_lt.mpr sent)

theorem InWindow.shift {rest : Nat} (h : InWindow v l rest)
    (hs : Shift v w) : InWindow w l rest := by
  cases hs with
  | same una nxt wnd queue =>
    obtain ⟨h1, h2, h3, h4, h5, h6⟩ := h
    constructor
    all_goals simpa only [una, nxt, wnd, queue]
  | ack new sent nxt queue edge =>
    have hlt := UInt32.lt_iff_toNat_lt.mp new
    have hle := UInt32.le_iff_toNat_le.mp sent
    have hkept {x : SkBuff} : x ∈ w.queue ↔ x ∈ v.queue ∧ w.una ≤ x.endSeq := by
      simp [queue, List.mem_filter, ackRemoves]
    refine ⟨h.wrap, Nat.le_trans h.fits edge, by rw [nxt]; exact hle, by rw [nxt]; exact h.nxt, ?_, ?_⟩
    · intro x hx hp
      obtain ⟨hx, hge⟩ := hkept.mp hx
      exact ⟨UInt32.le_iff_toNat_le.mp hge, (h.queued x hx hp).2⟩
    · rcases h.last with ⟨he, -⟩ | ⟨x, hx, hp, he⟩
      · rw [he] at new
        exact absurd new (UInt32.not_lt.mpr sent)
      · by_cases hge : w.una ≤ x.endSeq
        · exact .inr ⟨x, hkept.mpr ⟨hx, hge⟩, hp, he⟩
        · -- the last buffer is covered, so the number is `snd_nxt`
          have hcov := UInt32.lt_iff_toNat_lt.mp (UInt32.not_le.mp hge)
          have hn := h.nxt
          refine .inl ⟨UInt32.toNat_inj.mp ?_, ?_⟩ <;> rw [nxt] <;> omega
  | update una nxt queue edge closed =>
    have hw := UInt32.le_iff_toNat_le.mp edge
    refine ⟨h.wrap, ?_, by rw [una, nxt]; exact h.una, by rw [nxt]; exact h.nxt,
      by rw [queue, una]; exact h.queued, by rw [una, nxt, queue]; exact h.last⟩
    have := h.fits
    rw [una]
    omega
  | reopen una nxt queue closed =>
    have hf := h.fits
    rw [closed] at hf
    have hu := h.una
    have hn := h.nxt
    have hz : (0 : UInt32).toNat = 0 := rfl
    refine ⟨h.wrap, by rw [una]; omega, by rw [una, nxt]; exact hu, by rw [nxt]; exact hn,
      by rw [queue]; exact List.forall_mem_nil _, .inl ⟨UInt32.toNat_inj.mp ?_, ?_⟩⟩
    · rw [una, nxt]
      omega
    · rw [nxt]
      omega

theorem Pc.window_shift (h : pc.window v) (hs : Shift v w) :
    pc.window w := by
  have level (he : v.una = v.nxt) : w.una = w.nxt := by
    cases hs with
    | same una nxt | update una nxt | reopen una nxt => rw [una, nxt, he]
    | ack new sent =>
      rw [he] at new
      exact absurd new (UInt32.not_lt.mpr sent)
  have caller {k : Caller} (hk : k.window v) : k.window w := by
    cases k with
    | connect => exact level hk
    | probe l =>
      refine ⟨hk.1.shift hs, fun hq => ?_⟩
      cases hs with
      | same _ _ wnd queue => exact wnd ▸ hk.2 (queue ▸ hq)
      | ack new sent =>
        rw [hk.1.una] at new
        exact absurd new (UInt32.not_lt.mpr sent)
      | update _ _ queue _ closed => exact closed (hk.2 (queue ▸ hq))
      | reopen _ _ queue => exact absurd queue hq
    | chunks l => exact InWindow.shift hk hs
    | shutdown => trivial
  cases pc with
  | user | recvLoop | recvSleep => exact level h
  | sendLoop l => exact Level.shift h hs
  | sendChunk l mwnd iwnd => exact InWindow.shift h hs
  | transmit k | transmitLocked k | transmitSleep k => exact caller h
  | shutdownLoop | shutdownSleep => trivial

theorem takeWindow_edge {u : Sock} {r : Option Nat} {head : Option Nat}
    (hu : u.view = s.view.accept seg.ackNumber head r)
    (newer : newerWindow u seg = true →
      s.sndUna.toNat + s.sndWnd.toNat ≤ seg.ackNumber.toNat + (segWnd u seg).toNat)
    (new : s.sndUna < seg.ackNumber) :
    s.sndUna.toNat + s.sndWnd.toNat ≤ seg.ackNumber.toNat + (takeWindow u seg).sndWnd.toNat := by
  unfold takeWindow
  split
  · rename_i hn
    exact newer hn
  · have hw : u.sndWnd = s.sndWnd := congrArg SendView.wnd hu
    have := lt_iff_toNat_lt.mp new
    rw [hw]
    omega

theorem Shift.of_ack {u : Sock} (hs : s.state = .established)
    (acceptable : acceptableSegment s seg = true) (flag : seg.flags.ack = true)
    (syn : seg.flags.syn = false) (edge : retracts s seg = false) (ack : AckMove s seg u) :
    Shift s.view u.view := by
  simp only [retracts, hs, acceptable, flag, syn, beq_self_eq_true, Bool.not_false, Bool.and_self,
    Bool.true_and, Bool.or_eq_false_iff] at edge
  cases ack with
  | idle same =>
    rw [same.view]
    exact .same rfl rfl rfl rfl
  | accepted takes new ok =>
    have hnew := of_decide_eq_true new
    obtain ⟨-, r, rto, srtt, rttvar, hu, -⟩ := accept_ok ok
    obtain ⟨r, hv, -, -⟩ := accept_view ok
    have hedge := takeWindow_edge (s := s) hv (fun hn => ?_) hnew.1
    · rw [takeWindow_view, hv]
      exact .ack hnew.1 hnew.2 rfl rfl hedge
    · have hn : newerWindow s seg = true := by rwa [hu] at hn
      have := edge.1
      simp only [new, hn, Bool.and_self, Bool.true_and, decide_eq_false_iff_not, Nat.not_lt] at this
      rw [hu]
      exact this
  | updated takes old update =>
    have hle : s.sndWnd ≤ segWnd s seg := by
      have := edge.2
      simp only [update, Bool.true_and, decide_eq_false_iff_not] at this
      exact UInt32.not_lt.mp this
    unfold updateWindow
    split
    · rename_i hr
      exact .reopen rfl rfl rfl (of_decide_eq_true hr).1
    · rename_i hr
      refine .update rfl rfl rfl hle fun hz => ?_
      change segWnd s seg = 0
      by_contra hne
      have hz : s.sndWnd = 0 := hz
      exact hr (by simp [reopens, hz, hne])
  | resent third same first =>
    rw [view_send, SendView.send_again, same.view]
    exact .same rfl rfl rfl rfl

theorem handled_shift {t : Sock} (edge : retracts s seg = false)
    (hm : Handled s seg t) (ht : t.state = .established) :
    s.state = .synSent ∧ t.sndUna = t.sndNxt ∨ s.state = .established ∧ Shift s.view t.view := by
  have hst : t.view.state = .established := ht
  cases hm with
  | quiet same =>
    rw [same.view]
    exact .inr ⟨same.state.symm.trans ht, .same rfl rfl rfl rfl⟩
  | refused hs => cases hst
  | @opened b u _ hs after sent base wire ok view mute =>
    left
    obtain ⟨r, hv, -, -⟩ := accept_view ok
    rw [hv, base] at view
    exact ⟨hs, (congrArg SendView.una view).trans (congrArg SendView.nxt view).symm⟩
  | rejected _ view | flushed _ _ view | aborted _ _ view | closed _ _ _ _ _ _ view =>
    rw [view] at hst
    cases hst
  | processed hs acceptable flag syn rst ack fin reply =>
    right
    have hv := reply_established fin reply ht
    have he : s.state = .established := by
      have hu := (congrArg SendView.state hv).symm.trans hst
      rcases ack.state with hstate | ⟨flags, hstate⟩
      · exact hstate.symm.trans hu
      · rcases next_state_established (hstate.symm.trans hu) with hsyn | hest
        · simp [hsyn, connected, synchronized] at hs
        · exact hest
    rw [hv]
    exact ⟨he, .of_ack he acceptable flag syn edge ack⟩

def Flow (v : SendView) (pc : Pc) : Prop := v.state = .established → pc.window v

theorem Pc.window_connecting (hp : pc.phase = .connecting)
    (h : v.una = v.nxt) : pc.window v := by
  cases pc with
  | transmit k | transmitLocked k | transmitSleep k =>
    cases k with
    | connect => exact h
    | _ => cases hp
  | _ => cases hp

theorem Flow.receive {t : Sock} (h : Flow s.view pc) (hw : Wf s.view pc)
    (edge : retracts s seg = false) (hm : Handled s seg t) : Flow t.view pc := by
  intro ht
  rcases handled_shift edge hm ht with ⟨hs, he⟩ | ⟨hs, hshift⟩
  · exact Pc.window_connecting (hw.connecting hs) he
  · exact Pc.window_shift (h hs) hshift

theorem avail_level (h : s.sndUna = s.sndNxt) : tcpSenderAvailableWindow s = s.sndWnd := by
  unfold tcpSenderAvailableWindow
  rw [h]
  grind

theorem Level.round (h : Level s.view l) (hq : s.txQueue = [])
    {n : Nat} (fits : n ≤ (tcpSenderAvailableWindow s).toNat) : InWindow s.view l n := by
  have hu : s.sndUna = s.sndNxt := h.una
  have hn : s.sndNxt.toNat = l.end := h.nxt
  rw [avail_level hu] at fits
  refine ⟨h.wrap, ?_, ?_, ?_, ?_, .inl ⟨hu, hn⟩⟩
  · change l.end + n ≤ s.sndUna.toNat + s.sndWnd.toNat
    rw [hu]
    omega
  · exact Nat.le_of_eq (congrArg UInt32.toNat hu)
  · exact Nat.le_of_eq hn
  · intro x hx
    rw [show s.view.queue = [] from hq] at hx
    cases hx

theorem InWindow.chunk {mwnd iwnd : Nat} (hl : l.Ok) (lt : iwnd < mwnd)
    (le : l.sent + chunkLen l mwnd ≤ l.msg.length)
    (h : InWindow s.view l (roundRest (min l.mmss.toNat mwnd) (l.msg.length - l.sent) (mwnd - iwnd))) :
    InWindow (queueChunk s l mwnd).view { l with sent := l.sent + chunkLen l mwnd }
      (roundRest (min l.mmss.toNat mwnd) (l.msg.length - (l.sent + chunkLen l mwnd))
        (mwnd - (iwnd + chunkLen l mwnd))) := by
  obtain ⟨x, hv, hseq, hend, hpay⟩ := queueChunk_seq (s := s) hl le h.wrap
  have hround := roundRest_chunk (min l.mmss.toNat mwnd) (l.msg.length - l.sent) (mwnd - iwnd)
    (Nat.sub_pos_of_lt lt)
  have hlen : x.payload.length = chunkLen l mwnd := by
    rw [hpay, length_take, length_drop]
    omega
  have hfits := h.fits
  have hnxt := h.nxt
  have huna := h.una
  have hmore {y : SkBuff} (hy : y.payload ≠ []) : 0 < y.payload.length := length_pos_iff.mpr hy
  change min (min l.mmss.toNat mwnd) (l.msg.length - l.sent) + _ = _ at hround
  rw [show min (min l.mmss.toNat mwnd) (l.msg.length - l.sent) = chunkLen l mwnd from rfl,
    Nat.sub_sub, Nat.sub_sub] at hround
  simp only [SendLocals.end] at hfits hnxt
  rw [hv]
  refine ⟨h.wrap, ?_, huna, ?_, ?_, ?_⟩
  · simp only [SendLocals.end]
    change _ ≤ s.view.una.toNat + s.view.wnd.toNat
    omega
  · simp only [SendLocals.end]
    change s.view.nxt.toNat ≤ _
    omega
  · intro y hy hp
    change s.view.una.toNat ≤ _ ∧ _
    simp only [SendLocals.end]
    rcases mem_append.mp hy with hy | hy
    · obtain ⟨h1, h2, h3⟩ := h.queued y hy hp
      simp only [SendLocals.end] at h2
      exact ⟨h1, by omega, h3⟩
    · obtain rfl := mem_singleton.mp hy
      have := hmore hp
      omega
  · simp only [SendLocals.end]
    by_cases hn : x.payload = []
    · have hz : chunkLen l mwnd = 0 := by simpa [hn] using hlen.symm
      rw [hz, Nat.add_zero]
      rcases h.last with hl | ⟨y, hy, hp, he⟩
      · exact .inl hl
      · exact .inr ⟨y, mem_append_left _ hy, hp, he⟩
    · refine .inr ⟨x, mem_append_right _ (.head _), hn, ?_⟩
      have := hmore hn
      omega

theorem occupies_data {x : SkBuff} (hd : x.IsData) : x.occupies = !x.payload.isEmpty := by
  simp [SkBuff.occupies, hd.syn, hd.fin]

theorem InWindow.send (h : InWindow v l 0) (hl : l.Ok)
    (hx : skb ∈ v.queue) (una : w.una = v.una) (wnd : w.wnd = v.wnd) (queue : w.queue = v.queue)
    (nxt : w.nxt = if skb.payload = [] then v.nxt else skb.endSeq + 1) : InWindow w l 0 := by
  by_cases hp : skb.payload = []
  · rw [if_pos hp] at nxt
    exact h.shift (.same una nxt wnd queue)
  · rw [if_neg hp] at nxt
    obtain ⟨hlo, hhi, -⟩ := h.queued skb hx hp
    have hn : w.nxt.toNat = skb.endSeq.toNat + 1 := by
      have hwrap := h.wrap
      have hsent := hl.sent
      simp only [SendLocals.end] at hhi
      rw [nxt, UInt32.toNat_add, UInt32.toNat_one]
      omega
    refine ⟨h.wrap, by rw [una, wnd]; exact h.fits, ?_, ?_, by rw [queue, una]; exact h.queued, ?_⟩
    · rw [una, hn]
      omega
    · rw [hn]
      exact hhi
    · rw [queue]
      rcases h.last with ⟨he, hl⟩ | hl
      · have := congrArg UInt32.toNat he
        omega
      · exact .inr hl

theorem Flow.transmit {t : Sock} {a : Nat} (h : Flow s.view (.transmitLocked k))
    (hw : Wf s.view (.transmitLocked k)) (avail : 0 < tcpSenderAvailableWindow s)
    (ok : transmitHead s a = .ok t) : Flow t.view (.transmitLocked k) := by
  obtain ⟨skb, hf, -, hv, -⟩ := transmitHead_ok ok
  have hmem : skb ∈ s.view.queue := mem_of_find?_eq_some hf
  have hallow := hw.allows skb hmem
  intro ht
  have hst : nextState s.state skb.flags = .established := (congrArg SendView.state hv).symm.trans ht
  cases k with
  | connect =>
    have hs : s.state = .close ∨ s.state = .synSent := hw.handshake rfl (ne_nil_of_mem hmem)
    rw [hallow.1] at hst
    rcases hs with hs | hs <;> rw [hs] at hst <;> cases hst
  | shutdown => trivial
  | probe l =>
    have hd : skb.IsData := hallow.1
    obtain ⟨hl, hz⟩ : Level s.view l ∧ (s.view.queue ≠ [] → s.view.wnd = 0) := by
      refine h ((next_state_data hd fun hs => ?_).symm.trans hst)
      cases hw.connecting hs
    have hz : s.sndWnd = 0 := hz (ne_nil_of_mem hmem)
    rw [avail_level hl.una, hz] at avail
    cases avail
  | chunks l =>
    have hd : skb.IsData := hallow
    have hin : InWindow s.view l 0 := by
      refine h ((next_state_data hd fun hs => ?_).symm.trans hst)
      cases hw.connecting hs
    refine hin.send (hw.locals l rfl) hmem ?_ ?_ ?_ ?_
    · rw [hv]
      rfl
    · rw [hv]
      rfl
    · rw [hv]
      rfl
    · rw [hv]
      change (if activedSend skb false then skb.endSeq + 1 else s.sndNxt) = _
      rw [activedSend_eq, occupies_data hd]
      by_cases hp : skb.payload = [] <;> simp [hp, Sock.view]

theorem Flow.transmitReturn {s : Sys} (h : Flow s.sk.view (.transmit k))
    (empty : s.sk.txQueue = []) : Flow (transmitReturn s k).sk.view (transmitReturn s k).pc := by
  cases k with
  | connect => exact h
  | probe l =>
    intro hs
    have hin : InWindow s.sk.view l 0 := (h hs).1.round empty (Nat.zero_le _)
    exact hin.shift (.same rfl rfl rfl rfl)
  | chunks l =>
    intro hs
    have hin : InWindow s.sk.view l 0 := h hs
    rcases hin.last with ⟨hu, hn⟩ | ⟨x, hx, -⟩
    · exact ⟨hin.wrap, hu, hn⟩
    · rw [show s.sk.view.queue = [] from empty] at hx
      cases hx
  | shutdown => exact fun _ => trivial

theorem Flow.resend (h : Flow v pc) (hw : Wf v pc)
    (hx : skb ∈ v.queue) (same : (w.state, w.una, w.nxt, w.wnd, w.queue) =
      (nextState v.state skb.flags, v.una, v.nxt, v.wnd, v.queue)) : Flow w pc := by
  simp only [Prod.mk.injEq] at same
  obtain ⟨state, una, nxt, wnd, queue⟩ := same
  intro hs
  refine Pc.window_shift (h ?_) (.same una nxt wnd queue)
  rw [state] at hs
  rcases next_state_established hs with he | he
  · exact absurd hs (by rw [hw.handshake_send hx he]; decide)
  · exact he

theorem Flow.moves {s t : Sys} {e : Event} (h : Flow s.sk.view s.pc) (hw : Wf s.sk.view s.pc)
    (ok : staysInWindow s e = true) (hm : Moves s e t) : Flow t.sk.view t.pc := by
  cases hm with
  | refused hp => exact h
  | connect seed hp => exact nofun
  | sendmsg msg hp short =>
    rw [hp] at h
    intro hs
    have hwrap : s.sk.sndNxt.toNat + msg.length < 2 ^ 32 := of_decide_eq_true ok
    exact ⟨hwrap, h hs, rfl⟩
  | recvmsg n hp =>
    rw [hp] at h
    exact h
  | shutdown hp => exact fun _ => trivial
  | sendReturn hp =>
    rw [hp] at h
    exact fun hs => (h hs).una
  | probe hp more hs ok' =>
    obtain ⟨hu, hz, rfl⟩ := queueProbe_ok ok'
    rw [hp] at h
    exact fun _ => ⟨⟨(h hs).wrap, hu, (h hs).nxt⟩, fun _ => hz⟩
  | @round l hp more hs pos =>
    rw [hp] at h hw
    have hfits : roundLen l (sendWindow s.sk l) ≤ (tcpSenderAvailableWindow s.sk).toNat := by
      simpa [staysInWindow, hp, hs] using ok
    exact fun _ => (h hs).round (hw.no_queue nofun) hfits
  | chunk hp lt le =>
    rw [hp] at h hw
    exact fun hs => InWindow.chunk (hw.locals _ rfl) lt le (h hs)
  | chunksDone hp =>
    rw [hp] at h
    intro hs
    have hin := h hs
    exact ⟨hin.wrap, Nat.le_trans (Nat.le_add_right _ _) hin.fits, hin.una, hin.nxt, hin.queued,
      hin.last⟩
  | transmitReturn hp empty => exact Flow.transmitReturn (hp ▸ h) empty
  | lock hp | awake hp | sleep hp | recvReturn hp | recvAwake hp | recvWait hp =>
    rw [hp] at h
    exact h
  | transmit hp head avail ok' =>
    rw [hp] at h hw
    change Flow _ s.pc
    rw [hp]
    exact h.transmit hw avail ok'
  | shutdownReturn hp hs =>
    intro he
    have := hs.symm.trans he
    cases this
  | shutdownAwake hp | shutdownWait hp => exact fun _ => trivial
  | receive unlocked ok' =>
    exact h.receive hw (by simpa [staysInWindow] using ok) (handler_handled hw.reached ok')
  | retransmitTimer unlocked armed ok' =>
    obtain ⟨skb, rest, n, hq, -, hv, -⟩ := retransmit_ok ok'
    change Flow _ s.pc
    rw [hv]
    exact h.resend hw (first_mem hq) rfl
  | persistTimer unlocked armed ok' =>
    rcases persist_ok ok' with ⟨-, hv, -⟩ | ⟨-, skb, rest, n, hq, -, hv, -⟩
    · change Flow _ s.pc
      rw [hv]
      exact fun hs => Pc.window_shift (h hs) (.same rfl rfl rfl rfl)
    · change Flow _ s.pc
      rw [hv]
      exact h.resend hw (first_mem hq) rfl
  | mslTimer unlocked armed ok' =>
    obtain ⟨-, hv, -⟩ := msl_ok ok'
    intro hs
    have := (congrArg SendView.state hv).symm.trans hs
    cases this
  | tick | wake => exact h

/-- On an open connection what is sent stays in the window. -/
theorem Flow.run {s : Sys} (run : Run advance (fun a e => staysInWindow a e = true) {} s) :
    Flow s.sk.view s.pc := by
  refine (run.invariant (I := fun s => Flow s.sk.view s.pc ∧ Wf s.sk.view s.pc) ?_ ?_).1
  · exact ⟨nofun, Wf.start⟩
  · intro a e b ⟨ha, hwa⟩ hok hb
    have hm := moves_of_advance hb
    exact ⟨ha.moves hwa hok hm, hwa.moves hm⟩

theorem transmitLocked_sends {s t : Sys} (hp : s.pc = .transmitLocked k)
    (hm : Moves s .app t) (sent : t.sk.wire = skb :: s.sk.wire) :
    skb ∈ s.sk.view.queue ∧ 0 < tcpSenderAvailableWindow s.sk := by
  cases hm with
  | transmit hp' head avail ok =>
    obtain ⟨x, hf, -, -, hwire⟩ := transmitHead_ok ok
    obtain rfl := (List.cons.inj (hwire.symm.trans sent)).1
    exact ⟨mem_of_find?_eq_some hf, avail⟩
  | sleep => exact absurd sent.symm (cons_ne_self _ _)
  | refused hp' | sendReturn hp' | probe hp' | round hp' | chunk hp' | chunksDone hp'
  | transmitReturn hp' | lock hp' | awake hp' | recvReturn hp' | recvWait hp' | recvAwake hp'
  | shutdownReturn hp' | shutdownWait hp' | shutdownAwake hp' =>
    rw [hp] at hp'
    cases hp'

/-- Every byte `tcp_transmit` sends on an open connection lies below the right
edge of the peer's window, in every run whose rounds of whole chunks do. -/
theorem transmit_stays_in_window {s t : Sys} {k : Caller} {skb : SkBuff}
    (run : Run advance (fun a e => staysInWindow a e = true) {} s) (hp : s.pc = .transmitLocked k)
    (hs : s.sk.state = .established) (next : advance s .app = some t)
    (sent : t.sk.wire = skb :: s.sk.wire) :
    ∀ i < skb.payload.length, skb.seq.toNat + i < s.sk.sndUna.toNat + s.sk.sndWnd.toNat := by
  have hw := Wf.run run
  have hf := Flow.run run hs
  obtain ⟨hx, avail⟩ := transmitLocked_sends hp (moves_of_advance next) sent
  rw [hp] at hw hf
  have hallow := hw.allows skb hx
  intro i hi
  cases k with
  | connect =>
    rcases hw.handshake rfl (ne_nil_of_mem hx) with hc | hc <;> cases hs.symm.trans hc
  | shutdown =>
    rw [hallow.2.1] at hi
    cases hi
  | probe l =>
    obtain ⟨hl, hz⟩ := hf
    have hz : s.sk.sndWnd = 0 := hz (ne_nil_of_mem hx)
    rw [avail_level hl.una, hz] at avail
    cases avail
  | chunks l =>
    have hin : InWindow s.sk.view l 0 := hf
    obtain ⟨-, hhi, hlen⟩ := hin.queued skb hx (length_pos_iff.mp (Nat.zero_lt_of_lt hi))
    have hfits := hin.fits
    change l.end + 0 ≤ s.sk.sndUna.toNat + s.sk.sndWnd.toNat at hfits
    omega

theorem transmit_stays_in_window_four : ∃ s t, ∃ skb : SkBuff,
    Run advance (fun a e => staysInWindow a e = true) {} s ∧ s.sk.state = .established ∧
    advance s .app = some t ∧ t.sk.wire = skb :: s.sk.wire ∧ skb.payload = [3, 4] ∧
    ∀ i < skb.payload.length, skb.seq.toNat + i < s.sk.sndUna.toNat + s.sk.sndWnd.toNat := by
  obtain ⟨s, run, ⟨hp, hs⟩, hnext⟩ := replay_reaches advance (fun a e => staysInWindow a e = true) {}
    (opening smallPeer ++ .sendmsg [1, 2, 3, 4] :: List.replicate 6 .app)
    (P := fun s => (s.pc = .transmitLocked (.chunks ⟨[1, 2, 3, 4], 2, 476707714, 4⟩) ∧
        s.sk.state = .established) ∧
      (advance s .app).any (fun t => decide (t.sk.wire.tail = s.sk.wire ∧
        t.sk.wire.head?.map SkBuff.payload = some [3, 4])) = true) (by decide)
  obtain ⟨t, next, ht⟩ := (Option.any_eq_true _ _).mp hnext
  obtain ⟨htail, hhead⟩ := of_decide_eq_true ht
  obtain ⟨skb, hskb, hpay⟩ := Option.map_eq_some_iff.mp hhead
  have sent : t.sk.wire = skb :: s.sk.wire := htail ▸ eq_cons_of_mem_head? hskb
  exact ⟨s, t, skb, run, hs, next, sent, hpay, transmit_stays_in_window run hp hs next sent⟩

/-- A peer with segments of four bytes and a window of six gets all eight bytes
of a message at once: the second chunk is not cut to the window. -/
theorem transmit_overshoots_window : ∃ s t, ∃ skb : SkBuff,
    Run advance (fun a e => edgeKept a e = true) {} s ∧ s.sk.state = .established ∧
    advance s .app = some t ∧ t.sk.wire = skb :: s.sk.wire ∧
    ¬ ∀ i < skb.payload.length, skb.seq.toNat + i < s.sk.sndUna.toNat + s.sk.sndWnd.toNat := by
  obtain ⟨s, run, ⟨hs, hu, hz⟩, hnext⟩ := replay_reaches advance (fun a e => edgeKept a e = true) {}
    (opening { synAck 6 with options := [2, 4, 0, 4], fits := by decide } ++
      .sendmsg [1, 2, 3, 4, 5, 6, 7, 8] :: List.replicate 6 .app)
    (P := fun s => (s.sk.state = .established ∧ s.sk.sndUna = 476707714 ∧ s.sk.sndWnd = 6) ∧
      (advance s .app).any (fun t => decide (t.sk.wire.tail = s.sk.wire ∧ t.sk.wire.head?.map
        (fun x => (x.seq, x.payload.length)) = some (476707718, 4))) = true) (by decide)
  obtain ⟨t, next, ht⟩ := (Option.any_eq_true _ _).mp hnext
  obtain ⟨htail, hhead⟩ := of_decide_eq_true ht
  obtain ⟨skb, hskb, hpay⟩ := Option.map_eq_some_iff.mp hhead
  obtain ⟨hseq, hlen⟩ := Prod.mk.inj hpay
  refine ⟨s, t, skb, run, hs, next, htail ▸ eq_cons_of_mem_head? hskb, fun hall => ?_⟩
  have := hall 2 (by rw [hlen]; decide)
  rw [hu, hz, hseq] at this
  revert this
  decide

end Mos.Tcp

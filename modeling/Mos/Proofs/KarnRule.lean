import Mos.Proofs.CloseHandshake
import Mos.Proofs.NextNumber
import Mos.Proofs.Segmentation
import Mos.Proofs.Timers

namespace Mos.Tcp
open Machine List

/-! ### What is queued takes up sequence numbers -/

/-- Every queued buffer takes up sequence numbers. With a maximal segment size of 0 the
chunks are empty, but then the loop that cuts them never ends. -/
structure Carried (q : List SkBuff) (pc : Pc) : Prop where
  full : (∀ x ∈ q, x.occupies = true) ∨
    ∃ l mwnd iwnd, pc = .sendChunk l mwnd iwnd ∧ l.mmss.toNat = 0 ∧ iwnd < mwnd
  room : ∀ l mwnd iwnd, pc = .sendChunk l mwnd iwnd → mwnd + l.sent ≤ l.msg.length + iwnd

variable {q : List SkBuff} {pc : Pc} {x : SkBuff} {s u t : Sock} {e : Event} {v : SendView}
    {seg : Segment} {timed : Option SkBuff}

theorem Carried.sub {q' : List SkBuff} (h : Carried q pc) (sub : q'.Sublist q) :
    Carried q' pc :=
  ⟨h.full.imp_left fun hf x hx => hf x (sub.subset hx), h.room⟩

theorem Carried.same {q' : List SkBuff} (h : Carried q pc) (eq : q' = q) : Carried q' pc :=
  eq ▸ h

theorem Carried.of_full (hp : pc.cutting = false)
    (hf : ∀ x ∈ q, x.occupies = true) : Carried q pc := by
  refine ⟨.inl hf, ?_⟩
  rintro l mwnd iwnd rfl
  cases hp

theorem Carried.all (h : Carried q pc) (hp : pc.cutting = false) :
    ∀ x ∈ q, x.occupies = true := by
  rcases h.full with hf | ⟨l, mwnd, iwnd, rfl, -⟩
  · exact hf
  · cases hp

theorem occupies_of_payload (h : 0 < x.payload.length) : x.occupies = true := by
  have : x.payload ≠ [] := ne_nil_of_length_pos h
  simp [SkBuff.occupies, this]

theorem Carried.chunk {l : SendLocals} {mwnd iwnd : Nat}
    (h : Carried s.txQueue (.sendChunk l mwnd iwnd)) (lt : iwnd < mwnd) (short : l.mmss.toNat < 65536) :
    Carried (queueChunk s l mwnd).txQueue
      (.sendChunk { l with sent := l.sent + chunkLen l mwnd } mwnd (iwnd + chunkLen l mwnd)) := by
  have left := h.room l mwnd iwnd rfl
  refine ⟨?_, ?_⟩
  · rcases Nat.eq_zero_or_pos l.mmss.toNat with hz | pos
    · right
      refine ⟨_, mwnd, _, rfl, hz, ?_⟩
      unfold chunkLen
      omega
    · left
      obtain ⟨x, hq, -, hpay, -⟩ := queueChunk_payload s mwnd short
      have hc := chunkLen_pos pos lt left
      have hall : ∀ y ∈ s.txQueue, y.occupies = true := by
        rcases h.full with hf | ⟨_, _, _, he, hz, -⟩
        · exact hf
        · obtain ⟨rfl, -, -⟩ := Pc.sendChunk.inj he
          omega
      intro y hy
      rw [hq] at hy
      rcases mem_append.mp hy with hy | hy
      · exact hall y hy
      · obtain rfl := mem_singleton.mp hy
        apply occupies_of_payload
        rw [hpay, length_take, length_drop]
        omega
  · rintro _ _ _ ⟨⟩
    dsimp only
    omega

/-- No move queues a buffer without sequence numbers. -/
theorem Carried.step {s t : Sys} (h : Carried s.sk.txQueue s.pc) (hw : Wf s.sk.view s.pc)
    (hm : Moves s e t) : Carried t.sk.txQueue t.pc := by
  have add {x : SkBuff} (hp : s.pc.cutting = false) (hx : x.occupies = true) :
      ∀ y ∈ s.sk.txQueue ++ [x], y.occupies = true := by
    intro y hy
    rcases mem_append.mp hy with hy | hy
    · exact h.all hp y hy
    · exact mem_singleton.mp hy ▸ hx
  cases hm with
  | refused hp => exact h
  | connect seed hp | shutdown hp =>
    exact .of_full rfl (add (by rw [hp]; rfl) (by simp [SkBuff.occupies, tcpCreateSkb]))
  | probe hp more hs ok =>
    obtain ⟨-, -, rfl⟩ := queueProbe_ok ok
    refine .of_full rfl (add (by rw [hp]; rfl) (occupies_of_payload ?_))
    simp only [tcpCreateSkb, length_take, length_drop]
    omega
  | round hp more hs pos =>
    refine ⟨.inl (h.all (by rw [hp]; rfl)), ?_⟩
    rintro _ _ _ ⟨⟩
    unfold sendWindow
    omega
  | chunk hp lt le =>
    have hl := (hw.locals _ (by rw [hp]; rfl)).mmss
    exact Carried.chunk (hp ▸ h) lt (by omega)
  | chunksDone hp ge =>
    refine .of_full rfl ?_
    rcases h.full with hf | ⟨_, _, _, he, -, lt⟩
    · exact hf
    · obtain ⟨-, rfl, rfl⟩ := Pc.sendChunk.inj (hp.symm.trans he)
      omega
  | @transmitReturn k hp empty =>
    cases k <;> exact .of_full rfl (h.all (by rw [hp]; rfl))
  | transmit hp head avail ok =>
    obtain ⟨x, -, -, hv, -⟩ := transmitHead_ok ok
    exact h.same (congrArg SendView.queue hv)
  | receive unlocked ok => exact h.sub (handler_handled hw.reached ok).framed.queue
  | retransmitTimer unlocked armed ok =>
    obtain ⟨x, rest, n, -, -, hv, -⟩ := retransmit_ok ok
    exact h.same (congrArg SendView.queue hv)
  | persistTimer unlocked armed ok =>
    rcases persist_ok ok with ⟨-, hv, -⟩ | ⟨-, x, rest, n, -, -, hv, -⟩
    · exact h.same (congrArg SendView.queue hv)
    · exact h.same (congrArg SendView.queue hv)
  | mslTimer unlocked armed ok =>
    obtain ⟨-, hv, -⟩ := msl_ok ok
    exact h.same (congrArg SendView.queue hv)
  | tick | wake => exact h
  | sendmsg _ hp | recvmsg _ hp | sendReturn hp | lock hp | sleep hp | awake hp | recvReturn hp
  | recvWait hp | recvAwake hp | shutdownReturn hp | shutdownWait hp | shutdownAwake hp =>
    exact .of_full rfl (h.all (by rw [hp]; rfl))

/-! ### FINs on the wire -/

/-- No FIN has been sent on a connection that is open, or being opened. -/
def FinFree (v : SendView) (wire : List SkBuff) (pc : Pc) : Prop :=
  v.state = .established ∨ v.state = .closeWait ∨ pc.phase = .connecting ∧ v.queue ≠ [] →
    ∀ x ∈ wire, x.flags.fin = false

theorem FinFree.send {wire : List SkBuff}
    (h : FinFree v wire pc) (hw : Wf v pc) (hx : x ∈ v.queue) :
    FinFree { v with state := nextState v.state x.flags } (x :: wire) pc := by
  intro hopen
  rcases hw.queued hx with ⟨hp, hf, -⟩ | ⟨-, hd, hn⟩ | ⟨hp, hf⟩
  · exact no_fin_cons (by rw [hf]) (h (.inr (.inr ⟨hp, ne_nil_of_mem hx⟩)))
  · rw [hn] at hopen
    exact no_fin_cons hd.fin (h hopen)
  · rcases hopen with he | he | ⟨hc, -⟩
    · rw [hf] at he
      cases hs : v.state <;> simp [hs, nextState] at he
    · rw [hf] at he
      cases hs : v.state <;> simp [hs, nextState] at he
    · rw [hp] at hc
      cases hc

theorem FinFree.same {w : SendView} {wire wire' : List SkBuff} (h : FinFree v wire pc)
    (mute : Mute wire wire')
    (still : w.state = .established ∨ w.state = .closeWait ∨ pc.phase = .connecting ∧ w.queue ≠ [] →
      v.state = .established ∨ v.state = .closeWait ∨ pc.phase = .connecting ∧ v.queue ≠ []) :
    FinFree w wire' pc :=
  fun hopen => mute.no_fin (h (still hopen))

theorem AckMove.fin_free {w : Sock} (ack : AckMove s seg u) (fin : FinMove u w)
    (hs : connected s.state = true) (hw : w.state = .established ∨ w.state = .closeWait)
    (free : ∀ x ∈ s.wire, x.flags.fin = false) : ∀ x ∈ w.wire, x.flags.fin = false := by
  have hws := ack.open_state fin hs hw
  obtain ⟨same, hu⟩ : Quiet u w ∧ u.state = s.state := by
    cases fin with
    | idle same => exact ⟨same, same.state.symm.trans hws⟩
    | finWait2 | timeWait => simp at hw
  apply same.wire.no_fin
  cases ack with
  | idle quiet => exact quiet.wire.no_fin free
  | accepted takes new ok =>
    obtain ⟨-, r, rto, srtt, rttvar, rfl, -⟩ := accept_ok ok
    unfold takeWindow
    split <;> exact free
  | updated takes old update =>
    unfold updateWindow
    split <;> exact free
  | @resent r skb rest third quiet first =>
    refine no_fin_cons ?_ (quiet.wire.no_fin free)
    by_contra hf
    have hn : nextState s.state skb.flags = s.state := quiet.state ▸ hu
    rw [hws] at hw
    rcases hw with hw | hw <;> simp [hw, nextState, hf] at hn

theorem FinFree.handled (h : FinFree s.view s.wire pc)
    (hw : Wf s.view pc) (hm : Handled s seg t) : FinFree t.view t.wire pc := by
  have hsub := hm.framed.queue
  cases hm with
  | quiet same =>
    refine h.same same.wire ?_
    rw [same.view]
    exact id
  | rejected hs view mute =>
    refine h.same mute ?_
    rw [view]
    rintro (he | he | he)
    · cases he
    · cases he
    · exact .inr (.inr he)
  | refused hs =>
    refine h.same (.refl _) ?_
    rintro (he | he | he)
    · cases he
    · cases he
    · exact .inr (.inr he)
  | @opened b u _ hs after sent base wire ok view mute =>
    have hb : u.wire = s.wire := by
      obtain ⟨-, r, rto, srtt, rttvar, rfl, -⟩ := accept_ok ok
      exact wire
    intro _
    exact (hb ▸ mute).no_fin (h (.inr (.inr ⟨hw.connecting hs, hw.syn hs⟩)))
  | flushed hs why view mute =>
    rw [view]
    rintro (he | he | ⟨-, he⟩)
    · cases he
    · cases he
    · exact absurd rfl he
  | aborted hs why view mute =>
    refine h.same mute ?_
    rw [view]
    rintro (he | he | he)
    · cases he
    · cases he
    · exact .inr (.inr he)
  | closed hs acceptable flag syn rst finAcked view mute =>
    refine h.same mute ?_
    rw [view]
    rintro (he | he | he)
    · cases he
    · cases he
    · exact .inr (.inr he)
  | @processed u w _ hs acceptable flag syn rst ack fin reply =>
    rintro hopen
    have hno : ¬ (pc.phase = .connecting ∧ t.view.queue ≠ []) := by
      rintro ⟨hp, hq⟩
      refine hq (eq_nil_of_sublist_nil ?_)
      rw [← hw.empty hs hp]
      exact hsub
    have hopen : t.state = .established ∨ t.state = .closeWait := by
      rcases hopen with he | he | he
      · exact .inl he
      · exact .inr he
      · exact absurd he hno
    have free (hws : w.state = .established ∨ w.state = .closeWait) :
        ∀ x ∈ w.wire, x.flags.fin = false := by
      refine ack.fin_free fin hs hws (h ?_)
      have := ack.open_state fin hs hws
      rcases hws with he | he
      · exact .inl (this.symm.trans he)
      · exact .inr (.inl (this.symm.trans he))
    cases reply with
    | quiet same => exact same.wire.no_fin (free (same.state ▸ hopen))
    | passive _ hws _ view mute => exact mute.no_fin (free (.inl hws))
    | answered _ _ _ _ view | closing _ _ view | timeWait _ _ view =>
      have hst := congrArg SendView.state view
      change t.state = _ at hst
      simp [hst] at hopen
    | again _ hws view =>
      have hst := congrArg SendView.state view
      change t.state = w.state at hst
      simp [hst, hws] at hopen

/-- A move sends no FIN on a connection that is open. -/
theorem FinFree.step {s t : Sys} (h : FinFree s.sk.view s.sk.wire s.pc)
    (hw : Wf s.sk.view s.pc) (hm : Moves s e t) : FinFree t.sk.view t.sk.wire t.pc := by
  have goto {pc : Pc} {v : SendView} (state : v.state = s.sk.state) (hp : pc.phase ≠ .connecting) :
      FinFree v s.sk.wire pc := by
    rintro (he | he | ⟨he, -⟩)
    · exact h (.inl (state.symm.trans he))
    · exact h (.inr (.inl (state.symm.trans he)))
    · exact absurd he hp
  cases hm with
  | refused hp => exact h
  | connect seed hp => exact fun _ => forall_mem_nil _
  | lock hp | sleep hp | awake hp =>
    rw [hp] at h
    exact h
  | transmit hp head avail ok =>
    obtain ⟨x, hf, -, hv, hwire⟩ := transmitHead_ok ok
    have hx := h.send hw (mem_of_find?_eq_some hf)
    rw [hv, hwire]
    exact hx
  | receive unlocked ok => exact h.handled hw (handler_handled hw.reached ok)
  | retransmitTimer unlocked armed ok =>
    obtain ⟨x, rest, n, hq, -, hv, hwire⟩ := retransmit_ok ok
    have hx := h.send hw (first_mem hq)
    rw [hv, hwire]
    exact hx
  | persistTimer unlocked armed ok =>
    rcases persist_ok ok with ⟨-, hv, hwire⟩ | ⟨-, x, rest, n, hq, -, hv, hwire⟩
    · rw [hv, hwire]
      exact h
    · have hx := h.send hw (first_mem hq)
      rw [hv, hwire]
      exact hx
  | mslTimer unlocked armed ok =>
    obtain ⟨-, hv, hwire⟩ := msl_ok ok
    rw [hv, hwire]
    rintro (he | he | he)
    · cases he
    · cases he
    · exact h (.inr (.inr he))
  | tick | wake => exact h
  | probe hp more hs ok =>
    obtain ⟨-, -, rfl⟩ := queueProbe_ok ok
    exact goto rfl (by simp [Pc.phase, Caller.phase])
  | @transmitReturn k hp empty =>
    cases k <;> exact goto rfl (by simp [transmitReturn, Pc.phase, Caller.phase])
  | sendmsg _ hp | recvmsg _ hp | shutdown hp | sendReturn hp | round hp | chunk hp | chunksDone hp
  | recvReturn hp | recvWait hp | recvAwake hp | shutdownReturn hp | shutdownWait hp
  | shutdownAwake hp => exact goto rfl (by simp [Pc.phase, Caller.phase, recvReturn])

/-! ### Round-trip samples -/

def takesSample (s : Sock) (ackNumber : UInt32) : Bool :=
  s.rttTime != 0 && s.rttEndSeq < ackNumber

/-- The system, with the segment whose transmission started the measurement that is going
on. -/
structure Timing where
  sys : Sys
  timed : Option SkBuff

def timeStep (s : Timing) (e : Event) : Option Timing :=
  (advance s.sys e).map fun t => ⟨t, if s.sys.sk.rttTime = 0 then t.sk.wire.head? else s.timed⟩

def Once (v : SendView) (wire : List SkBuff) (timed : Option SkBuff) : Prop :=
  v.rttTime ≠ 0 →
    ∃ x, timed = some x ∧ x.endSeq = v.rttEnd ∧ x.occupies = true ∧ wire.count x = 1

/-- From `s` to `t` no measurement starts, and while one goes on nothing that could be its
segment is sent. -/
structure Untouched (s t : Sock) : Prop where
  rtt : t.rttTime ≠ 0 → s.rttTime ≠ 0 ∧ t.rttEndSeq = s.rttEndSeq
  count : t.rttTime ≠ 0 → ∀ x ∈ s.wire, x.occupies = true → x.endSeq = s.rttEndSeq →
    t.wire.count x = s.wire.count x

theorem Untouched.trans (h : Untouched s t) (k : Untouched t u) : Untouched s u := by
  constructor
  · intro hu
    obtain ⟨ht, he⟩ := k.rtt hu
    obtain ⟨hs, he'⟩ := h.rtt ht
    exact ⟨hs, he.trans he'⟩
  · intro hu x hx ho hend
    obtain ⟨ht, -⟩ := k.rtt hu
    have hc := h.count ht x hx ho hend
    have hxt : x ∈ t.wire := by
      rw [← count_pos_iff, hc]
      exact count_pos_iff.mpr hx
    exact (k.count hu x hxt ho (hend.trans (h.rtt ht).2.symm)).trans hc

theorem Mute.count {w w' : List SkBuff} (h : Mute w w') (ho : x.occupies = true) :
    w'.count x = w.count x := by
  obtain ⟨l, rfl, hl⟩ := h
  have : l.count x = 0 := by
    rw [count_eq_zero]
    intro hx
    rw [hl x hx] at ho
    cases ho
  rw [count_append, this, Nat.zero_add]

theorem Untouched.of_mute (time : t.rttTime = s.rttTime ∨ t.rttTime = 0)
    (last : t.rttEndSeq = s.rttEndSeq) (mute : Mute s.wire t.wire) : Untouched s t := by
  constructor
  · intro ht
    rcases time with he | he
    · exact ⟨he ▸ ht, last⟩
    · exact absurd he ht
  · intro _ x _ ho _
    exact mute.count ho

theorem Untouched.stopped (h : t.rttTime = 0) : Untouched s t :=
  ⟨absurd h, absurd h⟩

theorem Quiet.untouched (h : Quiet s t) : Untouched s t :=
  .of_mute (.inl (congrArg SendView.rttTime h.view)) (congrArg SendView.rttEnd h.view) h.wire

theorem accept_untouched {a : UInt32} {all : Bool} (ok : tcpAcceptAck s a all = .ok t) :
    Untouched s t := by
  obtain ⟨-, r, rto, srtt, rttvar, rfl, -⟩ := accept_ok ok
  refine .of_mute ?_ rfl (.refl _)
  by_cases hs : s.rttTime ≠ 0 ∧ s.rttEndSeq < a
  · exact .inr (if_pos hs)
  · exact .inl (if_neg hs)

theorem Untouched.resend {y : SkBuff} (time : t.rttTime = s.rttTime)
    (last : t.rttEndSeq = s.rttEndSeq) (wire : t.wire = y :: s.wire)
    (other : s.rttTime ≠ 0 → y.endSeq ≠ s.rttEndSeq) : Untouched s t := by
  refine ⟨fun ht => ⟨time ▸ ht, last⟩, ?_⟩
  intro ht x hx ho hend
  rw [wire, count_cons_of_ne]
  rintro rfl
  exact other (time ▸ ht) hend

def timesHead (s : Sock) : Bool :=
  s.rttTime != 0 && s.txQueue.head?.any fun x => x.endSeq == s.rttEndSeq

theorem timesHead_first {rest : List SkBuff} (h : timesHead s = false)
    (hq : s.txQueue = x :: rest) (hr : s.rttTime ≠ 0) : x.endSeq ≠ s.rttEndSeq := by
  simpa [timesHead, hq, hr] using h

theorem AckMove.untouched (h : AckMove s seg u)
    (resend : fastRetransmits s seg = true → timesHead s = false) : Untouched s u := by
  cases h with
  | idle same => exact same.untouched
  | accepted takes new ok =>
    have hu := accept_untouched ok
    unfold takeWindow
    split
    · exact ⟨hu.rtt, hu.count⟩
    · exact ⟨hu.rtt, hu.count⟩
  | updated takes old update =>
    unfold updateWindow
    split
    · exact .of_mute (.inl rfl) rfl (.refl _)
    · exact .of_mute (.inl rfl) rfl (.refl _)
  | @resent r skb rest third same first =>
    refine same.untouched.trans (.resend rfl rfl rfl fun hr => ?_)
    have ht : r.rttTime = s.rttTime := congrArg SendView.rttTime same.view
    have hl : r.rttEndSeq = s.rttEndSeq := congrArg SendView.rttEnd same.view
    rw [hl]
    exact timesHead_first (resend third) first (ht ▸ hr)

theorem FinMove.untouched (h : FinMove s t) : Untouched s t := by
  cases h with
  | idle same => exact same.untouched
  | finWait2 | timeWait => exact .of_mute (.inl rfl) rfl (.refl _)

theorem untouched_of_view (h : t.view = v) (time : v.rttTime = s.rttTime)
    (last : v.rttEnd = s.rttEndSeq) (mute : Mute s.wire t.wire) : Untouched s t :=
  .of_mute (.inl ((congrArg SendView.rttTime h).trans time)) ((congrArg SendView.rttEnd h).trans last) mute

theorem ReplyMove.untouched (h : ReplyMove s seg t)
    (free : s.state = .established ∨ s.state = .closeWait → ∀ x ∈ s.wire, x.flags.fin = false) :
    Untouched s t := by
  cases h with
  | quiet same => exact same.untouched
  | passive _ _ _ view mute | closing _ _ view mute | timeWait _ _ view mute | again _ _ view mute =>
    exact untouched_of_view view rfl rfl mute
  | @answered x r w fin hs isFin armed view mute wire =>
    have hopen : s.state = .established ∨ s.state = .closeWait := hs.imp_left And.left
    refine ⟨fun ht => ?_, fun ht y hy ho hend => ?_⟩
    · have hv := congrArg SendView.rttTime view
      exact ⟨fun hz => ht (hv.trans hz), congrArg SendView.rttEnd view⟩
    · rw [wire, count_cons_of_ne]
      · exact mute.count ho
      · rintro rfl
        have := free hopen x hy
        rw [isFin.flags] at this
        cases this

theorem Handled.untouched (h : Handled s seg t)
    (free : FinFree s.view s.wire pc) (resend : resendsFirst s seg = true → timesHead s = false) :
    Untouched s t := by
  cases h with
  | quiet same => exact same.untouched
  | refused hs => exact .stopped rfl
  | rejected _ view mute | flushed _ _ view mute | aborted _ _ view mute
  | closed _ _ _ _ _ _ view mute => exact untouched_of_view view rfl rfl mute
  | @opened b u _ hs after sent base wire ok view mute =>
    have hb : Untouched s b := untouched_of_view base rfl rfl (wire ▸ .refl _)
    exact hb.trans ((accept_untouched ok).trans (untouched_of_view view rfl rfl mute))
  | @processed u w _ hs acceptable flag syn rst ack fin reply =>
    have hu := ack.untouched fun hf => resend (by simp [resendsFirst, acceptable, flag, hf])
    refine hu.trans (fin.untouched.trans (reply.untouched fun hw => ?_))
    refine ack.fin_free fin hs hw (free ?_)
    have := ack.open_state fin hs hw
    rcases hw with he | he
    · exact .inl (this.symm.trans he)
    · exact .inr (.inl (this.symm.trans he))

def unsent (s : Sock) (h : Nat) : Bool :=
  (s.txQueue.find? (fun x => x.addr == h)).all fun x => !s.wire.contains x

/-- `tcp_transmit` sends nothing again, and what the persist timer and fast retransmit send
again is not being timed. -/
def timesOnce (s : Sys) : Event → Bool
  | .app =>
    match s.pc, s.sk.sendHead with
    | .transmitLocked _, some h => tcpSenderAvailableWindow s.sk == 0 || unsent s.sk h
    | _, _ => true
  | .persistTimer => s.sk.sndWnd != 0 || !timesHead s.sk
  | .receive seg _ => !resendsFirst s.sk seg || !timesHead s.sk
  | _ => true

theorem Once.untouched {next : Option SkBuff} (h : Once s.view s.wire timed)
    (hu : Untouched s t) (same : s.rttTime ≠ 0 → next = timed) : Once t.view t.wire next := by
  intro ht
  obtain ⟨hs, hlast⟩ := hu.rtt ht
  obtain ⟨x, rfl, hend, ho, hc⟩ := h hs
  have hx : x ∈ s.wire := count_pos_iff.mp (by omega)
  refine ⟨x, same hs, hend.trans hlast.symm, ho, ?_⟩
  exact (hu.count ht x hx ho hend).trans hc

theorem Once.transmit {a : Nat}
    (h : Once s.view s.wire timed) (carried : Carried s.txQueue pc) (hp : pc.cutting = false)
    (fresh : unsent s a = true) (ok : transmitHead s a = .ok t) :
    Once t.view t.wire (if s.rttTime = 0 then t.wire.head? else timed) := by
  obtain ⟨y, hf, -, hv, hwire⟩ := transmitHead_ok ok
  have hy : y ∉ s.wire := by simpa [unsent, hf] using fresh
  intro _
  rw [hv, hwire]
  by_cases hz : s.rttTime = 0
  · refine ⟨y, by simp [hz], by simp [hz], carried.all hp y (mem_of_find?_eq_some hf), ?_⟩
    rw [count_cons_self, count_eq_zero.mpr hy]
  · obtain ⟨x, rfl, hend, ho, hc⟩ := h hz
    refine ⟨x, by simp [hz], ?_, ho, ?_⟩
    · change x.endSeq = if s.rttTime ≠ 0 then s.rttEndSeq else y.endSeq
      rw [if_pos hz]
      exact hend
    · rw [count_cons_of_ne]
      · exact hc
      · rintro rfl
        exact hy (count_pos_iff.mp (by omega))

theorem Untouched.same (time : t.rttTime = s.rttTime) (last : t.rttEndSeq = s.rttEndSeq)
    (wire : t.wire = s.wire) : Untouched s t :=
  .of_mute (.inl time) last (wire ▸ .refl _)

/-- The segment being timed has been sent once, whatever the move. -/
theorem Once.step {s t : Sys} (h : Once s.sk.view s.sk.wire timed)
    (hw : Wf s.sk.view s.pc) (carried : Carried s.sk.txQueue s.pc)
    (free : FinFree s.sk.view s.sk.wire s.pc) (ok : timesOnce s e = true) (hm : Moves s e t) :
    Once t.sk.view t.sk.wire (if s.sk.rttTime = 0 then t.sk.wire.head? else timed) := by
  have rest {u : Sock} (hu : Untouched s.sk u) :
      Once u.view u.wire (if s.sk.rttTime = 0 then u.wire.head? else timed) :=
    h.untouched hu fun hne => if_neg hne
  cases hm with
  | connect seed hp => exact rest (.stopped rfl)
  | probe hp more hs ok' =>
    obtain ⟨-, -, rfl⟩ := queueProbe_ok ok'
    exact rest (.same rfl rfl rfl)
  | @transmitReturn k hp empty => cases k <;> exact rest (.same rfl rfl rfl)
  | @transmit k a sk hp head avail ok' =>
    have hne : tcpSenderAvailableWindow s.sk ≠ 0 := by
      intro he
      rw [he] at avail
      exact absurd avail (by decide)
    have fresh : unsent s.sk a = true := by simpa [timesOnce, hp, head, hne] using ok
    exact h.transmit carried (by rw [hp]; rfl) fresh ok'
  | @receive seg garbage sk unlocked ok' =>
    refine rest ((handler_handled hw.reached ok').untouched free fun hr => ?_)
    simpa [timesOnce, hr] using ok
  | retransmitTimer unlocked armed ok' =>
    obtain ⟨x, l, n, -, -, hv, -⟩ := retransmit_ok ok'
    exact rest (.stopped (congrArg SendView.rttTime hv))
  | persistTimer unlocked armed ok' =>
    rcases persist_ok ok' with ⟨-, hv, hwire⟩ | ⟨hzero, x, l, n, hq, -, hv, hwire⟩
    · exact rest (.same (congrArg SendView.rttTime hv) (congrArg SendView.rttEnd hv) hwire)
    · have hhead : timesHead s.sk = false := by simpa [timesOnce, hzero] using ok
      exact rest (.resend (congrArg SendView.rttTime hv) (congrArg SendView.rttEnd hv) hwire
        (timesHead_first hhead hq))
  | mslTimer unlocked armed ok' =>
    obtain ⟨-, hv, -⟩ := msl_ok ok'
    exact rest (.stopped (congrArg SendView.rttTime hv))
  | _ => exact rest (.same rfl rfl rfl)

/-- In a run in which `tcp_transmit` sends nothing again and the persist timer and fast
retransmit send nothing again that is being timed, every round-trip sample is that of a
segment sent exactly once. -/
theorem sample_sent_once {s : Timing}
    (run : Run timeStep (fun a e => timesOnce a.sys e = true) ⟨{}, none⟩ s) (ackNumber : UInt32)
    (sample : takesSample s.sys.sk ackNumber = true) :
    ∃ x, s.timed = some x ∧ x.endSeq = s.sys.sk.rttEndSeq ∧ s.sys.sk.wire.count x = 1 := by
  have h : Once s.sys.sk.view s.sys.sk.wire s.timed ∧ Wf s.sys.sk.view s.sys.pc ∧
      Carried s.sys.sk.txQueue s.sys.pc ∧ FinFree s.sys.sk.view s.sys.sk.wire s.sys.pc := by
    refine run.invariant (I := fun s => Once s.sys.sk.view s.sys.sk.wire s.timed ∧
      Wf s.sys.sk.view s.sys.pc ∧ Carried s.sys.sk.txQueue s.sys.pc ∧
      FinFree s.sys.sk.view s.sys.sk.wire s.sys.pc) ?_ ?_
    · refine ⟨absurd rfl, Wf.start, ⟨.inl (forall_mem_nil _), nofun⟩, ?_⟩
      exact fun _ => forall_mem_nil _
    · intro a e b ⟨ha, hw, hc, hf⟩ hok hb
      obtain ⟨t, ht, rfl⟩ := Option.map_eq_some_iff.mp hb
      have hm := moves_of_advance ht
      exact ⟨ha.step hw hc hf hok hm, hw.moves hm, hc.step hw hm, hf.step hw hm⟩
  simp only [takesSample, Bool.and_eq_true, bne_iff_ne, ne_eq] at sample
  obtain ⟨x, ht, hend, -, hc⟩ := h.1 sample.1
  exact ⟨x, ht, hend, hc⟩

theorem sample_sent_once_two_bytes : ∃ s : Timing,
    Run timeStep (fun a e => timesOnce a.sys e = true) ⟨{}, none⟩ s ∧
    takesSample s.sys.sk 476707716 = true ∧
    ∃ x, s.timed = some x ∧ x.endSeq = s.sys.sk.rttEndSeq ∧ s.sys.sk.wire.count x = 1 := by
  obtain ⟨s, run, hs⟩ := replay_reaches timeStep (fun a e => timesOnce a.sys e = true) ⟨{}, none⟩
    (opening (synAck 1000) ++ [.sendmsg [7, 8], .app, .app, .app, .app, .app])
    (P := fun s => takesSample s.sys.sk 476707716 = true) (by decide)
  exact ⟨s, run, hs, sample_sent_once run _ hs⟩

/-- Three duplicate acknowledgements make the timed segment go out again; its
acknowledgement is still taken for a sample. -/
theorem sample_sent_twice : ∃ s : Timing, ∃ x, Run timeStep (fun _ _ => True) ⟨{}, none⟩ s ∧
    s.timed = some x ∧ x.endSeq = s.sys.sk.rttEndSeq ∧ s.sys.sk.wire.count x = 2 ∧
    newAck s.sys.sk (pureAck 476707716 1000) = true ∧
    takesSample s.sys.sk (pureAck 476707716 1000).ackNumber = true := by
  obtain ⟨s, run, hx, ha, hs⟩ := replay_reaches timeStep (fun _ _ => True) ⟨{}, none⟩
    (opening (synAck 1000) ++ [.sendmsg [7, 8], .app, .app, .app, .app, .app, .app,
      .receive (pureAck 476707714 1000) (0, 0), .receive (pureAck 476707714 1000) (0, 0),
      .receive (pureAck 476707714 1000) (0, 0)])
    (P := fun s => s.timed.any (fun x => x.endSeq == s.sys.sk.rttEndSeq && s.sys.sk.wire.count x == 2) ∧
      newAck s.sys.sk (pureAck 476707716 1000) = true ∧
      takesSample s.sys.sk (pureAck 476707716 1000).ackNumber = true) (by decide)
  obtain ⟨x, ht, hx⟩ := (Option.any_eq_true _ _).mp hx
  simp only [Bool.and_eq_true, beq_iff_eq] at hx
  exact ⟨s, x, run, ht, hx.1, hx.2, ha, hs⟩

end Mos.Tcp

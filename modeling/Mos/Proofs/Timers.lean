import Mos.Proofs.Frame

namespace Mos.Tcp
open Machine

def reachesAck (s : Sock) (seg : Segment) : Bool :=
  acceptableSegment s seg && seg.flags.ack && !seg.flags.syn

/-- A window update that flushes the queue under a running retransmission timer
or round-trip measurement. -/
def flushesTimed (s : Sock) (seg : Segment) : Bool :=
  reachesAck s seg && takesAcks s.state && windowUpdate s seg && reopens s seg &&
    (s.retransmitTimer.isSome || s.rttTime != 0)

def clearsQueue (s : Sock) (seg : Segment) : Bool :=
  if newAck s seg then s.txQueue.all fun x => x.endSeq < seg.ackNumber
  else s.txQueue.isEmpty || windowUpdate s seg && reopens s seg

/-- A window update that closes the window again before the thread has noticed
that its probe was answered. -/
def closesProbed (s : Sock) (seg : Segment) : Bool :=
  reachesAck s seg && takesAcks s.state && windowUpdate s seg && segWnd s seg == 0 &&
    s.persistTimer.isSome && s.txQueue.isEmpty

/-- A connection is given up while a timer relies on its state: a probe is out, or
the MSL timer runs. -/
def abortsTimed (s : Sock) (seg : Segment) : Bool :=
  aborts s seg && (s.persistTimer.isSome && s.sndWnd == 0 || s.mslTimer.isSome)

/-- No step takes from under a timer what its handler relies on. -/
def timersKept (s : Sys) : Event → Bool
  | .shutdown => s.sk.rttTime == 0
  | .receive seg _ => !flushesTimed s.sk seg && !(answersFin s.sk seg && clearsQueue s.sk seg) &&
      !closesProbed s.sk seg && !abortsTimed s.sk seg
  | _ => true

/-- The round trip being timed is that of the first queued buffer. -/
def SendView.timesFirst (v : SendView) : Prop := v.queue.head?.map SkBuff.endSeq = some v.rttEnd

def Pc.cutting : Pc → Bool
  | .sendChunk .. => true
  | _ => false

structure Timers (v : SendView) (pc : Pc) : Prop where
  queued : v.retransmit ≠ none → v.queue ≠ []
  timed : v.rttTime ≠ 0 → v.timesFirst ∨ v.queue = [] ∧ v.state = .close
  cutting : pc.cutting = true → v.rttTime = 0
  probing : v.persist ≠ none → pc.probing = true
  unsent : v.persist ≠ none → takesAcks v.state = true → v.una = v.nxt ∧ (v.queue ≠ [] → v.wnd = 0)
  probed : v.persist ≠ none → v.wnd = 0 → v.queue ≠ []
  msl : v.msl ≠ none → v.state = .timeWait

variable {v : SendView} {pc : Pc} {s u t : Sock} {seg : Segment}

theorem Timers.not_timed (h : Timers v pc) (hq : v.queue = [])
    (hs : v.state ≠ .close) : v.rttTime = 0 := by
  by_contra hr
  rcases h.timed hr with ht | ⟨-, hc⟩
  · simp [SendView.timesFirst, hq] at ht
  · exact hs hc

theorem Timers.first (h : Timers v pc) (hr : v.rttTime ≠ 0)
    (hs : v.queue ≠ [] ∨ v.state ≠ .close) : v.timesFirst := by
  rcases h.timed hr with ht | ⟨hq, hc⟩
  · exact ht
  · rcases hs with hn | hn
    · exact absurd hq hn
    · exact absurd hc hn

theorem Timers.restate (h : Timers v pc) (st : TcpState)
    (hs : v.queue ≠ [] ∨ v.state ≠ .close)
    (takes : v.persist ≠ none → takesAcks st = true → takesAcks v.state = true)
    (msl : v.msl ≠ none → st = .timeWait) : Timers { v with state := st } pc :=
  ⟨h.queued, fun hr => .inl (h.first hr hs), h.cutting, h.probing,
    fun hp ht => h.unsent hp (takes hp ht), h.probed, msl⟩

theorem takesAcks_next {st : TcpState} {flags : Flags} (hs : st ≠ .synSent)
    (h : takesAcks (nextState st flags) = true) : takesAcks st = true := by
  cases st with
  | synSent => exact absurd rfl hs
  | established | closeWait => rfl
  | close | listen =>
    simp only [nextState] at h
    split at h <;> cases h
  | _ => exact h

theorem Timers.resend (h : Timers v pc) (hw : Wf v pc)
    (hq : v.queue ≠ []) (flags : Flags) : Timers { v with state := nextState v.state flags } pc := by
  refine h.restate _ (.inl hq) (fun hp => takesAcks_next fun hs => ?_) fun hm => ?_
  · have hc := hw.connecting hs
    rw [Pc.probing_phase (h.probing hp)] at hc
    cases hc
  · rw [h.msl hm]
    rfl

theorem head_filter {q : List SkBuff} {a e : UInt32} (h : q.head?.map SkBuff.endSeq = some e)
    (ha : ¬ e < a) :
    (q.filter (fun x => !ackRemoves a false x)).head?.map SkBuff.endSeq = some e := by
  cases q with
  | nil => cases h
  | cons x rest =>
    have hx : x.endSeq = e := Option.some.inj h
    have hk : (!ackRemoves a false x) = true := by simpa [ackRemoves, hx] using ha
    rw [List.filter_cons, if_pos hk]
    exact h

theorem still_timed {a : UInt32}
    (h : (if v.rttTime ≠ 0 ∧ v.rttEnd < a then 0 else v.rttTime) ≠ 0) :
    v.rttTime ≠ 0 ∧ ¬ v.rttEnd < a := by
  split at h
  · exact absurd rfl h
  · rename_i hn
    exact ⟨h, fun hlt => hn ⟨h, hlt⟩⟩

theorem Timers.no_probe (h : Timers s.view pc)
    (takes : takesAcks s.state = true) (new : newAck s seg = true) : s.persistTimer = none := by
  by_contra hp
  have hu : s.sndUna = s.sndNxt := (h.unsent hp takes).1
  simp only [newAck, decide_eq_true_eq, hu] at new
  exact UInt32.not_lt.mpr new.2 new.1

theorem takesAcks_not_close {st : TcpState} (h : takesAcks st = true) : st ≠ .close := by
  rintro rfl
  cases h

theorem Timers.accept {a : UInt32} {head r : Option Nat}
    (h : Timers v pc) (hp : v.persist = none) (hs : v.queue ≠ [] ∨ v.state ≠ .close)
    (hr : r ≠ none → (v.accept a head r).queue ≠ []) (wnd : UInt32) :
    Timers { v.accept a head r with wnd := wnd } pc := by
  refine ⟨hr, fun hne => .inl ?_, fun hc => ?_, h.probing, absurd hp,
    absurd hp, h.msl⟩
  · obtain ⟨ht, hlt⟩ := still_timed hne
    exact head_filter (h.first ht hs) hlt
  · by_contra hne
    exact (still_timed hne).1 (h.cutting hc)

theorem Timers.updated (h : Timers s.view pc)
    (takes : takesAcks s.state = true)
    (flush : reopens s seg = true → s.retransmitTimer = none ∧ s.rttTime = 0)
    (zero : s.persistTimer ≠ none → segWnd s seg = 0 → s.txQueue ≠ []) :
    Timers (updateWindow s seg).view pc := by
  unfold updateWindow
  split
  · rename_i hr
    obtain ⟨hn, ht⟩ := flush hr
    have hw : segWnd s seg ≠ 0 := by
      simp only [reopens, decide_eq_true_eq] at hr
      exact hr.2
    exact ⟨absurd hn, absurd ht, h.cutting, h.probing,
      fun hp _ => ⟨(h.unsent hp takes).1, absurd rfl⟩, fun _ hz => absurd hz hw, h.msl⟩
  · rename_i hr
    refine ⟨h.queued, h.timed, h.cutting, h.probing, fun hp _ => ?_, zero, h.msl⟩
    obtain ⟨hu, hz⟩ := h.unsent hp takes
    refine ⟨hu, fun hq => ?_⟩
    change segWnd s seg = 0
    by_contra hne
    have hz : s.sndWnd = 0 := hz hq
    exact hr (by simp [reopens, hz, hne])

theorem Timers.ackMove (h : Timers s.view pc)
    (hw : Wf s.view pc) (reaches : reachesAck s seg = true) (flush : flushesTimed s seg = false)
    (zero : closesProbed s seg = false) (hm : AckMove s seg u) : Timers u.view pc := by
  cases hm with
  | idle same => rwa [same.view]
  | accepted takes new ok =>
    obtain ⟨r, hv, -, hr⟩ := accept_view ok
    rw [takeWindow_view, hv]
    exact Timers.accept h (h.no_probe takes new) (.inr (takesAcks_not_close takes)) hr _
  | updated takes old update =>
    refine h.updated takes (fun hr => ?_) fun hp hz => ?_
    · simpa [flushesTimed, reaches, takes, update, hr] using flush
    · have hp : s.persistTimer.isSome = true := Option.isSome_iff_ne_none.mpr hp
      simpa [closesProbed, reaches, takes, update, hz, hp] using zero
  | @resent r skb rest third same first =>
    rw [view_send, SendView.send_again, same.view]
    exact h.resend hw (List.ne_nil_of_mem (first_mem first)) skb.flags

theorem Timers.finMove (h : Timers s.view pc) (hm : FinMove s t) :
    Timers t.view pc := by
  cases hm with
  | idle same => rwa [same.view]
  | finWait2 hs finAcked =>
    refine h.restate .finWait2 (.inr ?_) (fun _ _ => ?_) fun hn => ?_
    · simp [Sock.view, hs]
    · simp [Sock.view, hs, takesAcks]
    · have := hs.symm.trans (h.msl hn)
      cases this
  | timeWait hs finAcked =>
    refine h.restate .timeWait (.inr ?_) (fun _ ht => ?_) fun _ => rfl
    · simp [Sock.view, hs]
    · cases ht

theorem Timers.replyMove (h : Timers s.view pc)
    (answer : seg.flags.fin = true →
      s.state = .established ∧ seg.payload = [] ∨ s.state = .closeWait → s.txQueue ≠ [])
    (hm : ReplyMove s seg t) : Timers t.view pc := by
  have away {st : TcpState} (hs : s.state = st) (hne : st ≠ .timeWait) (hn : s.view.msl ≠ none) :
      False := hne (hs.symm.trans (h.msl hn))
  cases hm with
  | quiet same => rwa [same.view]
  | passive fin hs data view mute =>
    rw [view]
    refine h.restate .closeWait (.inr ?_) (fun _ _ => ?_) fun hn => (away hs
      (fun hc => by cases hc) hn).elim
    · simp [Sock.view, hs]
    · simp [Sock.view, hs, takesAcks]
  | answered fin hs isFin armed view mute wire =>
    have hq := answer fin hs
    rw [view]
    refine ⟨fun _ => hq, fun hr => .inl (h.first hr (.inl hq)), h.cutting, h.probing,
      (fun _ hc => by cases hc),
      h.probed, ?_⟩
    intro hn
    rcases hs with ⟨hs, -⟩ | hs
    · exact (away hs (fun hc => by cases hc) hn).elim
    · exact (away hs (fun hc => by cases hc) hn).elim
  | closing fin hs view mute =>
    rw [view]
    refine h.restate .closing (.inr ?_) (fun _ _ => ?_) fun hn => (away hs
      (fun hc => by cases hc) hn).elim
    · simp [Sock.view, hs]
    · simp [Sock.view, hs, takesAcks]
  | timeWait fin hs view mute =>
    rw [view]
    refine ⟨absurd rfl, fun hr => .inl (h.first hr (.inr ?_)), h.cutting,
      absurd rfl, absurd rfl, absurd rfl, fun _ => rfl⟩
    simp [Sock.view, hs]
  | again fin hs view mute =>
    rw [view]
    exact ⟨h.queued, h.timed, h.cutting, h.probing, h.unsent, h.probed, fun _ => hs⟩

theorem AckMove.queue_left (hm : AckMove s seg u)
    (takes : takesAcks s.state = true) (h : clearsQueue s seg = false) : u.txQueue ≠ [] := by
  cases hm with
  | idle same plain =>
    have hq : u.txQueue = s.txQueue := congrArg SendView.queue same.view
    rw [hq]
    intro he
    simp [clearsQueue, (plain takes).1, he] at h
  | @accepted u _ new ok =>
    obtain ⟨r, hv, -, -⟩ := accept_view ok
    have ht := takeWindow_view u seg
    rw [hv] at ht
    have hq := congrArg SendView.queue ht
    intro he
    have hf : s.txQueue.filter (fun x => !ackRemoves seg.ackNumber false x) = [] := hq.symm.trans he
    rw [List.filter_eq_nil_iff] at hf
    simp only [clearsQueue, new, if_true, List.all_eq_false] at h
    obtain ⟨x, hx, hlt⟩ := h
    exact hlt (by simpa [ackRemoves] using hf x hx)
  | updated _ old update =>
    simp only [clearsQueue, old, update, Bool.false_eq_true, if_false, Bool.true_and,
      Bool.or_eq_false_iff] at h
    unfold updateWindow
    rw [if_neg (by simp [h.2])]
    simpa using h.1
  | @resent r skb rest third same first =>
    have hq : r.txQueue = s.txQueue := congrArg SendView.queue same.view
    change r.txQueue ≠ []
    rw [hq, first]
    intro hc
    cases hc

theorem FinMove.queue (h : FinMove s t) : t.txQueue = s.txQueue := by
  cases h with
  | idle same => exact congrArg SendView.queue same.view
  | finWait2 | timeWait => rfl

theorem Timers.processed {w : Sock} (h : Timers s.view pc)
    (hw : Wf s.view pc) (hs : connected s.state = true) (acceptable : acceptableSegment s seg = true)
    (flag : seg.flags.ack = true) (syn : seg.flags.syn = false) (ack : AckMove s seg u)
    (fin : FinMove u w) (reply : ReplyMove w seg t) (flush : flushesTimed s seg = false)
    (answer : (answersFin s seg && clearsQueue s seg) = false) (zero : closesProbed s seg = false) :
    Timers t.view pc := by
  have reaches : reachesAck s seg = true := by simp [reachesAck, acceptable, flag, syn]
  refine ((h.ackMove hw reaches flush zero ack).finMove fin).replyMove (fun hfin hst => ?_) reply
  have he : w.state = s.state := ack.open_state fin hs (hst.imp_left And.left)
  rw [he] at hst
  have ha : answersFin s seg = true := by
    rcases hst with ⟨hst, hp⟩ | hst
    · simp [answersFin, acceptable, flag, hfin, hst, hp]
    · simp [answersFin, acceptable, flag, hfin, hst]
  have takes : takesAcks s.state = true := by
    rcases hst with ⟨hst, -⟩ | hst <;> rw [hst] <;> rfl
  rw [fin.queue]
  exact ack.queue_left takes (by simpa [ha] using answer)

theorem Timers.handled (h : Timers s.view pc)
    (hw : Wf s.view pc) (flush : flushesTimed s seg = false)
    (answer : (answersFin s seg && clearsQueue s seg) = false) (zero : closesProbed s seg = false)
    (abort : abortsTimed s seg = false) (hm : Handled s seg t) : Timers t.view pc := by
  have keeps (cause : aborts s seg = true) :
      (s.persistTimer ≠ none → s.sndWnd ≠ 0) ∧ s.mslTimer = none := by
    simp only [abortsTimed, cause, Bool.true_and, Bool.or_eq_false_iff] at abort
    refine ⟨fun hp hz => ?_, by simpa using abort.2⟩
    simp [hp, hz] at abort
  cases hm with
  | quiet same => rwa [same.view]
  | rejected hs view mute =>
    rw [view]
    refine h.restate .close (.inl (hw.syn hs)) (fun _ ht => ?_) fun hn => ?_
    · cases ht
    · have := hs.symm.trans (h.msl hn)
      cases this
  | refused hs =>
    exact ⟨absurd rfl, absurd rfl, fun _ => rfl, absurd rfl,
      absurd rfl, absurd rfl, absurd rfl⟩
  | @opened b u _ hs after sent base wire ok view mute =>
    have hp : s.persistTimer = none := by
      by_contra hp
      have hc := hw.connecting hs
      rw [Pc.probing_phase (h.probing hp)] at hc
      cases hc
    have hb : Timers b.view pc := by
      rw [base]
      exact ⟨h.queued, h.timed, h.cutting, h.probing, absurd hp,
        absurd hp, h.msl⟩
    have hbs : b.view.state = .synSent := base ▸ hs
    obtain ⟨r, hv, -, hr⟩ := accept_view ok
    have hu := hb.accept (base ▸ hp) (.inr (by simp [hbs])) hr b.sndWnd
    rw [view, hv]
    refine hu.restate .established (.inr (by simp [SendView.accept, hbs])) (fun hn => ?_) fun hn => ?_
    · exact absurd (base ▸ hp) hn
    · have := hbs.symm.trans (hu.msl hn)
      cases this
  | flushed hs why view mute cause =>
    obtain ⟨hp, hn⟩ := keeps cause
    rw [view]
    exact ⟨absurd rfl, fun _ => .inr ⟨rfl, rfl⟩, h.cutting, h.probing, nofun,
      fun hx hz => absurd hz (hp hx), absurd hn⟩
  | aborted hs why view mute cause =>
    obtain ⟨-, hn⟩ := keeps cause
    have hc : s.state ≠ .close := by
      rcases hs with hs | hs | hs <;> simp [hs]
    rw [view]
    exact ⟨absurd rfl, fun hr => .inl (h.first hr (.inr hc)), h.cutting, h.probing, nofun,
      h.probed, absurd hn⟩
  | closed hs acceptable flag syn rst finAcked view mute =>
    rw [view]
    refine ⟨absurd rfl, fun hr => .inl (h.first hr (.inr ?_)), h.cutting, h.probing, nofun,
      h.probed, fun hx => ?_⟩
    · simp [Sock.view, hs]
    · have := hs.symm.trans (h.msl hx)
      cases this
  | processed hs acceptable flag syn rst ack fin reply =>
    exact h.processed hw hs acceptable flag syn ack fin reply flush answer zero

theorem Timers.goto (h : Timers v pc) (pc' : Pc)
    (hc : pc'.cutting = true → v.rttTime = 0) (hp : v.persist ≠ none → pc'.probing = true) :
    Timers v pc' :=
  ⟨h.queued, h.timed, hc, hp, h.unsent, h.probed, h.msl⟩

theorem Timers.no_persist (h : Timers v pc) (hp : pc.probing = false) :
    v.persist = none := by
  by_contra hn
  rw [h.probing hn] at hp
  cases hp

theorem Timers.enqueue {x : SkBuff} (h : Timers v pc)
    (hr : v.queue = [] → v.rttTime = 0)
    (hp : v.persist ≠ none → takesAcks v.state = true → v.wnd = 0) : Timers (v.enqueue x) pc := by
  refine ⟨fun _ => ?_, fun hne => .inl ?_, h.cutting, h.probing,
    fun hn ht => ⟨(h.unsent hn ht).1, fun _ => hp hn ht⟩, fun _ _ => ?_, h.msl⟩
  · simp [SendView.enqueue]
  · have hq : v.queue ≠ [] := fun he => hne (hr he)
    have hf := h.first hne (.inl hq)
    obtain ⟨y, rest, hy⟩ := List.exists_cons_of_ne_nil hq
    simpa [SendView.timesFirst, SendView.enqueue, hy] using hf
  · simp [SendView.enqueue]

theorem find_first {q : List SkBuff} {h : Nat} {skb : SkBuff}
    (hf : q.find? (fun x => x.addr == h) = some skb) (hh : q.head?.map SkBuff.addr = some h) :
    q.head? = some skb := by
  cases q with
  | nil => cases hf
  | cons x rest =>
    have hx : (x.addr == h) = true := beq_iff_eq.mpr (Option.some.inj hh)
    rwa [List.find?_cons, hx] at hf

theorem Timers.transmit {a : Nat} (h : Timers s.view pc) (hw : Wf s.view pc)
    (avail : 0 < tcpSenderAvailableWindow s) (hc : pc.cutting = false)
    (ok : transmitHead s a = .ok t) : Timers t.view pc := by
  obtain ⟨skb, hf, hfirst, hv, -⟩ := transmitHead_ok ok
  have hmem : skb ∈ s.view.queue := List.mem_of_find?_eq_some hf
  have hq : s.view.queue ≠ [] := List.ne_nil_of_mem hmem
  have hs := h.resend hw hq skb.flags
  rw [hv]
  refine ⟨fun _ => hq, fun _ => .inl ?_, fun hn => ?_, h.probing, fun hn ht => ?_, h.probed, hs.msl⟩
  · change s.txQueue.head?.map SkBuff.endSeq =
      some (if s.rttTime ≠ 0 then s.rttEndSeq else skb.endSeq)
    by_cases hr : s.rttTime ≠ 0
    · rw [if_pos hr]
      exact h.first hr (.inl hq)
    · rw [if_neg hr, find_first hf (hfirst (not_not.mp hr))]
      rfl
  · rw [hc] at hn
    cases hn
  · obtain ⟨hu, hz⟩ := hs.unsent hn ht
    have hu : s.sndUna = s.sndNxt := hu
    have hz : s.sndWnd = 0 := hz hq
    simp [tcpSenderAvailableWindow, hu, hz] at avail

theorem Timers.transmitReturn {s : Sys} {k : Caller} (h : Timers s.sk.view (.transmit k)) :
    Timers (transmitReturn s k).sk.view (transmitReturn s k).pc := by
  cases k with
  | connect => exact h.goto .user nofun fun hn => absurd (h.no_persist rfl) hn
  | probe l =>
    exact ⟨h.queued, h.timed, nofun, absurd rfl, absurd rfl,
      absurd rfl, h.msl⟩
  | chunks l => exact h.goto (.sendLoop l) nofun fun hn => absurd (h.no_persist rfl) hn
  | shutdown => exact h.goto .shutdownLoop nofun fun hn => absurd (h.no_persist rfl) hn

theorem timersKept_receive {s : Sys} {garbage : UInt16 × UInt8}
    (h : timersKept s (.receive seg garbage) = true) : flushesTimed s.sk seg = false ∧
      (answersFin s.sk seg && clearsQueue s.sk seg) = false ∧ closesProbed s.sk seg = false ∧
      abortsTimed s.sk seg = false := by
  simp only [timersKept, Bool.and_eq_true, Bool.not_eq_true'] at h
  exact ⟨h.1.1.1, h.1.1.2, h.1.2, h.2⟩

theorem Timers.moves {s t : Sys} {e : Event} (h : Timers s.sk.view s.pc) (hw : Wf s.sk.view s.pc)
    (ok : timersKept s e = true) (hm : Moves s e t) : Timers t.sk.view t.pc := by
  cases hm with
  | refused hp => exact h
  | connect seed hp =>
    refine ⟨fun hn => absurd rfl hn, fun hn => absurd rfl hn, (fun hc => by cases hc),
      fun hn => absurd rfl hn,
      fun hn => absurd rfl hn, fun hn => absurd rfl hn, fun hn => absurd rfl hn⟩
  | round hp more hs pos =>
    rw [hp] at h hw
    refine h.goto _ (fun _ => ?_) fun hn => absurd (h.no_persist rfl) hn
    exact h.not_timed (hw.no_queue (fun _ hc => by cases hc)) (by simp [Sock.view, hs])
  | shutdown hp =>
    rw [hp] at h
    have hp := h.no_persist rfl
    have hr : s.sk.rttTime = 0 := by simpa [timersKept] using ok
    exact (h.goto (.transmit .shutdown)
      (fun hc => by cases hc) fun hn => absurd hp hn).enqueue (fun _ => hr)
      fun hn => absurd hp hn
  | @probe l _ hp more hs ok' =>
    obtain ⟨hu, hz, rfl⟩ := queueProbe_ok ok'
    rw [hp] at h hw
    have hr := h.not_timed (hw.no_queue (fun _ hc => by cases hc)) (by simp [Sock.view, hs])
    refine ⟨fun _ => ?_, fun hn => absurd hr hn, (fun hc => by cases hc), fun _ => rfl,
      fun _ _ => ⟨hu, fun _ => hz⟩,
      fun _ _ => ?_, h.msl⟩
    · simp [Sock.view, tcpTxQueueAddSkb]
    · simp [Sock.view, tcpTxQueueAddSkb]
  | chunk hp lt le =>
    rw [hp] at h
    have hn := h.no_persist rfl
    exact (h.enqueue (fun _ => h.cutting rfl) fun hx => absurd hn hx).goto _ h.cutting
      fun hx => absurd hn hx
  | sendmsg _ hp | recvmsg _ hp | sendReturn hp | chunksDone hp | shutdownReturn hp | recvReturn hp
  | recvAwake hp | shutdownAwake hp | recvWait hp | shutdownWait hp =>
    rw [hp] at h
    exact h.goto _ (fun hc => by cases hc) fun hn => absurd (h.no_persist rfl) hn
  | lock hp | awake hp | sleep hp =>
    rw [hp] at h
    exact h.goto _ (fun hc => by cases hc) h.probing
  | transmitReturn hp empty => exact Timers.transmitReturn (hp ▸ h)
  | transmit hp head avail ok' => exact h.transmit hw avail (by rw [hp]; rfl) ok'
  | receive unlocked ok' =>
    obtain ⟨flush, answer, zero, abort⟩ := timersKept_receive ok
    exact h.handled hw flush answer zero abort (handler_handled hw.reached ok')
  | retransmitTimer unlocked armed ok' =>
    obtain ⟨skb, rest, n, hq, -, hv, -⟩ := retransmit_ok ok'
    have hne := List.ne_nil_of_mem (first_mem hq)
    have hs := h.resend hw hne skb.flags
    rw [hv]
    exact ⟨fun _ => hne, fun hn => absurd rfl hn, fun _ => rfl, h.probing, hs.unsent, h.probed, hs.msl⟩
  | persistTimer unlocked armed ok' =>
    rcases persist_ok ok' with ⟨-, hv, -⟩ | ⟨-, skb, rest, n, hq, -, hv, -⟩
    · rw [hv]
      exact ⟨h.queued, h.timed, h.cutting, fun hn => absurd rfl hn, fun hn => absurd rfl hn,
        fun hn => absurd rfl hn, h.msl⟩
    · have hs := h.resend hw (List.ne_nil_of_mem (first_mem hq)) skb.flags
      rw [hv]
      exact ⟨h.queued, hs.timed, h.cutting, fun _ => h.probing armed, fun _ => hs.unsent armed,
        fun _ => h.probed armed, hs.msl⟩
  | mslTimer unlocked armed ok' =>
    obtain ⟨-, hv, -⟩ := msl_ok ok'
    rw [hv]
    exact ⟨fun hn => absurd rfl hn, fun hn => absurd rfl hn, fun _ => rfl, fun hn => absurd rfl hn,
      fun hn => absurd rfl hn, fun hn => absurd rfl hn, fun hn => absurd rfl hn⟩
  | tick | wake => exact h

/-- What the three timers stand for holds in every run. -/
theorem Timers.run {s : Sys} (run : Run advance (fun a e => timersKept a e = true) {} s) :
    Timers s.sk.view s.pc := by
  refine (run.invariant (I := fun s => Timers s.sk.view s.pc ∧ Wf s.sk.view s.pc) ?_ ?_).1
  · exact ⟨⟨absurd rfl, absurd rfl, fun _ => rfl, absurd rfl,
      absurd rfl, absurd rfl, absurd rfl⟩, Wf.start⟩
  · intro a e b ⟨ha, hwa⟩ hok hb
    have hm := moves_of_advance hb
    exact ⟨ha.moves hwa hok hm, hwa.moves hm⟩

theorem Wf.probe_payload {x : SkBuff} (h : Wf v pc)
    (hp : pc.probing = true) (hx : x ∈ v.queue) : x.payload.length = 1 := by
  have ha := h.allows x hx
  cases pc with
  | transmit k | transmitLocked k | transmitSleep k =>
    cases k with
    | probe l => exact ha.2
    | _ => cases hp
  | _ => cases hp

theorem Timers.probe_first (h : Timers v pc) (hw : Wf v pc)
    (hp : v.persist ≠ none) (hz : v.wnd = 0) :
    ∃ skb rest, v.queue = skb :: rest ∧ skb.payload.length = 1 := by
  obtain ⟨skb, rest, hq⟩ := List.exists_cons_of_ne_nil (h.probed hp hz)
  exact ⟨skb, rest, hq, hw.probe_payload (h.probing hp) (hq ▸ .head _)⟩

theorem interrupt_error {s : Sys} {f : Sock → Except Panic Sock} {p : Panic}
    (h : interrupt s f = some (.error p)) : f s.sk = .error p := by
  unfold interrupt at h
  split at h
  · cases h
  · exact map_error.mp (Option.some.inj h)

theorem Timers.retransmit_total (h : Timers s.view pc)
    (armed : s.retransmitTimer ≠ none) (p : Panic) : tcpRetransmitTimer s ≠ .error p := by
  intro he
  obtain ⟨skb, rest, hq⟩ := List.exists_cons_of_ne_nil (h.queued armed)
  have hq : s.txQueue = skb :: rest := hq
  unfold tcpRetransmitTimer at he
  rw [hq] at he
  dsimp only at he
  split at he
  · rename_i hr
    have hf := h.first hr.1 (.inl (h.queued armed))
    change s.txQueue.head?.map SkBuff.endSeq = some s.rttEndSeq at hf
    rw [hq] at hf
    exact hr.2 (Option.some.inj hf)
  · cases he

theorem Timers.persist_total (h : Timers s.view pc) (hw : Wf s.view pc)
    (armed : s.persistTimer ≠ none) (p : Panic) : tcpPersistTimer s ≠ .error p := by
  intro he
  unfold tcpPersistTimer at he
  split at he
  · cases he
  · rename_i hz
    obtain ⟨skb, rest, hq, hl⟩ := h.probe_first hw armed (not_not.mp hz)
    have hq : s.txQueue = skb :: rest := hq
    simp [hq, hl] at he

theorem Timers.msl_total (h : Timers s.view pc) (armed : s.mslTimer ≠ none)
    (p : Panic) : tcpMslTimer s ≠ .error p := by
  intro he
  have hs : s.state = .timeWait := h.msl armed
  simp [tcpMslTimer, hs] at he

def Event.isTimer : Event → Bool
  | .retransmitTimer | .persistTimer | .mslTimer => true
  | _ => false

/-- No assertion of the three timer handlers fails, in every run that does not take
from under a timer what it relies on. -/
theorem timers_never_fail {s : Sys} (run : Run advance (fun a e => timersKept a e = true) {} s) :
    (∀ e p, e.isTimer = true → step s e ≠ some (.error p)) ∧
    (s.sk.retransmitTimer ≠ none → s.sk.txQueue ≠ []) ∧
    (s.sk.persistTimer ≠ none → s.sk.sndWnd = 0 →
      ∃ skb rest, s.sk.txQueue = skb :: rest ∧ skb.payload.length = 1) ∧
    (s.sk.mslTimer ≠ none → s.sk.state = .timeWait ∨ s.sk.state = .lastAck) := by
  have h := Timers.run run
  have hw := Wf.run run
  refine ⟨fun e p ht he => ?_, h.queued, h.probe_first hw, fun hn => .inl (h.msl hn)⟩
  cases e with
  | retransmitTimer =>
    simp only [step] at he
    split at he
    · rename_i hx
      exact h.retransmit_total (expired_armed hx) p (interrupt_error he)
    · cases he
  | persistTimer =>
    simp only [step] at he
    split at he
    · rename_i hx
      exact h.persist_total hw (expired_armed hx) p (interrupt_error he)
    · cases he
  | mslTimer =>
    simp only [step] at he
    split at he
    · rename_i hx
      exact h.msl_total (expired_armed hx) p (interrupt_error he)
    · cases he
  | _ => cases ht

theorem timers_never_fail_one_byte : ∃ s, Run advance (fun a e => timersKept a e = true) {} s ∧
    expired s.sk.retransmitTimer s.sk.now = true ∧ s.sk.txQueue ≠ [] ∧
    ∀ p, step s .retransmitTimer ≠ some (.error p) := by
  obtain ⟨s, run, hx⟩ := replay_reaches advance (fun a e => timersKept a e = true) {}
    (opening (synAck 1000) ++ .sendmsg [1] :: List.replicate 6 .app ++ [.tick 2000])
    (P := fun s => expired s.sk.retransmitTimer s.sk.now = true) (by decide)
  obtain ⟨hn, hq, -, -⟩ := timers_never_fail run
  exact ⟨s, run, hx, hq (expired_armed hx), fun p => hn _ p rfl⟩

/-- A passive close starts the retransmission timer for a FIN that is not queued. -/
theorem retransmit_timer_fails : ∃ s, Run advance (fun _ _ => True) {} s ∧
    step s .retransmitTimer = some (.error .retransmitEmpty) := by
  obtain ⟨s, run, hf⟩ := replay_reaches advance (fun _ _ => True) {}
    (opening (synAck 1000) ++ [.receive (pureFin 476707714 1000) (0, 0), .tick 2000])
    (P := fun s => failsWith .retransmitEmpty (step s .retransmitTimer) = true) (by decide)
  exact ⟨s, run, failsWith_eq hf⟩

end Mos.Tcp

import Mos.Proofs.Steps

namespace Mos.Tcp
open Machine List

/-- A buffer of message bytes, from `tcp_sendmsg`. -/
structure SkBuff.IsData (x : SkBuff) : Prop where
  syn : x.flags.syn = false
  fin : x.flags.fin = false
  rst : x.flags.rst = false
  ack : x.flags.ack = true

/-- The buffers a caller of `tcp_transmit` has queued. -/
def Caller.allows (iss : UInt32) (x : SkBuff) : Caller → Prop
  | .connect => x.flags = { syn := true } ∧ x.payload = [] ∧ x.endSeq = iss
  | .probe _ => x.IsData ∧ x.payload.length = 1
  | .chunks _ => x.IsData
  | .shutdown => x.flags = { ack := true, fin := true } ∧ x.payload = [] ∧ x.seq = x.endSeq

def Pc.allows (iss : UInt32) (x : SkBuff) : Pc → Prop
  | .sendChunk .. => x.IsData
  | .transmit k | .transmitLocked k | .transmitSleep k => k.allows iss x
  | _ => False

/-- The call the owner's thread is in, where it concerns the sending half. -/
inductive Phase where
  | idle | connecting | sending | closing
  deriving DecidableEq

def Caller.phase : Caller → Phase
  | .connect => .connecting
  | .probe _ | .chunks _ => .sending
  | .shutdown => .closing

def Pc.phase : Pc → Phase
  | .user | .recvLoop _ | .recvSleep _ => .idle
  | .sendLoop _ | .sendChunk .. => .sending
  | .transmit k | .transmitLocked k | .transmitSleep k => k.phase
  | .shutdownLoop | .shutdownSleep => .closing

/-- The states the connection can be in while its thread is in a given call. -/
def Phase.admits (st : TcpState) : Phase → Bool
  | .idle | .sending => st ∈ [.unset, .close, .established, .closeWait, .lastAck]
  | .connecting => st ∈ [.close, .synSent, .established, .closeWait, .lastAck]
  | .closing => st ∉ [.synSent, .synRecv, .listen]

def Caller.locals : Caller → Option SendLocals
  | .probe l | .chunks l => some l
  | _ => none

def Pc.locals : Pc → Option SendLocals
  | .sendLoop l | .sendChunk l _ _ => some l
  | .transmit k | .transmitLocked k | .transmitSleep k => k.locals
  | _ => none

structure SendLocals.Ok (l : SendLocals) : Prop where
  mmss : l.mmss.toNat ≤ 1460
  sent : l.sent ≤ l.msg.length
  short : l.msg.length < 2 ^ 32

/-- What holds of the sending half at every point of every run: the queue is a
list of distinct buffers of the call in progress, `send_head` is one of them,
and the connection's state fits the call. -/
structure Wf (v : SendView) (pc : Pc) : Prop where
  nodup : (v.queue.map SkBuff.addr).Nodup
  fresh : ∀ x ∈ v.queue, x.addr < v.addr
  head : ∀ h, v.head = some h → ∃ x ∈ v.queue, x.addr = h
  allows : ∀ x ∈ v.queue, pc.allows v.iss x
  admits : pc.phase.admits v.state = true
  handshake : pc.phase = .connecting → v.queue ≠ [] → v.state = .close ∨ v.state = .synSent
  syn : v.state = .synSent → v.queue ≠ []
  mss : v.mss.toNat ≤ 1460
  locals : ∀ l, pc.locals = some l → l.Ok

def SendView.base (v : SendView) : TcpState × UInt32 × UInt32 × List SkBuff × Option Nat × Nat :=
  (v.state, v.iss, v.mss, v.queue, v.head, v.addr)

variable {v : SendView} {pc : Pc} {x : SkBuff} {st : TcpState} {s t u : Sock} {n : UInt32}
    {seg : Segment}

theorem Wf.congr {w : SendView} (h : Wf v pc) (same : w.base = v.base) : Wf w pc := by
  simp only [SendView.base, Prod.mk.injEq] at same
  obtain ⟨state, iss, mss, queue, head, addr⟩ := same
  obtain ⟨h1, h2, h3, h4, h5, h6, h7, h8, h9⟩ := h
  constructor
  all_goals simpa only [queue, head, addr, iss, state, mss]

theorem Wf.connecting (h : Wf v pc) (hs : v.state = .synSent) :
    pc.phase = .connecting := by
  have := h.admits
  cases hp : pc.phase <;> simp_all [Phase.admits]

theorem Wf.empty (h : Wf v pc) (hc : connected v.state = true)
    (hp : pc.phase = .connecting) : v.queue = [] := by
  by_contra hq
  rcases h.handshake hp hq with hs | hs <;> simp [hs, connected, synchronized] at hc

theorem Wf.restate (h : Wf v pc) (st : TcpState)
    (hc : connected v.state = true) (hs : pc.phase.admits st = true)
    (hn : st = .close ∨ connected st = true) : Wf { v with state := st } pc := by
  refine ⟨h.nodup, h.fresh, h.head, h.allows, hs, ?_, ?_, h.mss, h.locals⟩
  · intro hp hq
    exact absurd (h.empty hc hp) hq
  · intro hst
    subst hst
    rcases hn with hn | hn
    · cases hn
    · cases hn

theorem Wf.close (h : Wf v pc) :
    Wf { v with state := .close } pc := by
  refine ⟨h.nodup, h.fresh, h.head, h.allows, ?_, fun _ _ => .inl rfl, nofun, h.mss, h.locals⟩
  cases pc.phase <;> rfl

theorem Wf.flush (h : Wf v pc) (hs : v.state ≠ .synSent) :
    Wf { v with queue := [], head := none } pc :=
  ⟨nodup_nil, nofun, nofun, nofun, h.admits, fun _ hn => absurd rfl hn, fun hst => absurd hst hs,
    h.mss, h.locals⟩

theorem Pc.allows_cases {iss : UInt32} (h : pc.allows iss x) :
    pc.phase = .connecting ∧ x.flags = { syn := true } ∨ pc.phase = .sending ∧ x.IsData ∨
      pc.phase = .closing ∧ x.flags = { ack := true, fin := true } := by
  have caller {k : Caller} (hk : k.allows iss x) :
      k.phase = .connecting ∧ x.flags = { syn := true } ∨ k.phase = .sending ∧ x.IsData ∨
        k.phase = .closing ∧ x.flags = { ack := true, fin := true } := by
    cases k with
    | connect => exact .inl ⟨rfl, hk.1⟩
    | probe l => exact .inr (.inl ⟨rfl, hk.1⟩)
    | chunks l => exact .inr (.inl ⟨rfl, hk⟩)
    | shutdown => exact .inr (.inr ⟨rfl, hk.1⟩)
  cases pc with
  | sendChunk l m i => exact .inr (.inl ⟨rfl, h⟩)
  | transmit k | transmitLocked k | transmitSleep k => exact caller h
  | _ => exact h.elim

theorem next_state_data (hx : x.IsData) (hs : st ≠ .synSent) :
    nextState st x.flags = st := by
  have hsyn : x.flags ≠ { syn := true } := by
    intro he
    have := hx.syn
    rw [he] at this
    cases this
  cases st <;> simp_all [nextState, hx.fin]

theorem Wf.queued (h : Wf v pc) (hx : x ∈ v.queue) :
    pc.phase = .connecting ∧ x.flags = { syn := true } ∧ nextState v.state x.flags = .synSent ∨
    pc.phase = .sending ∧ x.IsData ∧ nextState v.state x.flags = v.state ∨
    pc.phase = .closing ∧ x.flags = { ack := true, fin := true } := by
  rcases Pc.allows_cases (h.allows x hx) with ⟨hp, hf⟩ | ⟨hp, hd⟩ | hfin
  · refine .inl ⟨hp, hf, ?_⟩
    rw [hf]
    rcases h.handshake hp (ne_nil_of_mem hx) with hs | hs <;> rw [hs] <;> rfl
  · refine .inr (.inl ⟨hp, hd, next_state_data hd fun hs => ?_⟩)
    rw [h.connecting hs] at hp
    cases hp
  · exact .inr (.inr hfin)

theorem Wf.data (h : Wf v pc) (hp : pc.phase = .sending) (hx : x ∈ v.queue) :
    x.IsData ∧ nextState v.state x.flags = v.state := by
  rcases h.queued hx with ⟨hc, -⟩ | ⟨-, hd⟩ | ⟨hc, -⟩
  · rw [hp] at hc
    cases hc
  · exact hd
  · rw [hp] at hc
    cases hc

theorem Wf.handshake_send (h : Wf v pc) (hx : x ∈ v.queue) (hs : v.state = .synSent) :
    nextState v.state x.flags = .synSent := by
  rcases h.queued hx with ⟨-, -, hn⟩ | ⟨hp, -⟩ | ⟨hp, -⟩
  · exact hn
  · rw [h.connecting hs] at hp
    cases hp
  · rw [h.connecting hs] at hp
    cases hp

theorem admits_fin (h : Phase.closing.admits st = true) :
    Phase.closing.admits (nextState st { ack := true, fin := true }) = true := by
  revert h
  cases st <;> decide

theorem Wf.send (h : Wf v pc) (hx : x ∈ v.queue) :
    Wf { v with state := nextState v.state x.flags } pc := by
  have hq : v.queue ≠ [] := ne_nil_of_mem hx
  rcases h.queued hx with ⟨hp, -, hn⟩ | ⟨-, -, hn⟩ | ⟨hp, hf⟩
  · rw [hn]
    exact ⟨h.nodup, h.fresh, h.head, h.allows, by rw [hp]; rfl, fun _ _ => .inr rfl, fun _ => hq,
      h.mss, h.locals⟩
  · rw [hn]
    exact h
  · have hs := h.admits
    rw [hp] at hs
    refine ⟨h.nodup, h.fresh, h.head, h.allows, ?_, ?_, ?_, h.mss, h.locals⟩
    · rw [hp, hf]
      exact admits_fin hs
    · intro hc
      rw [hp] at hc
      cases hc
    · exact fun _ => hq

theorem Wf.filter (h : Wf v pc) (p : SkBuff → Bool) (head : Option Nat)
    (hs : v.state ≠ .synSent)
    (hh : ∀ a, head = some a → ∃ x ∈ v.queue.filter p, x.addr = a) :
    Wf { v with queue := v.queue.filter p, head := head } pc := by
  have hsub := filter_sublist (p := p) (l := v.queue)
  refine ⟨(hsub.map SkBuff.addr).nodup h.nodup, fun x hx => h.fresh x (hsub.subset hx), hh,
    fun x hx => h.allows x (hsub.subset hx), h.admits, ?_, fun hst => absurd hst hs, h.mss, h.locals⟩
  intro hp hq
  refine h.handshake hp ?_
  rintro hn
  refine hq ?_
  rw [hn]
  rfl

theorem ackSendHead_mem {a : Nat}
    (hh : ∀ a, s.sendHead = some a → ∃ x ∈ s.txQueue, x.addr = a) (he : ackSendHead s = some a) :
    ∃ x ∈ s.txQueue, x.addr = a := by
  unfold ackSendHead at he
  split at he
  · obtain ⟨x, hx, rfl⟩ := Option.map_eq_some_iff.mp he
    exact ⟨x, mem_of_mem_tail (mem_of_head? hx), rfl⟩
  · exact hh a he

theorem acked_head {all : Bool} {a : Nat}
    (hh : ∀ a, s.sendHead = some a → ∃ x ∈ s.txQueue, x.addr = a)
    (ok : tcpAcceptAck s n all = .ok t) (he : ackSendHead s = some a) :
    ∃ x ∈ s.txQueue.filter (fun x => !ackRemoves n all x), x.addr = a := by
  obtain ⟨x, hx, rfl⟩ := ackSendHead_mem hh he
  refine ⟨x, mem_filter.mpr ⟨hx, ?_⟩, rfl⟩
  cases hr : ackRemoves n all x with
  | false => rfl
  | true => exact absurd he ((accept_ok ok).1 x hx hr)

theorem Wf.accept (h : Wf s.view pc)
    (hs : s.state ≠ .synSent) (ok : tcpAcceptAck s n false = .ok u) : Wf u.view pc := by
  obtain ⟨-, r, rto, srtt, rttvar, rfl, -⟩ := accept_ok ok
  refine (h.filter (fun x => !ackRemoves n false x) (ackSendHead s) hs ?_).congr rfl
  exact fun a => acked_head h.head ok

theorem Wf.ackMove (h : Wf s.view pc)
    (hc : connected s.state = true) (hm : AckMove s seg u) : Wf u.view pc := by
  have hs := connected_ne_synSent hc
  cases hm with
  | idle same => rwa [same.view]
  | accepted takes new ok =>
    have := Wf.accept (s := tcpCalculateCongestion s seg.ackNumber) h hs ok
    unfold takeWindow
    split
    · exact this.congr rfl
    · exact this
  | updated takes old update =>
    unfold updateWindow
    split
    · exact (h.flush hs).congr rfl
    · exact h.congr rfl
  | resent third same first =>
    rw [view_send, SendView.send_again, same.view]
    exact h.send (first_mem first)

theorem Wf.closing_phase (h : Wf v pc)
    (hs : v.state = .finWait1 ∨ v.state = .finWait2 ∨ v.state = .closing ∨ v.state = .timeWait) :
    pc.phase = .closing := by
  have := h.admits
  cases hp : pc.phase
  · rcases hs with hs | hs | hs | hs <;> simp [hs, hp, Phase.admits] at this
  · rcases hs with hs | hs | hs | hs <;> simp [hs, hp, Phase.admits] at this
  · rcases hs with hs | hs | hs | hs <;> simp [hs, hp, Phase.admits] at this
  · rfl

theorem Wf.finMove (h : Wf s.view pc) (hm : FinMove s t) : Wf t.view pc := by
  cases hm with
  | idle same => rwa [same.view]
  | finWait2 hs finAcked =>
    refine h.restate .finWait2 (by simp [Sock.view, hs, connected, synchronized]) ?_ (.inr rfl)
    rw [h.closing_phase (.inl hs)]
    rfl
  | timeWait hs finAcked =>
    refine h.restate .timeWait (by simp [Sock.view, hs, connected, synchronized]) ?_ (.inr rfl)
    rw [h.closing_phase (.inr (.inr (.inl hs)))]
    rfl

theorem Wf.replyMove (h : Wf s.view pc)
    (hm : ReplyMove s seg t) : Wf t.view pc := by
  cases hm with
  | quiet same => rwa [same.view]
  | passive fin hs data view mute =>
    rw [view]
    refine h.restate .closeWait (by simp [Sock.view, hs, connected, synchronized]) ?_ (.inr rfl)
    cases pc.phase <;> rfl
  | answered fin hs isFin armed view mute wire =>
    rw [view]
    refine (h.restate .lastAck ?_ ?_ (.inr rfl)).congr rfl
    · rcases hs with ⟨hs, -⟩ | hs <;> simp [Sock.view, hs, connected, synchronized]
    · cases pc.phase <;> rfl
  | closing fin hs view mute =>
    rw [view]
    refine h.restate .closing (by simp [Sock.view, hs, connected, synchronized]) ?_ (.inr rfl)
    rw [h.closing_phase (.inl hs)]
    rfl
  | timeWait fin hs view mute =>
    rw [view]
    refine (h.restate .timeWait ?_ ?_ (.inr rfl)).congr rfl
    · simp [Sock.view, hs, connected, synchronized]
    · rw [h.closing_phase (.inr (.inl hs))]
      rfl
  | again fin hs view mute =>
    rw [view]
    exact h.congr rfl

theorem Wf.opened {b : Sock} {wnd : UInt32} (h : Wf s.view pc)
    (hs : s.state = .synSent) (after : s.sndIss < n)
    (base : b.view = { s.view with nxt := n, wnd := wnd }) (ok : tcpAcceptAck b n false = .ok u) :
    Wf { u.view with state := .established } pc ∧ u.txQueue = [] := by
  have hp := h.connecting hs
  have hb : Wf b.view pc := by
    rw [base]
    exact h.congr rfl
  have hq : b.txQueue.filter (fun x => !ackRemoves n false x) = [] := by
    rw [filter_eq_nil_iff]
    intro x hx
    have hiss : b.sndIss = s.sndIss := congrArg SendView.iss base
    have hend : x.endSeq = b.sndIss := by
      have hall := hb.allows x hx
      cases pc with
      | transmit k | transmitLocked k | transmitSleep k =>
        cases k with
        | connect => exact hall.2.2
        | _ => cases hp
      | _ => cases hp
    simp [ackRemoves, hend, hiss, after]
  have hhead : ackSendHead b = none := by
    cases he : ackSendHead b with
    | none => rfl
    | some a =>
      obtain ⟨x, hx, -⟩ := acked_head hb.head ok he
      rw [hq] at hx
      cases hx
  obtain ⟨-, r, rto, srtt, rttvar, rfl, -⟩ := accept_ok ok
  have hv : (acked b n false r rto srtt rttvar).txQueue = [] := hq
  refine ⟨⟨?_, ?_, ?_, ?_, ?_, ?_, nofun, hb.mss, hb.locals⟩, hq⟩
  · simp [Sock.view, hv]
  · simp [Sock.view, hv]
  · intro a ha
    change ackSendHead b = some a at ha
    rw [hhead] at ha
    cases ha
  · simp [Sock.view, hv]
  · rw [hp]
    rfl
  · intro _ hn
    exact absurd hv hn

theorem Wf.handled (h : Wf s.view pc)
    (hm : Handled s seg t) : Wf t.view pc := by
  cases hm with
  | quiet same => rwa [same.view]
  | rejected hs view mute =>
    rw [view]
    exact h.close
  | refused hs => exact h.close.congr rfl
  | opened hs after sent base wire ok view mute =>
    rw [view]
    exact (h.opened hs after base ok).1
  | flushed hs why view mute =>
    rw [view]
    have hn : s.view.state ≠ .synSent := connected_ne_synSent hs
    exact (h.flush hn).close.congr rfl
  | aborted hs why view mute =>
    rw [view]
    exact h.close.congr rfl
  | closed hs acceptable flag syn rst finAcked view mute =>
    rw [view]
    exact h.close.congr rfl
  | processed hs acceptable flag syn rst ack fin reply =>
    exact ((h.ackMove hs ack).finMove fin).replyMove reply

theorem Wf.no_queue (h : Wf v pc) (hn : ∀ x, ¬ pc.allows v.iss x) :
    v.queue = [] := by
  cases hq : v.queue with
  | nil => rfl
  | cons x rest => exact absurd (h.allows x (by simp [hq])) (hn x)

theorem Wf.goto (h : Wf v pc) (pc' : Pc) (hq : v.queue = [])
    (ha : pc'.phase.admits v.state = true) (hl : ∀ l, pc'.locals = some l → l.Ok) : Wf v pc' :=
  ⟨h.nodup, h.fresh, h.head, by simp [hq], ha, fun _ hn => absurd hq hn, h.syn, h.mss, hl⟩

def SendView.enqueue (v : SendView) (x : SkBuff) : SendView :=
  { v with
    head := if v.head.isNone then some x.addr else v.head
    queue := v.queue ++ [x]
    addr := v.addr + 1 }

theorem Wf.enqueue (h : Wf v pc) (hx : pc.allows v.iss x)
    (ha : x.addr = v.addr) (hs : pc.phase = .connecting → v.state = .close ∨ v.state = .synSent) :
    Wf (v.enqueue x) pc := by
  refine ⟨?_, ?_, ?_, ?_, h.admits, fun hp _ => hs hp, ?_, h.mss, h.locals⟩
  · simp only [SendView.enqueue, map_append, map_cons, map_nil]
    refine nodup_append.mpr ⟨h.nodup, by simp, ?_⟩
    intro a hmem b hb
    obtain ⟨y, hy, rfl⟩ := mem_map.mp hmem
    simp only [mem_cons, not_mem_nil, or_false] at hb
    subst hb
    exact Nat.ne_of_lt (ha ▸ h.fresh y hy)
  · intro y hy
    change y.addr < v.addr + 1
    rcases mem_append.mp hy with hy | hy
    · exact Nat.lt_succ_of_lt (h.fresh y hy)
    · simp only [mem_cons, not_mem_nil, or_false] at hy
      subst hy
      omega
  · intro a hh
    change (if v.head.isNone then some x.addr else v.head) = some a at hh
    split at hh
    · exact ⟨x, mem_append_right _ (.head _), Option.some.inj hh⟩
    · obtain ⟨y, hy, he⟩ := h.head a hh
      exact ⟨y, mem_append_left _ hy, he⟩
  · intro y hy
    rcases mem_append.mp hy with hy | hy
    · exact h.allows y hy
    · simp only [mem_cons, not_mem_nil, or_false] at hy
      subst hy
      exact hx
  · intro _
    simp [SendView.enqueue]

theorem enqueue_view (s : Sock) (x : SkBuff) : (tcpTxQueueAddSkb s x).view = s.view.enqueue x := rfl

theorem following_mem {q : List SkBuff} {h : Nat} (hx : following q h = some x) : x ∈ q :=
  (dropWhile_suffix _).subset (mem_of_mem_tail (mem_of_head? hx))

theorem Wf.transmit {h : Nat} (hw : Wf s.view pc)
    (ok : transmitHead s h = .ok t) : Wf t.view pc := by
  obtain ⟨skb, hf, -, hv, -⟩ := transmitHead_ok ok
  have hs := hw.send (mem_of_find?_eq_some hf)
  rw [hv]
  refine ⟨hs.nodup, hs.fresh, ?_, hs.allows, hs.admits, hs.handshake, hs.syn, hs.mss, hs.locals⟩
  intro a ha
  obtain ⟨x, hx, rfl⟩ := Option.map_eq_some_iff.mp ha
  exact ⟨x, following_mem hx, rfl⟩

theorem Wf.connect {seed : UInt32} (h : Wf s.view .user) :
    Wf (tcpConnect s seed).view (.transmit .connect) := by
  have hq : s.txQueue = [] := h.no_queue nofun
  have hb : Wf { tcpCreateTcb { s with sockState := .connecting } with sndIss := (randR seed).1 }.view
      (.transmit .connect) :=
    ⟨h.nodup, h.fresh, h.head, by simp [Sock.view, tcpCreateTcb, hq], rfl, fun _ _ => .inl rfl, nofun,
      by change ((ethDataLen - (20 + 20)) / 4 * 4).toNat ≤ 1460; decide, nofun⟩
  exact hb.enqueue ⟨rfl, rfl, by simp [tcpCreateSkb, Sock.view]⟩ rfl fun _ => .inl rfl

theorem admits_closing (h : Phase.idle.admits st = true) :
    Phase.closing.admits st = true := by
  revert h
  cases st <;> decide

theorem Wf.shutdown (h : Wf s.view .user) :
    Wf (tcpShutdown s).view (.transmit .shutdown) := by
  have hq : s.txQueue = [] := h.no_queue nofun
  have hb : Wf s.view (.transmit .shutdown) := by
    exact h.goto _ hq (admits_closing h.admits) nofun
  exact hb.enqueue ⟨rfl, rfl, by simp [tcpCreateSkb]⟩ rfl nofun

theorem Wf.probe {l : SendLocals} (h : Wf s.view (.sendLoop l))
    (more : l.sent < l.msg.length) (ok : queueProbe s l = .ok t) :
    Wf t.view (.transmit (.probe l)) := by
  obtain ⟨-, -, rfl⟩ := queueProbe_ok ok
  have hb : Wf { s with persistTimer := some (s.now + 1000) }.view (.transmit (.probe l)) :=
    Wf.congr (h.goto _ (h.no_queue nofun) h.admits h.locals) rfl
  refine hb.enqueue ⟨⟨rfl, rfl, rfl, rfl⟩, ?_⟩ rfl nofun
  have : ((l.msg.drop l.sent).take 1).length = 1 := by
    simp only [length_take, length_drop]
    omega
  simp only [tcpCreateSkb, this]
  simpa using this

theorem Wf.chunk {l : SendLocals} {mwnd iwnd : Nat} (h : Wf s.view (.sendChunk l mwnd iwnd))
    (le : l.sent + chunkLen l mwnd ≤ l.msg.length) : Wf (queueChunk s l mwnd).view
      (.sendChunk { l with sent := l.sent + chunkLen l mwnd } mwnd (iwnd + chunkLen l mwnd)) := by
  have hb : Wf s.view
      (.sendChunk { l with sent := l.sent + chunkLen l mwnd } mwnd (iwnd + chunkLen l mwnd)) := by
    refine ⟨h.nodup, h.fresh, h.head, h.allows, h.admits, nofun, h.syn, h.mss, ?_⟩
    rintro _ ⟨⟩
    have hl := h.locals l rfl
    exact ⟨hl.mmss, le, hl.short⟩
  exact hb.enqueue ⟨rfl, rfl, rfl, rfl⟩ rfl nofun

theorem admits_idle (h : Phase.connecting.admits st = true) (hs : st ≠ .synSent) :
    Phase.idle.admits st = true := by
  revert h hs
  cases st <;> decide

theorem Wf.transmitReturn {s : Sys} {k : Caller} (h : Wf s.sk.view (.transmit k))
    (empty : s.sk.txQueue = []) : Wf (transmitReturn s k).sk.view (transmitReturn s k).pc := by
  cases k with
  | connect =>
    have hu := h.goto .user empty (admits_idle h.admits fun he => h.syn he empty) nofun
    exact hu.congr rfl
  | probe l =>
    have hc := h.goto (.transmit (.chunks l)) empty h.admits h.locals
    exact hc.congr rfl
  | chunks l => exact h.goto _ empty h.admits h.locals
  | shutdown => exact h.goto _ empty h.admits nofun

/-- Only a listening socket comes to SYN_RECV, and there is none here. -/
theorem Wf.reached (h : Wf v pc) : v.state ≠ .synRecv := by
  intro he
  have := h.admits
  rw [he] at this
  cases hp : pc.phase <;> simp [hp, Phase.admits] at this

theorem Wf.moves {s t : Sys} {e : Event} (h : Wf s.sk.view s.pc) (hm : Moves s e t) :
    Wf t.sk.view t.pc := by
  cases hm with
  | refused hp => exact h
  | connect seed hp => exact Wf.connect (hp ▸ h)
  | sendmsg msg hp short =>
    rw [hp] at h
    refine h.goto _ (h.no_queue nofun) h.admits ?_
    rintro _ ⟨⟩
    refine ⟨?_, Nat.zero_le _, short⟩
    have hmss : s.sk.sndMss.toNat ≤ 1460 := h.mss
    change (if s.sk.sndMss ≤ s.sk.rcvMss then s.sk.sndMss else s.sk.rcvMss).toNat ≤ 1460
    split
    · exact hmss
    · rename_i hle
      exact Nat.le_trans (Nat.le_of_lt (UInt32.lt_iff_toNat_lt.mp (UInt32.not_le.mp hle))) hmss
  | recvmsg msgLen hp =>
    rw [hp] at h
    exact h.goto _ (h.no_queue nofun) h.admits nofun
  | shutdown hp => exact Wf.shutdown (hp ▸ h)
  | sendReturn hp done =>
    rw [hp] at h
    exact h.goto _ (h.no_queue nofun) h.admits nofun
  | probe hp more hs ok => exact Wf.probe (hp ▸ h) more ok
  | round hp more hs pos =>
    rw [hp] at h
    exact h.goto _ (h.no_queue nofun) h.admits h.locals
  | chunk hp lt le => exact Wf.chunk (hp ▸ h) le
  | chunksDone hp ge =>
    rw [hp] at h
    exact ⟨h.nodup, h.fresh, h.head, h.allows, h.admits, nofun, h.syn, h.mss, h.locals⟩
  | transmitReturn hp empty => exact Wf.transmitReturn (hp ▸ h) empty
  | lock hp full =>
    rw [hp] at h
    exact ⟨h.nodup, h.fresh, h.head, h.allows, h.admits, h.handshake, h.syn, h.mss, h.locals⟩
  | transmit hp head avail ok => exact h.transmit ok
  | sleep hp =>
    rw [hp] at h
    exact ⟨h.nodup, h.fresh, h.head, h.allows, h.admits, h.handshake, h.syn, h.mss, h.locals⟩
  | awake hp =>
    rw [hp] at h
    exact ⟨h.nodup, h.fresh, h.head, h.allows, h.admits, h.handshake, h.syn, h.mss, h.locals⟩
  | recvReturn hp | recvWait hp | recvAwake hp =>
    rw [hp] at h
    exact ⟨h.nodup, h.fresh, h.head, h.allows, h.admits, nofun, h.syn, h.mss, nofun⟩
  | shutdownReturn hp hs =>
    rw [hp] at h
    refine h.goto _ (h.no_queue nofun) ?_ nofun
    change Phase.idle.admits s.sk.state = true
    rw [hs]
    rfl
  | shutdownWait hp | shutdownAwake hp =>
    rw [hp] at h
    exact ⟨h.nodup, h.fresh, h.head, h.allows, h.admits, nofun, h.syn, h.mss, nofun⟩
  | receive unlocked ok => exact h.handled (handler_handled h.reached ok)
  | retransmitTimer unlocked armed ok =>
    obtain ⟨skb, rest, n, hq, -, hv, -⟩ := retransmit_ok ok
    have hs := h.send (first_mem hq)
    rw [hv]
    refine ⟨hs.nodup, hs.fresh, ?_, hs.allows, hs.admits, hs.handshake, hs.syn, hs.mss, hs.locals⟩
    rintro _ ⟨⟩
    exact ⟨skb, first_mem hq, rfl⟩
  | persistTimer unlocked armed ok =>
    rcases persist_ok ok with ⟨-, hv, -⟩ | ⟨-, skb, rest, n, hq, -, hv, -⟩
    · rw [hv]
      exact h.congr rfl
    · rw [hv]
      exact (h.send (first_mem hq)).congr rfl
  | mslTimer unlocked armed ok =>
    obtain ⟨-, hv, -⟩ := msl_ok ok
    rw [hv]
    exact h.close.congr rfl
  | tick ms unlocked => exact h
  | wake unlocked => exact h

theorem Wf.start : Wf (Sys.sk {}).view (Sys.pc {}) :=
  ⟨nodup_nil, nofun, nofun, nofun, rfl, nofun, nofun, by decide, nofun⟩

/-- Every state of every run of a fresh socket is well formed. -/
theorem Wf.run {s : Sys} {ok : Sys → Event → Prop} (h : Run advance ok {} s) : Wf s.sk.view s.pc := by
  refine h.invariant (I := fun s => Wf s.sk.view s.pc) Wf.start ?_
  intro a e b ha _ hb
  exact ha.moves (moves_of_advance hb)

end Mos.Tcp

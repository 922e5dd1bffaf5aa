import Mos.Proofs.Frame
import Mos.Proofs.SendReliable

namespace Mos.Tcp
open Machine

def Begun (wire : List SkBuff) : Prop := ∃ x ∈ wire, x.occupies = true

structure Follows (nxt : UInt32) (wire : List SkBuff) : Prop where
  above : ∀ x ∈ wire, x.occupies = true → x.endSeq < nxt
  last : Begun wire → ∃ x ∈ wire, x.occupies = true ∧ x.endSeq + 1 = nxt

theorem Follows.nil (nxt : UInt32) : Follows nxt [] := by
  refine ⟨List.forall_mem_nil _, fun hb => ?_⟩
  obtain ⟨x, hx, -⟩ := hb
  cases hx

variable {w w' wire : List SkBuff} {n : UInt32} {x : SkBuff} {v : SendView} {pc : Pc} {s t : Sock}
    {seg : Segment}

theorem Begun.mute (h : Begun w) (hm : Mute w w') : Begun w' := by
  obtain ⟨x, hx, ho⟩ := h
  exact ⟨x, hm.mono hx, ho⟩

theorem Begun.of_mute (h : Begun w') (hm : Mute w w') : Begun w := by
  obtain ⟨x, hx, ho⟩ := h
  exact ⟨x, hm.mem hx ho, ho⟩

theorem Follows.mute (h : Follows n w) (hm : Mute w w') :
    Follows n w' := by
  refine ⟨fun x hx ho => h.above x (hm.mem hx ho) ho, fun hb => ?_⟩
  obtain ⟨x, hx, ho, he⟩ := h.last (hb.of_mute hm)
  exact ⟨x, hm.mono hx, ho, he⟩

theorem Follows.resend (h : Follows n w) (hb : Begun w)
    (hx : x.occupies = true → x.endSeq < n) : Follows n (x :: w) := by
  constructor
  · intro y hy ho
    rcases List.mem_cons.mp hy with rfl | hy
    · exact hx ho
    · exact h.above y hy ho
  · intro _
    obtain ⟨y, hy, ho, he⟩ := h.last hb
    exact ⟨y, List.mem_cons_of_mem _ hy, ho, he⟩

theorem Follows.send (h : Follows n w)
    (ho : x.occupies = true) (hn : n.toNat ≤ x.endSeq.toNat + 1) (hw : x.endSeq.toNat + 1 < 2 ^ 32) :
    Follows (x.endSeq + 1) (x :: w) := by
  have hs : (x.endSeq + 1).toNat = x.endSeq.toNat + 1 := by
    simp only [UInt32.toNat_add, UInt32.toNat_one]
    omega
  constructor
  · intro y hy hyo
    rw [UInt32.lt_iff_toNat_lt, hs]
    rcases List.mem_cons.mp hy with rfl | hy
    · omega
    · have := UInt32.lt_iff_toNat_lt.mp (h.above y hy hyo)
      omega
  · exact fun _ => ⟨x, .head _, ho, rfl⟩

def firstSent (s : Sock) : Bool :=
  s.txQueue.head?.all fun x => !x.occupies || x.endSeq < s.sndNxt

/-- What `tcp_transmit` sends next follows everything it has sent, and does not
reach the end of the sequence space. -/
def headFollows (s : Sock) (h : Nat) : Bool :=
  (s.txQueue.find? (fun x => x.addr == h)).all fun x => !x.occupies ||
    (s.sndNxt.toNat ≤ x.endSeq.toNat + 1 && x.endSeq.toNat + 1 < 2 ^ 32)

def resendsFirst (s : Sock) (seg : Segment) : Bool :=
  acceptableSegment s seg && seg.flags.ack && fastRetransmits s seg

/-- `tcp_transmit` does not go back to sent segments, and the timers and fast
retransmit send only segments it has sent. -/
def nextFollows (s : Sys) : Event → Bool
  | .app =>
    match s.pc, s.sk.sendHead with
    | .transmitLocked _, some h => tcpSenderAvailableWindow s.sk == 0 || headFollows s.sk h
    | _, _ => true
  | .retransmitTimer => firstSent s.sk
  | .persistTimer => s.sk.sndWnd != 0 || firstSent s.sk
  | .receive seg _ => (!resendsFirst s.sk seg || firstSent s.sk) &&
      (!seg.flags.fin || s.sk.sndNxt.toNat + 1 < 2 ^ 32)
  | _ => true

structure Next (v : SendView) (wire : List SkBuff) (pc : Pc) : Prop where
  follows : Follows v.nxt wire
  begun : Begun wire ∨
    v.retransmit = none ∧ v.persist = none ∧ (v.state = .close ∨ v.state = .unset)
  connecting : pc.phase = .connecting → v.queue ≠ [] → v.nxt = 1 ∨ v.nxt.toNat = v.iss.toNat + 1
  syn : v.state = .synSent → v.nxt.toNat = v.iss.toNat + 1

theorem Next.same {w : SendView} {wire' : List SkBuff} (h : Next v wire pc)
    (mute : Mute wire wire') (nxt : w.nxt = v.nxt) (iss : w.iss = v.iss)
    (queue : w.queue ≠ [] → v.queue ≠ []) (syn : w.state = .synSent → v.state = .synSent)
    (begun : Begun wire ∨
      w.retransmit = none ∧ w.persist = none ∧ (w.state = .close ∨ w.state = .unset)) :
    Next w wire' pc := by
  refine ⟨nxt ▸ h.follows.mute mute, ?_, ?_, ?_⟩
  · rcases begun with hb | hb
    · exact .inl (hb.mute mute)
    · exact .inr hb
  · intro hp hq
    rw [nxt, iss]
    exact h.connecting hp (queue hq)
  · intro hs
    rw [nxt, iss]
    exact h.syn (syn hs)

theorem Next.quiet (h : Next s.view s.wire pc) (hq : Quiet s t) :
    Next t.view t.wire pc := by
  rw [hq.view]
  exact h.same hq.wire rfl rfl id id h.begun

theorem Next.begun_connected (h : Next v wire pc)
    (hc : connected v.state = true ∨ v.state = .synSent) : Begun wire := by
  rcases h.begun with hb | ⟨-, -, hs | hs⟩
  · exact hb
  · simp [hs, connected, synchronized] at hc
  · simp [hs, connected, synchronized] at hc

theorem Next.syn_number
    (h : Next v wire pc) (hw : Wf v pc) (hp : pc.phase = .connecting) (hx : x ∈ v.queue)
    (hs : x.occupies = true → x.endSeq < v.nxt) : v.nxt.toNat = v.iss.toNat + 1 := by
  have hall := hw.allows x hx
  obtain ⟨hsyn, hend⟩ : x.flags.syn = true ∧ x.endSeq = v.iss := by
    cases pc with
    | transmit k | transmitLocked k | transmitSleep k =>
      cases k with
      | connect => exact ⟨by rw [hall.1], hall.2.2⟩
      | _ => cases hp
    | _ => cases hp
  have hlt := hs (by simp [SkBuff.occupies, hsyn])
  rw [hend, UInt32.lt_iff_toNat_lt] at hlt
  rcases h.connecting hp (List.ne_nil_of_mem hx) with h1 | h1
  · rw [h1] at hlt ⊢
    simp only [UInt32.toNat_one] at hlt ⊢
    omega
  · exact h1

theorem Next.resend (h : Next v wire pc)
    (hw : Wf v pc) (hb : Begun wire) (hx : x ∈ v.queue)
    (hs : x.occupies = true → x.endSeq < v.nxt) :
    Next { v with state := nextState v.state x.flags } (x :: wire) pc := by
  refine ⟨h.follows.resend hb hs, .inl ?_, h.connecting, fun hst => ?_⟩
  · obtain ⟨y, hy, ho⟩ := hb
    exact ⟨y, List.mem_cons_of_mem _ hy, ho⟩
  · exact h.syn_number hw ((hw.send hx).connecting hst) hx hs

theorem firstSent_head {rest : List SkBuff} (h : firstSent s = true)
    (hq : s.txQueue = x :: rest) (ho : x.occupies = true) : x.endSeq < s.sndNxt := by
  simpa [firstSent, hq, ho] using h

theorem Next.ackMove {u : Sock} (h : Next s.view s.wire pc)
    (hw : Wf s.view pc) (hc : connected s.state = true)
    (hf : fastRetransmits s seg = true → firstSent s = true) (hm : AckMove s seg u) :
    Next u.view u.wire pc ∧ u.sndNxt = s.sndNxt := by
  have hb : Begun s.wire := h.begun_connected (.inl hc)
  have hsub := hm.framed.queue
  cases hm with
  | idle same => exact ⟨h.quiet same, congrArg SendView.nxt same.view⟩
  | accepted takes new ok =>
    obtain ⟨-, r, rto, srtt, rttvar, rfl, -⟩ := accept_ok ok
    have hq : (takeWindow (acked (tcpCalculateCongestion s seg.ackNumber) seg.ackNumber false r rto srtt
        rttvar) seg).view.queue ≠ [] → s.view.queue ≠ [] :=
      fun hne he => hne (List.eq_nil_of_sublist_nil (he ▸ hsub))
    unfold takeWindow at hq ⊢
    split
    · rename_i hn
      rw [if_pos hn] at hq
      exact ⟨h.same (.refl _) rfl rfl hq id (.inl hb), rfl⟩
    · rename_i hn
      rw [if_neg hn] at hq
      exact ⟨h.same (.refl _) rfl rfl hq id (.inl hb), rfl⟩
  | updated takes old update =>
    unfold updateWindow
    split
    · exact ⟨h.same (.refl _) rfl rfl (absurd rfl) id (.inl hb), rfl⟩
    · exact ⟨h.same (.refl _) rfl rfl id id (.inl hb), rfl⟩
  | @resent u skb rest third same first =>
    have hmem : skb ∈ u.view.queue := by
      rw [same.view]
      exact first_mem first
    have hn : u.sndNxt = s.sndNxt := congrArg SendView.nxt same.view
    have hwu : Wf u.view pc := by rwa [same.view]
    refine ⟨?_, hn⟩
    rw [view_send, SendView.send_again]
    refine (h.quiet same).resend hwu (hb.mute same.wire) hmem fun ho => ?_
    change skb.endSeq < u.sndNxt
    rw [hn]
    exact firstSent_head (hf third) first ho

theorem Next.finMove (h : Next s.view s.wire pc) (hm : FinMove s t) :
    Next t.view t.wire pc ∧ t.sndNxt = s.sndNxt := by
  cases hm with
  | idle same => exact ⟨h.quiet same, congrArg SendView.nxt same.view⟩
  | finWait2 hs finAcked =>
    have hb := h.begun_connected (.inl (by simp [Sock.view, hs, connected, synchronized]))
    exact ⟨h.same (.refl _) rfl rfl id (fun hc => by cases hc) (.inl hb), rfl⟩
  | timeWait hs finAcked =>
    have hb := h.begun_connected (.inl (by simp [Sock.view, hs, connected, synchronized]))
    exact ⟨h.same (.refl _) rfl rfl id (fun hc => by cases hc) (.inl hb), rfl⟩

theorem Next.replyMove (h : Next s.view s.wire pc)
    (hw : Wf s.view pc) (hc : connected s.state = true)
    (hf : seg.flags.fin = true → s.sndNxt.toNat + 1 < 2 ^ 32) (hm : ReplyMove s seg t) :
    Next t.view t.wire pc ∧ s.sndNxt ≤ t.sndNxt := by
  have hb : Begun s.wire := h.begun_connected (.inl hc)
  cases hm with
  | quiet same =>
    exact ⟨h.quiet same, UInt32.le_of_eq (congrArg SendView.nxt same.view).symm⟩
  | passive _ _ _ view mute | closing _ _ view mute | timeWait _ _ view mute =>
    refine ⟨?_, UInt32.le_of_eq (congrArg SendView.nxt view).symm⟩
    rw [view]
    exact h.same mute rfl rfl id (fun hc => by cases hc) (.inl hb)
  | again fin hs view mute =>
    refine ⟨?_, UInt32.le_of_eq (congrArg SendView.nxt view).symm⟩
    rw [view]
    exact h.same mute rfl rfl id id (.inl hb)
  | @answered x r w fin hs isFin armed view mute wire =>
    have hn := hf fin
    have ho : x.occupies = true := by simp [SkBuff.occupies, isFin.flags]
    have hs1 : (s.sndNxt + 1).toNat = s.sndNxt.toNat + 1 := by
      simp only [UInt32.toNat_add, UInt32.toNat_one]
      omega
    have hfol : Follows (s.sndNxt + 1) (x :: w) := by
      have := (h.follows.mute mute).send ho
      rw [isFin.endSeq] at this
      exact this (Nat.le_succ _) hn
    constructor
    · rw [view, wire]
      refine ⟨hfol, .inl ⟨x, .head _, ho⟩, fun hp hq => absurd (hw.empty hc hp) hq,
        fun hc => by cases hc⟩
    · have he : t.sndNxt = s.sndNxt + 1 := congrArg SendView.nxt view
      rw [he, UInt32.le_iff_toNat_le]
      omega

theorem Next.handled (h : Next s.view s.wire pc)
    (hw : Wf s.view pc) (hr : resendsFirst s seg = true → firstSent s = true)
    (hf : seg.flags.fin = true → s.sndNxt.toNat + 1 < 2 ^ 32) (hm : Handled s seg t) :
    Next t.view t.wire pc ∧ s.sndNxt ≤ t.sndNxt := by
  cases hm with
  | quiet same =>
    exact ⟨h.quiet same, UInt32.le_of_eq (congrArg SendView.nxt same.view).symm⟩
  | rejected hs view mute =>
    refine ⟨?_, UInt32.le_of_eq (congrArg SendView.nxt view).symm⟩
    rw [view]
    exact h.same mute rfl rfl id nofun (.inl (h.begun_connected (.inr hs)))
  | refused hs =>
    exact ⟨h.same (.refl _) rfl rfl id nofun (.inl (h.begun_connected (.inr hs))), UInt32.le_refl _⟩
  | @opened b u _ hs after sent base wire ok view mute =>
    have hb := h.begun_connected (.inr hs)
    have hempty : u.txQueue = [] := (hw.opened hs after base ok).2
    have hsyn : s.sndNxt.toNat = s.sndIss.toNat + 1 := h.syn hs
    have hack : seg.ackNumber = s.sndNxt := by
      rw [UInt32.lt_iff_toNat_lt] at after
      rw [UInt32.le_iff_toNat_le] at sent
      exact UInt32.toNat_inj.mp (by omega)
    obtain ⟨-, r, rto, srtt, rttvar, rfl, -⟩ := accept_ok ok
    have hiss : b.sndIss = s.sndIss := congrArg SendView.iss base
    have hn : (acked b seg.ackNumber false r rto srtt rttvar).sndNxt = s.sndNxt :=
      (congrArg SendView.nxt base).trans hack
    constructor
    · rw [view]
      have hm : Mute b.wire t.wire := mute
      refine h.same (wire ▸ hm) hn
        hiss (absurd hempty) nofun (.inl hb)
    · exact UInt32.le_of_eq ((congrArg SendView.nxt view).trans hn).symm
  | flushed hs why view mute =>
    refine ⟨?_, UInt32.le_of_eq (congrArg SendView.nxt view).symm⟩
    rw [view]
    exact h.same mute rfl rfl (absurd rfl) nofun (.inl (h.begun_connected (.inl hs)))
  | aborted hs why view mute =>
    refine ⟨?_, UInt32.le_of_eq (congrArg SendView.nxt view).symm⟩
    have hc : connected s.state = true := by rcases hs with hs | hs | hs <;> rw [hs] <;> rfl
    rw [view]
    exact h.same mute rfl rfl id nofun (.inl (h.begun_connected (.inl hc)))
  | closed hs acceptable flag syn rst finAcked view mute =>
    refine ⟨?_, UInt32.le_of_eq (congrArg SendView.nxt view).symm⟩
    have hc : connected s.state = true := by rw [hs]; rfl
    rw [view]
    exact h.same mute rfl rfl id nofun (.inl (h.begun_connected (.inl hc)))
  | @processed u w _ hs acceptable flag syn rst ack fin reply =>
    have hf' : fastRetransmits s seg = true → firstSent s = true := fun hfast =>
      hr (by simp [resendsFirst, acceptable, flag, hfast])
    obtain ⟨hu, hun⟩ := h.ackMove hw hs hf' ack
    obtain ⟨hv, hvn⟩ := hu.finMove fin
    have hwv := (hw.ackMove hs ack).finMove fin
    have hcv := fin.keeps_connected (ack.keeps_connected hs)
    have hn : w.sndNxt = s.sndNxt := hvn.trans hun
    rw [← hn] at hf ⊢
    exact hv.replyMove hwv hcv hf reply

theorem Next.transmit {a : Nat} (h : Next s.view s.wire pc)
    (hw : Wf s.view pc) (hf : headFollows s a = true) (ok : transmitHead s a = .ok t) :
    Next t.view t.wire pc ∧ s.sndNxt ≤ t.sndNxt := by
  obtain ⟨x, hfind, -, hv, hwire⟩ := transmitHead_ok ok
  have hx : x ∈ s.view.queue := List.mem_of_find?_eq_some hfind
  have hn : t.sndNxt = (s.view.send x false (s.now + s.rto.toNat)).nxt := congrArg SendView.nxt hv
  rw [hv, hwire]
  cases ho : x.occupies with
  | false =>
    rw [SendView.send_mute ho] at hn ⊢
    have hd : nextState s.view.state x.flags = s.view.state := by
      rcases hw.queued hx with ⟨-, hflags, -⟩ | ⟨-, -, hn⟩ | ⟨-, hflags⟩
      · simp [SkBuff.occupies, hflags] at ho
      · exact hn
      · simp [SkBuff.occupies, hflags] at ho
    rw [hd]
    exact ⟨h.same ⟨[x], rfl, by simpa using ho⟩ rfl rfl id id h.begun, UInt32.le_of_eq hn.symm⟩
  | true =>
    have hcond : s.sndNxt.toNat ≤ x.endSeq.toNat + 1 ∧ x.endSeq.toNat + 1 < 2 ^ 32 := by
      simpa [headFollows, hfind, ho] using hf
    have hact : activedSend x false = true := by rw [activedSend_eq, ho]; rfl
    have hs : (x.endSeq + 1).toNat = x.endSeq.toNat + 1 := by
      simp only [UInt32.toNat_add, UInt32.toNat_one]
      omega
    have hnxt : (s.view.send x false (s.now + s.rto.toNat)).nxt = x.endSeq + 1 := by
      simp [SendView.send, hact]
    have hconn : pc.phase = .connecting → x.endSeq = s.sndIss := by
      intro hp
      have hall := hw.allows x hx
      cases pc with
      | transmit k | transmitLocked k | transmitSleep k =>
        cases k with
        | connect => exact hall.2.2
        | _ => cases hp
      | _ => cases hp
    refine ⟨⟨?_, .inl ⟨x, .head _, ho⟩, ?_, ?_⟩, ?_⟩
    · rw [hnxt]
      exact h.follows.send ho hcond.1 hcond.2
    · intro hp _
      rw [hnxt, hs, hconn hp]
      exact .inr rfl
    · intro hst
      rw [hnxt, hs, hconn ((hw.send hx).connecting hst)]
      rfl
    · rw [hn, hnxt, UInt32.le_iff_toNat_le, hs]
      exact hcond.1

theorem Next.begun_armed (h : Next v wire pc)
    (armed : v.retransmit ≠ none ∨ v.persist ≠ none) : Begun wire := by
  rcases h.begun with hb | ⟨hr, hp, -⟩
  · exact hb
  · rcases armed with ha | ha
    · exact absurd hr ha
    · exact absurd hp ha

theorem Next.goto (h : Next v wire pc) (pc' : Pc)
    (hp : pc'.phase = .connecting → pc.phase = .connecting ∨ v.queue = []) : Next v wire pc' := by
  refine ⟨h.follows, h.begun, fun hc hq => ?_, h.syn⟩
  rcases hp hc with hp | he
  · exact h.connecting hp hq
  · exact absurd he hq

/-- `snd_nxt` starts over with a new connection only. -/
theorem Next.step {s t : Sys} {e : Event} (h : Next s.sk.view s.sk.wire s.pc)
    (hw : Wf s.sk.view s.pc) (ok : nextFollows s e = true) (hm : Moves s e t) :
    Next t.sk.view t.sk.wire t.pc ∧ ((∃ seed, e = .connect seed) ∨ s.sk.sndNxt ≤ t.sk.sndNxt) := by
  cases hm with
  | refused hp => exact ⟨h, .inr (UInt32.le_refl _)⟩
  | connect seed hp =>
    refine ⟨⟨.nil _, .inr ⟨rfl, rfl, .inl rfl⟩, fun _ _ => .inl rfl, ?_⟩, .inl ⟨seed, rfl⟩⟩
    intro hc
    cases hc
  | sendmsg | recvmsg | round | chunksDone | sendReturn | recvReturn | recvWait | recvAwake
  | shutdownReturn | shutdownWait | shutdownAwake =>
    exact ⟨h.goto _ (fun hc => by cases hc), .inr (UInt32.le_refl _)⟩
  | shutdown hp =>
    exact ⟨⟨h.follows, h.begun, (fun hc => by cases hc), h.syn⟩, .inr (UInt32.le_refl _)⟩
  | probe hp more hs ok' =>
    obtain ⟨-, -, rfl⟩ := queueProbe_ok ok'
    have hb := h.begun_connected (.inl (by simp [Sock.view, hs, connected, synchronized]))
    exact ⟨⟨h.follows, .inl hb, (fun hc => by cases hc), h.syn⟩, .inr (UInt32.le_refl _)⟩
  | chunk hp lt le =>
    exact ⟨⟨h.follows, h.begun, (fun hc => by cases hc), h.syn⟩, .inr (UInt32.le_refl _)⟩
  | @transmitReturn k hp empty =>
    cases k with
    | probe l =>
      refine ⟨⟨h.follows, ?_, (fun hc => by cases hc), h.syn⟩, .inr (UInt32.le_refl _)⟩
      rcases h.begun with hb | ⟨hr, -, hs⟩
      · exact .inl hb
      · exact .inr ⟨hr, rfl, hs⟩
    | connect | chunks l | shutdown =>
      exact ⟨h.goto _ (fun hc => by cases hc), .inr (UInt32.le_refl _)⟩
  | lock hp | sleep hp | awake hp =>
    rw [hp] at h
    exact ⟨h.goto _ .inl, .inr (UInt32.le_refl _)⟩
  | @transmit k a sk hp head avail ok' =>
    have hf : headFollows s.sk a = true := by
      have hne : tcpSenderAvailableWindow s.sk ≠ 0 := by
        intro he
        rw [he] at avail
        exact absurd avail (by decide)
      simpa [nextFollows, hp, head, hne] using ok
    obtain ⟨hn, hle⟩ := h.transmit hw hf ok'
    exact ⟨hn, .inr hle⟩
  | @receive seg garbage sk unlocked ht =>
    simp only [nextFollows, Bool.and_eq_true, Bool.or_eq_true, Bool.not_eq_true',
      decide_eq_true_eq] at ok
    obtain ⟨hn, hle⟩ := h.handled hw (fun hr => ok.1.resolve_left (by simp [hr]))
      (fun hf => ok.2.resolve_left (by simp [hf])) (handler_handled hw.reached ht)
    exact ⟨hn, .inr hle⟩
  | retransmitTimer unlocked armed ok' =>
    obtain ⟨x, rest, n, hq, -, hv, hwire⟩ := retransmit_ok ok'
    have hr := h.resend hw (h.begun_armed (.inl armed)) (first_mem hq) (firstSent_head ok hq)
    refine ⟨?_, .inr (UInt32.le_of_eq (congrArg SendView.nxt hv).symm)⟩
    rw [hv, hwire]
    exact ⟨hr.follows, .inl (hr.begun_armed (.inl armed)), hr.connecting, hr.syn⟩
  | persistTimer unlocked armed ok' =>
    rcases persist_ok ok' with ⟨-, hv, hwire⟩ | ⟨hzero, x, rest, n, hq, -, hv, hwire⟩
    · refine ⟨?_, .inr (UInt32.le_of_eq (congrArg SendView.nxt hv).symm)⟩
      rw [hv, hwire]
      exact ⟨h.follows, .inl (h.begun_armed (.inr armed)), h.connecting, h.syn⟩
    · have hfirst : firstSent s.sk = true := by simpa [nextFollows, hzero] using ok
      have hr := h.resend hw (h.begun_armed (.inr armed)) (first_mem hq) (firstSent_head hfirst hq)
      refine ⟨?_, .inr (UInt32.le_of_eq (congrArg SendView.nxt hv).symm)⟩
      rw [hv, hwire]
      exact ⟨hr.follows, .inl (hr.begun_armed (.inr armed)), hr.connecting, hr.syn⟩
  | mslTimer unlocked armed ok' =>
    obtain ⟨hs, hv, hwire⟩ := msl_ok ok'
    have hc : connected s.sk.view.state = true := by
      change connected s.sk.state = true
      rcases hs with hs | hs <;> rw [hs] <;> rfl
    refine ⟨?_, .inr (UInt32.le_of_eq (congrArg SendView.nxt hv).symm)⟩
    rw [hv, hwire]
    exact h.same (.refl _) rfl rfl id (fun hc => by cases hc) (.inl (h.begun_connected (.inl hc)))
  | tick ms unlocked => exact ⟨h, .inr (UInt32.le_refl _)⟩
  | wake unlocked => exact ⟨h, .inr (UInt32.le_refl _)⟩

/-- In every run the next number follows what has been sent. -/
theorem Next.run {s : Sys} (run : Run advance (fun a e => nextFollows a e = true) {} s) :
    Next s.sk.view s.sk.wire s.pc ∧ Wf s.sk.view s.pc := by
  refine run.invariant (I := fun s => Next s.sk.view s.sk.wire s.pc ∧ Wf s.sk.view s.pc) ?_ ?_
  · exact ⟨⟨⟨nofun, nofun⟩, .inr ⟨rfl, rfl, .inr rfl⟩, nofun, nofun⟩, Wf.start⟩
  · intro a e b ⟨ha, hw⟩ hok hb
    have hm := moves_of_advance hb
    exact ⟨(ha.step hw hok hm).1, hw.moves hm⟩

/-- Where `tcp_transmit` never goes back and only sent segments are sent again,
`snd_nxt` is one more than the largest number sent, never decreases within a
connection, and every acknowledgement of something sent is acceptable. -/
theorem next_is_largest_sent {s : Sys}
    (run : Run advance (fun a e => nextFollows a e = true) {} s) :
    Follows s.sk.sndNxt s.sk.wire ∧
    (∀ e t, nextFollows s e = true → advance s e = some t →
      (∃ seed, e = .connect seed) ∨ s.sk.sndNxt ≤ t.sk.sndNxt) ∧
    ∀ seg x, x ∈ s.sk.wire → x.occupies = true → s.sk.sndUna < seg.ackNumber →
      seg.ackNumber.toNat ≤ x.endSeq.toNat + 1 → newAck s.sk seg = true := by
  obtain ⟨h, hw⟩ := Next.run run
  refine ⟨h.follows, ?_, ?_⟩
  · intro e t hok ht
    exact (h.step hw hok (moves_of_advance ht)).2
  · intro seg x hx ho hu hle
    have hlt := UInt32.lt_iff_toNat_lt.mp (h.follows.above x hx ho)
    change x.endSeq.toNat < s.sk.sndNxt.toNat at hlt
    refine decide_eq_true ⟨hu, UInt32.le_iff_toNat_le.mpr ?_⟩
    omega

theorem next_is_largest_two_segments : ∃ s : Sys,
    Run advance (fun a e => nextFollows a e = true) {} s ∧ s.sk.state = .established ∧
    s.sk.wire.map SkBuff.endSeq = [476707717, 476707715, 476707714, 476707713] ∧
    Follows s.sk.sndNxt s.sk.wire := by
  obtain ⟨s, run, hs, hw⟩ := replay_reaches advance (fun a e => nextFollows a e = true) {} fourBytesSent
    (P := fun s => s.sk.state = .established ∧
      s.sk.wire.map SkBuff.endSeq = [476707717, 476707715, 476707714, 476707713]) (by decide)
  exact ⟨s, run, hs, hw, (next_is_largest_sent run).1⟩

/-- The persist timer sends the one byte of a message into a closed window. `snd_nxt`
stays where it was, and the peer's acknowledgement of that byte is not accepted. -/
theorem next_below_probe : ∃ s, Run advance (fun _ _ => True) {} s ∧ s.sk.state = .established ∧
    ¬ Follows s.sk.sndNxt s.sk.wire ∧
    ∃ x ∈ s.sk.wire, x.occupies = true ∧ s.sk.sndUna < (pureAck 476707715 10).ackNumber ∧
      (pureAck 476707715 10).ackNumber.toNat ≤ x.endSeq.toNat + 1 ∧
      newAck s.sk (pureAck 476707715 10) = false := by
  obtain ⟨s, run, hs, hany, hu, hn⟩ := replay_reaches advance (fun _ _ => True) {}
    (opening (synAck 0) ++ [.sendmsg [7], .app, .app, .app, .tick 1000, .persistTimer])
    (P := fun s => s.sk.state = .established ∧
      s.sk.wire.any (fun x => x.occupies && x.endSeq == 476707714 && !(x.endSeq < s.sk.sndNxt)) = true ∧
      s.sk.sndUna < 476707715 ∧ newAck s.sk (pureAck 476707715 10) = false) (by decide)
  obtain ⟨x, hx, hb⟩ := List.any_eq_true.mp hany
  simp only [Bool.and_eq_true, beq_iff_eq, Bool.not_eq_true', decide_eq_false_iff_not] at hb
  refine ⟨s, run, hs, fun hf => hb.2 (hf.above x hx hb.1.1), x, hx, hb.1.1, hu, ?_, hn⟩
  rw [hb.1.2]
  decide

end Mos.Tcp

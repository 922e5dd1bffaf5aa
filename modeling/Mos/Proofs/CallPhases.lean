import Mos.Proofs.Frame

namespace Mos.Tcp
open Machine

/-- The persist timer runs only while a call is probing. -/
theorem probe_run {s : Sys} {ok : Sys → Event → Prop} (h : Run advance ok {} s) :
    s.sk.persistTimer ≠ none → s.pc.probing = true := by
  induction h with
  | refl => exact absurd rfl
  | tail before _ next ih => exact persist_step ih (Wf.run before) (moves_of_advance next)

def forward : TcpState → TcpState → Bool
  | .close, .synSent | .listen, .synSent | .synSent, .established | .established, .finWait1
  | .established, .closeWait | .closeWait, .lastAck | .finWait1, .finWait2 | .finWait1, .closing
  | .finWait2, .timeWait | .closing, .timeWait => true
  | _, _ => false

def Advances : TcpState → TcpState → Prop := Relation.ReflTransGen fun a b => forward a b = true

theorem Advances.of_eq {a b : TcpState} (h : b = a) : Advances a b := h ▸ .refl

theorem Advances.edge {a b a' b' : TcpState} (ha : a = a') (hb : b = b')
    (h : forward a' b' = true) : Advances a b := ha ▸ hb ▸ .single h

theorem nextState_advances (st : TcpState) (flags : Flags)
    (hr : nextState st flags ≠ .synRecv) (hc : nextState st flags ≠ .close) :
    Advances st (nextState st flags) := by
  revert hr hc
  unfold nextState
  split
  all_goals first | exact fun _ _ => .refl | skip
  all_goals split_ifs
  all_goals intro hr hc
  all_goals first | exact absurd rfl hr | exact absurd rfl hc | exact .refl | exact .single rfl

theorem AckMove.advances {s u : Sock} {seg : Segment} (h : AckMove s seg u)
    (hs : connected s.state = true) : Advances s.state u.state := by
  have hu := h.keeps_connected hs
  rcases h.state with he | ⟨flags, he⟩
  · exact .of_eq he
  · rw [he] at hu ⊢
    refine nextState_advances _ _ (fun hn => ?_) fun hn => ?_
    · rw [hn] at hu
      cases hu
    · rw [hn] at hu
      cases hu

theorem FinMove.advances {s t : Sock} (h : FinMove s t) : Advances s.state t.state := by
  cases h with
  | idle same => exact .of_eq same.state
  | finWait2 hs | timeWait hs => exact .edge hs rfl rfl

theorem ReplyMove.advances {s t : Sock} {seg : Segment} (h : ReplyMove s seg t) :
    Advances s.state t.state := by
  cases h with
  | quiet same => exact .of_eq same.state
  | passive _ hs _ view | closing _ hs view | timeWait _ hs view =>
    exact .edge hs (congrArg SendView.state view) rfl
  | answered _ hs _ _ view =>
    have ht : t.state = .lastAck := congrArg SendView.state view
    rcases hs with ⟨hs, -⟩ | hs
    · exact Relation.ReflTransGen.tail (.edge hs rfl rfl : Advances s.state .closeWait) (ht ▸ rfl)
    · exact .edge hs ht rfl
  | again _ _ view => exact .of_eq (congrArg SendView.state view)

theorem Handled.advances {s t : Sock} {seg : Segment} (h : Handled s seg t) :
    t.state = .close ∨ Advances s.state t.state := by
  cases h with
  | quiet same => exact .inr (.of_eq same.state)
  | refused hs => exact .inl rfl
  | opened hs _ _ _ _ _ view => exact .inr (.edge hs (congrArg SendView.state view) rfl)
  | flushed _ _ view | rejected _ view | aborted _ _ view | closed _ _ _ _ _ _ view =>
    exact .inl (congrArg SendView.state view)
  | processed hs _ _ _ _ ack fin reply =>
    exact .inr ((ack.advances hs).trans (fin.advances.trans reply.advances))

theorem Moves.advances {s t : Sys} {e : Event} (hm : Moves s e t) (hs : s.sk.state ≠ .synRecv)
    (ht : t.sk.state ≠ .synRecv) (hc : t.sk.state ≠ .close) : Advances s.sk.state t.sk.state := by
  have sent {v : SendView} {flags : Flags} (h : t.sk.view = v)
      (hv : v.state = nextState s.sk.state flags) : Advances s.sk.state t.sk.state := by
    have he : t.sk.state = nextState s.sk.state flags := (congrArg SendView.state h).trans hv
    rw [he] at ht hc ⊢
    exact nextState_advances _ _ ht hc
  cases hm with
  | connect seed hp => exact absurd rfl hc
  | transmit hp head avail ok =>
    obtain ⟨skb, -, -, hv, -⟩ := transmitHead_ok ok
    exact sent hv rfl
  | receive unlocked ok => exact ((handler_handled hs ok).advances).resolve_left hc
  | retransmitTimer unlocked armed ok =>
    obtain ⟨skb, rest, n, -, -, hv, -⟩ := retransmit_ok ok
    exact sent hv rfl
  | persistTimer unlocked armed ok =>
    rcases persist_ok ok with ⟨-, hv, -⟩ | ⟨-, skb, rest, n, -, -, hv, -⟩
    · exact .of_eq (congrArg SendView.state hv)
    · exact sent hv rfl
  | mslTimer unlocked armed ok =>
    obtain ⟨-, hv, -⟩ := msl_ok ok
    exact absurd (congrArg SendView.state hv) hc
  | probe hp more hs ok =>
    obtain ⟨-, -, rfl⟩ := queueProbe_ok ok
    exact .refl
  | @transmitReturn k hp empty =>
    cases k with
    | _ => exact .refl
  | _ => exact .refl

/-- Unless a step closes the connection its state only goes forward in the diagram, through
whatever calls, segments, losses and timers. -/
theorem states_only_advance {s t : Sys} {ok : Sys → Event → Prop} (reached : Run advance ok {} s)
    (run : Run advance (fun a e => ∀ b ∈ advance a e, b.sk.state = .close → a.sk.state = .close) s t) :
    Advances s.sk.state t.sk.state := by
  have start := reached.mono fun _ _ _ => trivial
  induction run with
  | refl => exact .refl
  | @tail a b e before meets next ih =>
    have hw := Wf.run (start.trans (before.mono fun _ _ _ => trivial))
    have hm := moves_of_advance next
    refine ih.trans ?_
    by_cases hb : b.sk.state = .close
    · exact Advances.of_eq (hb.trans (meets b next hb).symm)
    · exact hm.advances hw.reached (hw.moves hm).reached hb

theorem states_advance_to_closing : ∃ s t : Sys, Run advance (fun _ _ => True) {} s ∧
    s.sk.state = .close ∧ t.sk.state = .closing ∧ Advances s.sk.state t.sk.state := by
  have reached : Run advance (fun _ _ => True) {}
      { ({} : Sys) with sk := tcpConnect { now := 1000 } 1, pc := .transmit .connect } :=
    .tail (e := .connect 1) (.tail (e := .tick 1000) .refl trivial rfl) trivial rfl
  obtain ⟨t, run, ht⟩ := replay_reaches advance
    (fun a e => ∀ b ∈ advance a e, b.sk.state = .close → a.sk.state = .close)
    { ({} : Sys) with sk := tcpConnect { now := 1000 } 1, pc := .transmit .connect }
    ((opening (synAck 1000)).drop 2 ++ [.shutdown, .app, .app, .app,
      .receive (pureFin 476707714 1000) (0, 0)])
    (P := fun t => t.sk.state = .closing) (by decide)
  exact ⟨_, t, reached, rfl, ht, states_only_advance reached run⟩

end Mos.Tcp

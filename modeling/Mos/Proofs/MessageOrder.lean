import Mos.Proofs.MessageQueue

namespace Mos.MessageQueue
open Machine

inductive Done where
  | send (msg : Message)
  | receive (msg : Message)
  deriving DecidableEq, Repr

/-- What the calls made so far, the latest first, leave in a queue that hands out the
message of the highest priority, and among these the one sent first. The messages stand in
the order in which they were sent. -/
inductive Delivers : List Done → List Message → Prop where
  | start : Delivers [] []
  | send {calls : List Done} {queued : List Message} (msg : Message)
      (before : Delivers calls queued) : Delivers (.send msg :: calls) (queued ++ [msg])
  | receive {calls : List Done} {earlier later : List Message} {msg : Message}
      (before : Delivers calls (earlier ++ msg :: later))
      (first : ∀ m ∈ earlier, m.priority < msg.priority)
      (highest : ∀ m ∈ later, m.priority ≤ msg.priority) :
      Delivers (.receive msg :: calls) (earlier ++ later)

/-- The order in which the queue keeps messages that were sent in the order of the list. -/
def arranged (queued : List Message) : List Message :=
  queued.foldl (fun l msg => addByPriority Message.priority msg l) []

theorem arranged_concat (queued : List Message) (msg : Message) :
    arranged (queued ++ [msg]) = addByPriority Message.priority msg (arranged queued) := by
  rw [arranged, List.foldl_append]
  rfl

theorem arranged_perm (queued : List Message) : (arranged queued).Perm queued := by
  induction queued using List.reverseRecOn with
  | nil => exact .refl _
  | append_singleton queued msg ih =>
    rw [arranged_concat]
    exact (addByPriority_perm ..).trans ((ih.cons msg).trans (List.perm_append_singleton ..).symm)

theorem none_of_nil {P : Message → Prop} : ∀ m ∈ ([] : List Message), P m :=
  fun _ h => absurd h List.not_mem_nil

theorem arranged_head {queued messages : List Message} {msg : Message}
    (h : arranged queued = msg :: messages) :
    ∃ earlier later, queued = earlier ++ msg :: later ∧
      (∀ m ∈ earlier, m.priority < msg.priority) ∧ (∀ m ∈ later, m.priority ≤ msg.priority) ∧
      arranged (earlier ++ later) = messages := by
  -- the message sent last either overtakes all others or stands behind the first one
  induction queued using List.reverseRecOn generalizing msg messages with
  | nil => cases h
  | append_singleton queued last ih =>
    rw [arranged_concat] at h
    cases ha : arranged queued with
    | nil =>
      rw [ha] at h
      obtain ⟨rfl, rfl⟩ := List.cons.inj h
      have hn : queued = [] := List.Perm.eq_nil (ha ▸ (arranged_perm queued).symm)
      subst hn
      exact ⟨[], [], rfl, none_of_nil, none_of_nil, rfl⟩
    | cons top rest =>
      obtain ⟨earlier, later, rfl, he, hl, hr⟩ := ih ha
      rw [ha, addByPriority] at h
      split at h
      · rename_i hlt
        obtain ⟨rfl, rfl⟩ := List.cons.inj h
        refine ⟨earlier ++ top :: later, [], rfl, ?_, none_of_nil, by rw [List.append_nil]; exact ha⟩
        intro m hm
        rcases List.mem_append.mp hm with hm | hm
        · exact UInt32.lt_trans (he m hm) hlt
        · rcases List.mem_cons.mp hm with rfl | hm
          · exact hlt
          · exact UInt32.lt_of_le_of_lt (hl m hm) hlt
      · rename_i hle
        obtain ⟨rfl, rfl⟩ := List.cons.inj h
        refine ⟨earlier, later ++ [last], by simp, he, ?_, ?_⟩
        · intro m hm
          rcases List.mem_append.mp hm with hm | hm
          · exact hl m hm
          · rw [List.mem_singleton.mp hm]
            exact UInt32.not_lt.mp hle
        · rw [← List.append_assoc, arranged_concat, hr]

def completed (q : Queue) : Event → Outcome → Option Done
  | .send _ _ msg, .returned 0 => some (.send msg)
  | .receive _ _ _ _, .returned 0 => q.messages.head?.map .receive
  | .run t, .returned 0 =>
    match q.threads[t]? with
    | some (.sending msg _) => some (.send msg)
    | some (.receiving _ _) => q.messages.head?.map .receive
    | _ => none
  | _, _ => none

def record (s : Queue × List Done) (e : Event) : Option (Queue × List Done) :=
  match step s.1 e with
  | .ok (q, o) => some (q, (completed s.1 e o).toList ++ s.2)
  | .error _ => none

inductive Effect (q q' : Queue) : Option Done → Prop where
  | none (messages : q'.messages = q.messages) (curmsgs : q'.curmsgs = q.curmsgs) : Effect q q' none
  | send {msg : Message} (room : q.curmsgs < q.maxmsg)
      (messages : q'.messages = addByPriority Message.priority msg q.messages)
      (curmsgs : q'.curmsgs = q.curmsgs + 1) : Effect q q' (some (.send msg))
  | receive {msg : Message} (messages : q.messages = msg :: q'.messages)
      (curmsgs : q'.curmsgs = q.curmsgs - 1) : Effect q q' (some (.receive msg))

theorem Effect.of_kept {q m q' : Queue} {done : Option Done} (h : Effect m q' done)
    (hm : m.messages = q.messages) (hc : m.curmsgs = q.curmsgs) (hx : m.maxmsg = q.maxmsg) :
    Effect q q' done := by
  cases h with
  | none messages curmsgs => exact .none (messages.trans hm) (curmsgs.trans hc)
  | send room messages curmsgs =>
    rw [hm] at messages
    rw [hc] at room curmsgs
    rw [hx] at room
    exact .send room messages curmsgs
  | receive messages curmsgs =>
    rw [hc] at curmsgs
    exact .receive (hm.symm.trans messages) curmsgs

section Steps
variable {q q' : Queue} {t : Nat} {o : Outcome}

theorem wake_kept (q : Queue) (t : Nat) :
    (q.wake t).messages = q.messages ∧ (q.wake t).curmsgs = q.curmsgs ∧
      (q.wake t).maxmsg = q.maxmsg := by
  unfold Queue.wake
  split
  · exact ⟨rfl, rfl, rfl⟩
  · exact ⟨rfl, rfl, rfl⟩

theorem wakeReceiver_kept (h : wakeReceiver q = .ok q') :
    q'.messages = q.messages ∧ q'.curmsgs = q.curmsgs ∧ q'.maxmsg = q.maxmsg := by
  unfold wakeReceiver at h
  split at h
  · cases h
    exact ⟨rfl, rfl, rfl⟩
  · split at h
    · cases h
      exact wake_kept _ _
    · cases h

theorem wakeSender_kept (q : Queue) :
    (wakeSender q).messages = q.messages ∧ (wakeSender q).curmsgs = q.curmsgs ∧
      (wakeSender q).maxmsg = q.maxmsg := by
  unfold wakeSender
  split
  · exact ⟨rfl, rfl, rfl⟩
  · exact wake_kept _ _

theorem finishSend_effect {msg : Message} (h : finishSend q t msg = .ok (q', o)) :
    o = .returned 0 ∧ Effect q q' (some (.send msg)) ∧ q'.maxmsg = q.maxmsg := by
  unfold finishSend at h
  split at h
  · rename_i room
    obtain ⟨r, hw, he⟩ := map_ok.mp h
    cases he
    obtain ⟨hm, hc, hx⟩ := wakeReceiver_kept hw
    exact ⟨rfl, .send room hm hc, hx⟩
  · cases h

theorem finishReceive_effect (h : finishReceive q t = .ok (q', o)) :
    o = .returned 0 ∧ Effect q q' (q.messages.head?.map .receive) ∧ q'.maxmsg = q.maxmsg := by
  unfold finishReceive at h
  split at h
  · cases h
  · rename_i msg messages hm
    cases h
    rw [hm]
    exact ⟨rfl, .receive hm rfl, rfl⟩

theorem send_effect {canWrite : Bool} {msg : Message} (h : mqSend q t canWrite msg = .ok (q', o)) :
    Effect q q' (completed q (.send t canWrite msg) o) ∧ q'.maxmsg = q.maxmsg := by
  unfold mqSend at h
  split at h
  · cases h
    exact ⟨.none rfl rfl, rfl⟩
  · split at h
    · cases h
      exact ⟨.none rfl rfl, rfl⟩
    · split at h
      · cases h
      · split at h
        · split at h
          · cases h
            exact ⟨.none rfl rfl, rfl⟩
          · cases h
            exact ⟨.none rfl rfl, rfl⟩
        · obtain ⟨rfl, he⟩ := finishSend_effect h
          exact he

theorem receive_effect {canRead : Bool} {priority msize : UInt32}
    (h : mqReceive q t canRead priority msize = .ok (q', o)) :
    Effect q q' (completed q (.receive t canRead priority msize) o) ∧ q'.maxmsg = q.maxmsg := by
  unfold mqReceive at h
  split at h
  · cases h
    exact ⟨.none rfl rfl, rfl⟩
  · split at h
    · cases h
      exact ⟨.none rfl rfl, rfl⟩
    · split at h
      · cases h
      · split at h
        · obtain ⟨rfl, he, hx⟩ := finishReceive_effect h
          obtain ⟨hm, hc, hw⟩ := wakeSender_kept q
          refine ⟨?_, hx.trans hw⟩
          rw [hm] at he
          exact he.of_kept hm hc hw
        · split at h
          · split at h
            · cases h
              exact ⟨.none rfl rfl, rfl⟩
            · cases h
              exact ⟨.none rfl rfl, rfl⟩
          · obtain ⟨rfl, he⟩ := finishReceive_effect h
            exact he

/-- Every step brings at most one call to its end, which adds a message or takes the first. -/
theorem step_effect {e : Event} (h : step q e = .ok (q', o)) :
    Effect q q' (completed q e o) ∧ q'.maxmsg = q.maxmsg := by
  cases e with
  | send t canWrite msg =>
    simp only [step] at h
    split at h
    · exact send_effect h
    · cases h
  | receive t canRead priority msize =>
    simp only [step] at h
    split at h
    · exact receive_effect h
    · cases h
  | run t =>
    simp only [step] at h
    split at h
    · rename_i msg ht
      unfold resumeSend at h
      split at h
      · obtain ⟨rfl, he⟩ := finishSend_effect h
        simp only [completed, ht]
        exact he
      · cases h
        exact ⟨.none rfl rfl, rfl⟩
    · rename_i priority ht
      unfold resumeReceive at h
      split at h
      · obtain ⟨rfl, he⟩ := finishReceive_effect h
        simp only [completed, ht]
        exact he
      · cases h
        exact ⟨.none rfl rfl, rfl⟩
    · cases h

end Steps

/-- The queue keeps the messages that a queue by priority would have, in its own order. -/
structure Ordered (s : Queue × List Done) : Prop where
  counted : s.1.curmsgs = s.1.messages.length
  bounded : s.1.curmsgs ≤ s.1.maxmsg
  delivered : ∃ queued, Delivers s.2 queued ∧ s.1.messages = arranged queued

/-- A send puts its message behind those of its priority, and a receive takes the first. -/
theorem Ordered.step {s s' : Queue × List Done} {e : Event} (h : Ordered s)
    (hs : record s e = some s') : Ordered s' := by
  unfold record at hs
  split at hs
  · rename_i q o hq
    cases hs
    obtain ⟨he, hx⟩ := step_effect hq
    obtain ⟨queued, hd, hm⟩ := h.delivered
    have hc := h.counted
    have hb := h.bounded
    generalize completed s.1 e o = done at he
    cases he with
    | none messages curmsgs =>
      refine ⟨?_, ?_, queued, hd, messages.trans hm⟩
      · rw [messages, curmsgs]
        exact hc
      · rw [curmsgs, hx]
        exact hb
    | send room messages curmsgs =>
      refine ⟨?_, ?_, _, .send _ hd, ?_⟩
      · rw [messages, curmsgs, (addByPriority_perm ..).length_eq, List.length_cons]
        omega
      · rw [curmsgs, hx]
        omega
      · rw [messages, hm, arranged_concat]
    | receive messages curmsgs =>
      rw [hm] at messages
      obtain ⟨earlier, later, rfl, hf, hl, ha⟩ := arranged_head messages
      refine ⟨?_, ?_, _, .receive hd hf hl, ha.symm⟩
      · rw [hm, messages, List.length_cons] at hc
        change q.curmsgs = (q.messages.length : Int)
        omega
      · rw [curmsgs, hx]
        omega
  · cases hs

/-- The messages are counted, fit into the queue and are handed out by priority and then in
the order in which they were sent. -/
def InOrder (s : Queue × List Done) : Prop :=
  s.1.curmsgs = s.1.messages.length ∧ s.1.curmsgs ≤ s.1.maxmsg ∧
    ∃ queued, Delivers s.2 queued ∧ s.1.messages.Perm queued

/-- A queue that was just opened keeps its messages in order for ever, if and only if it was
not opened for a negative number of them. -/
theorem messages_in_order (q : Queue) (fresh : q.Fresh) :
    (∀ t, Run record (fun _ _ => True) (q, []) t → InOrder t) ↔ 0 ≤ q.maxmsg := by
  constructor
  · intro h
    have hb := (h _ .refl).2.1
    rwa [fresh.curmsgs] at hb
  · intro hn t run
    have start : Ordered (q, []) := by
      refine ⟨?_, ?_, [], .start, fresh.messages⟩
      · rw [fresh.curmsgs, fresh.messages]
        rfl
      · rw [fresh.curmsgs]
        exact hn
    have h := run.invariant (I := Ordered) start fun _ _ _ h _ hs => h.step hs
    obtain ⟨queued, hd, hm⟩ := h.delivered
    exact ⟨h.counted, h.bounded, queued, hd, hm ▸ arranged_perm queued⟩

theorem messages_in_order_three : ∃ t, Run record (fun _ _ => True) (opened 3 1, []) t ∧
    t.2.head? = some (.receive ⟨[2], 7⟩) ∧ InOrder t := by
  obtain ⟨t, run, h⟩ := replay_reaches record (fun _ _ => True) (opened 3 1, [])
    [.send 0 true ⟨[1], 4⟩, .send 0 true ⟨[2], 7⟩, .send 0 true ⟨[3], 7⟩, .receive 0 true 0 512]
    (P := fun t => t.2.head? = some (.receive ⟨[2], 7⟩)) (by decide +kernel)
  exact ⟨t, run, h, (messages_in_order (opened 3 1) (opened_fresh 3 1)).mpr (by decide) t run⟩

/-- A queue can be opened for -1 messages; after a refused call it holds more than that. -/
theorem limit_exceeded : ∃ t, Run record (fun _ _ => True) (opened (-1) 1, []) t ∧
    step (opened (-1) 1) (.send 0 true ⟨List.replicate 513 0, 0⟩) = .ok (t.1, .returned (-emsgsize)) ∧
    ¬ InOrder t := by
  have hs : step (opened (-1) 1) (.send 0 true ⟨List.replicate 513 0, 0⟩) =
      .ok (opened (-1) 1, .returned (-emsgsize)) := by decide +kernel
  refine ⟨(opened (-1) 1, []), .tail .refl trivial (e := .send 0 true ⟨List.replicate 513 0, 0⟩) ?_,
    hs, ?_⟩
  · simp only [record, hs]
    rfl
  · rintro ⟨_, hb, _⟩
    exact absurd hb (by decide)

end Mos.MessageQueue

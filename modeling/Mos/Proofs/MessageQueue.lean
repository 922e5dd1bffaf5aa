import Mos.Machine.Run
import Mos.Machine.WaitList
import Mos.Ipc.MessageQueue

namespace Mos.MessageQueue
open Machine List Bool

theorem addByPriority_perm {α : Type} (priority : α → UInt32) (x : α) (l : List α) :
    (addByPriority priority x l).Perm (x :: l) := by
  induction l with
  | nil => exact .refl _
  | cons y l ih =>
    unfold addByPriority
    split
    · exact .refl _
    · exact (ih.cons y).trans (.swap x y l)

def Status.waitsToSend : Status → Bool
  | .sending _ false => true
  | _ => false

def Status.waitsToReceive : Status → Bool
  | .receiving _ false => true
  | _ => false

def Status.readyToSend : Status → Bool
  | .sending _ true => true
  | _ => false

def Status.readyToReceive : Status → Bool
  | .receiving _ true => true
  | _ => false

def Queue.readySenders (q : Queue) : Nat := q.threads.countP Status.readyToSend

def Queue.readyReceivers (q : Queue) : Nat := q.threads.countP Status.readyToReceive

theorem next_some {q q' : Queue} {e : Event} (h : next q e = some q') :
    ∃ o, step q e = .ok (q', o) := by
  unfold next at h
  cases hs : step q e with
  | error f =>
    rw [hs] at h
    cases h
  | ok r =>
    rw [hs] at h
    cases h
    exact ⟨r.2, rfl⟩

def Queue.take (q : Queue) (t : Nat) : Queue :=
  { q with messages := q.messages.tail, curmsgs := q.curmsgs - 1 }.setThread t .idle

/-- No sender is registered, or a place more than those that are free is still left to
the senders that were woken. -/
def Queue.spare (q : Queue) : Bool :=
  q.senders.isEmpty || decide (q.maxmsg < q.curmsgs + q.readySenders)

/-- No message is taken without waking a sender while senders are registered, unless
enough of them have been woken already. -/
def keepsRoom (q : Queue) : Event → Bool
  | .send _ _ _ => true
  | .receive _ canRead _ msize =>
    !canRead || decide (msize < q.msgsize) || decide (q.curmsgs = q.maxmsg) ||
      decide (q.curmsgs = 0) || q.spare
  | .run t =>
    match q.threads[t]? with
    | some (.receiving _ true) => decide (q.curmsgs ≤ 0) || q.spare
    | _ => true

/-- What a call does up to its next blocking point, from the status `a` of its thread. -/
inductive Move (q : Queue) (e : Event) : Queue → Prop where
  | none : Move q e q
  | waitSend {t : Nat} {a : Status} {msg : Message} (here : q.threads[t]? = some a)
      (caller : a = .idle ∨ a = .sending msg true) (full : q.maxmsg ≤ q.curmsgs) :
      Move q e (waitSend q t msg)
  | waitReceive {t : Nat} {a : Status} {priority : UInt32} (here : q.threads[t]? = some a)
      (caller : a = .idle ∨ a = .receiving priority true) (empty : q.curmsgs ≤ 0) :
      Move q e (waitReceive q t priority)
  | sent {t : Nat} {a : Status} {msg : Message} {q' : Queue} (here : q.threads[t]? = some a)
      (caller : a = .idle ∨ a = .sending msg true) (room : q.curmsgs < q.maxmsg)
      (wakes : wakeReceiver (mqAddMessage (q.setThread t .idle) msg) = .ok q') : Move q e q'
  | receivedFull {t : Nat} (here : q.threads[t]? = some .idle) (full : q.curmsgs = q.maxmsg)
      (some : (wakeSender q).messages ≠ []) : Move q e ((wakeSender q).take t)
  | received {t : Nat} {a : Status} (here : q.threads[t]? = some a)
      (caller : a = .idle ∨ ∃ priority, a = .receiving priority true)
      (spare : keepsRoom q e = true → q.spare = true) (some : q.messages ≠ []) :
      Move q e (q.take t)

theorem finishReceive_ok {q q' : Queue} {t : Nat} {o : Outcome}
    (h : finishReceive q t = .ok (q', o)) : q.messages ≠ [] ∧ q' = q.take t := by
  unfold finishReceive at h
  split at h
  · cases h
  · rename_i m ms hm
    cases h
    refine ⟨by rw [hm]; exact cons_ne_nil m ms, ?_⟩
    rw [Queue.take, hm]
    rfl

theorem finishSend_ok {q q' : Queue} {t : Nat} {msg : Message} {o : Outcome}
    (h : finishSend q t msg = .ok (q', o)) : q.curmsgs < q.maxmsg ∧
      wakeReceiver (mqAddMessage (q.setThread t .idle) msg) = .ok q' := by
  unfold finishSend at h
  split at h
  · rename_i hr
    obtain ⟨r, hw, he⟩ := map_ok.mp h
    cases he
    exact ⟨hr, hw⟩
  · cases h

theorem send_move {q q' : Queue} {t : Nat} {canWrite : Bool} {msg : Message} {o : Outcome}
    (here : q.threads[t]? = some .idle) (h : mqSend q t canWrite msg = .ok (q', o)) :
    Move q (.send t canWrite msg) q' := by
  unfold mqSend at h
  split at h
  · cases h
    exact .none
  · split at h
    · cases h
      exact .none
    · split at h
      · cases h
      · split at h
        · rename_i hf
          split at h
          · cases h
            exact .none
          · cases h
            exact .waitSend here (.inl rfl) hf.ge
        · obtain ⟨hr, hw⟩ := finishSend_ok h
          exact .sent here (.inl rfl) hr hw

theorem receive_move {q q' : Queue} {t : Nat} {canRead : Bool} {priority msize : UInt32}
    {o : Outcome} (here : q.threads[t]? = some .idle)
    (h : mqReceive q t canRead priority msize = .ok (q', o)) :
    Move q (.receive t canRead priority msize) q' := by
  unfold mqReceive at h
  split at h
  · cases h
    exact .none
  · rename_i hc
    split at h
    · cases h
      exact .none
    · rename_i hm
      split at h
      · cases h
      · split at h
        · rename_i hf
          obtain ⟨hs, rfl⟩ := finishReceive_ok h
          exact .receivedFull here hf hs
        · rename_i hf
          split at h
          · rename_i hz
            split at h
            · cases h
              exact .none
            · cases h
              exact .waitReceive here (.inl rfl) hz.le
          · rename_i hz
            obtain ⟨hs, rfl⟩ := finishReceive_ok h
            refine .received here (.inl rfl) (fun hk => ?_) hs
            simpa [keepsRoom, hc, hm, hf, hz] using hk

theorem step_move {q q' : Queue} {e : Event} {o : Outcome} (h : step q e = .ok (q', o)) :
    Move q e q' := by
  cases e with
  | send t canWrite msg =>
    simp only [step] at h
    split at h
    · rename_i ht
      exact send_move ht h
    · cases h
  | receive t canRead priority msize =>
    simp only [step] at h
    split at h
    · rename_i ht
      exact receive_move ht h
    · cases h
  | run t =>
    simp only [step] at h
    split at h
    · rename_i msg ht
      unfold resumeSend at h
      split at h
      · obtain ⟨hr, hw⟩ := finishSend_ok h
        exact .sent ht (.inr rfl) hr hw
      · rename_i hf
        cases h
        exact .waitSend ht (.inr rfl) (not_lt.mp hf)
    · rename_i priority ht
      unfold resumeReceive at h
      split at h
      · rename_i hz
        obtain ⟨hs, rfl⟩ := finishReceive_ok h
        refine .received ht (.inr ⟨priority, rfl⟩) (fun hk => ?_) hs
        simpa [keepsRoom, ht, not_le.mpr hz] using hk
      · rename_i hz
        cases h
        exact .waitReceive ht (.inr rfl) (not_lt.mp hz)
    · cases h

/-- The lists stand for the threads that wait, and every place or message that a waiter
could use is left to a thread that was woken. -/
structure Attended (q : Queue) : Prop where
  sends : Listed Waiter.thread Status.waitsToSend q.senders q.threads
  receives : Listed Waiter.thread Status.waitsToReceive q.receivers q.threads
  counted : q.curmsgs = q.messages.length
  room : q.senders ≠ [] → q.maxmsg ≤ q.curmsgs + q.readySenders
  filled : q.receivers ≠ [] → q.curmsgs ≤ q.readyReceivers

section Steps
variable {q q' : Queue} {t : Nat} {a : Status} {msg : Message} {priority : UInt32}

theorem readySenders_setThread (here : q.threads[t]? = some a) (b : Status) :
    (q.setThread t b).readySenders + (if a.readyToSend then 1 else 0) =
      q.readySenders + if b.readyToSend then 1 else 0 := countP_replace here b _

theorem readyReceivers_setThread (here : q.threads[t]? = some a) (b : Status) :
    (q.setThread t b).readyReceivers + (if a.readyToReceive then 1 else 0) =
      q.readyReceivers + if b.readyToReceive then 1 else 0 := countP_replace here b _

theorem Attended.waitSend (h : Attended q) (here : q.threads[t]? = some a)
    (caller : a = .idle ∨ a = .sending msg true) (full : q.maxmsg ≤ q.curmsgs) :
    Attended (waitSend q t msg) := by
  have hc := readyReceivers_setThread here (.sending msg false)
  have still : a.waitsToSend = false ∧ a.waitsToReceive = false ∧ a.readyToReceive = false := by
    rcases caller with rfl | rfl <;> exact ⟨rfl, rfl, rfl⟩
  obtain ⟨hs, hr, hn⟩ := still
  refine ⟨?_, h.receives.move here hr rfl, h.counted, fun _ => ?_, fun hne => ?_⟩
  · exact (h.sends.register here hs rfl rfl).perm (addByPriority_perm _ _ _)
  · change q.maxmsg ≤ q.curmsgs + _
    omega
  · have hf := h.filled hne
    change q.curmsgs ≤ (q.setThread t (.sending msg false)).readyReceivers
    rw [hn] at hc
    simp only [Status.readyToReceive, false_eq_true, if_false] at hc
    omega

theorem Attended.waitReceive (h : Attended q) (here : q.threads[t]? = some a)
    (caller : a = .idle ∨ a = .receiving priority true) (empty : q.curmsgs ≤ 0) :
    Attended (waitReceive q t priority) := by
  have hc := readySenders_setThread here (.receiving priority false)
  have still : a.waitsToSend = false ∧ a.waitsToReceive = false ∧ a.readyToSend = false := by
    rcases caller with rfl | rfl <;> exact ⟨rfl, rfl, rfl⟩
  obtain ⟨hs, hr, hn⟩ := still
  refine ⟨h.sends.move here hs rfl, ?_, h.counted, fun hne => ?_, fun _ => ?_⟩
  · exact (h.receives.register here hr rfl rfl).perm (addByPriority_perm _ _ _)
  · have hf := h.room hne
    change q.maxmsg ≤ q.curmsgs + (q.setThread t (.receiving priority false)).readySenders
    rw [hn] at hc
    simp only [Status.readyToSend, false_eq_true, if_false] at hc
    omega
  · change q.curmsgs ≤ _
    omega

theorem wake_eq (here : q.threads[t]? = some a) : q.wake t = q.setThread t a.wake := by
  rw [Queue.wake, here]

theorem waitsToSend_eq (h : a.waitsToSend = true) : ∃ msg, a = .sending msg false := by
  unfold Status.waitsToSend at h
  split at h
  · exact ⟨_, rfl⟩
  · cases h

theorem waitsToReceive_eq (h : a.waitsToReceive = true) : ∃ priority, a = .receiving priority false := by
  unfold Status.waitsToReceive at h
  split at h
  · exact ⟨_, rfl⟩
  · cases h

theorem wakeReceiver_attended (sends : Listed Waiter.thread Status.waitsToSend q.senders q.threads)
    (receives : Listed Waiter.thread Status.waitsToReceive q.receivers q.threads)
    (counted : q.curmsgs = q.messages.length)
    (room : q.senders ≠ [] → q.maxmsg ≤ q.curmsgs + q.readySenders)
    (h : wakeReceiver q = .ok q') : Attended q' := by
  unfold wakeReceiver at h
  split at h
  · rename_i hr
    cases h
    exact ⟨sends, receives, counted, room, absurd hr⟩
  · rename_i mqr receivers hr
    split at h
    · cases h
      rw [hr] at receives
      obtain ⟨b, hb, hw⟩ := receives.head
      obtain ⟨priority, rfl⟩ := waitsToReceive_eq hw
      have hs := readySenders_setThread (q := q) hb (.receiving priority true)
      have hc := readyReceivers_setThread (q := q) hb (.receiving priority true)
      rw [wake_eq (q := { q with receivers }) hb]
      refine ⟨sends.move hb rfl rfl, receives.pop rfl, counted, fun hne => ?_, fun _ => ?_⟩
      · have := room hne
        change q.maxmsg ≤ q.curmsgs + (q.setThread mqr.thread (.receiving priority true)).readySenders
        simp only [Status.readyToSend, false_eq_true, if_false] at hs
        omega
      · change q.curmsgs ≤ (q.setThread mqr.thread (.receiving priority true)).readyReceivers
        simp only [Status.readyToReceive, false_eq_true, if_false, if_true] at hc
        omega
    · cases h

theorem Attended.sent (h : Attended q) (here : q.threads[t]? = some a)
    (caller : a = .idle ∨ a = .sending msg true)
    (wakes : wakeReceiver (mqAddMessage (q.setThread t .idle) msg) = .ok q') : Attended q' := by
  have hc := readySenders_setThread here .idle
  have still : a.waitsToSend = false ∧ a.waitsToReceive = false := by
    rcases caller with rfl | rfl <;> exact ⟨rfl, rfl⟩
  apply wakeReceiver_attended (h.sends.move here still.1 rfl) (h.receives.move here still.2 rfl)
    ?_ ?_ wakes
  · have := h.counted
    have hp := (addByPriority_perm Message.priority msg q.messages).length_eq
    change q.curmsgs + 1 = ((addByPriority Message.priority msg q.messages).length : Nat)
    rw [hp, length_cons]
    omega
  · intro hne
    have hf := h.room hne
    change q.maxmsg ≤ q.curmsgs + 1 + (q.setThread t .idle).readySenders
    have : (if a.readyToSend = true then 1 else 0) ≤ 1 := by split <;> omega
    omega

theorem take_attended (h : Attended q) (here : q.threads[t]? = some a)
    (caller : a = .idle ∨ ∃ priority, a = .receiving priority true) (some : q.messages ≠ [])
    (room : q.senders ≠ [] → q.maxmsg < q.curmsgs + q.readySenders) : Attended (q.take t) := by
  have hs := readySenders_setThread here .idle
  have hr := readyReceivers_setThread here .idle
  have still : a.waitsToSend = false ∧ a.waitsToReceive = false ∧ a.readyToSend = false := by
    rcases caller with rfl | ⟨_, rfl⟩ <;> exact ⟨rfl, rfl, rfl⟩
  refine ⟨h.sends.move here still.1 rfl, h.receives.move here still.2.1 rfl, ?_, fun hne => ?_,
    fun hne => ?_⟩
  · have hc := h.counted
    have hp := length_pos_iff.mpr some
    change q.curmsgs - 1 = (q.messages.tail.length : Nat)
    rw [length_tail]
    omega
  · have hf := room hne
    change q.maxmsg ≤ q.curmsgs - 1 + (q.setThread t .idle).readySenders
    rw [still.2.2] at hs
    simp only [Status.readyToSend, false_eq_true, if_false] at hs
    omega
  · have hf := h.filled hne
    change q.curmsgs - 1 ≤ (q.setThread t .idle).readyReceivers
    have : (if a.readyToReceive = true then 1 else 0) ≤ 1 := by split <;> omega
    omega

theorem wakeSender_attended (h : Attended q) (full : q.curmsgs = q.maxmsg) :
    Attended (wakeSender q) ∧ ((wakeSender q).senders ≠ [] →
      (wakeSender q).maxmsg < (wakeSender q).curmsgs + (wakeSender q).readySenders) := by
  unfold wakeSender
  split
  · rename_i hs
    exact ⟨h, absurd hs⟩
  · rename_i mqs senders hs
    have sends := h.sends
    rw [hs] at sends
    obtain ⟨b, hb, hw⟩ := sends.head
    obtain ⟨msg, rfl⟩ := waitsToSend_eq hw
    have hc := readySenders_setThread (q := q) hb (.sending msg true)
    have hr := readyReceivers_setThread (q := q) hb (.sending msg true)
    simp only [Status.readyToSend, false_eq_true, if_false, if_true] at hc
    simp only [Status.readyToReceive, false_eq_true, if_false] at hr
    rw [wake_eq (q := { q with senders }) hb]
    have more : q.maxmsg < q.curmsgs + (q.setThread mqs.thread (.sending msg true)).readySenders := by
      omega
    refine ⟨⟨sends.pop rfl, h.receives.move hb rfl rfl, h.counted, fun _ => more.le, fun hne => ?_⟩,
      fun _ => more⟩
    have hf := h.filled hne
    change q.curmsgs ≤ (q.setThread mqs.thread (.sending msg true)).readyReceivers
    omega

theorem wakeSender_idle (here : q.threads[t]? = some .idle)
    (sends : Listed Waiter.thread Status.waitsToSend q.senders q.threads) :
    (wakeSender q).threads[t]? = some .idle := by
  unfold wakeSender
  split
  · exact here
  · rename_i mqs senders hs
    rw [hs] at sends
    obtain ⟨b, hb, hw⟩ := sends.head
    have hne : t ≠ mqs.thread := by
      rintro rfl
      rw [here] at hb
      cases hb
      cases hw
    rw [wake_eq (q := { q with senders }) hb]
    exact (get_set hb _ t).trans ((if_neg hne).trans here)

/-- An event keeps the lists of waiters to the threads that wait, and leaves no place unclaimed. -/
theorem attended_step {e : Event} (h : Attended q) (ok : keepsRoom q e = true)
    (move : Move q e q') : Attended q' := by
  cases move with
  | none => exact h
  | waitSend here caller full => exact h.waitSend here caller full
  | waitReceive here caller empty => exact h.waitReceive here caller empty
  | sent here caller room wakes => exact h.sent here caller wakes
  | receivedFull here full some =>
    obtain ⟨hw, hr⟩ := wakeSender_attended h full
    exact take_attended hw (wakeSender_idle here h.sends) (.inl rfl) some hr
  | received here caller spare some =>
    apply take_attended h here caller some
    intro hne
    have hs := spare ok
    rw [Queue.spare, Bool.or_eq_true, List.isEmpty_iff, decide_eq_true_eq] at hs
    exact hs.resolve_left hne

end Steps

theorem fresh_listed {q : Queue} (fresh : q.Fresh) {waits : Status → Bool}
    (idle : waits .idle = false) : Listed Waiter.thread waits [] q.threads := by
  refine ⟨fun t => ⟨fun h => absurd h not_mem_nil, ?_⟩, nodup_nil⟩
  rintro ⟨b, hb, hw⟩
  rw [fresh.threads b (mem_of_getElem? hb), idle] at hw
  cases hw

theorem Queue.Fresh.attended {q : Queue} (fresh : q.Fresh) : Attended q := by
  refine ⟨?_, ?_, ?_, absurd fresh.senders, absurd fresh.receivers⟩
  · rw [fresh.senders]
    exact fresh_listed fresh rfl
  · rw [fresh.receivers]
    exact fresh_listed fresh rfl
  · rw [fresh.curmsgs, fresh.messages]
    rfl

/-- Every thread is outside the calls or waits in one. -/
def Queue.Quiescent (q : Queue) : Prop :=
  ∀ a ∈ q.threads, a.readyToSend = false ∧ a.readyToReceive = false

instance (q : Queue) : Decidable q.Quiescent := inferInstanceAs (Decidable (∀ a ∈ q.threads, _))

theorem Attended.full {q : Queue} (h : Attended q) (quiet : q.Quiescent) {t : Nat} {msg : Message}
    (waits : q.threads[t]? = some (.sending msg false)) : q.maxmsg ≤ q.messages.length := by
  have hm : t ∈ q.senders.map Waiter.thread := (h.sends.mem t).mpr ⟨_, waits, rfl⟩
  have hne : q.senders ≠ [] := by
    intro he
    simp [he] at hm
  have hz : q.readySenders = 0 :=
    countP_eq_zero.mpr fun a ha => eq_false_iff.mp (quiet a ha).1
  have hr := h.room hne
  have hc := h.counted
  omega

theorem Attended.empty {q : Queue} (h : Attended q) (quiet : q.Quiescent) {t : Nat}
    {priority : UInt32} (waits : q.threads[t]? = some (.receiving priority false)) :
    q.messages = [] := by
  have hm : t ∈ q.receivers.map Waiter.thread := (h.receives.mem t).mpr ⟨_, waits, rfl⟩
  have hne : q.receivers ≠ [] := by
    intro he
    simp [he] at hm
  have hz : q.readyReceivers = 0 :=
    countP_eq_zero.mpr fun a ha => eq_false_iff.mp (quiet a ha).2
  have hr := h.filled hne
  have hc := h.counted
  apply length_eq_zero_iff.mp
  omega

theorem Attended.entries {q : Queue} (h : Attended q) :
    ((q.senders ++ q.receivers).map Waiter.thread).Nodup ∧
      (∀ w ∈ q.senders, ∃ msg, q.threads[w.thread]? = some (.sending msg false)) ∧
      (∀ w ∈ q.receivers, ∃ priority, q.threads[w.thread]? = some (.receiving priority false)) := by
  have sending : ∀ t ∈ q.senders.map Waiter.thread,
      ∃ msg, q.threads[t]? = some (.sending msg false) := by
    intro t ht
    obtain ⟨b, hb, hw⟩ := (h.sends.mem t).mp ht
    obtain ⟨msg, rfl⟩ := waitsToSend_eq hw
    exact ⟨msg, hb⟩
  have receiving : ∀ t ∈ q.receivers.map Waiter.thread,
      ∃ priority, q.threads[t]? = some (.receiving priority false) := by
    intro t ht
    obtain ⟨b, hb, hw⟩ := (h.receives.mem t).mp ht
    obtain ⟨priority, rfl⟩ := waitsToReceive_eq hw
    exact ⟨priority, hb⟩
  refine ⟨?_, fun w hw => sending _ (mem_map_of_mem hw),
    fun w hw => receiving _ (mem_map_of_mem hw)⟩
  rw [map_append]
  apply List.Nodup.append h.sends.nodup h.receives.nodup
  intro t hs hr
  obtain ⟨msg, hm⟩ := sending t hs
  obtain ⟨priority, hp⟩ := receiving t hr
  rw [hm] at hp
  cases hp

/-- In a run that takes no message past registered senders, a thread waits in a quiet
state only for what the queue lacks, and the lists hold each waiting thread once. -/
theorem no_waiter_stranded {q₀ q : Queue} (fresh : q₀.Fresh)
    (run : Run next (fun q e => keepsRoom q e = true) q₀ q) :
    ((q.senders ++ q.receivers).map Waiter.thread).Nodup ∧
      (∀ w ∈ q.senders, ∃ msg, q.threads[w.thread]? = some (.sending msg false)) ∧
      (∀ w ∈ q.receivers, ∃ priority, q.threads[w.thread]? = some (.receiving priority false)) ∧
      (q.Quiescent →
        (∀ (t : Nat) msg, q.threads[t]? = some (.sending msg false) →
          q.maxmsg ≤ q.messages.length) ∧
        ∀ (t : Nat) priority, q.threads[t]? = some (.receiving priority false) →
          q.messages = []) := by
  have h : Attended q := by
    apply run.invariant fresh.attended
    intro a e b ha ok hn
    obtain ⟨o, hs⟩ := next_some hn
    exact attended_step ha ok (step_move hs)
  obtain ⟨distinct, senders, receivers⟩ := h.entries
  refine ⟨distinct, senders, receivers, fun quiet => ⟨?_, ?_⟩⟩
  · intro t msg waits
    exact h.full quiet waits
  · intro t priority waits
    exact h.empty quiet waits

def opened (maxmsg : Int) (n : Nat) : Queue := { maxmsg, threads := List.replicate n .idle }

theorem opened_fresh (maxmsg : Int) (n : Nat) : (opened maxmsg n).Fresh :=
  ⟨rfl, rfl, rfl, rfl, fun _ h => eq_of_mem_replicate h⟩

def hello : Message := { buf := [104, 105], priority := 1 }

theorem no_waiter_stranded_full :
    ∃ q, Run next (fun q e => keepsRoom q e = true) (opened 1 2) q ∧ q.Quiescent ∧
      q.threads[1]? = some (.sending hello false) ∧ q.maxmsg ≤ q.messages.length := by
  obtain ⟨q, hr, hq, hw⟩ := replay_reaches next (fun q e => keepsRoom q e = true) (opened 1 2)
    [.send 0 true hello, .send 1 true hello]
    (P := fun q => q.Quiescent ∧ q.threads[1]? = some (.sending hello false)) (by decide +kernel)
  exact ⟨q, hr, hq, hw, ((no_waiter_stranded (opened_fresh 1 2) hr).2.2.2 hq).1 1 hello hw⟩

/-- Two messages are taken before the one sender that was woken runs: the other waits at
a queue with room. -/
theorem sender_stranded :
    ∃ q, Run next (fun _ _ => True) (opened 2 3) q ∧ q.Quiescent ∧
      q.threads[2]? = some (.sending hello false) ∧ (q.messages.length : Int) < q.maxmsg :=
  replay_reaches next (fun _ _ => True) (opened 2 3)
    [.send 0 true hello, .send 0 true hello, .send 1 true hello, .send 2 true hello,
      .receive 0 true 1 512, .receive 0 true 1 512, .run 1]
    (P := fun q => q.Quiescent ∧ q.threads[2]? = some (.sending hello false) ∧
      (q.messages.length : Int) < q.maxmsg) (by decide +kernel)

section Assertions

def Queue.clear (q : Queue) : Bool := q.receivers.isEmpty || decide (q.curmsgs ≤ 0)

/-- No message is added to others while a receiver is registered, and messages are
received only from a queue that can hold one. -/
def keepsSingle (q : Queue) : Event → Bool
  | .send _ canWrite msg =>
    !canWrite || decide (q.msgsize.toNat < msg.buf.length) ||
      (decide (0 ≤ q.maxmsg) && (decide (q.curmsgs = q.maxmsg) || q.clear))
  | .receive _ canRead _ msize => !canRead || decide (msize < q.msgsize) || decide (0 < q.maxmsg)
  | .run t =>
    match q.threads[t]? with
    | some (.sending _ true) => decide (q.maxmsg ≤ q.curmsgs) || q.clear
    | _ => true

/-- The counter is right, and a queue that can hold messages does not hold more. -/
structure Bounded (q : Queue) : Prop where
  counted : q.curmsgs = q.messages.length
  within : 0 ≤ q.maxmsg → q.curmsgs ≤ q.maxmsg

variable {q q' : Queue}

theorem wake_keeps (q : Queue) (t : Nat) : (q.wake t).curmsgs = q.curmsgs ∧
    (q.wake t).messages = q.messages ∧ (q.wake t).maxmsg = q.maxmsg := by
  unfold Queue.wake
  split <;> exact ⟨rfl, rfl, rfl⟩

theorem wakeSender_keeps (q : Queue) : (wakeSender q).curmsgs = q.curmsgs ∧
    (wakeSender q).messages = q.messages ∧ (wakeSender q).maxmsg = q.maxmsg := by
  unfold wakeSender
  split
  · exact ⟨rfl, rfl, rfl⟩
  · exact wake_keeps _ _

theorem wakeReceiver_keeps (h : wakeReceiver q = .ok q') : q'.curmsgs = q.curmsgs ∧
    q'.messages = q.messages ∧ q'.maxmsg = q.maxmsg := by
  unfold wakeReceiver at h
  split at h
  · cases h
    exact ⟨rfl, rfl, rfl⟩
  · split at h
    · cases h
      exact wake_keeps _ _
    · cases h

theorem Bounded.take (h : Bounded q) (some : q.messages ≠ []) (t : Nat) : Bounded (q.take t) := by
  have hp := length_pos_iff.mpr some
  have hc := h.counted
  refine ⟨?_, fun hm => ?_⟩
  · change q.curmsgs - 1 = (q.messages.tail.length : Nat)
    rw [length_tail]
    omega
  · have := h.within hm
    change q.curmsgs - 1 ≤ q.maxmsg
    omega

/-- No more messages than the queue may have. -/
theorem bounded_step {e : Event} (h : Bounded q) (move : Move q e q') : Bounded q' := by
  cases move with
  | none => exact h
  | waitSend here caller full => exact ⟨h.counted, h.within⟩
  | waitReceive here caller empty => exact ⟨h.counted, h.within⟩
  | sent here caller room wakes =>
    rename_i msg
    obtain ⟨hc, hm, hx⟩ := wakeReceiver_keeps wakes
    have hp := (addByPriority_perm Message.priority msg q.messages).length_eq
    refine ⟨?_, fun _ => ?_⟩
    · rw [hc, hm]
      change q.curmsgs + 1 = ((addByPriority Message.priority msg q.messages).length : Nat)
      have := h.counted
      rw [hp, length_cons]
      omega
    · rw [hc, hx]
      exact room
  | receivedFull here full some =>
    obtain ⟨hc, hm, hx⟩ := wakeSender_keeps q
    apply Bounded.take _ some
    exact ⟨by rw [hc, hm]; exact h.counted, by rw [hc, hx]; exact h.within⟩
  | received here caller spare some => exact h.take some _

theorem finishSend_asserts {t : Nat} {msg : Message} (h : Bounded q) (clear : q.clear = true)
    (room : q.curmsgs < q.maxmsg) : finishSend q t msg ≠ .error .assertion := by
  intro he
  rw [finishSend, if_pos room] at he
  unfold wakeReceiver at he
  split at he
  · cases he
  · rename_i mqr receivers hr
    have hr : q.receivers = mqr :: receivers := hr
    rw [Queue.clear, hr, List.isEmpty_cons, Bool.false_or, decide_eq_true_eq] at clear
    split at he
    · cases he
    · rename_i hone
      have hc := h.counted
      have hone : ¬q.curmsgs + 1 = 1 := hone
      omega

theorem finishReceive_asserts {t : Nat} (some : q.messages ≠ []) :
    finishReceive q t ≠ .error .assertion := by
  intro he
  unfold finishReceive at he
  split at he
  · rename_i hm
    exact some hm
  · cases he

theorem Bounded.nonempty (h : Bounded q) (pos : 0 < q.curmsgs) : q.messages ≠ [] := by
  have hc := h.counted
  intro he
  rw [he, length_nil] at hc
  omega

theorem send_asserts {t : Nat} {canWrite : Bool} {msg : Message} (h : Bounded q)
    (ok : keepsSingle q (.send t canWrite msg) = true) :
    mqSend q t canWrite msg ≠ .error .assertion := by
  intro he
  unfold mqSend at he
  split at he
  · cases he
  · rename_i hc
    split at he
    · cases he
    · rename_i hm
      simp only [keepsSingle, Bool.eq_true_of_not_eq_false hc, hm, Bool.not_true, decide_false,
        Bool.false_or, Bool.and_eq_true, Bool.or_eq_true, decide_eq_true_eq] at ok
      split at he
      · have := h.within ok.1
        omega
      · split at he
        · split at he <;> cases he
        · rename_i hf
          exact finishSend_asserts h (ok.2.resolve_left hf) (by omega) he

theorem receive_asserts {t : Nat} {canRead : Bool} {priority msize : UInt32} (h : Bounded q)
    (ok : keepsSingle q (.receive t canRead priority msize) = true) :
    mqReceive q t canRead priority msize ≠ .error .assertion := by
  intro he
  have hc := h.counted
  unfold mqReceive at he
  split at he
  · cases he
  · rename_i hr
    split at he
    · cases he
    · rename_i hm
      simp only [keepsSingle, Bool.eq_true_of_not_eq_false hr, hm, Bool.not_true, decide_false,
        Bool.false_or, decide_eq_true_eq] at ok
      split at he
      · have := h.within ok.le
        omega
      · split at he
        · refine finishReceive_asserts ?_ he
          rw [(wakeSender_keeps q).2.1]
          exact h.nonempty (by omega)
        · split at he
          · split at he <;> cases he
          · exact finishReceive_asserts (h.nonempty (by omega)) he

/-- With one waiter at most the assertion is not reached. -/
theorem step_asserts {e : Event} (h : Bounded q) (ok : keepsSingle q e = true) :
    step q e ≠ .error .assertion := by
  intro he
  cases e with
  | send t canWrite msg =>
    simp only [step] at he
    split at he
    · exact send_asserts h ok he
    · cases he
  | receive t canRead priority msize =>
    simp only [step] at he
    split at he
    · exact receive_asserts h ok he
    · cases he
  | run t =>
    simp only [step] at he
    split at he
    · rename_i msg ht
      unfold resumeSend at he
      split at he
      · rename_i hr
        simp only [keepsSingle, ht, or_eq_true, decide_eq_true_eq] at ok
        exact finishSend_asserts h (ok.resolve_left (not_le.mpr hr)) hr he
      · cases he
    · unfold resumeReceive at he
      split at he
      · rename_i hz
        exact finishReceive_asserts (h.nonempty hz) he
      · cases he
    · cases he

/-- In a run that adds no second message while a receiver is registered, the assertions
of `mq_send` and `mq_receive` hold. -/
theorem queue_never_asserts {q₀ q : Queue} {e : Event} (fresh : q₀.Fresh)
    (run : Run next (fun q e => keepsSingle q e = true) q₀ q) (ok : keepsSingle q e = true) :
    step q e ≠ .error .assertion := by
  have start : Bounded q₀ := by
    refine ⟨by rw [fresh.curmsgs, fresh.messages]; rfl, fun hm => ?_⟩
    rw [fresh.curmsgs]
    exact hm
  apply step_asserts _ ok
  apply run.invariant start
  intro a e b ha _ hn
  obtain ⟨o, hs⟩ := next_some hn
  exact bounded_step ha (step_move hs)

theorem queue_never_asserts_waiting :
    ∃ q, Run next (fun q e => keepsSingle q e = true) (opened 2 3) q ∧ q.receivers.length = 2 ∧
      step q (.send 2 true hello) ≠ .error .assertion := by
  obtain ⟨q, hr, hl, ok⟩ := replay_reaches next (fun q e => keepsSingle q e = true) (opened 2 3)
    [.receive 0 true 1 512, .receive 1 true 1 512]
    (P := fun q => q.receivers.length = 2 ∧ keepsSingle q (.send 2 true hello) = true)
    (by decide +kernel)
  exact ⟨q, hr, hl, queue_never_asserts (opened_fresh 2 3) hr ok⟩

/-- Two messages are sent to two receivers before the first of them runs. -/
theorem second_send_asserts :
    ∃ q, Run next (fun _ _ => True) (opened 2 3) q ∧
      step q (.send 2 true hello) = .error .assertion :=
  replay_reaches next (fun _ _ => True) (opened 2 3)
    [.receive 0 true 1 512, .receive 1 true 1 512, .send 2 true hello]
    (P := fun q => step q (.send 2 true hello) = .error .assertion) (by decide +kernel)

end Assertions

end Mos.MessageQueue

import Mos.Devices.Input
import Mos.Machine.Cyclic

namespace Mos.Input
open Machine List Option

variable {α : Type} {i : Inode α} {r r' : Reader α} {s s' : Device α} {q : List α}

/-- A bounded queue takes an event, and drops the oldest one when it is full. -/
def retain (q : List α) (e : α) : List α :=
  if q.length < mousePacketQueueLen then q ++ [e] else q.tail ++ [e]

/-- The queue holds `q` after a log, and every read has returned the oldest event retained. -/
def Behaves : List (Happening α) → List α → Prop
  | [], q => q = []
  | .event e :: log, q => ∃ p, Behaves log p ∧ q = retain p e
  | .returned e :: log, q => Behaves log (e :: q)

/-- Every file of the device is a bounded queue of its own events and reads, and `ready` tells
whether something is in it. -/
def Right (s : Device α) : Prop :=
  ∀ r ∈ s, ∃ q, Behaves r.log q ∧ (r.inode.ready = true ↔ q ≠ [])

def Inode.full (i : Inode α) : Bool := i.ready && (i.tail + 1) % mousePacketQueueLen == i.head

def Stage.bears (full : Bool) : Stage α → Bool
  | .waiting => true
  | .copied _ | .advancing _ => !full
  | .clearing _ => false

def Stage.isWaiting : Stage α → Bool
  | .waiting => true
  | _ => false

/-- No event drops one that a read has copied and not yet taken out, or comes when a read is about
to clear `ready`; and while a read is past its wait, no other one of the file gets on. -/
def undisturbed (s : Device α) : Act α → Bool
  | .event _ => s.all fun r => r.calls.all (·.bears r.inode.full)
  | .read k => s[k]?.all fun r => r.calls.all Stage.isWaiting
  | .resume k j => s[k]?.all fun r => (r.calls.eraseIdx j).all Stage.isWaiting
  | .open | .release _ => true

def Undisturbed (s : System) : Op → Prop
  | .mouse a => undisturbed s.mouse a = true
  | .kybrd a => undisturbed s.kybrd a = true

instance (s : System) : DecidablePred (Undisturbed s)
  | .mouse _ | .kybrd _ => inferInstanceAs (Decidable (_ = _))

structure Inode.Holds (i : Inode α) (q : List α) : Prop where
  cyclic : Cyclic mousePacketQueueLen i.packets i.head q
  ready : i.ready = true ↔ q ≠ []
  tail : q ≠ [] → i.tail = (i.head + (q.length - 1)) % 16
  head_lt : i.head < 16
  tail_lt : i.tail < 16

namespace Inode.Holds

theorem length_pos (h : i.Holds q) (hr : i.ready = true) : 0 < q.length :=
  length_pos_iff.mpr (h.ready.mp hr)

theorem length_le (h : i.Holds q) : q.length ≤ 16 := h.cyclic.le

theorem first (h : i.Holds q) (hr : i.ready = true) : q = i.first :: q.tail := by
  cases q with
  | nil => exact absurd rfl (h.ready.mp hr)
  | cons e q =>
    have hat := h.cyclic.at_place 0 e rfl
    rw [Nat.add_zero, mousePacketQueueLen, Nat.mod_eq_of_lt h.head_lt] at hat
    rw [Inode.first, hat]
    rfl

theorem tail_ne (h : i.Holds q) (hr : i.ready = true) : i.tail ≠ i.head ↔ 1 < q.length := by
  have hle := h.length_le
  have hh := h.head_lt
  have ht := h.tail (h.ready.mp hr)
  omega

/-- The ring is full with sixteen events, so that head and tail never meet. -/
theorem full_iff (h : i.Holds q) : i.full = true ↔ q.length = 16 := by
  have hle := h.length_le
  have hh := h.head_lt
  unfold Inode.full mousePacketQueueLen
  cases hr : i.ready with
  | false =>
    have hq : q = [] := by simpa [hr] using h.ready
    simp [hq]
  | true =>
    have ht := h.tail (h.ready.mp hr)
    simp only [Bool.true_and, beq_iff_eq]
    omega

theorem advance {e : α} (h : i.Holds (e :: q)) (hq : q ≠ []) : i.advance.Holds q := by
  have hpos : 0 < q.length := length_pos_iff.mpr hq
  have ht := h.tail (cons_ne_nil e q)
  rw [length_cons] at ht
  refine ⟨h.cyclic.drop 1, ?_, fun _ => ?_, Nat.mod_lt _ (by decide), h.tail_lt⟩
  · exact iff_of_true (h.ready.mpr (cons_ne_nil e q)) hq
  · simp only [Inode.advance, mousePacketQueueLen]
    omega

theorem clear {e : α} (h : i.Holds [e]) : i.clear.Holds [] :=
  ⟨.nil _ _ _, by simp [Inode.clear], absurd rfl, h.head_lt, h.tail_lt⟩

theorem notify (h : i.Holds q) (e : α) : (i.notify e).Holds (retain q e) := by
  have hle := h.length_le
  have hh := h.head_lt
  have ht := h.tail_lt
  cases hr : i.ready with
  | false =>
    -- the queue starts again at `tail`
    have hq : q = [] := by simpa [hr] using h.ready
    have hc := (Cyclic.nil mousePacketQueueLen i.packets i.tail).push (Nat.succ_pos 15) e
    rw [length_nil, Nat.add_zero, mousePacketQueueLen, Nat.mod_eq_of_lt ht] at hc
    simp only [Inode.notify, hr, hq, retain]
    exact ⟨hc, by simp, fun _ => (Nat.mod_eq_of_lt ht).symm, ht, ht⟩
  | true =>
    have hpos := h.length_pos hr
    have htail := h.tail (h.ready.mp hr)
    by_cases hfull : q.length < 16
    · have hne : (i.tail + 1) % 16 ≠ i.head := by omega
      have hplace : (i.head + q.length) % 16 = (i.tail + 1) % 16 := by omega
      have hc := h.cyclic.push hfull e
      simp only [mousePacketQueueLen, hplace] at hc
      rw [show retain q e = q ++ [e] from if_pos hfull]
      simp only [Inode.notify, hr, mousePacketQueueLen, if_true, if_neg hne]
      refine ⟨hc, by simp, fun _ => ?_, hh, Nat.mod_lt _ (by decide)⟩
      simp only [length_append, length_singleton]
      omega
    · have heq : (i.tail + 1) % 16 = i.head := by omega
      have hlen : q.tail.length = 15 := by
        rw [length_tail]
        omega
      have hplace : ((i.head + 1) % 16 + 15) % 16 = (i.tail + 1) % 16 := by omega
      have hc := (h.cyclic.drop 1).push (by rw [drop_one, hlen]; decide) e
      rw [drop_one] at hc
      simp only [mousePacketQueueLen, hlen, hplace] at hc
      rw [show retain q e = q.tail ++ [e] from if_neg hfull]
      simp only [Inode.notify, hr, mousePacketQueueLen, if_true, if_pos heq]
      refine ⟨hc, by simp, fun _ => ?_, Nat.mod_lt _ (by decide), Nat.mod_lt _ (by decide)⟩
      simp only [length_append, length_singleton, hlen]
      omega

end Inode.Holds

def Stage.Fits (q : List α) : Stage α → Prop
  | .waiting => True
  | .copied e => q = e :: q.tail
  | .advancing e => q = e :: q.tail ∧ q.tail ≠ []
  | .clearing e => q = [e]

theorem Stage.fits_of_isWaiting {c : Stage α} (h : c.isWaiting = true) : c.Fits q := by
  cases c with
  | waiting => trivial
  | _ => cases h

theorem retain_of_room {e x : α} (hq : q = x :: q.tail) (room : q.length ≠ 16)
    (le : q.length ≤ 16) : retain q e = x :: (q.tail ++ [e]) := by
  rw [retain, mousePacketQueueLen, if_pos (by omega)]
  nth_rewrite 1 [hq]
  rfl

theorem Stage.Fits.retain {c : Stage α} {full : Bool} (h : c.Fits q) (le : q.length ≤ 16)
    (hfull : full = true ↔ q.length = 16) (hb : c.bears full = true) (e : α) :
    c.Fits (retain q e) := by
  have room (hb : (!full) = true) : q.length ≠ 16 := by
    intro he
    simp [hfull.mpr he] at hb
  cases c with
  | waiting => trivial
  | copied x => simp [Fits, retain_of_room h (room hb) le]
  | advancing x => simp [Fits, retain_of_room h.1 (room hb) le]
  | clearing x => cases hb

structure Serves (r : Reader α) (q : List α) : Prop where
  behaves : Behaves r.log q
  holds : r.inode.Holds q
  calls : ∀ c ∈ r.calls, c.Fits q

namespace Serves

theorem opened [Inhabited α] : Serves (Input.opened : Reader α) [] :=
  ⟨rfl, ⟨.nil _ _ _, by simp [Input.opened], absurd rfl, Nat.succ_pos 15,
    Nat.succ_pos 15⟩, nofun⟩

theorem notify (h : Serves r q) (e : α) (hb : ∀ c ∈ r.calls, c.bears r.inode.full = true) :
    Serves (r.notify e) (retain q e) :=
  ⟨⟨q, h.behaves, rfl⟩, h.holds.notify e, fun c hc =>
    (h.calls c hc).retain h.holds.length_le h.holds.full_iff (hb c hc) e⟩

theorem read (h : Serves r q) (hw : ∀ c ∈ r.calls, c.isWaiting = true) : ∃ q, Serves r.read q := by
  have fits (q : List α) : ∀ c ∈ r.calls, c.Fits q := fun c hc => Stage.fits_of_isWaiting (hw c hc)
  unfold Reader.read
  split
  · rename_i hr
    have hq := h.holds.first hr
    have hne := h.holds.tail_ne hr
    generalize q.tail = rest at hq
    subst hq
    refine ⟨rest, h.behaves, ?_, fits rest⟩
    split
    · rename_i ht
      exact h.holds.advance (length_pos_iff.mp (Nat.lt_of_succ_lt_succ (hne.mp ht)))
    · rename_i ht
      obtain rfl : rest = [] := by simpa [hne] using ht
      exact h.holds.clear
  · refine ⟨q, h.behaves, h.holds, ?_⟩
    intro c hc
    rcases mem_append.mp hc with hc | hc
    · exact h.calls c hc
    · rw [mem_singleton.mp hc]
      trivial

theorem resume (h : Serves r q) {j : Nat} (hw : ∀ c ∈ r.calls.eraseIdx j, c.isWaiting = true)
    (hr : r.resume j = some r') : ∃ q, Serves r' q := by
  have next {c : Stage α} (hc : c.Fits q) : ∀ d ∈ r.calls.set j c, d.Fits q := by
    intro d hd
    rcases mem_or_eq_of_mem_set hd with hd | rfl
    · exact h.calls d hd
    · exact hc
  have rest (q : List α) : ∀ c ∈ r.calls.eraseIdx j, c.Fits q := fun c hc =>
    Stage.fits_of_isWaiting (hw c hc)
  unfold Reader.resume at hr
  split at hr
  · cases hr
  · split at hr
    · rename_i hready
      cases hr
      exact ⟨q, h.behaves, h.holds, next (h.holds.first hready)⟩
    · cases hr
  · rename_i e hj
    cases hr
    have hq : q = e :: q.tail := h.calls _ (mem_of_getElem? hj)
    have hready : r.inode.ready = true := h.holds.ready.mpr (by rw [hq]; exact cons_ne_nil _ _)
    have hne := h.holds.tail_ne hready
    refine ⟨q, h.behaves, h.holds, next ?_⟩
    generalize q.tail = l at hq
    subst hq
    split
    · rename_i ht
      exact ⟨rfl, length_pos_iff.mp (Nat.lt_of_succ_lt_succ (hne.mp ht))⟩
    · rename_i ht
      obtain rfl : l = [] := by simpa [hne] using ht
      rfl
  · rename_i e hj
    cases hr
    obtain ⟨hq, hne⟩ : q = e :: q.tail ∧ q.tail ≠ [] := h.calls _ (mem_of_getElem? hj)
    rw [hq] at h
    exact ⟨q.tail, h.behaves, h.holds.advance hne, rest _⟩
  · rename_i e hj
    cases hr
    obtain rfl : q = [e] := h.calls _ (mem_of_getElem? hj)
    exact ⟨[], h.behaves, h.holds.clear, rest _⟩

end Serves

theorem act_serves [Inhabited α] {a : Act α} (hs : ∀ r ∈ s, ∃ q, Serves r q) (hu : undisturbed s a = true)
    (h : act s a = some s') : ∀ r ∈ s', ∃ q, Serves r q := by
  have set {k : Nat} {r' : Reader α} (hr' : ∃ q, Serves r' q) : ∀ r ∈ s.set k r', ∃ q, Serves r q := by
    intro r hr
    rcases mem_or_eq_of_mem_set hr with hr | rfl
    · exact hs r hr
    · exact hr'
  cases a with
  | «open» =>
    cases h
    intro r hr
    rcases mem_append.mp hr with hr | hr
    · exact hs r hr
    · exact ⟨[], mem_singleton.mp hr ▸ Serves.opened⟩
  | event e =>
    cases h
    intro r hr
    obtain ⟨r, hmem, rfl⟩ := mem_map.mp hr
    obtain ⟨q, hq⟩ := hs r hmem
    exact ⟨_, hq.notify e (all_eq_true.mp (all_eq_true.mp hu r hmem))⟩
  | read k =>
    obtain ⟨r, hk, rfl⟩ := map_eq_some_iff.mp h
    obtain ⟨q, hq⟩ := hs r (mem_of_getElem? hk)
    rw [undisturbed, hk] at hu
    exact set (hq.read (all_eq_true.mp hu))
  | resume k j =>
    obtain ⟨r, hk, h⟩ := bind_eq_some_iff.mp h
    obtain ⟨r', hr', rfl⟩ := map_eq_some_iff.mp h
    obtain ⟨q, hq⟩ := hs r (mem_of_getElem? hk)
    rw [undisturbed, hk] at hu
    exact set (hq.resume (all_eq_true.mp hu) hr')
  | release k =>
    obtain ⟨r, hk, h⟩ := bind_eq_some_iff.mp h
    split at h
    · cases h
      exact fun r hr => hs r (mem_of_mem_eraseIdx hr)
    · cases h

theorem right_of_serves (h : ∀ r ∈ s, ∃ q, Serves r q) : Right s := by
  intro r hr
  obtain ⟨q, hq⟩ := h r hr
  exact ⟨q, hq.behaves, hq.holds.ready⟩

/-- The files of the mouse and of the keyboard are bounded queues in every run whose reads are
not disturbed. -/
theorem event_queues_right {s : System} (h : Run step Undisturbed {} s) :
    Right s.mouse ∧ Right s.kybrd := by
  have hs : (∀ r ∈ s.mouse, ∃ q, Serves r q) ∧ ∀ r ∈ s.kybrd, ∃ q, Serves r q := by
    refine h.invariant (I := fun s => (∀ r ∈ s.mouse, ∃ q, Serves r q) ∧
      ∀ r ∈ s.kybrd, ∃ q, Serves r q) ⟨nofun, nofun⟩ ?_
    intro s op s' hs ok next
    cases op with
    | mouse a =>
      obtain ⟨d, hd, rfl⟩ := map_eq_some_iff.mp next
      exact ⟨act_serves hs.1 ok hd, hs.2⟩
    | kybrd a =>
      obtain ⟨d, hd, rfl⟩ := map_eq_some_iff.mp next
      exact ⟨hs.1, act_serves hs.2 ok hd⟩
  exact ⟨right_of_serves hs.1, right_of_serves hs.2⟩

def moved (x : Int32) : MouseEvent := ⟨x, 0, 0, 0⟩

theorem event_queues_right_copied : ∃ s : System, (Right s.mouse ∧ Right s.kybrd) ∧
    s.mouse.map (·.log) = [[.returned (moved 1), .event (moved 2), .event (moved 1)]] := by
  obtain ⟨s, hrun, hlog⟩ := replay_reaches step Undisturbed {}
    [.mouse .open, .mouse (.read 0), .mouse (.event (moved 1)), .mouse (.resume 0 0),
      .mouse (.event (moved 2)), .mouse (.resume 0 0), .mouse (.resume 0 0)]
    (P := fun s => s.mouse.map (·.log) =
      [[.returned (moved 1), .event (moved 2), .event (moved 1)]]) (by decide)
  exact ⟨s, event_queues_right hrun, hlog⟩

/-- It comes when the read has found the queue to hold the first event only: `ready` is cleared,
and the second event is lost. -/
theorem event_lost : ∃ s : System, Run step (fun _ _ => True) {} s ∧ ¬Right s.mouse := by
  obtain ⟨s, hrun, hlog⟩ := replay_reaches step (fun _ _ => True) {}
    [.mouse .open, .mouse (.read 0), .mouse (.event (moved 1)), .mouse (.resume 0 0),
      .mouse (.resume 0 0), .mouse (.event (moved 2)), .mouse (.resume 0 0)]
    (P := fun s => s.mouse.map (fun r => (r.log, r.inode.ready)) =
      [([.returned (moved 1), .event (moved 2), .event (moved 1)], false)]) (by decide)
  refine ⟨s, hrun, fun h => ?_⟩
  obtain ⟨r, hr, hlog⟩ := map_eq_singleton_iff.mp hlog
  obtain ⟨hlog, hready⟩ := Prod.mk.inj hlog
  obtain ⟨q, hq, hiff⟩ := h r (hr ▸ mem_singleton_self r)
  rw [hlog] at hq
  obtain ⟨p, ⟨p', rfl, rfl⟩, heq⟩ := hq
  obtain ⟨-, rfl⟩ := List.cons.inj heq
  simp [hready] at hiff

end Mos.Input

import Mos.Machine.Run
import Mos.Machine.Cyclic
import Mos.Fs.Pipe

namespace Mos.Pipe
open Machine List

/-- The buffer holds the bytes of the list, from `tail` on and around the end. -/
structure Holds (c : CircularBuf) (l : List UInt8) : Prop where
  tail : c.tail < c.max
  head : c.head = (c.tail + l.length) % c.max
  le : l.length ≤ c.max
  full : c.full = decide (l.length = c.max)
  bytes : ∀ i x, l[i]? = some x → c.buffer ((c.tail + i) % c.max) = x

theorem succ_place (t i m : Nat) : ((t + 1) % m + i) % m = (t + (i + 1)) % m := by
  rw [Nat.mod_add_mod]
  congr 1
  omega

variable {c : CircularBuf} {l : List UInt8}

theorem holds_alloc : Holds allocPipe [] := by
  refine ⟨by decide, by decide, by decide, by decide, ?_⟩
  intro i x h
  cases h

theorem Holds.size (h : Holds c l) : circularBufSize c = l.length := by
  unfold circularBufSize
  have hm := h.tail
  have hl := h.le
  rw [h.full, h.head]
  by_cases hf : l.length = c.max
  · simp [hf]
  · rw [decide_eq_false hf, if_neg Bool.false_ne_true]
    by_cases hw : c.tail + l.length < c.max
    · rw [Nat.mod_eq_of_lt hw]
      split <;> omega
    · rw [Nat.mod_eq_sub_mod (by omega), Nat.mod_eq_of_lt (by omega)]
      split <;> omega

theorem Holds.put (h : Holds c l) (room : l.length < c.max) (x : UInt8) :
    Holds (circularBufPut c x) (l ++ [x]) := by
  have open_ : c.full = false := by
    rw [h.full]
    exact decide_eq_false room.ne
  have hlen : (l ++ [x]).length = l.length + 1 := by simp
  have next : (c.head + 1) % c.max = (c.tail + (l.length + 1)) % c.max := by
    rw [h.head, Nat.mod_add_mod, Nat.add_assoc]
  simp only [circularBufPut, advancePointer, open_, Bool.false_eq_true, if_false]
  refine ⟨h.tail, ?_, ?_, ?_, ?_⟩
  · rw [hlen]
    exact next
  · rw [hlen]
    exact room
  · rw [hlen]
    simp only [next, decide_eq_decide]
    constructor
    · intro he
      by_contra hne
      have wraps : (c.tail + (l.length + 1)) % c.max = (c.tail + 0) % c.max := by
        rw [he, Nat.add_zero, Nat.mod_eq_of_lt h.tail]
      exact absurd (place_inj (by omega) (by omega) wraps) (Nat.succ_ne_zero _)
    · intro he
      rw [he, Nat.add_mod_right, Nat.mod_eq_of_lt h.tail]
  · intro i y hi
    simp only
    by_cases hlast : i = l.length
    · subst hlast
      rw [← h.head, Function.update_self]
      simpa using hi
    · have hb : i < l.length := by
        have := (List.getElem?_eq_some_iff.mp hi).1
        omega
      rw [List.getElem?_append_left hb] at hi
      rw [Function.update_of_ne, h.bytes i y hi]
      intro he
      rw [h.head] at he
      exact hlast (place_inj (by omega) room he)

theorem Holds.overwrite (h : Holds c l) (full : l.length = c.max) (x : UInt8) :
    Holds (circularBufPut c x) (l.tail ++ [x]) := by
  have hpos : 0 < c.max := Nat.zero_lt_of_lt h.tail
  have hfull : c.full = true := by
    rw [h.full]
    exact decide_eq_true full
  have head : c.head = c.tail := by
    rw [h.head, full, Nat.add_mod_right, Nat.mod_eq_of_lt h.tail]
  have hlen : (l.tail ++ [x]).length = c.max := by
    rw [length_append, length_tail, length_singleton]
    omega
  simp only [circularBufPut, advancePointer, hfull, if_true]
  refine ⟨Nat.mod_lt _ hpos, ?_, hlen.le, ?_, ?_⟩
  · rw [hlen, Nat.add_mod_right, Nat.mod_mod, head]
  · rw [decide_eq_true hlen, head, decide_eq_true rfl]
  · intro i y hi
    simp only [succ_place]
    have hb : i < c.max := by
      rw [← hlen]
      exact (List.getElem?_eq_some_iff.mp hi).1
    by_cases hlast : i + 1 = c.max
    · rw [hlast, Nat.add_mod_right, Nat.mod_eq_of_lt h.tail, head, Function.update_self]
      rw [List.getElem?_append_right (by rw [length_tail]; omega), length_tail,
        show i - (l.length - 1) = 0 by omega] at hi
      simpa using hi
    · rw [List.getElem?_append_left (by rw [length_tail]; omega), List.getElem?_tail] at hi
      rw [Function.update_of_ne, h.bytes (i + 1) y hi]
      intro he
      rw [head] at he
      have wraps : (c.tail + (i + 1)) % c.max = (c.tail + 0) % c.max := by
        rw [he, Nat.add_zero, Nat.mod_eq_of_lt h.tail]
      exact absurd (place_inj (by omega) hpos wraps) (Nat.succ_ne_zero _)

theorem Holds.empty (h : Holds c l) : circularBufEmpty c = l.isEmpty := by
  have hpos : 0 < c.max := Nat.zero_lt_of_lt h.tail
  rw [circularBufEmpty, h.full, h.head, Bool.eq_iff_iff]
  simp only [Bool.and_eq_true, Bool.not_eq_true', decide_eq_false_iff_not, decide_eq_true_eq,
    List.isEmpty_iff]
  constructor
  · rintro ⟨hn, he⟩
    have wraps : (c.tail + l.length) % c.max = (c.tail + 0) % c.max := by
      rw [he, Nat.add_zero, Nat.mod_eq_of_lt h.tail]
    have hl := h.le
    exact List.length_eq_zero_iff.mp (place_inj (by omega) hpos wraps)
  · rintro rfl
    exact ⟨hpos.ne, Nat.mod_eq_of_lt h.tail⟩

theorem Holds.get_nil (h : Holds c []) : circularBufGet c = (none, c) := by
  rw [circularBufGet, h.empty]
  rfl

theorem Holds.get_cons {x : UInt8} (h : Holds c (x :: l)) :
    circularBufGet c = (some x, retreatPointer c) ∧ Holds (retreatPointer c) l := by
  have hpos : 0 < c.max := Nat.zero_lt_of_lt h.tail
  have hl := h.le
  rw [length_cons] at hl
  have first : c.buffer c.tail = x := by
    have hb := h.bytes 0 x rfl
    rwa [Nat.add_zero, Nat.mod_eq_of_lt h.tail] at hb
  refine ⟨by rw [circularBufGet, h.empty, first]; rfl, Nat.mod_lt _ hpos, ?_, by simp only [retreatPointer]; omega, ?_, ?_⟩
  · simp only [retreatPointer, succ_place]
    exact h.head
  · simp only [retreatPointer]
    exact (decide_eq_false (by omega)).symm
  · intro i y hi
    simp only [retreatPointer, succ_place]
    exact h.bytes (i + 1) y hi

theorem Holds.readLoop (h : Holds c l) (count : Nat) :
    (readLoop c count).1.reduceOption = l.take count ∧
      Holds (Pipe.readLoop c count).2 (l.drop count) := by
  induction count generalizing c l with
  | zero => exact ⟨rfl, h⟩
  | succ count ih =>
    cases l with
    | nil =>
      simp only [Pipe.readLoop, h.get_nil]
      obtain ⟨ht, hd⟩ := ih h
      exact ⟨by rw [reduceOption_cons_of_none, ht, take_nil, take_nil],
        by rwa [drop_nil] at hd ⊢⟩
    | cons x l =>
      obtain ⟨hg, hr⟩ := h.get_cons
      simp only [Pipe.readLoop, hg]
      obtain ⟨ht, hd⟩ := ih hr
      exact ⟨by rw [reduceOption_cons_of_some, ht, take_succ_cons], hd⟩

theorem Holds.writeLoop (h : Holds c l) (buf : List UInt8) :
    Holds (writeLoop c buf) ((l ++ buf).drop (l.length + buf.length - c.max)) := by
  induction buf generalizing c l with
  | nil =>
    have := h.le
    rw [append_nil, length_nil, Nat.add_zero, show l.length - c.max = 0 by omega]
    exact h
  | cons x buf ih =>
    have hm : (circularBufPut c x).max = c.max := rfl
    have happ : l ++ x :: buf = l ++ [x] ++ buf := by rw [append_assoc, singleton_append]
    rw [Pipe.writeLoop, happ, length_cons]
    by_cases full : l.length = c.max
    · have hw := ih (h.overwrite full x)
      have hpos : 0 < c.max := Nat.zero_lt_of_lt h.tail
      obtain ⟨y, l, rfl⟩ := exists_cons_of_length_pos (l := l) (by omega)
      rw [hm, tail_cons, length_append, length_singleton] at hw
      rw [length_cons] at full ⊢
      rw [cons_append, cons_append,
        show l.length + 1 + (buf.length + 1) - c.max = l.length + 1 + buf.length - c.max + 1 by omega,
        drop_succ_cons]
      exact hw
    · have hw := ih (h.put (by have := h.le; omega) x)
      rw [hm, length_append, length_singleton] at hw
      rwa [show l.length + (buf.length + 1) = l.length + 1 + buf.length by omega]

theorem rdonly_refuses_nothing (fFlags : UInt32) : ¬fFlags &&& oRdonly ≠ 0 := by
  simp [oRdonly]

theorem readLoop_max (c : CircularBuf) (count : Nat) : (readLoop c count).2.max = c.max := by
  induction count generalizing c with
  | zero => rfl
  | succ count ih =>
    simp only [Pipe.readLoop, ih]
    unfold circularBufGet
    split <;> rfl

theorem writeLoop_max (c : CircularBuf) (buf : List UInt8) : (writeLoop c buf).max = c.max := by
  induction buf generalizing c with
  | nil => rfl
  | cons x buf ih =>
    rw [Pipe.writeLoop, ih]
    rfl

def fits (s : Stream) : Call → Bool
  | .read _ _ => true
  | .write _ buf => decide (circularBufSize s.buf + buf.length ≤ s.buf.max)

/-- The call is refused, asks for no byte, or reads from an empty pipe. -/
def movesNothing (s : Stream) : Call → Bool
  | .read fFlags count => decide (fFlags &&& oWronly ≠ 0) || count == 0 || circularBufEmpty s.buf
  | .write _ buf => buf.isEmpty

def ReturnsTransferred (s : Stream) (call : Call) : Prop :=
  0 ≤ returned s call → returned s call = (transferred s call).length

theorem Holds.transferred_read {s : Stream} (h : Holds s.buf l) (fFlags : UInt32) (count : Nat) :
    transferred s (.read fFlags count) = if fFlags &&& oWronly ≠ 0 then [] else l.take count := by
  unfold transferred pipeRead
  simp only
  split
  · rfl
  · exact (h.readLoop count).1

theorem transferred_write (s : Stream) (fFlags : UInt32) (buf : List UInt8) :
    transferred s (.write fFlags buf) = buf := if_neg (rdonly_refuses_nothing fFlags)

/-- The count returned is right exactly when nothing is moved. -/
theorem returns_iff {s : Stream} (h : Holds s.buf l) (call : Call) :
    ReturnsTransferred s call ↔ movesNothing s call = true := by
  cases call with
  | read fFlags count =>
    rw [ReturnsTransferred, h.transferred_read]
    simp only [returned, pipeRead, movesNothing, h.empty]
    by_cases hf : fFlags &&& oWronly ≠ 0
    · simp [hf, einval]
    · simp only [hf, if_false, decide_false, Bool.false_or, Bool.or_eq_true, beq_iff_eq,
        List.isEmpty_iff, List.length_take, le_refl, true_imp_iff]
      have hz : l = [] ↔ l.length = 0 := List.length_eq_zero_iff.symm
      rw [hz]
      omega
  | write fFlags buf =>
    rw [ReturnsTransferred, transferred_write]
    simp only [returned, pipeWrite, rdonly_refuses_nothing, if_false, movesNothing,
      List.isEmpty_iff, le_refl, true_imp_iff]
    rw [← List.length_eq_zero_iff]
    omega

def Sound (s : Stream) : Prop := s.buf.max = pipeSize ∧ ∃ l, Holds s.buf l

/-- What was accepted and not yet delivered is in the buffer. -/
def Lossless (s : Stream) : Prop :=
  s.buf.max = pipeSize ∧ ∃ l, Holds s.buf l ∧ s.accepted = s.delivered ++ l

theorem step_read_holds {s : Stream} (h : Holds s.buf l) (fFlags : UInt32) (count : Nat) :
    Holds (pipeRead s.buf fFlags count).2.1
        (if fFlags &&& oWronly ≠ 0 then l else l.drop count) ∧
      (pipeRead s.buf fFlags count).2.1.max = s.buf.max := by
  unfold pipeRead
  split
  · exact ⟨h, rfl⟩
  · exact ⟨(h.readLoop count).2, readLoop_max _ _⟩

theorem step_write_holds {s : Stream} (h : Holds s.buf l) (fFlags : UInt32) (buf : List UInt8) :
    Holds (pipeWrite s.buf fFlags buf).1 ((l ++ buf).drop (l.length + buf.length - s.buf.max)) ∧
      (pipeWrite s.buf fFlags buf).1.max = s.buf.max := by
  rw [pipeWrite, if_neg (rdonly_refuses_nothing fFlags)]
  exact ⟨h.writeLoop buf, writeLoop_max _ _⟩

/-- The buffer is a ring of `PIPE_SIZE` bytes after every call. -/
theorem sound_step {s s' : Stream} {call : Call} (h : Sound s) (next : step s call = some s') :
    Sound s' := by
  obtain ⟨hm, l, hl⟩ := h
  cases call with
  | read fFlags count =>
    cases next
    obtain ⟨hh, hx⟩ := step_read_holds hl fFlags count
    exact ⟨hx.trans hm, _, hh⟩
  | write fFlags buf =>
    cases next
    obtain ⟨hh, hx⟩ := step_write_holds hl fFlags buf
    exact ⟨hx.trans hm, _, hh⟩

/-- A call that fits loses no byte. -/
theorem lossless_step {s s' : Stream} {call : Call} (h : Lossless s) (ok : fits s call = true)
    (next : step s call = some s') : Lossless s' := by
  obtain ⟨hm, l, hl, ha⟩ := h
  cases call with
  | read fFlags count =>
    cases next
    obtain ⟨hh, hx⟩ := step_read_holds hl fFlags count
    refine ⟨hx.trans hm, _, hh, ?_⟩
    simp only [hl.transferred_read, ha, append_assoc]
    split
    · rfl
    · rw [take_append_drop]
  | write fFlags buf =>
    cases next
    obtain ⟨hh, hx⟩ := step_write_holds hl fFlags buf
    rw [fits, hl.size, decide_eq_true_eq] at ok
    rw [show l.length + buf.length - s.buf.max = 0 by omega, drop_zero] at hh
    refine ⟨hx.trans hm, _, hh, ?_⟩
    simp only [transferred_write, ha, append_assoc]

/-- In a run whose writes all fit, what readers got and what is in the pipe is what
writers gave; a call returns the number of bytes it moved exactly when it moved none. -/
theorem pipe_stream {s : Stream} (run : Run step (fun _ _ => True) {} s) :
    (Run step (fun s call => fits s call = true) {} s →
      s.delivered <+: s.accepted ∧ ∃ l, Holds s.buf l ∧ s.accepted = s.delivered ++ l) ∧
    ∀ call, ReturnsTransferred s call ↔ movesNothing s call = true := by
  constructor
  · intro fitting
    have hs : Lossless s := by
      apply fitting.invariant ⟨rfl, [], holds_alloc, rfl⟩
      intro a call b ha ok hn
      exact lossless_step ha ok hn
    obtain ⟨_, l, hl, ha⟩ := hs
    exact ⟨⟨l, ha.symm⟩, l, hl, ha⟩
  · intro call
    have hs : Sound s := by
      apply run.invariant ⟨rfl, [], holds_alloc⟩
      intro a call b ha _ hn
      exact sound_step ha hn
    obtain ⟨_, l, hl⟩ := hs
    exact returns_iff hl call

theorem pipe_stream_short :
    ∃ s, Run step (fun s call => fits s call = true) {} s ∧ s.delivered = [1, 2] ∧
      s.delivered <+: s.accepted := by
  obtain ⟨s, hr, hd⟩ := replay_reaches step (fun s call => fits s call = true) {}
    [.write oWronly [1, 2, 3], .read oRdonly 2] (P := fun s => s.delivered = [1, 2])
    (by decide +kernel)
  exact ⟨s, hr, hd, ((pipe_stream (hr.mono fun _ _ _ => trivial)).1 hr).1⟩

theorem write_overflows (x : UInt8) (hl : l.length = pipeSize) :
    ∃ t, step {} (.write oWronly (x :: l)) = some t ∧ t.accepted = x :: l ∧ t.delivered = [] ∧
      Holds t.buf l := by
  refine ⟨_, rfl, ?_, rfl, ?_⟩
  · rw [transferred_write, nil_append]
  · have hw := (step_write_holds (s := {}) holds_alloc oWronly (x :: l)).1
    have one : ([] : List UInt8).length + (x :: l).length - ({} : Stream).buf.max = 1 := by
      rw [length_cons, hl]
      rfl
    rwa [one] at hw

/-- A pipe that was given one byte more than it holds delivers the second byte first, and
its writer is told that nothing was written. -/
theorem first_byte_lost : ∃ s, Run step (fun _ _ => True) {} s ∧ ¬s.delivered <+: s.accepted ∧
    ¬ReturnsTransferred s (.write oWronly [1]) := by
  obtain ⟨t, ht, hacc, hdel, hl⟩ := write_overflows 1 (length_replicate (n := pipeSize) (a := 0))
  have first : transferred t (.read oRdonly 1) = [0] := by
    rw [hl.transferred_read, if_neg (by decide), show pipeSize = 65535 + 1 from rfl,
      replicate_succ]
    rfl
  obtain ⟨u, hu, hacc', hdel'⟩ : ∃ u, step t (.read oRdonly 1) = some u ∧
      u.accepted = t.accepted ∧ u.delivered = t.delivered ++ transferred t (.read oRdonly 1) :=
    ⟨_, rfl, rfl, rfl⟩
  refine ⟨u, (Run.tail .refl trivial ht).tail trivial hu, ?_, ?_⟩
  · rw [hacc', hdel', hacc, hdel, first]
    intro h
    have hp := cons_prefix_cons.mp h
    exact absurd hp.1 (by decide)
  · intro h
    have hz : returned u (.write oWronly [1]) = 0 := rfl
    have ho := h hz.ge
    rw [hz, transferred_write] at ho
    exact absurd ho (by decide)

end Mos.Pipe

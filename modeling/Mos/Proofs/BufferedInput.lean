import Mos.Libc.Stdio
import Mos.Machine.Run

namespace Mos.Libc
open Machine List UInt32

/-- An unbuffered stream: the file, a position in it, the character that was pushed back and
the end-of-file indicator. The pushed-back character stands for the byte at the position. -/
structure Reference where
  content : List UInt8
  pos : Nat := 0
  pushed : Option UInt8 := none
  eof : Bool := false

namespace Reference

def rest (r : Reference) : List UInt8 :=
  match r.pushed with
  | none => r.content.drop r.pos
  | some c => c :: r.content.drop (r.pos + 1)

def advance (r : Reference) (n : Nat) : Reference :=
  { r with pos := r.pos + n, pushed := if n = 0 then r.pushed else none }

def read (r : Reference) (n : Nat) : List UInt8 × Reference :=
  let bytes := r.rest.take n
  (bytes, { r.advance bytes.length with eof := r.eof || decide (bytes.length < n) })

def unget (r : Reference) (c : UInt8) : Reference :=
  { r with pos := r.pos - 1, pushed := some c, eof := false }

def target (r : Reference) (off : Int) : Whence → Int
  | .set => off
  | .cur => r.pos + off
  | .fromEnd => r.content.length + off

def seek (r : Reference) (pos : Nat) : Reference :=
  { r with pos := pos, pushed := none, eof := false }

theorem rest_advance (r : Reference) (n : Nat) : (r.advance n).rest = r.rest.drop n := by
  unfold advance rest
  cases n with
  | zero => simp
  | succ n =>
    cases r.pushed with
    | none => simp
    | some c =>
      simp only [Nat.add_one_ne_zero, if_false, drop_succ_cons, drop_drop]
      congr 1
      omega

theorem advance_advance (r : Reference) (m n : Nat) :
    (r.advance m).advance n = r.advance (m + n) := by
  unfold advance
  simp only [Nat.add_assoc, Reference.mk.injEq, true_and, and_true]
  by_cases hn : n = 0
  · simp [hn]
  · simp [hn]

end Reference

inductive Op where
  | fgetc
  | fread (size nitems : Nat)
  | ungetc (c : Option UInt8)
  | fseek (off : Int) (whence : Whence)
  deriving DecidableEq, Repr

inductive Result where
  | byte (c : Option UInt8)
  | items (n : Nat) (bytes : List UInt8)
  | pushed (c : Option UInt8)
  | sought (done : Bool)
  deriving DecidableEq, Repr

def perform (s : Stream) : Op → Except Fault (Result × Stream)
  | .fgetc => do
    let (c, s) ← fgetc s
    pure (.byte c, s)
  | .fread size nitems => do
    let (n, bytes, s) ← fread s size nitems
    pure (.items n bytes, s)
  | .ungetc c => do
    let (c, s) ← ungetc c s
    pure (.pushed c, s)
  | .fseek off whence => do
    let s ← fseek s off whence
    pure (.sought true, s)

def refer (r : Reference) : Op → Result × Reference
  | .fgetc =>
    let (bytes, r) := r.read 1
    (.byte bytes.head?, r)
  | .fread size nitems =>
    let (bytes, r) := r.read (size * nitems)
    (.items (bytes.length / size) bytes, r)
  | .ungetc none => (.pushed none, r)
  | .ungetc (some c) => (.pushed (some c), r.unget c)
  | .fseek off whence =>
    let pos := r.target off whence
    if 0 ≤ pos then (.sought true, r.seek pos.toNat) else (.sought false, r)

/-- The buffered stream and the unbuffered one, and what they have returned so far, the latest
first, with `feof` after each call. -/
structure Both where
  stream : Stream
  ref : Reference
  got : List (Result × Bool) := []
  expected : List (Result × Bool) := []

def step (b : Both) (op : Op) : Option Both :=
  match perform b.stream op with
  | .error _ => none
  | .ok (result, s) =>
    let (wanted, r) := refer b.ref op
    some
      { stream := s
        ref := r
        got := (result, s.eofSeen) :: b.got
        expected := (wanted, r.eof) :: b.expected }

/-- Each of the items is in what is unread of the buffer, or nothing is unread and the file has
the item or nothing at all. -/
def wholeItems (blksize size : Nat) : Nat → Nat → Nat → UInt32 → Bool
  | 0, _, _, _ => true
  | nitems + 1, unread, left, offset =>
    if size ≤ unread then
      wholeItems blksize size nitems (unread - size) left (offset + UInt32.ofNat size)
    else unread == 0 && (left == 0 || decide (size ≤ left) &&
      let got := min (fillCount offset blksize size).toNat left
      wholeItems blksize size nitems (got - size) (left - got) (offset + UInt32.ofNat size))

def Stream.unread (s : Stream) : Nat := s.bytes.length - s.ptr

def Stream.left (s : Stream) : Nat := s.content.length - s.pos

/-- What the calls must keep to: items are whole and not of the order of the address space, a
character is pushed back once only before the next `fseek` and behind one that came from the
buffer, and `fseek` goes to an offset that an `int` can hold. -/
def Careful (s : Stream) : Op → Prop
  | .fgetc => True
  | .fread size nitems => 0 < size ∧ size ≤ 2 ^ 30 ∧
      wholeItems s.blksize size nitems s.unread s.left s.offset = true
  | .ungetc none => True
  | .ungetc (some _) => s.bkup = -1 ∧ 0 < s.ptr
  | .fseek off whence => 0 ≤ target s off whence ∧ target s off whence < 2 ^ 31

def OnePushed (r : Reference) : Op → Prop
  | .ungetc (some _) => r.pushed = none
  | _ => True

instance (s : Stream) : (op : Op) → Decidable (Careful s op)
  | .fgetc => inferInstanceAs (Decidable True)
  | .fread _ _ => inferInstanceAs (Decidable (_ ∧ _ ∧ _))
  | .ungetc none => inferInstanceAs (Decidable True)
  | .ungetc (some _) => inferInstanceAs (Decidable (_ ∧ _))
  | .fseek _ _ => inferInstanceAs (Decidable (_ ∧ _))

instance (r : Reference) : (op : Op) → Decidable (OnePushed r op)
  | .ungetc (some _) => inferInstanceAs (Decidable (r.pushed = none))
  | .ungetc none => inferInstanceAs (Decidable True)
  | .fgetc => inferInstanceAs (Decidable True)
  | .fread _ _ => inferInstanceAs (Decidable True)
  | .fseek _ _ => inferInstanceAs (Decidable True)

structure Mirrors (s : Stream) (r : Reference) : Prop where
  content : r.content = s.content
  pos : r.pos = s.offset.toNat
  placed : s.ptr ≤ s.bytes.length
  before : s.ptr ≤ s.offset.toNat
  fd : s.pos = s.offset.toNat + s.unread
  rest : s.bytes.drop s.ptr ++ s.content.drop s.pos = r.rest
  pushed : r.pushed ≠ none → 0 < s.unread
  eof : r.eof = s.eofSeen
  atEnd : s.eofSeen = true → r.rest = []
  small : s.pos < 2 ^ 31
  length : s.content.length < 2 ^ 31
  block : s.blksize < 2 ^ 31

namespace Mirrors
variable {s : Stream} {r : Reference} {size : Nat}

theorem offset_le (h : Mirrors s r) : s.offset.toNat + s.unread < 2 ^ 31 := h.fd ▸ h.small

theorem asserts (h : Mirrors s r) : assertStream s = .ok () :=
  if_pos (Nat.le_succ_of_le h.placed)

theorem byte_eq (h : Mirrors s r) {i : Nat} (hi : i < s.unread) :
    r.rest[i]? = some (s.byte (s.ptr + i)) := by
  have hlt : s.ptr + i < s.bytes.length := by
    unfold Stream.unread at hi
    omega
  rw [← h.rest, List.getElem?_append_left (by rw [length_drop]; omega), List.getElem?_drop,
    Stream.byte, getD_eq_getElem?_getD, List.getElem?_eq_getElem hlt]
  rfl

theorem offset_add (h : Mirrors s r) (hsize : size ≤ s.unread) :
    (s.offset + UInt32.ofNat size).toNat = s.offset.toNat + size := by
  have := h.offset_le
  rw [UInt32.toNat_add, UInt32.toNat_ofNat_of_lt' (by simp only [UInt32.size]; omega)]
  omega

theorem rest_length (h : Mirrors s r) : r.rest.length = s.unread + s.left := by
  rw [← h.rest, length_append, length_drop, length_drop]
  rfl

theorem take (h : Mirrors s r) (pos : 0 < size) (hsize : size ≤ s.unread) :
    (takeBytes s size).1 = r.rest.take size ∧ Mirrors (takeBytes s size).2 (r.advance size) := by
  have hoff := h.offset_add hsize
  have hle : s.ptr + size ≤ s.bytes.length := by
    unfold Stream.unread at hsize
    omega
  have hunread : (takeBytes s size).2.unread = s.unread - size := by
    change s.bytes.length - (s.ptr + size) = s.bytes.length - s.ptr - size
    omega
  constructor
  · apply ext_getElem?
    intro i
    change ((List.range size).map fun i => s.byte (s.ptr + i))[i]? = _
    by_cases hi : i < size
    · rw [List.getElem?_map, List.getElem?_range hi, List.getElem?_take_of_lt hi,
        h.byte_eq (by omega)]
      rfl
    · rw [List.getElem?_eq_none (by simp; omega), List.getElem?_eq_none (by simp; omega)]
  · refine ⟨h.content, ?_, hle, ?_, ?_, ?_, ?_, h.eof, ?_, h.small, h.length, h.block⟩
    · change r.pos + size = (s.offset + UInt32.ofNat size).toNat
      rw [hoff, h.pos]
    · change s.ptr + size ≤ (s.offset + UInt32.ofNat size).toNat
      have := h.before
      omega
    · rw [hunread]
      change s.pos = (s.offset + UInt32.ofNat size).toNat + (s.unread - size)
      have := h.fd
      omega
    · rw [Reference.rest_advance, ← h.rest, drop_append_of_le_length, drop_drop]
      · rfl
      · rw [length_drop]
        omega
    · intro hp
      rw [Reference.advance, if_neg (by omega)] at hp
      exact absurd rfl hp
    · intro he
      rw [Reference.rest_advance, h.atEnd he]
      exact drop_nil

theorem fillCount_ge (h : Mirrors s r) (hu : s.unread = 0) (hsize : size ≤ s.left) :
    size ≤ (fillCount s.offset s.blksize size).toNat := by
  have hoff := h.fd
  have hlength := h.length
  have hsmall := h.small
  have hblock := h.block
  have hend : s.offset.toNat + size < 2 ^ 31 := by
    unfold Stream.left at hsize
    omega
  have hsum : (s.offset + UInt32.ofNat size).toNat = s.offset.toNat + size := by
    rw [UInt32.toNat_add, UInt32.toNat_ofNat_of_lt' (by simp only [UInt32.size]; omega)]
    omega
  have hblk : (UInt32.ofNat (max s.blksize 1)).toNat = max s.blksize 1 :=
    UInt32.toNat_ofNat_of_lt' (by simp only [UInt32.size]; omega)
  have hup : (s.offset + UInt32.ofNat size).toNat ≤
      (alignUp (s.offset + UInt32.ofNat size) (UInt32.ofNat (max s.blksize 1))).toNat :=
    le_alignUp (by omega) (by omega)
  have hlt := (alignUp (s.offset + UInt32.ofNat size) (UInt32.ofNat (max s.blksize 1))).toNat_lt
  rw [fillCount, UInt32.toNat_sub]
  omega

def filled (s : Stream) (size : Nat) : Stream :=
  { s with
    pos := s.pos + min (fillCount s.offset s.blksize size).toNat s.left
    buf := some (Libc.read s (fillCount s.offset s.blksize size).toNat)
    ptr := 0 }

theorem read_length (s : Stream) (count : Nat) : (Libc.read s count).length = min count s.left := by
  unfold Libc.read
  rw [length_take, length_drop]
  rfl

theorem fill (h : Mirrors s r) (pos : 0 < size) (hu : s.unread = 0) (hsize : size ≤ s.left) :
    Mirrors (filled s size) r ∧
      (filled s size).unread = min (fillCount s.offset s.blksize size).toNat s.left ∧
      (filled s size).left = s.left - min (fillCount s.offset s.blksize size).toNat s.left := by
  have hge := h.fillCount_ge hu hsize
  have hfd := h.fd
  have hlength := h.length
  have hrest : s.content.drop s.pos = r.rest := by
    have hnil : s.bytes.drop s.ptr = [] := by
      apply drop_eq_nil_of_le
      unfold Stream.unread at hu
      omega
    rw [← h.rest, hnil, nil_append]
  have hunread : (filled s size).unread = min (fillCount s.offset s.blksize size).toNat s.left :=
    read_length s _
  have hpos : s.pos + s.left = s.content.length := by
    unfold Stream.left at *
    omega
  refine ⟨⟨h.content, h.pos, Nat.zero_le _, Nat.zero_le _, ?_, ?_, ?_, h.eof, h.atEnd, ?_,
    h.length, h.block⟩, hunread, ?_⟩
  · change s.pos + _ = s.offset.toNat + _
    omega
  · change (Libc.read s _).drop 0 ++ s.content.drop (s.pos + min _ s.left) = r.rest
    rw [drop_zero, ← hrest, Libc.read, ← drop_drop]
    have hx : (s.content.drop s.pos).length = s.left := length_drop
    rcases Nat.le_total (fillCount s.offset s.blksize size).toNat s.left with hc | hc
    · rw [Nat.min_eq_left hc, take_append_drop]
    · rw [Nat.min_eq_right hc, take_of_length_le (hx ▸ hc), drop_of_length_le hx.le,
        append_nil]
  · intro _
    omega
  · change s.pos + min _ s.left < 2 ^ 31
    omega
  · change s.content.length - (s.pos + _) = _
    omega

theorem buf_ne_none (hu : 0 < s.unread) : s.buf ≠ none := by
  intro hb
  unfold Stream.unread Stream.bytes at hu
  rw [hb] at hu
  simp at hu

theorem fnget_buffered (h : Mirrors s r) (pos : 0 < size) (hsize : size ≤ s.unread) :
    fnget s size = .ok (some (r.rest.take size), (takeBytes s size).2) := by
  have hno : ¬(s.bytes.length < s.ptr + size ∨ s.buf = none) := by
    intro hc
    rcases hc with hc | hc
    · unfold Stream.unread at hsize
      omega
    · exact buf_ne_none (Nat.lt_of_lt_of_le pos hsize) hc
  unfold fnget
  rw [h.asserts]
  rw [if_neg hno, ← (h.take pos hsize).1]
  rfl

theorem needs_fill (pos : 0 < size) (hu : s.unread = 0) :
    s.bytes.length < s.ptr + size ∨ s.buf = none := by
  unfold Stream.unread at hu
  omega

theorem fnget_fill (h : Mirrors s r) (pos : 0 < size) (hu : s.unread = 0) (hsize : size ≤ s.left) :
    fnget s size = .ok (some (r.rest.take size), (takeBytes (filled s size) size).2) := by
  obtain ⟨hm, hunread, -⟩ := h.fill pos hu hsize
  have hge := h.fillCount_ge hu hsize
  have hlen := h.rest_length
  have hne : Libc.read s (fillCount s.offset s.blksize size).toNat ≠ [] := by
    intro hc
    have := read_length s (fillCount s.offset s.blksize size).toNat
    rw [hc] at this
    simp at this
    omega
  have hseen : s.eofSeen = false := by
    by_contra hc
    rw [h.atEnd (by simpa using hc)] at hlen
    simp at hlen
    omega
  unfold fnget
  rw [h.asserts]
  rw [if_pos (needs_fill pos hu), if_neg (by rw [hseen]; decide)]
  simp only [if_neg hne]
  rw [← (hm.take pos (by omega)).1, read_length]
  rfl

theorem fnget_end (h : Mirrors s r) (pos : 0 < size) (hrest : r.rest = []) :
    fnget s size = .ok (none, { s with eofSeen := true }) ∧
      Mirrors { s with eofSeen := true } { r with eof := true } := by
  have hlen := h.rest_length
  rw [hrest] at hlen
  simp only [length_nil] at hlen
  have hnil : ∀ count, Libc.read s count = [] := by
    intro count
    apply eq_nil_of_length_eq_zero
    rw [read_length]
    omega
  constructor
  · unfold fnget
    rw [h.asserts]
    change (if _ then _ else _) = _
    rw [if_pos (needs_fill pos (by omega))]
    cases he : s.eofSeen with
    | true =>
      have hs : s = { s with eofSeen := true } := by
        rw [← he]
      rw [if_pos rfl]
      exact congrArg _ (Prod.ext rfl hs)
    | false => simp only [Bool.false_eq_true, if_false, hnil, if_true]; rfl
  · exact ⟨h.content, h.pos, h.placed, h.before, h.fd, h.rest, h.pushed, rfl, fun _ => hrest,
      h.small, h.length, h.block⟩

theorem read_end (hrest : r.rest = []) (pos : 0 < size) :
    r.read size = ([], { r with eof := true }) := by
  unfold Reference.read Reference.advance
  rw [hrest]
  simp [pos]

theorem read_more {n : Nat} (hsize : size ≤ r.rest.length) :
    r.read (size + n) = (r.rest.take size ++ ((r.advance size).read n).1,
      ((r.advance size).read n).2) := by
  unfold Reference.read
  simp only [Reference.rest_advance, Reference.advance_advance]
  have hlen : (r.rest.take (size + n)).length = size + ((r.rest.drop size).take n).length := by
    rw [length_take, length_take, length_drop]
    omega
  rw [hlen, take_add]
  congr 2
  change (r.eof || decide (size + _ < size + n)) = (r.eof || decide (_ < n))
  simp only [Nat.add_lt_add_iff_left]

theorem fread {nitems : Nat} (h : Mirrors s r) (pos : 0 < size)
    (whole : wholeItems s.blksize size nitems s.unread s.left s.offset = true) :
    ∃ s', Libc.fread s size nitems =
        .ok ((r.read (size * nitems)).1.length / size, (r.read (size * nitems)).1, s') ∧
      Mirrors s' (r.read (size * nitems)).2 := by
  induction nitems generalizing s r with
  | zero =>
    refine ⟨s, ?_, ?_⟩
    · simp [Libc.fread, Reference.read]
      rfl
    · have hread : (r.read (size * 0)).2 = r := by
        simp [Reference.read, Reference.advance]
      rw [hread]
      exact h
  | succ nitems ih =>
    -- An item that is there, and then the others.
    have one : ∀ w : Stream, fnget s size = .ok (some (r.rest.take size), w) →
        Mirrors w (r.advance size) → size ≤ r.rest.length →
        wholeItems w.blksize size nitems w.unread w.left w.offset = true →
        ∃ s', Libc.fread s size (nitems + 1) =
            .ok ((r.read (size * (nitems + 1))).1.length / size,
              (r.read (size * (nitems + 1))).1, s') ∧
          Mirrors s' (r.read (size * (nitems + 1))).2 := by
      intro w hget hw hle hwhole
      obtain ⟨s', hs', hm⟩ := ih hw hwhole
      have hmul : size * (nitems + 1) = size + size * nitems := by
        rw [Nat.mul_succ, Nat.add_comm]
      rw [hmul, read_more hle]
      refine ⟨s', ?_, hm⟩
      have hcount : (r.rest.take size ++ ((r.advance size).read (size * nitems)).1).length / size =
          ((r.advance size).read (size * nitems)).1.length / size + 1 := by
        rw [length_append, length_take, Nat.min_eq_left hle, Nat.add_div_left _ pos]
      rw [hcount, Libc.fread, hget]
      change (do
        let x ← Libc.fread w size nitems
        pure (x.1 + 1, r.rest.take size ++ x.2.1, x.2.2)) = _
      rw [hs']
      rfl
    have hlen := h.rest_length
    unfold wholeItems at whole
    split at whole
    · rename_i hle
      obtain ⟨-, hw⟩ := h.take pos hle
      refine one _ (h.fnget_buffered pos hle) hw (by omega) ?_
      have hu : (takeBytes s size).2.unread = s.unread - size := by
        change s.bytes.length - (s.ptr + size) = s.bytes.length - s.ptr - size
        omega
      rw [hu]
      exact whole
    · simp only [Bool.and_eq_true, beq_iff_eq, Bool.or_eq_true, decide_eq_true_eq] at whole
      obtain ⟨hu, hleft | ⟨hle, whole⟩⟩ := whole
      · have hrest : r.rest = [] := by
          apply eq_nil_of_length_eq_zero
          omega
        obtain ⟨hget, hm⟩ := h.fnget_end pos hrest
        rw [read_end hrest (Nat.mul_pos pos (Nat.succ_pos _))]
        refine ⟨_, ?_, hm⟩
        rw [Libc.fread, hget]
        simp only [length_nil, Nat.zero_div]
        rfl
      · obtain ⟨hm, hunread, hleft⟩ := h.fill pos hu hle
        have hge := h.fillCount_ge hu hle
        obtain ⟨-, hw⟩ := hm.take pos (by omega)
        refine one _ (h.fnget_fill pos hu hle) hw (by omega) ?_
        have hu' : (takeBytes (filled s size) size).2.unread = (filled s size).unread - size := by
          change (filled s size).bytes.length - ((filled s size).ptr + size) =
            (filled s size).bytes.length - (filled s size).ptr - size
          omega
        rw [hu', hunread]
        change wholeItems s.blksize size nitems _ (filled s size).left _ = true
        rw [hleft]
        exact whole

theorem read_item (hsize : size ≤ r.rest.length) :
    r.read size = (r.rest.take size, r.advance size) := by
  unfold Reference.read
  simp [Reference.advance, Nat.min_eq_left hsize]

theorem fgetc (h : Mirrors s r) :
    ∃ s', Libc.fgetc s = .ok ((r.read 1).1.head?, s') ∧ Mirrors s' (r.read 1).2 := by
  have hlen := h.rest_length
  by_cases hu : 1 ≤ s.unread
  · rw [read_item (by omega)]
    refine ⟨_, ?_, (h.take Nat.one_pos hu).2⟩
    rw [Libc.fgetc, h.fnget_buffered Nat.one_pos hu]
    rfl
  · by_cases hl : 1 ≤ s.left
    · obtain ⟨hm, hunread, -⟩ := h.fill Nat.one_pos (by omega) hl
      have hge := h.fillCount_ge (by omega) hl
      rw [read_item (by omega)]
      refine ⟨_, ?_, (hm.take Nat.one_pos (by omega)).2⟩
      rw [Libc.fgetc, h.fnget_fill Nat.one_pos (by omega) hl]
      rfl
    · have hrest : r.rest = [] := by
        apply eq_nil_of_length_eq_zero
        omega
      obtain ⟨hget, hm⟩ := h.fnget_end Nat.one_pos hrest
      rw [read_end hrest Nat.one_pos]
      refine ⟨_, ?_, hm⟩
      rw [Libc.fgetc, hget]
      rfl

theorem ungetc (h : Mirrors s r) (c : UInt8) (free : r.pushed = none) (first : s.bkup = -1)
    (room : 0 < s.ptr) :
    Libc.ungetc (some c) s = .ok (some c, pushBack s c) ∧ Mirrors (pushBack s c) (r.unget c) := by
  have hbefore := h.before
  have hplaced := h.placed
  have hfd := h.fd
  have hone : (s.offset - 1).toNat = s.offset.toNat - 1 := by
    rw [UInt32.toNat_sub, UInt32.toNat_one]
    have := s.offset.toNat_lt
    omega
  have hbytes : (pushBack s c).bytes = s.bytes.set (s.ptr - 1) c := by
    unfold pushBack Stream.bytes
    cases s.buf <;> rfl
  have hunread : (pushBack s c).unread = s.bytes.length - (s.ptr - 1) := by
    unfold Stream.unread
    rw [hbytes, length_set]
    rfl
  constructor
  · have hroom : makeRoom s = .ok s := if_neg (by omega)
    unfold Libc.ungetc
    rw [h.asserts]
    change (if s.bkup ≠ -1 then _ else _) = _
    rw [if_neg (by rw [first]; decide), hroom]
    rfl
  · refine ⟨h.content, ?_, ?_, ?_, ?_, ?_, ?_, rfl, nofun, h.small, h.length, h.block⟩
    · change r.pos - 1 = (s.offset - 1).toNat
      rw [hone, h.pos]
    · change s.ptr - 1 ≤ _
      rw [hbytes, length_set]
      omega
    · change s.ptr - 1 ≤ (s.offset - 1).toNat
      omega
    · change s.pos = (s.offset - 1).toNat + _
      unfold Stream.unread at hfd
      omega
    · have hlt : s.ptr - 1 < s.bytes.length := by omega
      have hdrop : (s.bytes.set (s.ptr - 1) c).drop (s.ptr - 1) = c :: s.bytes.drop s.ptr := by
        rw [drop_eq_getElem_cons (by rw [length_set]; exact hlt), getElem_set_self,
          drop_set_of_lt (by omega), Nat.sub_add_cancel room]
      have hrest := h.rest
      unfold Reference.rest at hrest
      rw [free] at hrest
      change (pushBack s c).bytes.drop (s.ptr - 1) ++ s.content.drop s.pos =
        c :: r.content.drop (r.pos - 1 + 1)
      rw [hbytes, hdrop, cons_append, hrest, h.pos, Nat.sub_add_cancel (by omega)]
    · intro _
      omega

theorem target_eq (h : Mirrors s r) (off : Int) (whence : Whence) :
    r.target off whence = Libc.target s off whence := by
  have hle := h.offset_le
  cases whence with
  | set => rfl
  | cur =>
    simp only [Reference.target, Libc.target, bitsInt, h.pos]
    rw [if_pos (by omega)]
  | fromEnd => simp only [Reference.target, Libc.target, h.content]

theorem fseek (h : Mirrors s r) {off : Int} {whence : Whence} (lo : 0 ≤ Libc.target s off whence)
    (hi : Libc.target s off whence < 2 ^ 31) :
    Libc.fseek s off whence = .ok (reposition s (Libc.target s off whence)) ∧
      Mirrors (reposition s (Libc.target s off whence))
        (r.seek (Libc.target s off whence).toNat) := by
  constructor
  · unfold Libc.fseek
    rw [h.asserts]
    rfl
  · generalize Libc.target s off whence = t at lo hi
    have hbits : (intBits t).toNat = t.toNat := by
      unfold intBits
      rw [toNat_ofNat_of_lt' (by simp only [UInt32.size]; omega)]
      omega
    have hpos : (reposition s t).pos = t.toNat := if_neg (by omega)
    refine ⟨h.content, hbits.symm, Nat.zero_le _, Nat.zero_le _, ?_, ?_, nofun, rfl, nofun, ?_,
      h.length, h.block⟩
    · rw [hpos, ← hbits]
      rfl
    · change [] ++ s.content.drop (reposition s t).pos = r.content.drop t.toNat
      rw [hpos, h.content, nil_append]
    · omega

/-- A careful call returns the same from both streams. -/
theorem perform (h : Mirrors s r) {op : Op} (careful : Careful s op) (one : OnePushed r op) :
    ∃ s', Libc.perform s op = .ok ((refer r op).1, s') ∧ Mirrors s' (refer r op).2 := by
  cases op with
  | fgetc =>
    obtain ⟨s', hs, hm⟩ := h.fgetc
    exact ⟨s', by rw [Libc.perform, hs]; rfl, hm⟩
  | fread size nitems =>
    obtain ⟨pos, -, whole⟩ := careful
    obtain ⟨s', hs, hm⟩ := h.fread pos whole
    exact ⟨s', by rw [Libc.perform, hs]; rfl, hm⟩
  | ungetc c =>
    cases c with
    | none =>
      refine ⟨s, ?_, h⟩
      simp only [Libc.perform, Libc.ungetc, h.asserts]
      rfl
    | some c =>
      obtain ⟨hs, hm⟩ := h.ungetc c one careful.1 careful.2
      exact ⟨_, by rw [Libc.perform, hs]; rfl, hm⟩
  | fseek off whence =>
    obtain ⟨lo, hi⟩ := careful
    obtain ⟨hs, hm⟩ := h.fseek lo hi
    simp only [refer, h.target_eq, if_pos lo]
    exact ⟨_, by rw [Libc.perform, hs]; rfl, hm⟩

end Mirrors

def opened (content : List UInt8) (blksize : Nat) (behind : Bytes) : Both where
  stream := { content, blksize, behind }
  ref := { content }

def Admitted (b : Both) (op : Op) : Prop := Careful b.stream op ∧ OnePushed b.ref op

instance (b : Both) (op : Op) : Decidable (Admitted b op) := inferInstanceAs (Decidable (_ ∧ _))

structure Alike (b : Both) : Prop where
  mirrors : Mirrors b.stream b.ref
  same : b.got = b.expected

/-- One call gives the same through the buffer as without it. -/
theorem Alike.step {b : Both} {op : Op} (h : Alike b) (ok : Admitted b op) :
    ∃ b', step b op = some b' ∧ Alike b' := by
  obtain ⟨s', hs, hm⟩ := h.mirrors.perform ok.1 ok.2
  refine ⟨_, by rw [Libc.step, hs], hm, ?_⟩
  rw [h.same, hm.eof]

theorem opened_alike {content : List UInt8} {blksize : Nat} (behind : Bytes)
    (length : content.length < 2 ^ 31) (block : blksize < 2 ^ 31) :
    Alike (opened content blksize behind) := by
  refine ⟨⟨rfl, rfl, Nat.le_refl _, Nat.le_refl _, rfl, rfl, nofun, rfl, nofun, ?_, length, block⟩,
    rfl⟩
  exact Nat.two_pow_pos 31

/-- Calls of stdio return what the same calls on the bytes of the file return. -/
theorem buffered_reads_equal {content : List UInt8} {blksize : Nat} {behind : Bytes} {b : Both}
    (length : content.length < 2 ^ 31) (block : blksize < 2 ^ 31)
    (run : Run step Admitted (opened content blksize behind) b) :
    b.got = b.expected ∧ ∀ op, Admitted b op → ∃ b', step b op = some b' := by
  have h : Alike b := by
    apply run.invariant (I := Alike) (opened_alike behind length block)
    intro a op a' ha ok next
    obtain ⟨b', hb', hm⟩ := ha.step ok
    obtain rfl := Option.some.inj (hb'.symm.trans next)
    exact hm
  refine ⟨h.same, ?_⟩
  intro op ok
  obtain ⟨b', hb', -⟩ := h.step ok
  exact ⟨b', hb'⟩

def sampleStream : Both := opened [1, 2, 3, 4, 5, 6, 7, 8] 4 fun _ => 0

theorem buffered_reads_equal_mixed : ∃ b, Run step Admitted sampleStream b ∧
    b.got.length = 7 ∧ b.got = b.expected := by
  obtain ⟨b, run, length⟩ := replay_reaches step Admitted sampleStream
    [.fgetc, .ungetc (some 9), .fgetc, .fread 1 5, .fread 2 4, .fseek (-3) .fromEnd, .fread 2 1]
    (P := fun b => b.got.length = 7) (by decide +kernel)
  exact ⟨b, run, length, (buffered_reads_equal (by decide) (by decide) run).1⟩

/-- The three bytes that are unread when an item of four does not fit are lost. -/
theorem unread_bytes_lost : ∃ b, Run step (fun b op => OnePushed b.ref op) sampleStream b ∧
    b.got = [(.items 1 [5, 6, 7, 8], false), (.byte (some 1), false)] ∧
    b.expected = [(.items 1 [2, 3, 4, 5], false), (.byte (some 1), false)] :=
  replay_reaches step (fun b op => OnePushed b.ref op) sampleStream [.fgetc, .fread 4 1]
    (by decide +kernel)

end Mos.Libc

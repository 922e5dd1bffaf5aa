import Mos.Machine.Cyclic
import Mos.Machine.Run
import Mos.Devices.Tty

namespace Mos.Devices
open Machine List

/-- The queue of a terminal has the bytes of the list, from `read_head` to `read_tail`;
the two are the same for an empty queue and for one byte. -/
structure Holds (t : Tty) (l : List UInt8) : Prop where
  count : t.readCount = l.length
  head : t.readHead < nTtyBufSize
  tail : t.readTail = (t.readHead + (l.length - 1)) % nTtyBufSize
  bytes : Cyclic nTtyBufSize t.readBuf t.readHead l

theorem nTtyBufAlign_nat (n : Nat) : nTtyBufAlign n = n % nTtyBufSize := by
  unfold nTtyBufAlign nTtyBufSize
  omega

theorem holds_new (termios : Termios) : Holds { termios } [] :=
  ⟨rfl, Nat.zero_lt_succ _, rfl, .nil _ _ _⟩

variable {t t' : Tty} {l : List UInt8} {ch : UInt8} {n : Nat}

theorem Holds.le (h : Holds t l) : l.length ≤ nTtyBufSize := h.bytes.le

theorem Holds.room (h : Holds t l) : (nttyReceiveRoom t).toNat = nTtyBufSize - l.length := by
  unfold nttyReceiveRoom
  rw [h.count]
  omega

theorem Holds.congr (h : Holds t l) (buf : t'.readBuf = t.readBuf) (head : t'.readHead = t.readHead)
    (tail : t'.readTail = t.readTail) (count : t'.readCount = t.readCount) : Holds t' l := by
  refine ⟨count.trans h.count, ?_, ?_, ?_⟩
  · rw [head]
    exact h.head
  · rw [tail, head]
    exact h.tail
  · rw [buf, head]
    exact h.bytes

theorem Holds.post (h : Holds t l) (buf : List UInt8) : Holds (t.post buf) l :=
  h.congr rfl rfl rfl rfl

theorem Holds.echoed (h : Holds t l) (c : Bool) (buf : List UInt8) :
    Holds (if c then t.post buf else t) l := by
  cases c with
  | false => exact h
  | true => exact h.post buf

structure Kept (t t' : Tty) : Prop where
  termios : t'.termios = t.termios
  pgrp : t'.pgrp = t.pgrp
  session : t'.session = t.session
  received : t'.received = t.received

theorem Kept.refl (t : Tty) : Kept t t := ⟨rfl, rfl, rfl, rfl⟩

theorem Kept.trans {t'' : Tty} (h : Kept t t') (h' : Kept t' t'') : Kept t t'' :=
  ⟨h'.termios.trans h.termios, h'.pgrp.trans h.pgrp, h'.session.trans h.session,
    h'.received.trans h.received⟩

theorem kept_echoed (t : Tty) (c : Bool) (buf : List UInt8) :
    Kept t (if c then t.post buf else t) := by
  cases c with
  | false => exact .refl t
  | true => exact ⟨rfl, rfl, rfl, rfl⟩

/-! ### Putting a byte in -/

theorem Holds.put (h : Holds t l) (ch : UInt8) :
    (l.length = nTtyBufSize ∧ putTtyQueue t ch = .error .assertNotReached) ∨
    (l.length < nTtyBufSize ∧
      ∃ t', putTtyQueue t ch = .ok t' ∧ Holds t' (l ++ [ch]) ∧ Kept t t') := by
  have hle := h.le
  have hlen : (l ++ [ch]).length = l.length + 1 := by simp
  by_cases full : l.length = nTtyBufSize
  · left
    refine ⟨full, ?_⟩
    unfold putTtyQueue
    rw [if_pos (by rw [h.count]; omega)]
    rfl
  right
  have room : l.length < nTtyBufSize := by omega
  refine ⟨room, ?_⟩
  unfold putTtyQueue
  rw [if_neg (by rw [h.count]; omega)]
  have pushed := h.bytes.push room ch
  have hcount : t.readCount + 1 = ((l ++ [ch]).length : Int) := by
    rw [h.count, hlen]
    rfl
  by_cases some' : t.readCount ≠ 0
  · -- the place behind `read_tail` is the one of the new byte
    have next : nTtyBufAlign (t.readTail + 1) = (t.readHead + l.length) % nTtyBufSize := by
      have ht := h.tail
      unfold nTtyBufAlign nTtyBufSize at *
      omega
    rw [if_pos some']
    refine ⟨_, rfl, ⟨hcount, h.head, ?_, ?_⟩, ⟨rfl, rfl, rfl, rfl⟩⟩
    · rw [hlen, Nat.add_sub_cancel]
      exact next
    · simp only [next]
      exact pushed
  · rw [h.count] at some'
    have hz : l.length = 0 := by omega
    have ht : t.readTail = t.readHead := by
      rw [h.tail, hz]
      exact Nat.mod_eq_of_lt h.head
    rw [if_neg (by rw [h.count]; exact some'), if_pos ht.symm]
    refine ⟨_, rfl, ⟨hcount, h.head, ?_, ?_⟩, ⟨rfl, rfl, rfl, rfl⟩⟩
    · rw [hlen, Nat.add_sub_cancel, hz]
      exact ht.trans (Nat.mod_eq_of_lt h.head).symm
    · rw [hz, Nat.add_zero, Nat.mod_eq_of_lt h.head] at pushed
      simp only [ht]
      exact pushed

/-! ### Erasing -/

theorem Holds.from_end (h : Holds t l) {k : Nat} {x : UInt8} (hx : l.reverse[k]? = some x) :
    t.readBuf (nTtyBufAlign (t.readTail - k)) = x := by
  have hk : k < l.length := by
    have := (List.getElem?_eq_some_iff.mp hx).1
    rwa [length_reverse] at this
  rw [List.getElem?_reverse hk] at hx
  have place : nTtyBufAlign (t.readTail - k) = (t.readHead + (l.length - 1 - k)) % nTtyBufSize := by
    have ht := h.tail
    unfold nTtyBufAlign nTtyBufSize at *
    omega
  rw [place]
  exact h.bytes.at_place _ _ hx

theorem Holds.reaches_head (h : Holds t l) {k : Nat} (pos : 0 < k) (le : k ≤ l.length) :
    nTtyBufAlign (t.readTail - k) = t.readHead ↔ l.length = k + 1 := by
  have ht := h.tail
  have hh := h.head
  have hl := h.le
  unfold nTtyBufAlign nTtyBufSize at *
  omega

/-- How many characters `eraser` takes the current line to have, from its last one on. The
character at `read_head` is not looked at when there are others behind it. -/
def scanned (p : UInt8 → Bool) : List UInt8 → Nat
  | [] => 0
  | x :: r => if p x then 0 else if r.length = 1 then 1 else scanned p r + 1

theorem scanned_le (p : UInt8 → Bool) (r : List UInt8) : scanned p r ≤ r.length := by
  induction r with
  | nil => exact Nat.le_refl 0
  | cons x r ih =>
    simp only [scanned, length_cons]
    split
    · omega
    · split <;> omega

theorem scanned_lt (p : UInt8 → Bool) {r : List UInt8} (h : 2 ≤ r.length) :
    scanned p r < r.length := by
  induction r with
  | nil => cases h
  | cons x r ih =>
    simp only [scanned, length_cons] at h ⊢
    split
    · omega
    · split
      · omega
      · omega

theorem Holds.lineLength_drop (h : Holds t l) (r : List UInt8) {n : Nat}
    (hr : l.reverse.drop n = r) :
    lineLength t r.length n = n + scanned (lineSeparator t.termios) r := by
  induction r generalizing n with
  | nil => rfl
  | cons x r ih =>
    have hx : l.reverse[n]? = some x := by
      rw [← List.head?_drop, hr]
      rfl
    have hlen : l.length - n = r.length + 1 := by
      have := congrArg List.length hr
      rwa [length_drop, length_reverse] at this
    have hd : l.reverse.drop (n + 1) = r := by
      rw [← tail_drop, hr]
      rfl
    have hh := h.reaches_head (Nat.succ_pos n) (by omega)
    rw [length_cons]
    unfold lineLength scanned
    rw [h.from_end hx]
    split
    · rfl
    · by_cases last : r.length = 1
      · rw [if_pos (by rw [← Nat.cast_succ, hh]; omega), if_pos last]
      · rw [if_neg (by rw [← Nat.cast_succ, hh]; omega), if_neg last, ih hd]
        omega

theorem Holds.lineLength (h : Holds t l) :
    lineLength t t.readCount.toNat 0 = scanned (lineSeparator t.termios) l.reverse := by
  have hl := h.lineLength_drop l.reverse (n := 0) rfl
  rw [length_reverse, Nat.zero_add] at hl
  rw [h.count]
  exact hl

theorem Holds.wordLength_drop (h : Holds t l) {i n : Nat} (hn : i + n ≤ l.length) :
    wordLength t n i = i + (((l.reverse.drop i).take n).takeWhile (!isspace ·)).length := by
  induction n generalizing i with
  | zero => rfl
  | succ n ih =>
    have hi : i < l.reverse.length := by
      rw [length_reverse]
      omega
    have hx : l.reverse[i]? = some l.reverse[i] := List.getElem?_eq_getElem hi
    have hd : l.reverse.drop i = l.reverse[i] :: l.reverse.drop (i + 1) :=
      drop_eq_getElem_cons hi
    unfold wordLength
    rw [h.from_end hx, hd, take_succ_cons, takeWhile_cons]
    cases isspace l.reverse[i] with
    | true => rfl
    | false =>
      have hi := ih (i := i + 1) (by omega)
      simp only [Bool.false_eq_true, if_false, Bool.not_false, if_true, length_cons]
      omega

def erased (t : Termios) (ch : UInt8) (l : List UInt8) : Nat :=
  let n := scanned (lineSeparator t) l.reverse
  if n = 0 then 0
  else if same t.weraseChar ch then ((l.reverse.take n).takeWhile (!isspace ·)).length
  else if same t.killChar ch then n
  else 1

theorem erased_le (t : Termios) (ch : UInt8) (l : List UInt8) :
    erased t ch l ≤ scanned (lineSeparator t) l.reverse := by
  unfold erased
  dsimp only
  split
  · exact Nat.zero_le _
  · split
    · exact (takeWhile_sublist _).length_le.trans (length_take_le _ _)
    · split <;> omega

theorem kept_eraser (t : Tty) (ch : UInt8) : Kept t (eraser t ch) := by
  unfold eraser
  dsimp only
  split
  · exact .refl t
  · have h := kept_echoed t (echoesErase t.termios ch) [ch]
    exact ⟨h.termios, h.pgrp, h.session, h.received⟩

theorem Holds.eraser (h : Holds t l) (ch : UInt8) :
    Holds (eraser t ch) (l.take (l.length - erased t.termios ch l)) := by
  have hle := erased_le t.termios ch l
  have hn := h.lineLength
  have hs := scanned_le (lineSeparator t.termios) l.reverse
  rw [length_reverse] at hs
  unfold Devices.eraser
  rw [hn]
  dsimp only
  generalize hm : scanned (lineSeparator t.termios) l.reverse = m at *
  split
  · rw [show erased t.termios ch l = 0 by omega, Nat.sub_zero, take_length]
    exact h
  rename_i hpos
  have he : eraseLength t ch m = erased t.termios ch l := by
    unfold eraseLength erased
    rw [hm, if_neg hpos, h.wordLength_drop (by omega), Nat.zero_add, drop_zero]
  generalize erased t.termios ch l = e at *
  have hlen : (l.take (l.length - e)).length = l.length - e := by simp
  have hp := h.echoed (echoesErase t.termios ch) [ch]
  generalize (if echoesErase t.termios ch then t.post [ch] else t) = u at hp
  refine ⟨?_, hp.head, ?_, hp.bytes.take _⟩
  · dsimp only
    rw [hlen, hp.count]
    omega
  · dsimp only
    have ht := hp.tail
    have hh := hp.head
    have hlt : 2 ≤ l.length → m < l.length := by
      intro h2
      have := scanned_lt (lineSeparator t.termios) (r := l.reverse) (by simpa using h2)
      rwa [length_reverse, hm] at this
    have hb := h.le
    -- with one byte `read_tail` stays where it is; with more, one byte is left at least
    split
    · unfold nTtyBufAlign nTtyBufSize at *
      omega
    · unfold nTtyBufSize at *
      omega

/-! ### Reading -/

theorem Holds.lineEnd_drop (h : Holds t l) (r : List UInt8) {i : Nat} (rounds : Nat)
    (hr : l.drop i = r) (hne : r ≠ []) (hrounds : r.length ≤ rounds) :
    lineEnd t rounds ((t.readHead + i) % nTtyBufSize) i =
      (r.findIdx? (lineSeparator t.termios)).map (· + (i + 1)) := by
  induction r generalizing i rounds with
  | nil => exact absurd rfl hne
  | cons x r ih =>
    cases rounds with
    | zero => cases hrounds
    | succ rounds =>
      have hx : l[i]? = some x := by
        rw [← List.head?_drop, hr]
        rfl
      have hlen : l.length - i = r.length + 1 := by
        have := congrArg List.length hr
        rwa [length_drop] at this
      have hd : l.drop (i + 1) = r := by
        rw [← tail_drop, hr]
        rfl
      have hb := h.le
      unfold lineEnd
      rw [h.bytes.at_place i x hx, List.findIdx?_cons]
      cases hsep : lineSeparator t.termios x with
      | true => simp
      | false =>
        simp only [Bool.false_eq_true, if_false]
        by_cases last : r = []
        · subst last
          rw [if_pos (by rw [h.tail]; congr 2; simp at hlen; omega)]
          rfl
        · have hrpos : 0 < r.length := length_pos_iff.mpr last
          have hne' : (t.readHead + i) % nTtyBufSize ≠ t.readTail := by
            rw [h.tail]
            intro he
            have := place_inj (by omega) (by omega) he
            omega
          have next : nTtyBufAlign (((t.readHead + i) % nTtyBufSize : Nat) + 1) =
              (t.readHead + (i + 1)) % nTtyBufSize := by
            unfold nTtyBufAlign nTtyBufSize
            omega
          rw [if_neg hne', next, ih rounds hd last (by simpa using hrounds), Option.map_map]
          congr 1
          funext k
          simp only [Function.comp]
          omega

theorem Holds.readLength (h : Holds t l) (canonical : t.termios.l icanon = true) :
    readLength t = (l.findIdx? (lineSeparator t.termios)).map (fun k => ((k + 1 : Nat) : Int)) := by
  unfold Devices.readLength
  rw [if_pos canonical, h.count]
  by_cases empty : l = []
  · subst empty
    rfl
  · have hpos : 0 < l.length := length_pos_iff.mpr empty
    have he := h.lineEnd_drop l (i := 0) nTtyBufSize rfl empty h.le
    rw [Nat.add_zero, Nat.mod_eq_of_lt h.head] at he
    rw [if_pos (by omega), he, Option.map_map]
    rfl

theorem Holds.copied (h : Holds t l) (hn : n ≤ l.length) : copyFromReadBuf t n = l.take n := by
  unfold copyFromReadBuf
  rw [Int.toNat_natCast, ← h.bytes.read hn]
  apply map_congr_left
  intro i _
  rw [← Nat.cast_add, nTtyBufAlign_nat]

theorem Holds.asserted (h : Holds t l) (hn : n ≤ l.length) : assertFromReadBuf t n = true := by
  have ht := h.tail
  have hh := h.head
  have hb := h.le
  unfold assertFromReadBuf
  rw [h.count]
  unfold nTtyBufSize at *
  simp only [Bool.or_eq_true, beq_iff_eq, Bool.and_eq_true, decide_eq_true_eq]
  by_cases hz : n = 0
  · left
    omega
  · right
    refine ⟨by omega, ?_⟩
    split
    · split <;> simp only [decide_eq_true_eq] <;> omega
    · simp only [beq_iff_eq]
      omega

theorem toInt_of_small {nr : UInt32} (h : nr.toNat < 2 ^ 31) : nr.toInt32.toInt = nr.toNat := by
  change nr.toBitVec.toInt = _
  rw [BitVec.toInt_eq_toNat_of_lt (by rw [UInt32.toNat_toBitVec]; omega), UInt32.toNat_toBitVec]

theorem Holds.read_waits {p : Caller} (h : Holds t l) (canonical : t.termios.l icanon = true)
    (front : inBackground t p = false) (none' : l.findIdx? (lineSeparator t.termios) = none)
    (nr : UInt32) : nttyRead t p nr = .ok (.waits, t) := by
  unfold nttyRead
  rw [front, h.readLength canonical, none']
  rfl

theorem Holds.read_length {p : Caller} {nr : UInt32} (h : Holds t l)
    (front : inBackground t p = false) (small : nr.toNat < 2 ^ 31)
    (length : Devices.readLength t = some (n : Int)) (pos : 0 < n) (le : n ≤ l.length) :
    ∃ t', nttyRead t p nr = .ok (.bytes (l.take (min n nr.toNat)), t') ∧
      Holds t' (l.drop (min n nr.toNat)) ∧ Kept t t' := by
  have hcount : min (n : Int) nr.toInt32.toInt = ((min n nr.toNat : Nat) : Int) := by
    rw [toInt_of_small small]
    omega
  have hm : min n nr.toNat ≤ l.length := by omega
  unfold nttyRead
  rw [front, length]
  simp only [Bool.false_eq_true, if_false]
  rw [if_neg (by rw [h.count]; omega), hcount, if_pos (h.asserted hm), h.copied hm, h.count]
  generalize min n nr.toNat = c at *
  by_cases all : c = l.length
  · rw [if_pos (by rw [all])]
    refine ⟨_, rfl, ?_, ⟨rfl, rfl, rfl, rfl⟩⟩
    rw [all, drop_length]
    exact ⟨rfl, Nat.zero_lt_succ _, rfl, .nil _ _ _⟩
  · rw [if_neg (by omega)]
    have place : nTtyBufAlign (t.readHead + c) = (t.readHead + c) % nTtyBufSize := by
      rw [← Nat.cast_add, nTtyBufAlign_nat]
    refine ⟨_, rfl, ⟨?_, ?_, ?_, ?_⟩, ⟨rfl, rfl, rfl, rfl⟩⟩
    · dsimp only
      rw [length_drop]
      omega
    · exact Nat.mod_lt _ (Nat.zero_lt_succ _)
    · rw [h.tail, place, length_drop, Nat.mod_add_mod]
      congr 1
      omega
    · exact h.bytes.drop c

theorem Holds.read {p : Caller} {nr : UInt32} {k : Nat} (h : Holds t l)
    (canonical : t.termios.l icanon = true) (front : inBackground t p = false)
    (small : nr.toNat < 2 ^ 31) (line : l.findIdx? (lineSeparator t.termios) = some k) :
    ∃ t', nttyRead t p nr = .ok (.bytes (l.take (min (k + 1) nr.toNat)), t') ∧
      Holds t' (l.drop (min (k + 1) nr.toNat)) ∧ Kept t t' := by
  apply h.read_length front small
  · rw [h.readLength canonical, line, Option.map_some]
  · exact Nat.succ_pos k
  · exact (List.findIdx?_eq_some_iff_findIdx_eq.mp line).1

/-! ### Receiving -/

/-- What a character after the input mapping makes of the queue. -/
def edit (c : Termios) (l : List UInt8) (ch : UInt8) : List UInt8 :=
  if (signalOf c ch).isSome then l
  else if isErase c ch then l.take (l.length - erased c ch l)
  else if same c.eofChar ch then l ++ [0]
  else l ++ [ch]

/-- What a received character makes of the queue. -/
def take (c : Termios) (l : List UInt8) (ch : UInt8) : List UInt8 :=
  if c.l icanon then
    match inputChar c ch with
    | none => l
    | some ch => edit c l ch
  else l ++ [ch]

/-- A step of one of the two loops of `ntty_receive_buf`, which fails on a full queue only. -/
def Takes (c : Termios) (f : Tty → UInt8 → Except Halt Tty)
    (g : List UInt8 → UInt8 → List UInt8) : Prop :=
  ∀ t l ch, Holds t l → t.termios = c →
    (∃ t', f t ch = .ok t' ∧ Holds t' (g l ch) ∧ Kept t t' ∧ (g l ch).length ≤ l.length + 1) ∨
      (l.length = nTtyBufSize ∧ f t ch = .error .assertNotReached)

theorem takes_put (c : Termios) : Takes c putTtyQueue (fun l ch => l ++ [ch]) := by
  intro t l ch h _
  rcases h.put ch with ⟨full, he⟩ | ⟨_, t', he, h', kept⟩
  · exact .inr ⟨full, he⟩
  · exact .inl ⟨t', he, h', kept, by simp⟩

theorem Holds.put_echoed (h : Holds t l) (ch : UInt8) (b : Tty → Bool) (buf : List UInt8) :
    (∃ t', (do let t ← putTtyQueue t ch; pure (if b t then t.post buf else t)) = .ok t' ∧
      Holds t' (l ++ [ch]) ∧ Kept t t' ∧ (l ++ [ch]).length ≤ l.length + 1) ∨
    (l.length = nTtyBufSize ∧
      (do let t ← putTtyQueue t ch; pure (if b t then t.post buf else t)) =
        .error .assertNotReached) := by
  rcases h.put ch with ⟨full, he⟩ | ⟨_, t', he, h', kept⟩
  · rw [he]
    exact .inr ⟨full, rfl⟩
  · rw [he]
    exact .inl ⟨_, rfl, h'.echoed (b t') buf, kept.trans (kept_echoed t' (b t') buf), by simp⟩

theorem takes_mapped (c : Termios) : Takes c receiveMapped (edit c) := by
  intro t l ch h hc
  subst hc
  unfold receiveMapped edit
  cases hs : signalOf t.termios ch with
  | some sig =>
    left
    refine ⟨_, rfl, ?_, ?_, Nat.le_succ _⟩
    · split
      · exact h.congr rfl rfl rfl rfl
      · exact h
    · split
      · exact ⟨rfl, rfl, rfl, rfl⟩
      · exact .refl t
  | none =>
    simp only [Option.isSome_none, Bool.false_eq_true, if_false]
    by_cases he : isErase t.termios ch = true
    · left
      rw [if_pos he, if_pos he]
      exact ⟨_, rfl, h.eraser ch, kept_eraser t ch, by simp; omega⟩
    rw [if_neg he, if_neg he]
    by_cases heof : same t.termios.eofChar ch = true
    · rw [if_pos heof, if_pos heof]
      exact takes_put _ t l 0 h rfl
    rw [if_neg heof, if_neg heof]
    split
    · exact h.put_echoed ch (fun t => t.termios.l echonl && ch == newline) [ch]
    · exact h.put_echoed ch (fun t => t.termios.l echo) [ch]

theorem takes_char {c : Termios} (canonical : c.l icanon = true) : Takes c receiveChar (take c) := by
  intro t l ch h hc
  unfold receiveChar take
  rw [if_pos canonical, hc]
  cases inputChar c ch with
  | none => exact .inl ⟨t, rfl, h, .refl t, Nat.le_succ _⟩
  | some ch => exact takes_mapped c t l ch h hc

theorem Takes.fold {c : Termios} {f : Tty → UInt8 → Except Halt Tty}
    {g : List UInt8 → UInt8 → List UInt8} (takes : Takes c f g) (h : Holds t l)
    (hc : t.termios = c) (cp : List UInt8) :
    (∃ t', cp.foldlM f t = .ok t' ∧ Holds t' (cp.foldl g l) ∧ Kept t t') ∨
      (nTtyBufSize < l.length + cp.length ∧ cp.foldlM f t = .error .assertNotReached) := by
  induction cp generalizing t l with
  | nil => exact .inl ⟨t, rfl, h, .refl t⟩
  | cons ch cp ih =>
    rw [foldlM_cons, foldl_cons, length_cons]
    rcases takes t l ch h hc with ⟨t', he, h', kept, hlen⟩ | ⟨full, he⟩
    · rw [he]
      rcases ih h' (kept.termios.trans hc) with ⟨u, hu, hh, hk⟩ | ⟨exceeds, hu⟩
      · exact .inl ⟨u, hu, hh, kept.trans hk⟩
      · exact .inr ⟨by omega, hu⟩
    · right
      rw [he]
      exact ⟨by omega, rfl⟩

theorem Holds.receive (h : Holds t l) (cp : List UInt8) :
    (∃ t', nttyReceiveBuf t cp = .ok t' ∧ Holds t' (cp.foldl (take t.termios) l) ∧
      Kept { t with received := t.received ++ cp } t') ∨
    (nTtyBufSize < l.length + cp.length ∧ nttyReceiveBuf t cp = .error .assertNotReached) := by
  have h' : Holds { t with received := t.received ++ cp } l := h.congr rfl rfl rfl rfl
  unfold nttyReceiveBuf
  by_cases canonical : t.termios.l icanon = true
  · rw [if_pos canonical]
    exact (takes_char canonical).fold h' rfl cp
  · rw [if_neg canonical]
    have ht : take t.termios = fun l ch => l ++ [ch] := by
      funext l ch
      exact if_neg canonical
    rw [ht]
    rcases (takes_put t.termios).fold h' rfl cp with ⟨u, hu, hh, kept⟩ | ⟨exceeds, he⟩
    · left
      rw [hu]
      exact ⟨_, rfl, hh.echoed (u.termios.l echo) cp, kept.trans (kept_echoed u _ cp)⟩
    · right
      rw [he]
      exact ⟨exceeds, rfl⟩

end Mos.Devices

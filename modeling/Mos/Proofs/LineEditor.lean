import Mos.Proofs.TtyQueue

namespace Mos.Devices
open Machine List

/-- A line editor as canonical input means it: the lines that were ended and have not been
read, and the current line. -/
structure Editor where
  done : List (List UInt8) := []
  line : List UInt8 := []
  deriving DecidableEq, Repr

def eraseWord (line : List UInt8) : List UInt8 :=
  ((line.reverse.dropWhile isspace).dropWhile (!isspace ·)).reverse

namespace Editor

def key (c : Termios) (e : Editor) (ch : UInt8) : Editor :=
  if c.l iexten && ch == c.weraseChar then { e with line := eraseWord e.line }
  else if ch == c.killChar then { e with line := [] }
  else if ch == c.eraseChar then { e with line := e.line.dropLast }
  else if ch == c.eofChar then { done := e.done ++ [e.line] }
  else if ch == c.eolChar || (c.l iexten && ch == c.eol2Char) || ch == newline then
    { done := e.done ++ [e.line ++ [ch]] }
  else { e with line := e.line ++ [ch] }

def receiveChar (c : Termios) (e : Editor) (ch : UInt8) : Editor :=
  match inputChar c ch with
  | none => e
  | some ch => e.key c ch

def read (e : Editor) (nr : Nat) : Answer × Editor :=
  match e.done with
  | [] => (.waits, e)
  | line :: done =>
    if line.length ≤ nr then (.bytes line, { e with done })
    else (.bytes (line.take nr), { e with done := line.drop nr :: done })

end Editor

/-- A terminal beside the editor that gets the same calls, with what the reads of each
came to. -/
structure Session where
  tty : Tty
  editor : Editor := {}
  answers : List (Except Halt Answer) := []
  expected : List (Except Halt Answer) := []

inductive Call where
  | receive (cp : List UInt8)
  | read (p : Caller) (nr : UInt32)
  deriving DecidableEq

/-- Input that overflows the queue is refused; a read that ends in a failed assertion is not. -/
def Session.step (s : Session) : Call → Option Session
  | .receive cp =>
    (nttyReceiveBuf s.tty cp).toOption.map fun tty =>
      { s with tty, editor := cp.foldl (Editor.receiveChar s.tty.termios) s.editor }
  | .read p nr =>
    let (expected, editor) :=
      if inBackground s.tty p then (.failed (-erestartsys), s.editor) else s.editor.read nr.toNat
    some { s with
      tty := ((nttyRead s.tty p nr).map Prod.snd).toOption.getD s.tty
      editor
      answers := s.answers ++ [(nttyRead s.tty p nr).map Prod.fst]
      expected := s.expected ++ [.ok expected] }

def isControl (c : Termios) (ch : UInt8) : Bool :=
  ch == c.eraseChar || ch == c.killChar || ch == c.eofChar || ch == c.eolChar ||
    (c.l iexten && (ch == c.weraseChar || ch == c.eol2Char))

/-- The current line does not begin at `read_head`, or has one character at most. -/
def Editor.behind (e : Editor) : Bool := !e.done.isEmpty || e.line.length ≤ 1

/-- The characters on which `ntty_receive_buf` edits as it should. -/
def Editor.admits (c : Termios) (e : Editor) (ch : UInt8) : Bool :=
  (ch < 0x80 || !isControl c ch) &&
    if c.l iexten && ch == c.weraseChar then
      e.line.isEmpty || (e.line.getLast?.all (!isspace ·) && (e.behind || e.line.any isspace))
    else if ch == c.killChar then ch != c.weraseChar && e.behind
    else if ch == c.eraseChar then ch != c.weraseChar
    else ch != c.eofChar

def Editor.admitsAll (c : Termios) : Editor → List UInt8 → Bool
  | _, [] => true
  | e, ch :: cp =>
    (inputChar c ch).all (e.admits c) && Editor.admitsAll c (e.receiveChar c ch) cp

def Session.admits (s : Session) : Call → Prop
  | .receive cp => s.editor.admitsAll s.tty.termios cp = true
  | .read _ nr => nr.toNat < 2 ^ 31

instance (s : Session) : (call : Call) → Decidable (s.admits call)
  | .receive _ => inferInstanceAs (Decidable (_ = true))
  | .read _ nr => inferInstanceAs (Decidable (nr.toNat < 2 ^ 31))

/-! ### The control characters -/

/-- The comparisons with the control characters come to what they should. -/
structure Agrees (c : Termios) (ch : UInt8) : Prop where
  erase : same c.eraseChar ch = (ch == c.eraseChar)
  kill : same c.killChar ch = (ch == c.killChar)
  eof : same c.eofChar ch = (ch == c.eofChar)
  eol : same c.eolChar ch = (ch == c.eolChar)
  werase : (same c.weraseChar ch && c.l iexten) = (c.l iexten && ch == c.weraseChar)
  eol2 : (same c.eol2Char ch && c.l iexten) = (c.l iexten && ch == c.eol2Char)

theorem same_eq {cc ch : UInt8} (h : ch < 0x80) : same cc ch = (ch == cc) := by
  unfold same
  rw [decide_eq_true h, Bool.true_and]
  exact Bool.beq_comm

theorem same_high {cc ch : UInt8} (h : ¬ ch < 0x80) : same cc ch = false := by
  unfold same
  rw [decide_eq_false h, Bool.false_and]

variable {c : Termios} {ch : UInt8} {l : List UInt8} {e : Editor} {t : Tty}

theorem agrees (h : (ch < 0x80 || !isControl c ch) = true) : Agrees c ch := by
  by_cases low : ch < 0x80
  · exact ⟨same_eq low, same_eq low, same_eq low, same_eq low, by rw [same_eq low, Bool.and_comm],
      by rw [same_eq low, Bool.and_comm]⟩
  · rw [decide_eq_false low, Bool.false_or, Bool.not_eq_true'] at h
    simp only [isControl, Bool.or_eq_false_iff] at h
    obtain ⟨⟨⟨⟨herase, hkill⟩, heof⟩, heol⟩, hext⟩ := h
    refine ⟨?_, ?_, ?_, ?_, ?_, ?_⟩
    · rw [same_high low, herase]
    · rw [same_high low, hkill]
    · rw [same_high low, heof]
    · rw [same_high low, heol]
    · rw [same_high low]
      cases hx : c.l iexten <;> simp_all
    · rw [same_high low]
      cases hx : c.l iexten <;> simp_all

theorem Agrees.isErase (a : Agrees c ch) : isErase c ch =
    (ch == c.eraseChar || ch == c.killChar || (c.l iexten && ch == c.weraseChar)) := by
  unfold Devices.isErase
  rw [a.erase, a.kill, a.werase]

theorem Agrees.isEol (a : Agrees c ch) : isEol c ch =
    (ch == c.eolChar || (c.l iexten && ch == c.eol2Char) || ch == newline) := by
  unfold Devices.isEol
  rw [a.eol, a.eol2]

theorem lineSeparator_eq (c : Termios) (ch : UInt8) :
    lineSeparator c ch = (same c.eofChar ch || isEol c ch) := by
  unfold lineSeparator isEol
  simp only [Bool.or_assoc]

/-! ### The lines in the queue -/

/-- A line that was ended: its last character is a separator, and no other one is. -/
def Ended (c : Termios) (d : List UInt8) : Prop :=
  ∃ init x, d = init ++ [x] ∧ lineSeparator c x = true ∧ ∀ y ∈ init, lineSeparator c y = false

structure Tracks (c : Termios) (l : List UInt8) (e : Editor) : Prop where
  bytes : l = e.done.flatten ++ e.line
  done : ∀ d ∈ e.done, Ended c d
  line : ∀ y ∈ e.line, lineSeparator c y = false

theorem tracks_empty (c : Termios) : Tracks c [] {} := by
  refine ⟨rfl, ?_, ?_⟩
  · intro d hd
    cases hd
  · intro y hy
    cases hy

section Scan
variable {p : UInt8 → Bool} {r r' : List UInt8}

theorem scanned_whole (h : ∀ y ∈ r, p y = false) :
    scanned p r = if r.length ≤ 1 then r.length else r.length - 1 := by
  induction r with
  | nil => rfl
  | cons x r ih =>
    have hx := h x (mem_cons_self)
    have hr := ih (fun y hy => h y (mem_cons_of_mem _ hy))
    unfold scanned
    rw [hx, hr]
    simp only [Bool.false_eq_true, if_false, length_cons]
    split_ifs <;> omega

theorem scanned_behind (h : ∀ y ∈ r, p y = false) {x : UInt8} (hx : p x = true) :
    scanned p (r ++ x :: r') = r.length := by
  induction r with
  | nil =>
    unfold scanned
    rw [nil_append]
    simp only [hx, if_true, length_nil]
  | cons y r ih =>
    have hy := h y (mem_cons_self)
    have hr := ih (fun y hy => h y (mem_cons_of_mem _ hy))
    rw [cons_append, scanned, hy, hr]
    simp only [Bool.false_eq_true, if_false, length_cons, length_append]
    split <;> omega

end Scan

theorem Tracks.flatten_reverse (h : Tracks c l e) (some' : e.done ≠ []) :
    ∃ x r, e.done.flatten.reverse = x :: r ∧ lineSeparator c x = true := by
  obtain ⟨init, x, hd, hx, _⟩ := h.done _ (getLast_mem some')
  have he : e.done = e.done.dropLast ++ [e.done.getLast some'] :=
    (dropLast_append_getLast some').symm
  rw [he, hd]
  refine ⟨x, init.reverse ++ e.done.dropLast.flatten.reverse, ?_, hx⟩
  simp

theorem Tracks.scanned_eq (h : Tracks c l e) : scanned (lineSeparator c) l.reverse =
    if e.behind then e.line.length else e.line.length - 1 := by
  have hline : ∀ y ∈ e.line.reverse, lineSeparator c y = false := by
    intro y hy
    exact h.line y (mem_reverse.mp hy)
  unfold Editor.behind
  rw [h.bytes, reverse_append]
  by_cases none' : e.done = []
  · rw [none', flatten_nil, reverse_nil, append_nil, scanned_whole hline]
    simp only [length_reverse, isEmpty_nil, Bool.not_true, Bool.false_or,
      decide_eq_true_eq]
  · obtain ⟨x, r, hr, hx⟩ := h.flatten_reverse none'
    rw [hr, scanned_behind hline hx, length_reverse, isEmpty_eq_false_iff.mpr none']
    rfl

theorem Tracks.erase (h : Tracks c l e) {k : Nat} (hk : k ≤ e.line.length) :
    Tracks c (l.take (l.length - k)) { e with line := e.line.take (e.line.length - k) } := by
  refine ⟨?_, h.done, ?_⟩
  · rw [h.bytes, length_append, take_append, take_of_length_le (by omega)]
    congr 2
    omega
  · intro y hy
    exact h.line y (mem_of_mem_take hy)

theorem eraseWord_eq {line : List UInt8} (h : line.getLast?.all (!isspace ·) = true) :
    eraseWord line =
      line.take (line.length - (line.reverse.takeWhile (!isspace ·)).length) := by
  have hd : line.reverse.dropWhile isspace = line.reverse := by
    rw [← List.head?_reverse] at h
    cases hr : line.reverse with
    | nil => rfl
    | cons x r =>
      rw [hr] at h
      exact dropWhile_cons_of_neg (by simpa using h)
  have hs := takeWhile_append_dropWhile (p := (!isspace ·)) (l := line.reverse)
  unfold eraseWord
  rw [hd]
  generalize line.reverse.takeWhile (!isspace ·) = word at hs
  generalize line.reverse.dropWhile (!isspace ·) = rest at hs
  obtain rfl : line = rest.reverse ++ word.reverse := by
    rw [← reverse_append, hs, reverse_reverse]
  rw [length_append, length_reverse, length_reverse, Nat.add_sub_cancel,
    ← length_reverse, take_left]

theorem takeWhile_take {α : Type} (p : α → Bool) {r : List α} {n : Nat}
    (h : (r.takeWhile p).length ≤ n) : (r.take n).takeWhile p = r.takeWhile p := by
  induction r generalizing n with
  | nil => simp
  | cons x r ih =>
    cases n with
    | zero =>
      rw [length_eq_zero_iff.mp (Nat.le_zero.mp h)]
      rfl
    | succ n =>
      rw [take_succ_cons, takeWhile_cons, takeWhile_cons]
      rw [takeWhile_cons] at h
      split
      · rename_i hx
        rw [if_pos hx, length_cons] at h
        rw [ih (by omega)]
      · rfl

theorem word_lt {line : List UInt8} (blank : line.any isspace = true) :
    (line.reverse.takeWhile (!isspace ·)).length < line.length := by
  obtain ⟨x, hx, hs⟩ := any_eq_true.mp blank
  have sub := takeWhile_sublist (!isspace ·) (l := line.reverse)
  by_contra whole
  have he := sub.eq_of_length_le (by rw [length_reverse]; omega)
  have := takeWhile_eq_self_iff.mp he x (mem_reverse.mpr hx)
  rw [hs] at this
  cases this

/-- WERASE takes the same word from both. -/
theorem Tracks.erase_word (h : Tracks c l e) (hw : same c.weraseChar ch = true)
    (ok : (e.line.isEmpty ||
      (e.line.getLast?.all (!isspace ·) && (e.behind || e.line.any isspace))) = true) :
    Tracks c (l.take (l.length - erased c ch l)) { e with line := eraseWord e.line } := by
  have hn := h.scanned_eq
  have hword : (e.line.reverse.takeWhile (!isspace ·)).length ≤ e.line.length :=
    (List.takeWhile_sublist _).length_le.trans (List.length_reverse).le
  simp only [Bool.or_eq_true, Bool.and_eq_true, List.isEmpty_iff] at ok
  have last : e.line.getLast?.all (!isspace ·) = true := by
    rcases ok with empty | ⟨last, _⟩
    · rw [empty]
      rfl
    · exact last
  have short : (e.line.reverse.takeWhile (!isspace ·)).length ≤
      scanned (lineSeparator c) l.reverse := by
    rw [hn]
    split
    · exact hword
    · rename_i head
      rcases ok with empty | ⟨_, behind | blank⟩
      · rw [empty]
        exact Nat.zero_le _
      · exact absurd behind head
      · exact Nat.le_sub_one_of_lt (word_lt blank)
  have he : erased c ch l = (e.line.reverse.takeWhile (!isspace ·)).length := by
    have hle : scanned (lineSeparator c) l.reverse ≤ e.line.reverse.length := by
      rw [hn, List.length_reverse]
      split <;> omega
    unfold erased
    simp only [hw, if_true]
    split
    · omega
    · rw [h.bytes] at short hle ⊢
      rw [List.reverse_append] at short hle ⊢
      rw [List.take_append_of_le_length hle, takeWhile_take _ short]
  rw [he, eraseWord_eq last]
  exact h.erase hword

/-- KILL takes the same line from both. -/
theorem Tracks.erase_line (h : Tracks c l e) (hw : same c.weraseChar ch = false)
    (hk : same c.killChar ch = true) (ok : e.behind = true) :
    Tracks c (l.take (l.length - erased c ch l)) { e with line := [] } := by
  have he : erased c ch l = e.line.length := by
    unfold erased
    rw [h.scanned_eq, if_pos ok]
    simp only [hw, hk, Bool.false_eq_true, if_false, if_true]
    split <;> omega
  have := h.erase (Nat.le_refl e.line.length)
  rw [Nat.sub_self, take_zero] at this
  rw [he]
  exact this

/-- ERASE takes the same character from both. -/
theorem Tracks.erase_char (h : Tracks c l e) (hw : same c.weraseChar ch = false)
    (hk : same c.killChar ch = false) :
    Tracks c (l.take (l.length - erased c ch l)) { e with line := e.line.dropLast } := by
  have zero : scanned (lineSeparator c) l.reverse = 0 ↔ e.line.length = 0 := by
    rw [h.scanned_eq]
    by_cases behind : e.behind = true
    · rw [if_pos behind]
    · rw [if_neg behind]
      unfold Editor.behind at behind
      simp only [Bool.or_eq_true, decide_eq_true_eq, not_or] at behind
      omega
  have he : erased c ch l = if e.line.length = 0 then 0 else 1 := by
    unfold erased
    simp only [hw, hk, Bool.false_eq_true, if_false, zero]
  rw [he, dropLast_eq_take]
  split
  · rename_i empty
    have := h.erase (Nat.zero_le e.line.length)
    rwa [Nat.sub_zero, empty] at this ⊢
  · exact h.erase (by omega)

/-- A plain character goes to the line in both. -/
theorem Tracks.add (h : Tracks c l e) (hs : lineSeparator c ch = false) :
    Tracks c (l ++ [ch]) { e with line := e.line ++ [ch] } := by
  refine ⟨?_, h.done, ?_⟩
  · rw [h.bytes, append_assoc]
  · intro y hy
    rcases mem_append.mp hy with hy | hy
    · exact h.line y hy
    · rw [mem_singleton.mp hy]
      exact hs

/-- A separator ends the line in both. -/
theorem Tracks.finish (h : Tracks c l e) (hs : lineSeparator c ch = true) :
    Tracks c (l ++ [ch]) { done := e.done ++ [e.line ++ [ch]] } := by
  refine ⟨?_, ?_, ?_⟩
  · rw [h.bytes, flatten_append, flatten_singleton, append_nil, append_assoc]
  · intro d hd
    rcases mem_append.mp hd with hd | hd
    · exact h.done d hd
    · rw [mem_singleton.mp hd]
      exact ⟨e.line, ch, rfl, hs, h.line⟩
  · intro y hy
    cases hy

/-- A character that is admitted does the same to both. -/
theorem Tracks.key (h : Tracks c l e) (quiet : c.l isig = false) (ok : e.admits c ch = true) :
    Tracks c (edit c l ch) (e.key c ch) := by
  obtain ⟨hctl, ok⟩ := Bool.and_eq_true_iff.mp ok
  have a := agrees hctl
  have hsig : signalOf c ch = none := by
    unfold signalOf
    rw [quiet]
    rfl
  have diff : ch ≠ c.weraseChar → same c.weraseChar ch = false := by
    intro hne
    unfold same
    rw [Bool.and_eq_false_iff]
    right
    exact beq_eq_false_iff_ne.mpr hne.symm
  unfold edit Editor.key
  rw [hsig, a.isErase]
  simp only [Option.isSome_none, Bool.false_eq_true, if_false]
  by_cases hw : (c.l iexten && ch == c.weraseChar) = true
  · have hsame : same c.weraseChar ch = true := by
      have := a.werase
      rw [hw] at this
      exact (Bool.and_eq_true_iff.mp this).1
    rw [if_pos hw] at ok ⊢
    rw [if_pos (by rw [hw, Bool.or_true])]
    exact h.erase_word hsame ok
  rw [if_neg hw] at ok ⊢
  by_cases hk : (ch == c.killChar) = true
  · rw [if_pos hk] at ok ⊢
    obtain ⟨hne, behind⟩ := Bool.and_eq_true_iff.mp ok
    rw [if_pos (by rw [hk, Bool.or_true, Bool.true_or])]
    exact h.erase_line (diff (bne_iff_ne.mp hne)) (a.kill.trans hk) behind
  rw [if_neg hk] at ok ⊢
  by_cases he : (ch == c.eraseChar) = true
  · rw [if_pos he] at ok ⊢
    rw [if_pos (by rw [he, Bool.true_or, Bool.true_or])]
    exact h.erase_char (diff (bne_iff_ne.mp ok)) (a.kill.trans (Bool.eq_false_iff.mpr hk))
  rw [if_neg he] at ok ⊢
  have heof : same c.eofChar ch = false := a.eof.trans (beq_eq_false_iff_ne.mpr (bne_iff_ne.mp ok))
  have hsep := lineSeparator_eq c ch
  rw [heof, Bool.false_or, a.isEol] at hsep
  have none' : ¬(ch == c.eraseChar || ch == c.killChar || (c.l iexten && ch == c.weraseChar)) = true := by
    simp only [Bool.or_eq_true, not_or]
    exact ⟨⟨he, hk⟩, hw⟩
  rw [if_neg none', heof, if_neg Bool.false_ne_true,
    if_neg (Bool.eq_false_iff.mp (a.eof.symm.trans heof))]
  split
  · rename_i hl
    exact h.finish (hsep.trans hl)
  · rename_i hl
    exact h.add (hsep.trans (Bool.eq_false_iff.mpr hl))

theorem Tracks.receive (h : Tracks c l e) (canonical : c.l icanon = true)
    (quiet : c.l isig = false) (cp : List UInt8) (ok : e.admitsAll c cp = true) :
    Tracks c (cp.foldl (take c) l) (cp.foldl (Editor.receiveChar c) e) := by
  induction cp generalizing l e with
  | nil => exact h
  | cons ch cp ih =>
    obtain ⟨first, rest⟩ := Bool.and_eq_true_iff.mp ok
    refine ih ?_ rest
    unfold take Editor.receiveChar
    rw [if_pos canonical]
    cases hi : inputChar c ch with
    | none => exact h
    | some ch =>
      rw [hi] at first
      exact h.key quiet first

/-! ### Reading -/

theorem Tracks.no_line (h : Tracks c l e) (none' : e.done = []) :
    l.findIdx? (lineSeparator c) = none := by
  rw [h.bytes, none', flatten_nil, nil_append, List.findIdx?_eq_none_iff]
  exact h.line

theorem Ended.length_pos {d : List UInt8} (h : Ended c d) : 0 < d.length := by
  obtain ⟨init, x, rfl, _, _⟩ := h
  rw [length_append, length_singleton]
  exact Nat.succ_pos _

theorem Ended.findIdx {d : List UInt8} (h : Ended c d) (r : List UInt8) :
    (d ++ r).findIdx? (lineSeparator c) = some (d.length - 1) := by
  obtain ⟨init, x, rfl, hx, hinit⟩ := h
  have hi : init.findIdx? (lineSeparator c) = none := List.findIdx?_eq_none_iff.mpr hinit
  rw [append_assoc, List.findIdx?_append, hi, singleton_append, List.findIdx?_cons, hx]
  simp

theorem Ended.drop {d : List UInt8} (h : Ended c d) {n : Nat} (hn : n < d.length) :
    Ended c (d.drop n) := by
  obtain ⟨init, x, rfl, hx, hinit⟩ := h
  rw [length_append, length_singleton] at hn
  refine ⟨init.drop n, x, drop_append_of_le_length (by omega), hx, ?_⟩
  intro y hy
  exact hinit y (mem_of_mem_drop hy)

/-- A read takes the first line of both. -/
theorem Tracks.read {d : List UInt8} {done : List (List UInt8)} (h : Tracks c l e)
    (hd : e.done = d :: done) (nr : Nat) :
    e.read nr = (.bytes (l.take (min d.length nr)), (e.read nr).2) ∧
      Tracks c (l.drop (min d.length nr)) (e.read nr).2 := by
  have hb := h.bytes
  rw [hd, flatten_cons, append_assoc] at hb
  have hended := h.done d (by rw [hd]; exact mem_cons_self)
  have hrest : ∀ x ∈ done, Ended c x := by
    intro x hx
    exact h.done x (by rw [hd]; exact mem_cons_of_mem _ hx)
  unfold Editor.read
  rw [hd]
  dsimp only
  by_cases whole : d.length ≤ nr
  · rw [if_pos whole, Nat.min_eq_left whole, hb]
    refine ⟨?_, ?_, hrest, h.line⟩
    · rw [take_left]
    · rw [drop_left]
  · rw [if_neg whole, Nat.min_eq_right (by omega), hb]
    refine ⟨?_, ?_, ?_, h.line⟩
    · rw [take_append_of_le_length (by omega)]
    · rw [drop_append_of_le_length (by omega), flatten_cons, append_assoc]
    · intro x hx
      rcases mem_cons.mp hx with rfl | hx
      · exact hended.drop (by omega)
      · exact hrest x hx

/-! ### Runs -/

def Editor.size (e : Editor) : Nat := (e.done.flatten ++ e.line).length

structure Session.Good (s : Session) : Prop where
  canonical : s.tty.termios.l icanon = true
  quiet : s.tty.termios.l isig = false
  queue : ∃ l, Holds s.tty l ∧ Tracks s.tty.termios l s.editor
  agree : s.answers = s.expected

variable {s s' : Session}

theorem Session.Good.receive (g : s.Good) {cp : List UInt8} (ok : s.admits (.receive cp))
    (h : s.step (.receive cp) = some s') : s'.Good := by
  obtain ⟨l, holds, tracks⟩ := g.queue
  obtain ⟨tty, ht, rfl⟩ := Option.map_eq_some_iff.mp h
  rcases holds.receive cp with ⟨t', hr, holds', kept⟩ | ⟨_, hr⟩
  · rw [toOption_ok, hr] at ht
    obtain rfl := Except.ok.inj ht
    have hc : t'.termios = s.tty.termios := kept.termios
    refine ⟨?_, ?_, ⟨_, holds', ?_⟩, g.agree⟩
    · exact (congrArg (fun c => c.l icanon) hc).trans g.canonical
    · exact (congrArg (fun c => c.l isig) hc).trans g.quiet
    · rw [hc]
      exact tracks.receive g.canonical g.quiet cp ok
  · rw [toOption_ok, hr] at ht
    cases ht

theorem Session.Good.answered (g : s.Good) {p : Caller} {nr : UInt32} {a : Answer} {tty : Tty}
    {editor : Editor} {l : List UInt8} (hr : nttyRead s.tty p nr = .ok (a, tty))
    (he : (if inBackground s.tty p then (.failed (-erestartsys), s.editor)
      else s.editor.read nr.toNat) = (a, editor))
    (holds : Holds tty l) (hc : tty.termios = s.tty.termios) (tracks : Tracks s.tty.termios l editor)
    (h : s.step (.read p nr) = some s') : s'.Good := by
  simp only [step, he, hr] at h
  cases h
  refine ⟨?_, ?_, ⟨l, holds, ?_⟩, ?_⟩
  · exact (congrArg (fun c => c.l icanon) hc).trans g.canonical
  · exact (congrArg (fun c => c.l isig) hc).trans g.quiet
  · change Tracks tty.termios l editor
    rw [hc]
    exact tracks
  · rw [g.agree]
    rfl

theorem Session.Good.read (g : s.Good) {p : Caller} {nr : UInt32} (ok : s.admits (.read p nr))
    (h : s.step (.read p nr) = some s') : s'.Good := by
  obtain ⟨l, holds, tracks⟩ := g.queue
  by_cases back : inBackground s.tty p = true
  · have hr : nttyRead s.tty p nr = .ok (.failed (-erestartsys),
        { s.tty with kills := s.tty.kills ++ [(-p.gid, 21)] }) := if_pos back
    exact g.answered hr (if_pos back) (holds.congr rfl rfl rfl rfl) rfl tracks h
  have front : inBackground s.tty p = false := Bool.eq_false_iff.mpr back
  cases hd : s.editor.done with
  | nil =>
    refine g.answered (holds.read_waits g.canonical front (tracks.no_line hd) nr) ?_ holds rfl tracks h
    rw [if_neg back]
    unfold Editor.read
    rw [hd]
  | cons d done =>
    have hended := tracks.done d (by rw [hd]; exact mem_cons_self)
    have hfind : l.findIdx? (lineSeparator s.tty.termios) = some (d.length - 1) := by
      have hb := tracks.bytes
      rw [hd, flatten_cons, append_assoc] at hb
      rw [hb]
      exact hended.findIdx _
    obtain ⟨t', hr, holds', kept⟩ := holds.read g.canonical front ok hfind
    rw [Nat.sub_add_cancel hended.length_pos] at hr holds'
    obtain ⟨he, tracks'⟩ := tracks.read hd nr.toNat
    refine g.answered hr ?_ holds' kept.termios tracks' h
    rw [if_neg back]
    exact he

/-- A call keeps the editor and the ring in step. -/
theorem Session.Good.step {call : Call} (g : s.Good) (ok : s.admits call)
    (h : s.step call = some s') : s'.Good := by
  cases call with
  | receive cp => exact g.receive ok h
  | read p nr => exact g.read ok h

/-- Every read of a terminal with `ICANON` and without `ISIG` comes to what the line editor
gives, and input is refused only when it would overflow the queue. -/
theorem reads_edited_lines (t : Tty) (empty : Holds t []) (canonical : t.termios.l icanon = true)
    (quiet : t.termios.l isig = false) {s : Session}
    (run : Run Session.step Session.admits { tty := t } s) :
    s.answers = s.expected ∧
      ∀ cp, s.editor.size + cp.length ≤ nTtyBufSize → (s.step (.receive cp)).isSome := by
  have good : s.Good := by
    refine run.invariant (I := Session.Good) ?_ ?_
    · exact ⟨canonical, quiet, ⟨[], empty, tracks_empty _⟩, rfl⟩
    · intro a call b g ok h
      exact g.step ok h
  refine ⟨good.agree, ?_⟩
  intro cp fits
  obtain ⟨l, holds, tracks⟩ := good.queue
  unfold Session.step
  rw [Option.isSome_map]
  rcases holds.receive cp with ⟨t', hr, _⟩ | ⟨exceeds, _⟩
  · rw [hr]
    rfl
  · unfold Editor.size at fits
    rw [← tracks.bytes] at fits
    omega

def cooked : Tty := { termios := { ttyStdTermios with lflag := 0o105072 } }

theorem reads_edited_lines_word : ∃ s, Run Session.step Session.admits { tty := cooked } s ∧
    s.answers = [.ok (.bytes [108, 115, 32, 121, 10])] ∧ s.answers = s.expected := by
  obtain ⟨s, run, h⟩ := replay_reaches Session.step Session.admits { tty := cooked }
    [.receive [108, 115, 32, 120, 0o27, 121, 13], .read {} 80]
    (P := fun s => s.answers = [.ok (.bytes [108, 115, 32, 121, 10])]) (by decide +kernel)
  exact ⟨s, run, h, (reads_edited_lines cooked (holds_new _) (by decide) (by decide) run).1⟩

/-- `KILL` leaves the first character of a line that begins at `read_head`: after "ab", it
and "c" with a newline, "ac" is read. -/
theorem kill_leaves_first : ∃ s, Run Session.step (fun _ _ => True) { tty := cooked } s ∧
    s.answers = [.ok (.bytes [97, 99, 10])] ∧ s.expected = [.ok (.bytes [99, 10])] :=
  replay_reaches Session.step (fun _ _ => True) { tty := cooked }
    [.receive [97, 98, 0o25, 99, 10], .read {} 80]
    (P := fun s => s.answers = [.ok (.bytes [97, 99, 10])] ∧ s.expected = [.ok (.bytes [99, 10])])
    (by decide +kernel)

end Mos.Devices

import Mos.Proofs.TtyQueue

namespace Mos.Devices

/-- The queue of a terminal is in one of the states that the line discipline leaves it in. -/
def Sound (t : Tty) : Prop := ∃ l, Holds t l

/-- The bytes that the line discipline of the linked terminal was given so far. -/
def given : Option Tty → List UInt8
  | none => []
  | some peer => peer.received

def linkRoom : Option Tty → Nat
  | none => 0
  | some peer => (nttyReceiveRoom peer).toNat

/-- How long the post-processed form of what is written is: `ONLCR` makes two bytes of a
newline, and nothing else changes the length. -/
def postLength (c : Termios) (buf : List UInt8) : Nat :=
  buf.length + if c.o opost && c.o onlcr then buf.count newline else 0

/-- When a write returns the number of its bytes, all of their post-processed form has been
given to the linked terminal's line discipline, and the work buffer was long enough. -/
def Delivers (t : Tty) (link : Option Tty) (p : Caller) (buf : List UInt8) : Prop :=
  ∀ wbuf link', nttyWrite t link p buf = .ok (.returned buf.length wbuf link') →
    given link' = given link ++ opostBytes t.termios buf ∧ wbuf.length ≤ nTtyBufSize

variable {t : Tty} {link : Option Tty} {p : Caller} {buf : List UInt8}

theorem length_opostChar (c : Termios) (ch : UInt8) :
    (opostChar c ch).length = 1 + if c.o onlcr && ch == newline then 1 else 0 := by
  unfold opostChar
  split
  · rfl
  · split <;> rfl

theorem length_opostBytes (c : Termios) (buf : List UInt8) :
    (opostBytes c buf).length = postLength c buf := by
  unfold opostBytes postLength
  cases c.o opost with
  | false => rfl
  | true =>
    simp only [if_true, Bool.true_and]
    induction buf with
    | nil => simp
    | cons ch buf ih =>
      rw [List.flatMap_cons, List.length_append, ih, length_opostChar, List.length_cons,
        List.count_cons]
      cases c.o onlcr with
      | false => simp; omega
      | true => simp; omega

theorem linkRoom_le (sound : ∀ peer ∈ link, Sound peer) : linkRoom link ≤ nTtyBufSize := by
  cases link with
  | none => exact Nat.zero_le _
  | some peer =>
    obtain ⟨l, h⟩ := sound peer rfl
    change (nttyReceiveRoom peer).toNat ≤ _
    rw [h.room]
    exact Nat.sub_le _ _

/-- The linked terminal gets as much as it has room for. -/
theorem ptyWrite_given (sound : ∀ peer ∈ link, Sound peer) (buf : List UInt8) :
    ∃ link', ptyWrite link buf = .ok link' ∧
      given link' = given link ++ buf.take (linkRoom link) := by
  cases link with
  | none => exact ⟨none, rfl, rfl⟩
  | some peer =>
    obtain ⟨l, h⟩ := sound peer rfl
    have hle := h.le
    unfold ptyWrite linkRoom
    rcases h.receive (buf.take (nttyReceiveRoom peer).toNat) with ⟨u, hu, _, kept⟩ | ⟨exceeds, _⟩
    · refine ⟨some u, ?_, kept.received⟩
      simp only [hu]
      rfl
    · rw [List.length_take, h.room] at exceeds
      omega

theorem Holds.write {l : List UInt8} (_ : Holds t l) (sound : ∀ peer ∈ link, Sound peer)
    (front : inBackground t p = false) (room : ¬ nttyReceiveRoom t < buf.length) :
    ∃ link', nttyWrite t link p buf = .ok (.returned buf.length
        (if t.termios.o opost then opostBytes t.termios buf else []) link') ∧
      given link' = given link ++ (opostBytes t.termios buf).take (linkRoom link) := by
  have all : buf.take (nttyReceiveRoom t).toNat = buf := List.take_of_length_le (by omega)
  unfold nttyWrite opostBlock
  rw [front, if_neg Bool.false_ne_true, if_neg room]
  by_cases full : nttyReceiveRoom t = 0
  · have hb : buf = [] := List.length_eq_zero_iff.mp (by omega)
    subst hb
    rw [if_pos full]
    refine ⟨link, ?_, ?_⟩
    · simp [opostBytes]
      rfl
    · simp [opostBytes]
  · rw [if_neg full, all]
    unfold opostBytes
    cases t.termios.o opost with
    | false =>
      obtain ⟨link', hw, hg⟩ := ptyWrite_given sound buf
      simp only [Bool.false_eq_true, if_false, hw]
      exact ⟨link', rfl, hg⟩
    | true =>
      obtain ⟨link', hw, hg⟩ := ptyWrite_given sound (buf.flatMap (opostChar t.termios))
      simp only [if_true, hw]
      exact ⟨link', rfl, hg⟩

/-- A write that returns reaches the linked terminal whole exactly if that terminal has room
for its post-processed form. -/
theorem output_delivered (t : Tty) (link : Option Tty) (p : Caller) (buf : List UInt8)
    (sound : Sound t) (peer : ∀ peer ∈ link, Sound peer) :
    Delivers t link p buf ↔
      inBackground t p = true ∨ nttyReceiveRoom t < buf.length ∨
        postLength t.termios buf ≤ linkRoom link := by
  obtain ⟨l, h⟩ := sound
  by_cases front : inBackground t p = true
  · refine iff_of_true ?_ (.inl front)
    intro wbuf link' hw
    unfold nttyWrite at hw
    rw [if_pos front] at hw
    cases hw
  by_cases room : nttyReceiveRoom t < buf.length
  · refine iff_of_true ?_ (.inr (.inl room))
    intro wbuf link' hw
    unfold nttyWrite at hw
    rw [if_neg front, if_pos room] at hw
    cases hw
  obtain ⟨link', hw, hg⟩ := h.write peer (Bool.eq_false_iff.mpr front) room
  have hroom := linkRoom_le peer
  constructor
  · intro delivers
    right; right
    obtain ⟨all, _⟩ := delivers _ _ hw
    rw [hg, List.append_right_inj, List.take_eq_self_iff, length_opostBytes] at all
    exact all
  · intro cond
    have fits : postLength t.termios buf ≤ linkRoom link := by
      rcases cond with h | h | h
      · exact absurd h front
      · exact absurd h room
      · exact h
    intro wbuf link'' hw'
    rw [hw] at hw'
    cases hw'
    refine ⟨?_, ?_⟩
    · rw [hg, List.take_of_length_le (by rw [length_opostBytes]; exact fits)]
    · split
      · rw [length_opostBytes]
        exact fits.trans hroom
      · exact Nat.zero_le _

theorem sound_new (termios : Termios) : Sound { termios } := ⟨[], holds_new termios⟩

theorem sound_link_new (termios : Termios) : ∀ peer ∈ some ({ termios } : Tty), Sound peer := by
  intro peer h
  obtain rfl := Option.mem_some_iff.mp h
  exact sound_new termios

theorem output_delivered_line :
    Delivers { termios := ttyStdTermios } (some { termios := {} }) {} [104, 105, 10] :=
  (output_delivered _ _ _ _ (sound_new _) (sound_link_new _)).mpr (.inr (.inr (by decide)))

/-- Both queues are empty: 2049 newlines become 4098 bytes, two more than the work buffer
and the queue of the linked terminal have. -/
theorem newlines_overflow :
    Sound { termios := ttyStdTermios } ∧ Sound { termios := {} } ∧
      ¬ Delivers { termios := ttyStdTermios } (some { termios := {} }) {}
        (List.replicate 2049 newline) := by
  refine ⟨sound_new _, sound_new _, ?_⟩
  intro delivers
  have room : ¬ nttyReceiveRoom { termios := ttyStdTermios } <
      ((List.replicate 2049 newline).length : Int) := by
    rw [List.length_replicate]
    decide
  obtain ⟨link', hw, _⟩ :=
    (holds_new ttyStdTermios).write (p := {}) (sound_link_new {}) rfl room
  obtain ⟨_, short⟩ := delivers _ _ hw
  rw [if_pos (by decide), length_opostBytes, postLength, List.length_replicate,
    List.count_replicate_self] at short
  exact absurd short (by decide)

end Mos.Devices

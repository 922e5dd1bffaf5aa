import Mos.Devices.TtyPair
import Mos.Proofs.TtyQueue

namespace Mos.Devices
open Machine

variable {t t' : Tty} {l : List UInt8}

def Ring (t : Tty) : Prop :=
  if t.readCount = 0 then t.readHead = t.readTail
  else t.readCount = ((t.readTail : Int) - t.readHead) % nTtyBufSize + 1 ∧ t.readCount ≤ nTtyBufSize

theorem Holds.ring (h : Holds t l) : Ring t := by
  have hle := h.le
  have hhead := h.head
  have htail := h.tail
  unfold Ring
  rw [h.count]
  unfold nTtyBufSize at *
  split <;> omega

/-! ### Terminals that echo to each other -/

def loud (c : Termios) : Bool := c.l echo || c.l echonl

variable {x linked : Bool} {I : Tty → Prop} {p : Pair}

/-- What is known beside the terminal `x`: whether it is linked, and something of the other one. -/
structure Beside (x linked : Bool) (I : Tty → Prop) (p : Pair) : Prop where
  linked : p.linked = linked
  other : I (p.tty !x)

theorem set_self (p : Pair) (x : Bool) (t : Tty) : (p.set x t).tty x = t := Function.update_self ..

theorem set_other (p : Pair) (x : Bool) (t : Tty) : (p.set x t).tty (!x) = p.tty (!x) :=
  Function.update_of_ne (Bool.not_ne_self x) ..

theorem Beside.set (h : Beside x linked I p) (t : Tty) : Beside x linked I (p.set x t) := by
  refine ⟨h.linked, ?_⟩
  rw [set_other]
  exact h.other

/-- A result for two terminals is that of the terminal `x` alone. -/
def Mirrored (x linked : Bool) (I : Tty → Prop) (r : Except Halt Tty) (q : Except EchoHalt Pair) :
    Prop :=
  match r with
  | .ok t => ∃ p, q = .ok p ∧ p.tty x = t ∧ Beside x linked I p
  | .error halt => q = .error (.halt halt)

/-- An echo of the terminal `x` does nothing to it. -/
def Harmless (receive : Receive) (x linked : Bool) (I : Tty → Prop) : Prop :=
  ∀ p buf, Beside x linked I p →
    Mirrored x linked I (.ok ((p.tty x).post buf)) (p.post receive x buf)

theorem Mirrored.bind {r : Except Halt Tty} {q : Except EchoHalt Pair}
    {f : Tty → Except Halt Tty} {g : Pair → Except EchoHalt Pair} (h : Mirrored x linked I r q)
    (next : ∀ p, r = .ok (p.tty x) → Beside x linked I p → Mirrored x linked I (f (p.tty x)) (g p)) :
    Mirrored x linked I (r >>= f) (q >>= g) := by
  cases r with
  | error halt =>
    rw [show q = .error (.halt halt) from h]
    rfl
  | ok t =>
    obtain ⟨p, rfl, rfl, beside⟩ := h
    exact next p rfl beside

theorem Beside.put (h : Beside x linked I p) (ch : UInt8) :
    Mirrored x linked I (putTtyQueue (p.tty x) ch) (p.put x ch) := by
  unfold Pair.put
  cases putTtyQueue (p.tty x) ch with
  | error halt => rfl
  | ok t => exact ⟨_, rfl, set_self .., h.set t⟩

theorem Beside.echo (h : Beside x linked I p) {receive : Receive} {echoes : Bool}
    (harmless : echoes = true → Harmless receive x linked I) (buf : List UInt8) :
    Mirrored x linked I (.ok (if echoes then (p.tty x).post buf else p.tty x))
      (p.echo receive x echoes buf) := by
  cases echoes with
  | false => exact ⟨p, rfl, rfl, h⟩
  | true => exact harmless rfl p buf h

theorem Beside.eraser (h : Beside x linked I p) {receive : Receive} (ch : UInt8)
    (harmless : loud (p.tty x).termios = true → Harmless receive x linked I) :
    Mirrored x linked I (.ok (eraser (p.tty x) ch)) (eraserEchoing receive p x ch) := by
  unfold Devices.eraser eraserEchoing
  dsimp only
  split
  · exact ⟨p, rfl, rfl, h⟩
  · have echoes (he : echoesErase (p.tty x).termios ch = true) : Harmless receive x linked I := by
      apply harmless
      simp only [echoesErase, Bool.and_eq_true] at he
      simp [loud, he.1]
    obtain ⟨p', hp, ht, beside⟩ := h.echo echoes [ch]
    rw [hp]
    refine ⟨_, rfl, ?_, beside.set _⟩
    rw [set_self, ht]

theorem putTtyQueue_termios {ch : UInt8} (h : putTtyQueue t ch = .ok t') :
    t'.termios = t.termios := by
  unfold putTtyQueue at h
  split_ifs at h
  all_goals cases h
  all_goals rfl

theorem Beside.mapped (h : Beside x linked I p) {receive : Receive} (ch : UInt8)
    (harmless : loud (p.tty x).termios = true → Harmless receive x linked I) :
    Mirrored x linked I (receiveMapped (p.tty x) ch) (receiveMappedEchoing receive p x ch) := by
  unfold receiveMapped receiveMappedEchoing
  dsimp only
  cases signalOf (p.tty x).termios ch with
  | some sig => exact ⟨_, rfl, set_self .., h.set _⟩
  | none =>
    dsimp only
    by_cases he : isErase (p.tty x).termios ch = true
    · rw [if_pos he, if_pos he]
      exact h.eraser ch harmless
    rw [if_neg he, if_neg he]
    by_cases heof : same (p.tty x).termios.eofChar ch = true
    · rw [if_pos heof, if_pos heof]
      exact h.put 0
    rw [if_neg heof, if_neg heof]
    by_cases heol : isEol (p.tty x).termios ch = true
    · rw [if_pos heol, if_pos heol]
      refine (h.put ch).bind fun p' hp beside => beside.echo (fun he => harmless ?_) [ch]
      rw [← putTtyQueue_termios hp]
      simp [loud, (Bool.and_eq_true_iff.mp he).1]
    · rw [if_neg heol, if_neg heol]
      refine (h.put ch).bind fun p' hp beside => beside.echo (fun he => harmless ?_) [ch]
      rw [← putTtyQueue_termios hp]
      simp [loud, he]

theorem Beside.char (h : Beside x linked I p) {receive : Receive} (ch : UInt8)
    (harmless : loud (p.tty x).termios = true → Harmless receive x linked I) :
    Mirrored x linked I (receiveChar (p.tty x) ch) (receiveCharEchoing receive x p ch) := by
  unfold receiveChar receiveCharEchoing
  cases inputChar (p.tty x).termios ch with
  | none => exact ⟨p, rfl, rfl, h⟩
  | some ch => exact h.mapped ch harmless

theorem post_termios (t : Tty) (c : Bool) (buf : List UInt8) :
    (if c then t.post buf else t).termios = t.termios := (kept_echoed t c buf).termios

theorem receiveChar_termios {ch : UInt8} (h : receiveChar t ch = .ok t') :
    t'.termios = t.termios := by
  unfold receiveChar at h
  split at h
  · cases h
    rfl
  · unfold receiveMapped at h
    split at h
    · cases h
      split <;> rfl
    · split at h
      · cases h
        exact (kept_eraser t _).termios
      · split at h
        · exact putTtyQueue_termios h
        · split at h
          · obtain ⟨u, hu, h⟩ := bind_ok.mp h
            cases h
            rw [post_termios, putTtyQueue_termios hu]
          · obtain ⟨u, hu, h⟩ := bind_ok.mp h
            cases h
            rw [post_termios, putTtyQueue_termios hu]

theorem foldlM_termios {f : Tty → UInt8 → Except Halt Tty}
    (keeps : ∀ t ch t', f t ch = .ok t' → t'.termios = t.termios) {cp : List UInt8}
    (h : cp.foldlM f t = .ok t') : t'.termios = t.termios := by
  induction cp generalizing t with
  | nil =>
    cases h
    rfl
  | cons ch cp ih =>
    rw [List.foldlM_cons] at h
    obtain ⟨u, hu, h⟩ := bind_ok.mp h
    rw [ih h, keeps _ _ _ hu]

theorem Beside.fold {f : Tty → UInt8 → Except Halt Tty} {g : Pair → UInt8 → Except EchoHalt Pair}
    {c : Termios} (keeps : ∀ t ch t', f t ch = .ok t' → t'.termios = t.termios)
    (each : ∀ p ch, Beside x linked I p → (p.tty x).termios = c →
      Mirrored x linked I (f (p.tty x) ch) (g p ch))
    (cp : List UInt8) (h : Beside x linked I p) (hc : (p.tty x).termios = c) :
    Mirrored x linked I (cp.foldlM f (p.tty x)) (cp.foldlM g p) := by
  induction cp generalizing p with
  | nil => exact ⟨p, rfl, rfl, h⟩
  | cons ch cp ih =>
    rw [List.foldlM_cons, List.foldlM_cons]
    refine (each p ch h hc).bind fun p' hp beside => ?_
    exact ih beside ((keeps _ _ _ hp).trans hc)

/-- If the echo of a terminal does nothing to it, it receives what it would receive alone. -/
theorem Beside.receive (h : Beside x linked I p) {receive : Receive} (cp : List UInt8)
    (harmless : loud (p.tty x).termios = true → Harmless receive x linked I) :
    Mirrored x linked I (nttyReceiveBuf (p.tty x) cp) (receiveBufEchoing receive p x cp) := by
  have h' := h.set { p.tty x with received := (p.tty x).received ++ cp }
  have hx := set_self p x { p.tty x with received := (p.tty x).received ++ cp }
  unfold nttyReceiveBuf receiveBufEchoing
  dsimp only
  by_cases canonical : (p.tty x).termios.l icanon = true
  · rw [if_pos canonical, if_pos canonical]
    have fold := h'.fold (c := (p.tty x).termios) (f := receiveChar)
      (g := receiveCharEchoing receive x) (fun _ _ _ => receiveChar_termios)
      (fun q ch hq hc => hq.char ch (hc.symm ▸ harmless)) cp (by rw [hx])
    rw [hx] at fold
    exact fold
  · rw [if_neg canonical, if_neg canonical]
    have fold := h'.fold (c := (p.tty x).termios) (f := putTtyQueue)
      (g := fun p ch => p.put x ch) (fun _ _ _ => putTtyQueue_termios)
      (fun q ch hq _ => hq.put ch) cp (by rw [hx])
    rw [hx] at fold
    refine fold.bind fun p' hp beside => beside.echo (fun he => harmless ?_) cp
    have hterm := foldlM_termios (fun _ _ _ => putTtyQueue_termios) hp
    rw [hterm] at he
    simp only [loud, Bool.or_eq_true]
    exact .inl he

def Holding (t : Tty) : Prop := ∃ l, Holds t l

theorem Holding.room (h : Holding t) : 0 ≤ nttyReceiveRoom t := by
  obtain ⟨l, h⟩ := h
  have := h.le
  unfold nttyReceiveRoom
  rw [h.count]
  omega

theorem Holding.receive (h : Holding t) {cp : List UInt8} (room : (cp.length : Int) ≤ nttyReceiveRoom t) :
    ∃ t', nttyReceiveBuf t cp = .ok t' ∧ Holding t' ∧ t'.termios = t.termios := by
  obtain ⟨l, h⟩ := h
  obtain ⟨t', hok, hold, kept⟩ | ⟨hlong, -⟩ := h.receive cp
  · exact ⟨t', hok, ⟨_, hold⟩, kept.termios⟩
  · rw [nttyReceiveRoom, h.count] at room
    omega

/-- The echo is received by a terminal that does not echo it. -/
theorem harmless_nested (depth : Nat) (x linked : Bool) {c : Termios}
    (quiet : linked = true → loud c = false) :
    Harmless (receiveNested (depth + 1)) x linked fun t => t.termios = c ∧ Holding t := by
  intro p buf h
  have h' := h.set ((p.tty x).post buf)
  unfold Pair.post
  dsimp only
  split
  · exact ⟨_, rfl, set_self .., h'⟩
  · split
    · rename_i out hout hlinked
      have hroom : ((out.take (nttyReceiveRoom (p.tty !x)).toNat).length : Int) ≤
          nttyReceiveRoom ((p.set x ((p.tty x).post buf)).tty !x) := by
        rw [set_other, List.length_take]
        have := h.other.2.room
        omega
      obtain ⟨hc, hold⟩ := h'.other
      obtain ⟨t', hok, hold', hterm⟩ := hold.receive hroom
      have beside : Beside (!x) linked (· = (p.tty x).post buf) (p.set x ((p.tty x).post buf)) := by
        refine ⟨h.linked, ?_⟩
        rw [Bool.not_not, set_self]
      have silent : loud ((p.set x ((p.tty x).post buf)).tty !x).termios = true →
          Harmless (receiveNested depth) (!x) linked (· = (p.tty x).post buf) := by
        intro hloud
        rw [hc, quiet (h.linked ▸ hlinked)] at hloud
        cases hloud
      have agrees := beside.receive (out.take (nttyReceiveRoom (p.tty !x)).toNat) silent
      rw [hok] at agrees
      obtain ⟨q, hq, ht, hb⟩ := agrees
      refine ⟨q, hq, ?_, hb.linked, ?_⟩
      · have := hb.other
        rwa [Bool.not_not] at this
      · rw [ht]
        exact ⟨hterm.trans hc, hold'⟩
    · exact ⟨_, rfl, set_self .., h'⟩

/-! ### Runs -/

inductive RingEvent where
  | receive (x : Bool) (cp : List UInt8)
  | read (x : Bool) (caller : Caller) (nr : UInt32)
  | set (x : Bool) (termios : Termios)

def ringCall (depth : Nat) (p : Pair) : RingEvent → Except EchoHalt Pair
  | .receive x cp => receiveNested depth p x cp
  | .read x caller nr =>
    match nttyRead (p.tty x) caller nr with
    | .ok r => .ok (p.set x r.2)
    | .error halt => .error (.halt halt)
  | .set x termios => .ok (p.set x { p.tty x with termios })

def roomy (p : Pair) : RingEvent → Bool
  | .receive x cp => (cp.length : Int) ≤ nttyReceiveRoom (p.tty x)
  | _ => true

def ringStep (depth : Nat) (p : Pair) (e : RingEvent) : Option Pair :=
  if roomy p e then (ringCall depth p e).toOption else none

/-- A read asks for less than 2 ^ 31 bytes, which is not negative as an `int`, and of two linked
terminals not both echo when one of them receives something. -/
def Calm (p : Pair) : RingEvent → Prop
  | .read _ _ nr => nr.toNat < 2 ^ 31
  | .receive x _ => p.linked = true → loud (p.tty x).termios = true →
      loud (p.tty !x).termios = false
  | _ => True

instance (p : Pair) (e : RingEvent) : Decidable (Calm p e) := by
  unfold Calm
  split <;> infer_instance

theorem Holds.readLength_nonneg {n : Int} (h : Holds t l) (hn : Devices.readLength t = some n) :
    0 ≤ n := by
  unfold Devices.readLength at hn
  split_ifs at hn
  · obtain ⟨k, -, rfl⟩ := Option.map_eq_some_iff.mp hn
    exact Int.natCast_nonneg k
  · cases hn
    rw [h.count]
    exact Int.natCast_nonneg _

theorem Holds.read_any (h : Holds t l) (p : Caller) {nr : UInt32} (small : nr.toNat < 2 ^ 31) :
    ∃ a t' l', nttyRead t p nr = .ok (a, t') ∧ Holds t' l' := by
  by_cases front : inBackground t p = true
  · refine ⟨_, _, l, if_pos front, ?_⟩
    exact h.congr rfl rfl rfl rfl
  cases hn : Devices.readLength t with
  | none =>
    refine ⟨.waits, t, l, ?_, h⟩
    simp [nttyRead, front, hn, pure, Except.pure]
  | some n =>
    by_cases hbad : n = 0 ∨ t.readCount < n
    · refine ⟨.failed (-efault), t, l, ?_, h⟩
      simp [nttyRead, front, hn, hbad, pure, Except.pure]
    · obtain ⟨n, rfl⟩ := Int.eq_ofNat_of_zero_le (h.readLength_nonneg hn)
      rw [h.count] at hbad
      obtain ⟨t', hok, hold, -⟩ :=
        h.read_length (p := p) (by simpa using front) small hn (by omega) (by omega)
      exact ⟨_, t', _, hok, hold⟩

theorem Holding.set (h : ∀ x, Holding (p.tty x)) (ht : Holding t) (x : Bool) :
    ∀ y, Holding ((p.set x t).tty y) := by
  intro y
  by_cases hy : y = x
  · subst y
    rw [set_self]
    exact ht
  · obtain rfl : y = !x := Bool.eq_not_of_ne hy
    rw [set_other]
    exact h _

theorem Holding.call (depth : Nat) (h : ∀ x, Holding (p.tty x)) {e : RingEvent}
    (hroom : roomy p e = true) (calm : Calm p e) :
    ∃ p', ringCall (depth + 2) p e = .ok p' ∧ ∀ x, Holding (p'.tty x) := by
  cases e with
  | receive x cp =>
    obtain ⟨t', hok, hold, -⟩ := (h x).receive (of_decide_eq_true hroom)
    have beside : Beside x p.linked (fun t => t.termios = (p.tty !x).termios ∧ Holding t) p :=
      ⟨rfl, rfl, h _⟩
    have agrees := beside.receive cp fun hloud =>
      harmless_nested depth x p.linked fun hl => calm hl hloud
    rw [hok] at agrees
    obtain ⟨p', hp, ht, hb⟩ := agrees
    refine ⟨p', hp, fun y => ?_⟩
    by_cases hy : y = x
    · rw [hy, ht]
      exact hold
    · rw [Bool.eq_not_of_ne hy]
      exact hb.other.2
  | read x caller nr =>
    obtain ⟨l, hl⟩ := h x
    obtain ⟨a, t', l', hok, hold⟩ := hl.read_any caller calm
    refine ⟨p.set x t', ?_, Holding.set h ⟨l', hold⟩ x⟩
    rw [ringCall, hok]
  | set x termios =>
    obtain ⟨l, hl⟩ := h x
    have ht : Holding { p.tty x with termios } := ⟨l, hl.congr rfl rfl rfl rfl⟩
    exact ⟨_, rfl, Holding.set h ht x⟩

/-- As long as no read asks for 2 ^ 31 bytes or more and no echo is echoed, the indices are right
and no assertion fails. -/
theorem input_ring_kept (depth : Nat) (linked : Bool) (termios : Bool → Termios)
    (run : Run (ringStep (depth + 2)) Calm { linked, tty := fun x => { termios := termios x } } p) :
    (∀ x, Ring (p.tty x)) ∧
      ∀ e, roomy p e = true → Calm p e → ∃ p', ringCall (depth + 2) p e = .ok p' := by
  have hold : ∀ x, Holding (p.tty x) := by
    refine run.invariant (I := fun p => ∀ x, Holding (p.tty x))
      (fun x => ⟨[], holds_new (termios x)⟩) ?_
    intro p e p' h calm hstep
    unfold ringStep at hstep
    split at hstep
    · rename_i hroom
      obtain ⟨u, hok, hold⟩ := Holding.call depth h hroom calm
      rw [hok] at hstep
      cases hstep
      exact hold
    · cases hstep
  refine ⟨fun x => ?_, fun e hroom calm => ?_⟩
  · obtain ⟨l, h⟩ := hold x
    exact h.ring
  · obtain ⟨p', hok, -⟩ := Holding.call depth hold hroom calm
    exact ⟨p', hok⟩

/-- A line is received by the one end, and echoed to the other. -/
theorem input_ring_kept_line : ∃ p : Pair,
    Run (ringStep 2) Calm
        { tty := fun x => { termios := if x then ttyStdTermios else {} } } p ∧
      (p.tty true).readCount = 2 ∧ (p.tty false).readCount = 1 ∧ ∀ x, Ring (p.tty x) := by
  obtain ⟨p, run, h⟩ := replay_reaches (ringStep 2) Calm
    { tty := fun x => { termios := if x then ttyStdTermios else {} } } [.receive true [97, 10]]
    (P := fun p => (p.tty true).readCount = 2 ∧ (p.tty false).readCount = 1) (by decide +kernel)
  exact ⟨p, run, h.1, h.2,
    (input_ring_kept 0 true (fun x => if x then ttyStdTermios else {}) run).1⟩

/-- The number of bytes to read is negative as an `int`, and one byte is in the ring. -/
theorem negative_read_asserts :
    ∃ p : Pair, Run (ringStep 2) (fun _ _ => True) { tty := fun _ => { termios := {} } } p ∧
      ringCall 2 p (.read true {} 0xffffffff) = .error (.halt .assert) :=
  ⟨_, .tail (e := .receive true [97]) .refl trivial rfl, rfl⟩

end Mos.Devices

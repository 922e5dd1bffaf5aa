import Mos.Devices.TtyDriver
import Mos.Machine.Run

namespace Mos.Devices
open Machine

/-- The terminals beside the settings that each should have: at first those its driver had at the
start, then those it was given last. -/
structure Settings extends TtyTable where
  start : TtyDriver → Termios
  own : List Termios := []

inductive TtyEvent where
  | ptmxOpen
  | ttyOpen (minor : Nat)
  | tcsets (i : Nat) (term : Termios)

variable {s s' : Settings} {i : Nat} {term : Termios} {d : TtyDriver}

def Settings.opened (s : Settings) (table : TtyTable) : Settings :=
  { s with
    toTtyTable := table
    own := s.own ++ (table.ttys.drop s.ttys.length).map fun tty => s.start tty.driver }

def ttyStep (s : Settings) : TtyEvent → Option Settings
  | .ptmxOpen => some (s.opened s.ptmxOpen)
  | .ttyOpen minor => some (s.opened (s.toTtyTable.ttyOpen minor))
  | .tcsets i term =>
    some { s with toTtyTable := s.toTtyTable.tcsets i term, own := s.own.set i term }

/-- A terminal is opened while its driver has the settings of the start, and is given others only
when no other terminal has its driver. -/
def unshared (s : Settings) : TtyEvent → Prop
  | .ptmxOpen => s.initTermios .ptm = s.start .ptm ∧ s.initTermios .pts = s.start .pts
  | .ttyOpen _ => s.initTermios .serial = s.start .serial
  | .tcsets i _ => ∀ tty ∈ s.ttys.eraseIdx i, some tty.driver ≠ s.ttys[i]?.map (·.driver)

def Isolated (s : Settings) : Prop := ∀ i, s.tcgets i = s.own[i]?

/-- Each terminal has the settings of its own. -/
theorem isolated_iff :
    Isolated s ↔ s.ttys.map (fun tty => s.initTermios tty.driver) = s.own := by
  constructor
  · intro h
    apply List.ext_getElem?
    intro i
    rw [← h i, List.getElem?_map, TtyTable.tcgets]
  · intro h i
    rw [← h, List.getElem?_map, TtyTable.tcgets]

theorem Isolated.opened (h : Isolated s) {table : TtyTable} (new : List TtyRef)
    (same : table.initTermios = s.initTermios) (ttys : table.ttys = s.ttys ++ new)
    (first : ∀ tty ∈ new, s.initTermios tty.driver = s.start tty.driver) :
    Isolated (s.opened table) := by
  rw [isolated_iff] at h ⊢
  simpa [Settings.opened, same, ttys, h] using first

theorem Isolated.tcsets (h : Isolated s) (alone : unshared s (.tcsets i term)) :
    Isolated { s with toTtyTable := s.toTtyTable.tcsets i term, own := s.own.set i term } := by
  intro j
  have hj := h j
  cases hi : s.ttys[i]? with
  | none =>
    have hlen : s.own.length ≤ i := by
      rw [← List.getElem?_eq_none_iff, ← h i, TtyTable.tcgets, hi]
      rfl
    simpa [TtyTable.tcsets, TtyTable.tcgets, hi, List.set_eq_of_length_le hlen] using hj
  | some tty =>
    by_cases hij : j = i
    · subst hij
      have hlt : j < s.own.length := by
        rw [← isolated_iff.mp h, List.length_map]
        exact (List.getElem?_eq_some_iff.mp hi).1
      simp [TtyTable.tcsets, TtyTable.tcgets, hi, hlt]
    · rw [List.getElem?_set_ne (Ne.symm hij), ← hj]
      cases htty : s.ttys[j]? with
      | none => simp [TtyTable.tcsets, TtyTable.tcgets, hi, htty]
      | some other =>
        have hne : other.driver ≠ tty.driver := by
          have hmem := List.mem_eraseIdx_iff_getElem?.mpr ⟨j, hij, htty⟩
          simpa [hi] using alone other hmem
        simp [TtyTable.tcsets, TtyTable.tcgets, hi, htty, hne]

/-- Setting one terminal leaves the others. -/
theorem Isolated.step {e : TtyEvent} (h : Isolated s) (hu : unshared s e)
    (hs : ttyStep s e = some s') : Isolated s' := by
  cases e with
  | ptmxOpen =>
    cases hs
    refine h.opened [⟨.ptm, s.nextPtyNumber⟩, ⟨.pts, s.nextPtyNumber⟩] rfl ?_ ?_
    · simp [TtyTable.ptmxOpen, TtyTable.createTtyStruct]
    · simpa [unshared] using hu
  | ttyOpen minor =>
    cases hs
    unfold TtyTable.ttyOpen
    split
    · exact h.opened [] rfl (by simp) (by simp)
    · exact h.opened [⟨.serial, _⟩] rfl rfl (by simpa [unshared] using hu)
  | tcsets i term =>
    cases hs
    exact h.tcsets hu

/-- As long as no driver is shared by a terminal with other settings, each terminal has its own. -/
theorem settings_isolated (initTermios : TtyDriver → Termios)
    (run : Run ttyStep unshared ⟨⟨initTermios, [], 0⟩, initTermios, []⟩ s) : Isolated s :=
  run.invariant (fun _ => rfl) fun _ _ _ h hu hs => h.step hu hs

def stdSettings : Settings := ⟨⟨fun _ => ttyStdTermios, [], 0⟩, fun _ => ttyStdTermios, []⟩

theorem settings_isolated_one :
    ∃ s, Run ttyStep unshared stdSettings s ∧
      (s.tcgets 1).map Termios.lflag = some 0 ∧ Isolated s := by
  have opened : Run ttyStep unshared stdSettings (stdSettings.opened stdSettings.ptmxOpen) :=
    .tail (e := .ptmxOpen) .refl ⟨rfl, rfl⟩ rfl
  have run : Run ttyStep unshared stdSettings _ :=
    .tail (e := .tcsets 1 {}) opened (by unfold unshared; decide) rfl
  exact ⟨_, run, rfl, settings_isolated _ run⟩

/-- The settings of the first slave are those of the second one too. -/
theorem settings_shared :
    ∃ s, Run ttyStep (fun _ _ => True) stdSettings s ∧
      (s.tcgets 3).map Termios.lflag = some 0 ∧
      s.own[3]?.map Termios.lflag = some ttyStdTermios.lflag :=
  ⟨_, .tail (e := .tcsets 1 {}) (.tail (e := .ptmxOpen) (.tail (e := .ptmxOpen) .refl trivial rfl)
    trivial rfl) trivial rfl, rfl, rfl⟩

end Mos.Devices

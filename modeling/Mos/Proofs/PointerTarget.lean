import Mos.Gui.Window

namespace Mos.Gui

/-- The pixel is in the rectangle but neither in its first column nor in its first row, and the
right and lower edges are numbers that an `int` can hold. -/
def Graphic.Interior (g : Graphic) (x y mx my : Int32) : Prop :=
  (x.toInt < mx.toInt ∧ mx.toInt < x.toInt + g.width.toNat ∧ x.toInt + g.width.toNat < 2 ^ 31) ∧
    y.toInt < my.toInt ∧ my.toInt < y.toInt + g.height.toNat ∧
      y.toInt + g.height.toNat < 2 ^ 31

def shows (win : Window) (px py mx my : Int32) : Bool :=
  (drawWindow win px py).any fun p => p.contains mx my

mutual

def ClearBelow : Window → Int32 → Int32 → Int32 → Int32 → Prop
  | .mk _ children, px, py, mx, my => Clear children px py mx my

/-- The last of the siblings that shows the pixel has it inside itself, no sibling before it
does, and the same holds for its children. -/
def Clear : List Window → Int32 → Int32 → Int32 → Int32 → Prop
  | [], _, _, _, _ => True
  | win :: wins, px, py, mx, my =>
    let cx := px + win.graphic.x
    let cy := py + win.graphic.y
    if wins.any (fun w => shows w px py mx my) then
      ¬win.graphic.Interior cx cy mx my ∧ Clear wins px py mx my
    else
      shows win px py mx my = true →
        win.graphic.Interior cx cy mx my ∧ ClearBelow win cx cy mx my

end

section Span
variable {x m : Int32} {size : UInt16}

theorem toInt_add_ofNat {n : Nat} (hn : n < 2 ^ 31) :
    (x + Int32.ofNat n).toInt = (x.toInt + n).bmod (2 ^ 32) := by
  rw [Int32.toInt_add, Int32.toInt_ofNat_of_lt hn]

/-- A sum that an `int` cannot hold comes out below `x`. -/
theorem span_iff : (x < m ∧ m < x + Int32.ofNat size.toNat) ↔
    x.toInt < m.toInt ∧ m.toInt < x.toInt + size.toNat ∧ x.toInt + size.toNat < 2 ^ 31 := by
  have hs := size.toNat_lt
  have hx := x.le_toInt
  rw [Int32.lt_iff_toInt_lt, Int32.lt_iff_toInt_lt, toInt_add_ofNat (by omega), Int.bmod_def]
  omega

theorem span_mem (lo : x.toInt < m.toInt) (hi : m.toInt < x.toInt + size.toNat) :
    ∃ j ∈ List.range size.toNat, x + Int32.ofNat j = m := by
  have hs := size.toNat_lt
  have hm := m.le_toInt
  have hm' := m.toInt_lt
  refine ⟨(m.toInt - x.toInt).toNat, List.mem_range.mpr (by omega), ?_⟩
  apply Int32.toInt_inj.mp
  rw [toInt_add_ofNat (by omega), Int.bmod_def]
  omega

end Span

/-- The four comparisons are the interior of the rectangle. -/
theorem Graphic.hit_iff {g : Graphic} {x y mx my : Int32} :
    g.hit x y mx my = true ↔ g.Interior x y mx my := by
  unfold Graphic.hit Graphic.Interior
  rw [← span_iff, ← span_iff]
  simp [and_assoc]

theorem Graphic.Interior.contains {g : Graphic} {x y mx my : Int32} (h : g.Interior x y mx my)
    (way : Way) : (Painted.mk way x y g.width g.height).contains mx my = true := by
  obtain ⟨⟨xlo, xhi, -⟩, ylo, yhi, -⟩ := h
  obtain ⟨j, hj, hx⟩ := span_mem xlo xhi
  obtain ⟨i, hi, hy⟩ := span_mem ylo yhi
  apply decide_eq_true
  apply List.mem_flatMap.mpr
  exact ⟨i, hi, List.mem_map.mpr ⟨j, hj, by rw [hx, hy]⟩⟩

section Topmost
variable {mx my : Int32}

theorem topmost_nil : topmost [] mx my = none := rfl

theorem topmost_append (front back : List Painted) :
    topmost (front ++ back) mx my = (topmost back mx my).or (topmost front mx my) := by
  unfold topmost
  rw [List.filter_append, List.getLast?_append, Option.map_or]

theorem topmost_under (i : Nat) (painted : List Painted) :
    topmost (painted.map (Painted.under i)) mx my = (topmost painted mx my).map (i :: ·) := by
  unfold topmost
  rw [List.filter_map, List.getLast?_map, Option.map_map, Option.map_map]
  rfl

theorem topmost_eq_none {painted : List Painted} :
    topmost painted mx my = none ↔ (painted.any fun p => p.contains mx my) = false := by
  unfold topmost
  simp

theorem topmost_drawWindow (graphic : Graphic) (children : List Window) (px py : Int32) :
    topmost (drawWindow (.mk graphic children) px py) mx my =
      (topmost (drawAmong children 0 (px + graphic.x) (py + graphic.y)) mx my).or
        (if (Painted.mk [] (px + graphic.x) (py + graphic.y) graphic.width
          graphic.height).contains mx my then some [] else none) := by
  rw [drawWindow, ← List.singleton_append, topmost_append]
  unfold topmost
  rw [List.filter_singleton]
  cases Painted.contains _ mx my <;> rfl

theorem topmost_drawAmong (win : Window) (wins : List Window) (i : Nat) (px py : Int32) :
    topmost (drawAmong (win :: wins) i px py) mx my =
      (topmost (drawAmong wins (i + 1) px py) mx my).or
        ((topmost (drawWindow win px py) mx my).map (i :: ·)) := by
  rw [drawAmong, topmost_append, topmost_under]

theorem topmost_drawAmong_none (wins : List Window) (i : Nat) (px py : Int32) :
    topmost (drawAmong wins i px py) mx my = none ↔
      (wins.any fun w => shows w px py mx my) = false := by
  induction wins generalizing i with
  | nil => simp [drawAmong, topmost_nil]
  | cons win wins ih =>
    rw [topmost_drawAmong, Option.or_eq_none_iff, ih, Option.map_eq_none_iff, topmost_eq_none,
      List.any_cons, Bool.or_eq_false_iff, and_comm]
    rfl

theorem topmost_drawAmong_some {wins : List Window} {i : Nat} {px py : Int32} {way : Way}
    (h : topmost (drawAmong wins i px py) mx my = some way) : ∃ k rest, way = k :: rest ∧ i ≤ k := by
  induction wins generalizing i with
  | nil => simp [drawAmong, topmost_nil] at h
  | cons win wins ih =>
    rw [topmost_drawAmong] at h
    cases hlater : topmost (drawAmong wins (i + 1) px py) mx my with
    | some w =>
      rw [hlater] at h
      cases h
      obtain ⟨k, rest, hw, hk⟩ := ih hlater
      exact ⟨k, rest, hw, by omega⟩
    | none =>
      rw [hlater, Option.none_or] at h
      obtain ⟨rest, -, rfl⟩ := Option.map_eq_some_iff.mp h
      exact ⟨i, rest, rfl, Nat.le_refl i⟩

theorem orItself_cons (i : Nat) (found : Option Way) : ∃ rest, orItself i found = i :: rest := by
  cases found with
  | none => exact ⟨[], rfl⟩
  | some way => exact ⟨way, rfl⟩

theorem findAmong_some {wins : List Window} {i : Nat} {px py : Int32} {way : Way}
    (h : findAmong wins i px py mx my = some way) : ∃ k rest, way = k :: rest ∧ i ≤ k := by
  induction wins generalizing i with
  | nil => simp [findAmong] at h
  | cons win wins ih =>
    rw [findAmong] at h
    split at h
    · cases h
      obtain ⟨rest, hrest⟩ := orItself_cons i (findChildElementFromPosition win _ _ mx my)
      exact ⟨i, rest, hrest, Nat.le_refl i⟩
    · obtain ⟨k, rest, hw, hk⟩ := ih h
      exact ⟨k, rest, hw, by omega⟩

end Topmost

theorem findAmong_desktop (wins : List Window) (i : Nat) (mx my : Int32) :
    findAmong wins i 0 0 mx my =
      match getWindowFromMousePosition wins i mx my with
      | none => none
      | some (i, win) =>
        some (orItself i (findChildElementFromPosition win win.graphic.x win.graphic.y mx my)) := by
  induction wins generalizing i with
  | nil => rw [findAmong, getWindowFromMousePosition]
  | cons win wins ih =>
    rw [findAmong, getWindowFromMousePosition, Int32.zero_add, Int32.zero_add]
    split
    · rfl
    · exact ih (i + 1)

theorem clicked_eq (desktop : List Window) (mx my : Int32) :
    clicked desktop mx my = findAmong desktop 0 0 0 mx my :=
  (findAmong_desktop desktop 0 mx my).symm

theorem orItself_iff {graphic : Graphic} {children : List Window} {px py mx my : Int32} (i : Nat)
    (hshows : shows (.mk graphic children) px py mx my = true) :
    some (orItself i (findAmong children 0 (px + graphic.x) (py + graphic.y) mx my)) =
        (topmost (drawWindow (.mk graphic children) px py) mx my).map (i :: ·) ↔
      findAmong children 0 (px + graphic.x) (py + graphic.y) mx my =
        topmost (drawAmong children 0 (px + graphic.x) (py + graphic.y)) mx my := by
  have hsome : topmost (drawWindow (.mk graphic children) px py) mx my ≠ none := by
    intro h
    rw [topmost_eq_none] at h
    exact absurd (hshows.symm.trans h) (by decide)
  rw [topmost_drawWindow] at hsome ⊢
  cases hfound : findAmong children 0 (px + graphic.x) (py + graphic.y) mx my with
  | none =>
    cases htop : topmost (drawAmong children 0 (px + graphic.x) (py + graphic.y)) mx my with
    | none =>
      rw [htop, Option.none_or] at hsome
      split
      · simp [orItself]
      · rename_i h
        exact absurd (if_neg h) hsome
    | some way =>
      obtain ⟨k, rest, rfl, -⟩ := topmost_drawAmong_some htop
      simp [orItself]
  | some way =>
    obtain ⟨k, rest, rfl, -⟩ := findAmong_some hfound
    cases htop : topmost (drawAmong children 0 (px + graphic.x) (py + graphic.y)) mx my with
    | none =>
      split
      · simp [orItself]
      · simp [orItself]
    | some way' => simp [orItself]

theorem findAmong_cons (graphic : Graphic) (children wins : List Window) (i : Nat)
    (px py mx my : Int32) : findAmong (.mk graphic children :: wins) i px py mx my =
      if graphic.hit (px + graphic.x) (py + graphic.y) mx my then
        some (orItself i (findAmong children 0 (px + graphic.x) (py + graphic.y) mx my))
      else findAmong wins (i + 1) px py mx my := by
  rfl

theorem clear_cons (graphic : Graphic) (children wins : List Window) (px py mx my : Int32) :
    Clear (.mk graphic children :: wins) px py mx my ↔
      if wins.any (fun w => shows w px py mx my) then
        ¬graphic.hit (px + graphic.x) (py + graphic.y) mx my = true ∧ Clear wins px py mx my
      else shows (.mk graphic children) px py mx my = true →
        graphic.hit (px + graphic.x) (py + graphic.y) mx my = true ∧
          Clear children (px + graphic.x) (py + graphic.y) mx my := by
  rw [Clear, ClearBelow, Graphic.hit_iff]
  rfl

theorem hit_shows {graphic : Graphic} {children : List Window} {px py mx my : Int32}
    (hit : graphic.hit (px + graphic.x) (py + graphic.y) mx my = true) :
    shows (.mk graphic children) px py mx my = true := by
  unfold shows
  rw [drawWindow, List.any_cons, (Graphic.hit_iff.mp hit).contains []]
  rfl

theorem clear_of_none {wins : List Window} {px py mx my : Int32}
    (hnone : (wins.any fun w => shows w px py mx my) = false) : Clear wins px py mx my := by
  cases wins with
  | nil => simp [Clear]
  | cons win wins =>
    rw [List.any_cons, Bool.or_eq_false_iff] at hnone
    rw [Clear, if_neg (by simp [hnone.2]), hnone.1]
    nofun

/-- The search among siblings is right where no window but the one on top is hit. -/
theorem findAmong_iff (wins : List Window) (i : Nat) (px py mx my : Int32) :
    findAmong wins i px py mx my = topmost (drawAmong wins i px py) mx my ↔
      Clear wins px py mx my := by
  match wins with
  | [] => simp [findAmong, drawAmong, topmost_nil, Clear]
  | .mk graphic children :: wins =>
    have below := findAmong_iff children 0 (px + graphic.x) (py + graphic.y) mx my
    have later := findAmong_iff wins (i + 1) px py mx my
    have hnone : topmost (drawAmong wins (i + 1) px py) mx my = none ↔ _ :=
      topmost_drawAmong_none wins (i + 1) px py
    rw [findAmong_cons, topmost_drawAmong, clear_cons]
    by_cases hlater : (wins.any fun w => shows w px py mx my) = true
    · -- a later sibling is on top, so this one must not be taken
      obtain ⟨top, htop⟩ : ∃ top, topmost (drawAmong wins (i + 1) px py) mx my = some top := by
        apply Option.ne_none_iff_exists'.mp
        rw [Ne, hnone, hlater]
        decide
      obtain ⟨k, rest, rfl, hk⟩ := topmost_drawAmong_some htop
      rw [if_pos hlater, htop, Option.some_or, ← later, htop]
      by_cases hit : graphic.hit (px + graphic.x) (py + graphic.y) mx my = true
      · obtain ⟨found, hfound⟩ := orItself_cons i
          (findAmong children 0 (px + graphic.x) (py + graphic.y) mx my)
        rw [if_pos hit, hfound]
        simp only [Option.some.injEq, List.cons.injEq, hit, not_true, false_and, iff_false, not_and]
        omega
      · rw [if_neg hit]
        simp [hit]
    · have hlater' : (wins.any fun w => shows w px py mx my) = false := by simpa using hlater
      rw [if_neg hlater, hnone.mpr hlater', Option.none_or]
      by_cases hit : graphic.hit (px + graphic.x) (py + graphic.y) mx my = true
      · have hshows : shows (.mk graphic children) px py mx my = true := hit_shows hit
        rw [if_pos hit, orItself_iff i hshows, below]
        simp [hit, hshows]
      · rw [if_neg hit, later.mpr (clear_of_none hlater'), hnone.mpr hlater', eq_comm,
          Option.map_eq_none_iff, topmost_eq_none]
        simp [hit, shows]
termination_by sizeOf wins

/-- The window found under the pointer is the one that is drawn on top there, where the condition
holds. -/
theorem pointer_target_topmost (desktop : List Window) (mx my : Int32) :
    clicked desktop mx my = topmost (drawLayout desktop) mx my ↔ Clear desktop 0 0 mx my := by
  rw [clicked_eq]
  exact findAmong_iff desktop 0 0 0 mx my

/-- Where two windows overlap, the one below is taken. -/
theorem lower_window_taken :
    let desktop := [Window.mk ⟨0, 0, 4, 4⟩ [], Window.mk ⟨1, 1, 4, 4⟩ []]
    clicked desktop 3 3 = some [0] ∧ topmost (drawLayout desktop) 3 3 = some [1] := by
  decide +kernel

end Mos.Gui

import Mathlib

namespace Mos.Gui

structure Graphic where
  x : Int32
  y : Int32
  width : UInt16
  height : UInt16
  deriving DecidableEq, Repr

/-- A window with its children in the order of the list. The window server and the program
that has created the windows each keep such a tree. -/
inductive Window where
  | mk (graphic : Graphic) (children : List Window)

def Window.graphic : Window → Graphic
  | .mk graphic _ => graphic

/-- How a window is reached from the desktop: which of the siblings, from the top down. -/
abbrev Way := List Nat

/-- The comparison that both searches make for a window at `x` and `y` of the screen. -/
def Graphic.hit (g : Graphic) (x y mx my : Int32) : Bool :=
  x < mx && mx < x + Int32.ofNat g.width.toNat && y < my && my < y + Int32.ofNat g.height.toNat

/-- `get_window_from_mouse_position`, with the number of the first window of the list. -/
def getWindowFromMousePosition : List Window → Nat → Int32 → Int32 → Option (Nat × Window)
  | [], _, _, _ => none
  | win :: wins, i, px, py =>
    if win.graphic.hit win.graphic.x win.graphic.y px py then some (i, win)
    else getWindowFromMousePosition wins (i + 1) px py

def orItself (i : Nat) : Option Way → Way
  | some way => i :: way
  | none => [i]

mutual

def findChildElementFromPosition : Window → Int32 → Int32 → Int32 → Int32 → Option Way
  | .mk _ children, px, py, mx, my => findAmong children 0 px py mx my

def findAmong : List Window → Nat → Int32 → Int32 → Int32 → Int32 → Option Way
  | [], _, _, _, _, _ => none
  | win :: wins, i, px, py, mx, my =>
    let cx := px + win.graphic.x
    let cy := py + win.graphic.y
    if win.graphic.hit cx cy mx my then
      some (orItself i (findChildElementFromPosition win cx cy mx my))
    else findAmong wins (i + 1) px py mx my

end

/-- The window that a click is for: the server chooses a top level window, and the event loop
of its program one of the elements in it. -/
def clicked (desktop : List Window) (mx my : Int32) : Option Way :=
  match getWindowFromMousePosition desktop 0 mx my with
  | none => none
  | some (i, win) =>
    some (orItself i (findChildElementFromPosition win win.graphic.x win.graphic.y mx my))

structure Painted where
  way : Way
  x : Int32
  y : Int32
  width : UInt16
  height : UInt16
  deriving DecidableEq, Repr

namespace Painted

/-- The pixels that `draw_graphic` writes: in each of the rows `y + i`, the columns from `x` on. -/
def pixels (p : Painted) : List (Int32 × Int32) :=
  (List.range p.height.toNat).flatMap fun i =>
    (List.range p.width.toNat).map fun j => (p.x + Int32.ofNat j, p.y + Int32.ofNat i)

def contains (p : Painted) (mx my : Int32) : Bool := decide ((mx, my) ∈ p.pixels)

def under (i : Nat) (p : Painted) : Painted := { p with way := i :: p.way }

end Painted

mutual

def drawWindow : Window → Int32 → Int32 → List Painted
  | .mk graphic children, px, py =>
    let ax := px + graphic.x
    let ay := py + graphic.y
    { way := [], x := ax, y := ay, width := graphic.width, height := graphic.height } ::
      drawAmong children 0 ax ay

/-- The loop of `draw_window` over the children; `draw_layout` has the same over the windows of
the desktop. -/
def drawAmong : List Window → Nat → Int32 → Int32 → List Painted
  | [], _, _, _ => []
  | win :: wins, i, px, py =>
    (drawWindow win px py).map (Painted.under i) ++ drawAmong wins (i + 1) px py

end

def drawLayout (desktop : List Window) : List Painted := drawAmong desktop 0 0 0

/-- The last window in the order of painting that has the pixel in its rectangle. -/
def topmost (painted : List Painted) (mx my : Int32) : Option Way :=
  (painted.filter fun p => p.contains mx my).getLast?.map Painted.way

end Mos.Gui

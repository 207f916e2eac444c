import Mathlib.Data.Nat.Notation
import Mathlib.Tactic.Common

/-!
# Widgets

`window.cpp` and `desktop.cpp`, with what `widget.cpp` has for them: windows in windows in a
desktop, which pass the events of the mouse on to the first child that contains the pointer.
-/

namespace GtuOs

/-- A window, its place relative to that of its parent. -/
structure Window where
  x : Int32
  y : Int32
  w : Int32
  h : Int32
  r : UInt8
  g : UInt8
  b : UInt8
  dragging : Bool
  children : List Window

namespace Window

/-- `ContainsCoordinate`. -/
def containsCoordinate (win : Window) (x y : Int32) : Bool :=
  win.x ≤ x && x < win.x + win.w && win.y ≤ y && y < win.y + win.h

/-- The first child that contains a point. -/
def firstAt (children : List Window) (x y : Int32) : Option ℕ :=
  children.findIdx? fun c => c.containsCoordinate x y

mutual

/-- `OnMouseDown`. -/
def onMouseDown : Window → Int32 → Int32 → UInt8 → Window
  | ⟨x₀, y₀, w, h, r, g, b, _, children⟩, x, y, button =>
    ⟨x₀, y₀, w, h, r, g, b, button == 1, childrenOnMouseDown children (x - x₀) (y - y₀) button⟩

/-- The loop of `CompositeWidget::OnMouseDown`. -/
def childrenOnMouseDown : List Window → Int32 → Int32 → UInt8 → List Window
  | [], _, _, _ => []
  | c :: cs, x, y, button =>
    if c.containsCoordinate x y then c.onMouseDown x y button :: cs
    else c :: childrenOnMouseDown cs x y button

end

mutual

/-- `OnMouseUp`. -/
def onMouseUp : Window → Int32 → Int32 → UInt8 → Window
  | ⟨x₀, y₀, w, h, r, g, b, _, children⟩, x, y, button =>
    ⟨x₀, y₀, w, h, r, g, b, false, childrenOnMouseUp children (x - x₀) (y - y₀) button⟩

/-- The loop of `CompositeWidget::OnMouseUp`. -/
def childrenOnMouseUp : List Window → Int32 → Int32 → UInt8 → List Window
  | [], _, _, _ => []
  | c :: cs, x, y, button =>
    if c.containsCoordinate x y then c.onMouseUp x y button :: cs
    else c :: childrenOnMouseUp cs x y button

end

/-- The child `i` is replaced by what it becomes when it gets the event. -/
def deliver (children moved : List Window) (i : ℕ) : List Window :=
  match moved[i]? with
  | some c => children.set i c
  | none => children

/-- The loops of `CompositeWidget::OnMouseMove`, where `moved` are the children as each of
    them becomes when it gets the event. -/
def childrenOnMouseMove (children moved : List Window) (oldx oldy newx newy : Int32) : List Window :=
  let firstchild := firstAt children oldx oldy
  let children := firstchild.elim children (deliver children moved)
  let i := firstAt children newx newy
  if firstchild ≠ i then i.elim children (deliver children moved) else children

mutual

/-- `OnMouseMove`. -/
def onMouseMove : Window → Int32 → Int32 → Int32 → Int32 → Window
  | ⟨x₀, y₀, w, h, r, g, b, dragging, children⟩, oldx, oldy, newx, newy =>
    let x := if dragging then x₀ + (newx - oldx) else x₀
    let y := if dragging then y₀ + (newy - oldy) else y₀
    let moved := moveAll children (oldx - x) (oldy - y) (newx - x) (newy - y)
    ⟨x, y, w, h, r, g, b, dragging,
      childrenOnMouseMove children moved (oldx - x) (oldy - y) (newx - x) (newy - y)⟩

/-- Windows that all get the event. -/
def moveAll : List Window → Int32 → Int32 → Int32 → Int32 → List Window
  | [], _, _, _, _ => []
  | c :: cs, oldx, oldy, newx, newy =>
    c.onMouseMove oldx oldy newx newy :: moveAll cs oldx oldy newx newy

end

end Window

/-- The desktop, at the origin of the screen, with the pointer. -/
structure Desktop where
  w : Int32
  h : Int32
  r : UInt8
  g : UInt8
  b : UInt8
  mouseX : UInt32
  mouseY : UInt32
  children : List Window

namespace Desktop

/-- The constructor, and calls of `AddChild`. -/
def construct (w h : Int32) (r g b : UInt8) (children : List Window) : Desktop :=
  ⟨w, h, r, g, b, (w / 2).toUInt32, (h / 2).toUInt32, children⟩

/-- `OnMouseDown`. -/
def onMouseDown (d : Desktop) (button : UInt8) : Desktop :=
  { d with children := Window.childrenOnMouseDown d.children d.mouseX.toInt32 d.mouseY.toInt32 button }

/-- `OnMouseUp`. -/
def onMouseUp (d : Desktop) (button : UInt8) : Desktop :=
  { d with children := Window.childrenOnMouseUp d.children d.mouseX.toInt32 d.mouseY.toInt32 button }

/-- A coordinate of the pointer after a movement, kept in the desktop. -/
def moved (mouse : UInt32) (d size : Int32) : Int32 :=
  let new := (mouse + (d / 4).toUInt32).toInt32
  let new := if new < 0 then 0 else new
  if new ≥ size then size - 1 else new

/-- `OnMouseMove`. -/
def onMouseMove (d : Desktop) (x y : Int32) : Desktop :=
  let newMouseX := moved d.mouseX x d.w
  let newMouseY := moved d.mouseY y d.h
  let all := Window.moveAll d.children d.mouseX.toInt32 d.mouseY.toInt32 newMouseX newMouseY
  { d with
    children := Window.childrenOnMouseMove d.children all d.mouseX.toInt32 d.mouseY.toInt32 newMouseX newMouseY
    mouseX := newMouseX.toUInt32
    mouseY := newMouseY.toUInt32 }

end Desktop

end GtuOs

import GtuOs.Drivers.Vga
import GtuOs.Gui.Widget
import Mathlib.Tactic.IntervalCases

/-!
# Drawing

What a desktop draws, from `widget.cpp` and `desktop.cpp`. Windows are drawn from the last
to the first, so that each pixel has the colour of the first one that covers it, which is the
one that gets the clicks there. This fails for windows partly beyond the left or the upper
edge of the screen, of which nothing is drawn (`drawnAsClicked_iff`).
-/

namespace GtuOs

open Screen (getColorIndex)

namespace Window

mutual

/-- `Draw`, with the place of the parent on the screen. -/
def draw : Window → Screen → Int32 → Int32 → Screen
  | ⟨x, y, w, h, r, g, b, _, children⟩, s, x₀, y₀ =>
    drawChildren children
      (s.fillRectangle (x₀ + x).toUInt32 (y₀ + y).toUInt32 w.toUInt32 h.toUInt32 r g b) (x₀ + x) (y₀ + y)

/-- The loop of `CompositeWidget::Draw`, from the last child to the first. -/
def drawChildren : List Window → Screen → Int32 → Int32 → Screen
  | [], s, _, _ => s
  | c :: cs, s, x₀, y₀ => c.draw (drawChildren cs s x₀ y₀) x₀ y₀

end

/-- A window without children, of no negative size, whose edges are no larger than an `int`. -/
structure Plain (win : Window) : Prop where
  children : win.children = []
  w : 0 ≤ win.w
  h : 0 ≤ win.h
  right : win.x.toInt + win.w.toInt < 2 ^ 31
  bottom : win.y.toInt + win.h.toInt < 2 ^ 31

/-- The first of the windows that contains a pixel. -/
def at? (windows : List Window) (px py : ℕ) : Option Window :=
  windows.find? fun win => win.containsCoordinate (.ofNat px) (.ofNat py)

/-- Neither left of nor above the corner of the screen. -/
def startsOnScreen (win : Window) : Bool := 0 ≤ win.x && 0 ≤ win.y

end Window

namespace Desktop

/-- The pixels of the cross that are `i` away from the pointer. -/
def drawArms (d : Desktop) (s : Screen) (i : ℕ) : Screen :=
  let s := s.putPixel (d.mouseX - .ofNat i).toInt32 d.mouseY.toInt32 0xFF 0xFF 0xFF
  let s := s.putPixel (d.mouseX + .ofNat i).toInt32 d.mouseY.toInt32 0xFF 0xFF 0xFF
  let s := s.putPixel d.mouseX.toInt32 (d.mouseY - .ofNat i).toInt32 0xFF 0xFF 0xFF
  s.putPixel d.mouseX.toInt32 (d.mouseY + .ofNat i).toInt32 0xFF 0xFF 0xFF

/-- `Draw`. -/
def draw (d : Desktop) (s : Screen) : Screen :=
  (List.range 4).foldl d.drawArms (Window.drawChildren d.children
    (s.fillRectangle 0 0 d.w.toUInt32 d.h.toUInt32 d.r d.g d.b) 0 0)

/-- A pixel `i` away from the pointer, to the left or right of it or above or below. -/
def OnArm (d : Desktop) (px py i : ℕ) : Prop :=
  ((d.mouseX - .ofNat i).toNat = px ∨ (d.mouseX + .ofNat i).toNat = px) ∧ d.mouseY.toNat = py ∨
    d.mouseX.toNat = px ∧ ((d.mouseY - .ofNat i).toNat = py ∨ (d.mouseY + .ofNat i).toNat = py)

/-- A pixel of the cross at the pointer. -/
def UnderPointer (d : Desktop) (px py : ℕ) : Prop := ∃ i < 4, d.OnArm px py i

/-- The colour of a window, or that of the desktop. -/
def colorOf (d : Desktop) : Option Window → UInt8
  | some win => getColorIndex win.r win.g win.b
  | none => getColorIndex d.r d.g d.b

/-- Each pixel has the colour of the window that gets a click there. -/
structure DrawnAsClicked (d : Desktop) : Prop where
  drawn : ∀ s : Screen, ∀ px < 320, ∀ py < 200, ¬d.UnderPointer px py →
    (d.draw s).pixel px py = d.colorOf (Window.at? d.children px py)
  clicked : ∀ px < 320, ∀ py < 200, ∀ button,
    Window.childrenOnMouseDown d.children (.ofNat px) (.ofNat py) button =
      (Window.firstAt d.children (.ofNat px) (.ofNat py)).elim d.children fun i =>
        d.children.modify i (·.onMouseDown (.ofNat px) (.ofNat py) button)
  first : ∀ px py, Window.at? d.children px py =
    (Window.firstAt d.children (.ofNat px) (.ofNat py)).bind (d.children[·]?)

end Desktop

variable {win : Window} {children : List Window} {d : Desktop} {s : Screen} {x y w : Int32}
  {px py size : ℕ} {button : UInt8}

namespace Window

/-! ## Clicks -/

/-- The first window that contains the point gets the click. -/
theorem childrenOnMouseDown_eq : childrenOnMouseDown children x y button =
    (firstAt children x y).elim children fun i => children.modify i (·.onMouseDown x y button) := by
  induction children with
  | nil => rfl
  | cons c cs ih =>
    rw [childrenOnMouseDown, firstAt, List.findIdx?_cons]
    by_cases hc : c.containsCoordinate x y = true
    · rw [if_pos hc, if_pos hc]
      rfl
    · rw [if_neg hc, if_neg hc, ih, firstAt]
      cases List.findIdx? (fun c => c.containsCoordinate x y) cs with
      | none => rfl
      | some i => rfl

/-! ## Rectangles -/

/-- Of a range of coordinates, what is drawn is what is contained, if it starts on the screen. -/
theorem drawn_iff (hw : 0 ≤ w) (hend : x.toInt + w.toInt < 2 ^ 31) (hpx : px < size) (hsize : size < 2 ^ 31) :
    x.toUInt32.toNat ≤ px ∧ px < (x.toUInt32 + w.toUInt32).toNat ↔
      0 ≤ x ∧ x ≤ .ofNat px ∧ Int32.ofNat px < x + w := by
  have hx := Screen.toInt_eq (X := x)
  have hw' := Screen.toInt_eq (X := w)
  have hlt := x.toUInt32.toNat_lt
  have hltw := w.toUInt32.toNat_lt
  have hp : (Int32.ofNat px).toInt = px := Int32.toInt_ofNat_of_lt (by omega)
  rw [Int32.le_iff_toInt_le, Int32.toInt_zero] at hw
  have hle := x.le_toInt
  have hsum : (x + w).toInt = x.toInt + w.toInt := by
    rw [Int32.toInt_add, Int.bmod_eq_of_le (by omega) (by omega)]
  rw [Int32.le_iff_toInt_le, Int32.le_iff_toInt_le, Int32.lt_iff_toInt_lt, Int32.toInt_zero, hp, hsum,
    UInt32.toNat_add]
  split_ifs at hx hw' <;> omega

/-- A window that starts on the screen is drawn on the pixels that it contains. -/
theorem Plain.pixel_draw (h : win.Plain) (hx : px < 320) (hy : py < 200) : (win.draw s 0 0).pixel px py =
    if (win.startsOnScreen && win.containsCoordinate (.ofNat px) (.ofNat py)) = true then
      getColorIndex win.r win.g win.b
    else s.pixel px py := by
  obtain ⟨x, y, w, hh, r, g, b, dragging, children⟩ := win
  obtain ⟨rfl, hw, hhh, hright, hbottom⟩ := h
  rw [draw, drawChildren, Screen.pixel_fillRectangle hx hy, Int32.zero_add, Int32.zero_add]
  have hxs := drawn_iff hw hright hx (by omega)
  have hys := drawn_iff hhh hbottom hy (by omega)
  have hiff : (x.toUInt32.toNat ≤ px ∧ px < (x.toUInt32 + w.toUInt32).toNat ∧ y.toUInt32.toNat ≤ py ∧
      py < (y.toUInt32 + hh.toUInt32).toNat) ↔ (startsOnScreen ⟨x, y, w, hh, r, g, b, dragging, []⟩ &&
        containsCoordinate ⟨x, y, w, hh, r, g, b, dragging, []⟩ (.ofNat px) (.ofNat py)) = true := by
    simp only [startsOnScreen, containsCoordinate, Bool.and_eq_true, decide_eq_true_iff]
    tauto
  simp only [hiff]

/-- Of several windows, the first one that starts on the screen and contains a pixel is seen. -/
theorem pixel_drawChildren (hplain : ∀ win ∈ children, win.Plain) (hx : px < 320) (hy : py < 200) :
    (drawChildren children s 0 0).pixel px py =
      (at? (children.filter startsOnScreen) px py).elim (s.pixel px py)
        fun win => getColorIndex win.r win.g win.b := by
  induction children with
  | nil => rfl
  | cons c cs ih =>
    have hc := hplain c List.mem_cons_self
    have hcs : ∀ win ∈ cs, win.Plain := fun win hwin => hplain win (List.mem_cons_of_mem c hwin)
    rw [drawChildren, hc.pixel_draw hx hy, ih hcs]
    by_cases hstarts : c.startsOnScreen = true
    · rw [List.filter_cons_of_pos hstarts, hstarts, Bool.true_and, at?, at?, List.find?_cons]
      cases c.containsCoordinate (.ofNat px) (.ofNat py) with
      | true => rfl
      | false => rfl
    · rw [List.filter_cons_of_neg hstarts, Bool.eq_false_iff.2 hstarts, Bool.false_and,
        if_neg Bool.false_ne_true]

end Window

namespace Desktop

/-! ## The screen -/

theorem pixel_drawArms {i : ℕ} (hx : px < 320) (hy : py < 200) (hnot : ¬d.OnArm px py i) :
    (d.drawArms s i).pixel px py = s.pixel px py := by
  rw [OnArm] at hnot
  simp only [drawArms, Screen.pixel_putPixel hx hy, UInt32.toUInt32_toInt32]
  rw [if_neg (by tauto), if_neg (by tauto), if_neg (by tauto), if_neg (by tauto)]

/-- The cross is seen at the pointer only. -/
theorem pixel_foldl_drawArms {is : List ℕ} (hx : px < 320) (hy : py < 200)
    (hnot : ∀ i ∈ is, ¬d.OnArm px py i) : (is.foldl d.drawArms s).pixel px py = s.pixel px py := by
  induction is generalizing s with
  | nil => rfl
  | cons i is ih =>
    have his : ∀ j ∈ is, ¬d.OnArm px py j := fun j hj => hnot j (List.mem_cons_of_mem i hj)
    rw [List.foldl_cons, ih his, pixel_drawArms hx hy (hnot i List.mem_cons_self)]

/-- A pixel has the colour of the first window that contains it, of those that start on the
    screen. -/
theorem pixel_draw (hw : d.w = 320) (hh : d.h = 200) (hplain : ∀ win ∈ d.children, win.Plain)
    (hx : px < 320) (hy : py < 200) (hunder : ¬d.UnderPointer px py) :
    (d.draw s).pixel px py = d.colorOf (Window.at? (d.children.filter Window.startsOnScreen) px py) := by
  have hnot : ∀ i ∈ List.range 4, ¬d.OnArm px py i := fun i hi h => hunder ⟨i, List.mem_range.1 hi, h⟩
  have hdesktop : (0 : UInt32).toNat ≤ px ∧ px < (0 + d.w.toUInt32).toNat ∧ (0 : UInt32).toNat ≤ py ∧
      py < (0 + d.h.toUInt32).toNat := by
    rw [hw, hh]
    exact ⟨Nat.zero_le px, hx, Nat.zero_le py, hy⟩
  rw [draw, pixel_foldl_drawArms hx hy hnot, Window.pixel_drawChildren hplain hx hy,
    Screen.pixel_fillRectangle hx hy, if_pos hdesktop]
  cases Window.at? (d.children.filter Window.startsOnScreen) px py with
  | none => rfl
  | some win => rfl

/-- A desktop is drawn as it is clicked exactly if, where a window partly left of or above the
    screen gets the clicks, the colour behind it is its own. -/
theorem drawnAsClicked_iff (hw : d.w = 320) (hh : d.h = 200) (hplain : ∀ win ∈ d.children, win.Plain) :
    d.DrawnAsClicked ↔ ∀ px < 320, ∀ py < 200, ¬d.UnderPointer px py →
      d.colorOf (Window.at? (d.children.filter Window.startsOnScreen) px py) =
        d.colorOf (Window.at? d.children px py) := by
  constructor
  · intro h px hx py hy hunder
    have hdrawn := h.drawn (fun _ => 0) px hx py hy hunder
    rwa [pixel_draw hw hh hplain hx hy hunder] at hdrawn
  · intro h
    refine ⟨fun s px hx py hy hunder => ?_, fun px _ py _ button => Window.childrenOnMouseDown_eq,
      fun px py => List.find?_eq_bind_findIdx?_getElem?⟩
    rw [pixel_draw hw hh hplain hx hy hunder]
    exact h px hx py hy hunder

/-- A window `20` wide and high, with its left edge at `x`. -/
def oneWindow (x : Int32) : Desktop := .construct 320 200 0 0 0xA8 [⟨x, 10, 20, 20, 0xA8, 0, 0, false, []⟩]

theorem plain_oneWindow (x : Int32) (hx : x.toInt < 2 ^ 16) : ∀ win ∈ (oneWindow x).children, win.Plain := by
  intro win hwin
  obtain rfl := List.mem_singleton.1 hwin
  have hsize : (0 : Int32) ≤ 20 := by decide
  have h20 : (20 : Int32).toInt = 20 := rfl
  have h10 : (10 : Int32).toInt = 10 := rfl
  exact ⟨rfl, hsize, hsize, by simp only [h20]; omega, by simp only [h20, h10]; omega⟩

/-- A window within the screen. -/
theorem drawnAsClicked_iff_oneWindow : (oneWindow 5).DrawnAsClicked := by
  have hall : (oneWindow 5).children.filter Window.startsOnScreen = (oneWindow 5).children := rfl
  refine (drawnAsClicked_iff rfl rfl (plain_oneWindow 5 (by decide))).2 fun px _ py _ _ => ?_
  rw [hall]

/-- A window that is `5` pixels beyond the left edge is not drawn, but is clicked. -/
theorem not_drawnAsClicked_oneWindow : ¬(oneWindow (-5)).DrawnAsClicked := by
  intro h
  have hunder : ¬(oneWindow (-5)).UnderPointer 0 10 := by
    rintro ⟨i, hi, harm⟩
    rw [OnArm] at harm
    interval_cases i <;> revert harm <;> decide
  have hdrawn := h.drawn (fun _ => 0) 0 (by decide) 10 (by decide) hunder
  rw [pixel_draw rfl rfl (plain_oneWindow (-5) (by decide)) (by decide) (by decide) hunder] at hdrawn
  revert hdrawn
  decide

end Desktop

end GtuOs

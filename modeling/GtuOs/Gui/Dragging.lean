import GtuOs.Drivers.Mouse
import GtuOs.Gui.Widget
import GtuOs.Lib.System

/-!
# Dragging

Runs of a desktop, with the presses and releases of each button in turn. A window should
stay where it is from the release of all buttons to the next press of button 1. It does if
the last release always reaches the windows that are being dragged (`stays_of_releases`):
it is delivered to the windows under the pointer, of which a window moved under another
one is not.
-/

namespace GtuOs

namespace Window

/-! ## Windows that are not dragged -/

mutual

/-- Neither the window nor one in it is being dragged. -/
def Still : Window → Prop
  | ⟨_, _, _, _, _, _, _, dragging, children⟩ => dragging = false ∧ AllStill children

def AllStill : List Window → Prop
  | [] => True
  | c :: cs => c.Still ∧ AllStill cs

end

mutual

/-- The windows being dragged in this one are among those that an event at a point reaches. -/
def Reached : Window → Int32 → Int32 → Prop
  | ⟨x₀, y₀, _, _, _, _, _, _, children⟩, x, y => ChildrenReached children (x - x₀) (y - y₀)

def ChildrenReached : List Window → Int32 → Int32 → Prop
  | [], _, _ => True
  | c :: cs, x, y =>
    if c.containsCoordinate x y then c.Reached x y ∧ AllStill cs
    else c.Still ∧ ChildrenReached cs x y

end

mutual

/-- The places of a window and of those in it. -/
def places : Window → List (Int32 × Int32)
  | ⟨x, y, _, _, _, _, _, _, children⟩ => (x, y) :: allPlaces children

def allPlaces : List Window → List (Int32 × Int32)
  | [] => []
  | c :: cs => c.places ++ allPlaces cs

end

variable {c : Window} {children moved : List Window} {x y oldx oldy newx newy : Int32}
  {button : UInt8} {i : ℕ}

/-! ## Presses -/

mutual

theorem places_onMouseDown (c : Window) (x y : Int32) : (c.onMouseDown x y button).places = c.places := by
  obtain ⟨x₀, y₀, w, h, r, g, b, dragging, children⟩ := c
  rw [onMouseDown, places, places, places_childrenOnMouseDown children]

theorem places_childrenOnMouseDown (children : List Window) (x y : Int32) :
    allPlaces (childrenOnMouseDown children x y button) = allPlaces children := by
  match children with
  | [] => rfl
  | c :: cs =>
    rw [childrenOnMouseDown]
    split_ifs
    · rw [allPlaces, allPlaces, places_onMouseDown c]
    · rw [allPlaces, allPlaces, places_childrenOnMouseDown cs]

end

mutual

/-- Only button 1 starts to drag. -/
theorem still_onMouseDown (hb : button ≠ 1) (c : Window) (x y : Int32) (h : c.Still) :
    (c.onMouseDown x y button).Still := by
  obtain ⟨x₀, y₀, w, hh, r, g, b, dragging, children⟩ := c
  rw [onMouseDown, Still]
  exact ⟨by simpa using hb, still_childrenOnMouseDown hb children _ _ h.2⟩

theorem still_childrenOnMouseDown (hb : button ≠ 1) (children : List Window) (x y : Int32)
    (h : AllStill children) : AllStill (childrenOnMouseDown children x y button) := by
  match children with
  | [] => trivial
  | c :: cs =>
    rw [childrenOnMouseDown]
    split_ifs
    · exact ⟨still_onMouseDown hb c x y h.1, h.2⟩
    · exact ⟨h.1, still_childrenOnMouseDown hb cs x y h.2⟩

end

/-! ## Releases -/

mutual

theorem places_onMouseUp (c : Window) (x y : Int32) : (c.onMouseUp x y button).places = c.places := by
  obtain ⟨x₀, y₀, w, h, r, g, b, dragging, children⟩ := c
  rw [onMouseUp, places, places, places_childrenOnMouseUp children]

theorem places_childrenOnMouseUp (children : List Window) (x y : Int32) :
    allPlaces (childrenOnMouseUp children x y button) = allPlaces children := by
  match children with
  | [] => rfl
  | c :: cs =>
    rw [childrenOnMouseUp]
    split_ifs
    · rw [allPlaces, allPlaces, places_onMouseUp c]
    · rw [allPlaces, allPlaces, places_childrenOnMouseUp cs]

end

mutual

/-- A release stops the windows dragged exactly if it reaches them. -/
theorem still_onMouseUp_iff (c : Window) (x y : Int32) :
    (c.onMouseUp x y button).Still ↔ c.Reached x y := by
  obtain ⟨x₀, y₀, w, h, r, g, b, dragging, children⟩ := c
  rw [onMouseUp, Still, Reached, still_childrenOnMouseUp_iff children]
  simp

theorem still_childrenOnMouseUp_iff (children : List Window) (x y : Int32) :
    AllStill (childrenOnMouseUp children x y button) ↔ ChildrenReached children x y := by
  match children with
  | [] => exact Iff.rfl
  | c :: cs =>
    rw [childrenOnMouseUp, ChildrenReached]
    split_ifs
    · rw [AllStill, still_onMouseUp_iff c]
    · rw [AllStill, still_childrenOnMouseUp_iff cs]

end

mutual

theorem Still.reached (c : Window) (x y : Int32) (h : c.Still) : c.Reached x y := by
  obtain ⟨x₀, y₀, w, hh, r, g, b, dragging, children⟩ := c
  exact AllStill.reached children _ _ h.2

theorem AllStill.reached (children : List Window) (x y : Int32) (h : AllStill children) :
    ChildrenReached children x y := by
  match children with
  | [] => trivial
  | c :: cs =>
    rw [ChildrenReached]
    split_ifs
    · exact ⟨Still.reached c x y h.1, h.2⟩
    · exact ⟨h.1, AllStill.reached cs x y h.2⟩

end

/-! ## Movements -/

/-- Delivering an event that changes nothing. -/
theorem deliver_self : deliver children children i = children := by
  rw [deliver]
  cases h : children[i]? with
  | none => rfl
  | some c =>
    obtain ⟨hi, rfl⟩ := List.getElem?_eq_some_iff.1 h
    exact List.set_getElem_self hi

theorem childrenOnMouseMove_self :
    childrenOnMouseMove children children oldx oldy newx newy = children := by
  have helim : ∀ i : Option ℕ, i.elim children (deliver children children) = children := fun i => by
    cases i with
    | none => rfl
    | some i => exact deliver_self
  rw [childrenOnMouseMove]
  simp only [helim, ite_self]

mutual

/-- Windows that are not dragged do not move. -/
theorem Still.onMouseMove (c : Window) (oldx oldy newx newy : Int32) (h : c.Still) :
    c.onMouseMove oldx oldy newx newy = c := by
  obtain ⟨x₀, y₀, w, hh, r, g, b, dragging, children⟩ := c
  obtain ⟨rfl, hchildren⟩ := h
  simp only [Window.onMouseMove, Bool.false_eq_true, if_false]
  rw [AllStill.moveAll children _ _ _ _ hchildren, childrenOnMouseMove_self]

theorem AllStill.moveAll (children : List Window) (oldx oldy newx newy : Int32) (h : AllStill children) :
    Window.moveAll children oldx oldy newx newy = children := by
  match children with
  | [] => rfl
  | c :: cs =>
    rw [Window.moveAll, Still.onMouseMove c _ _ _ _ h.1, AllStill.moveAll cs _ _ _ _ h.2]

end

end Window

/-! ## Sessions -/

/-- The desktop after an event. -/
def Desktop.handle (d : Desktop) : MouseEvent → Desktop
  | .move x y => d.onMouseMove x y
  | .down button => d.onMouseDown button
  | .up button => d.onMouseUp button

/-- A desktop, with the buttons that are held down, and whether all have been released, and
    button 1 has not been pressed since. -/
structure Session where
  desktop : Desktop
  held : List UInt8
  released : Bool

namespace Session

/-- Presses and releases of a button alternate. -/
def Alternates (s : Session) : MouseEvent → Prop
  | .move _ _ => True
  | .down button => button ∉ s.held
  | .up button => button ∈ s.held

instance (s : Session) : DecidablePred s.Alternates := fun e => by
  cases e <;> unfold Alternates <;> infer_instance

/-- The session after an event. -/
def next (s : Session) (e : MouseEvent) : Session where
  desktop := s.desktop.handle e
  held := match e with
    | .move _ _ => s.held
    | .down button => button :: s.held
    | .up button => s.held.erase button
  released := match e with
    | .move _ _ => s.released
    | .down button => s.released && button != 1
    | .up button => s.released || s.held.erase button == []

/-- The sessions on a desktop, from when its windows have been made. -/
def sessions : System Session MouseEvent where
  init s := Window.AllStill s.desktop.children ∧ s.held = [] ∧ s.released = true
  step s e s' := s.Alternates e ∧ s' = s.next e

/-- The places of all windows. -/
def places (s : Session) : List (Int32 × Int32) := Window.allPlaces s.desktop.children

/-- The release of the last button held reaches all windows that are being dragged. -/
def ReleasesAll (s : Session) : MouseEvent → Prop
  | .up button => s.held.erase button = [] →
    Window.ChildrenReached s.desktop.children s.desktop.mouseX.toInt32 s.desktop.mouseY.toInt32
  | _ => True

variable {s s' : Session} {e : MouseEvent}

/-- No window is dragged between the release of all buttons and the press of button 1. -/
theorem still_of_reachable (hr : (sessions.restrict ReleasesAll).Reachable s) (hreleased : s.released) :
    Window.AllStill s.desktop.children := by
  refine hr.invariant (P := fun s => s.released → Window.AllStill s.desktop.children)
    (fun s hinit _ => hinit.1) ?_ hreleased
  rintro s e _ - ih ⟨hok, -, rfl⟩ hreleased
  cases e with
  | move x y =>
    have hstill := ih hreleased
    have hsame : (s.next (.move x y)).desktop.children = s.desktop.children := by
      change Window.childrenOnMouseMove _ _ _ _ _ _ = _
      rw [Window.AllStill.moveAll _ _ _ _ _ hstill, Window.childrenOnMouseMove_self]
    rw [hsame]
    exact hstill
  | down button =>
    obtain ⟨hreleased, hbutton⟩ := Bool.and_eq_true_iff.1 hreleased
    exact Window.still_childrenOnMouseDown (by simpa using hbutton) _ _ _ (ih hreleased)
  | up button =>
    refine (Window.still_childrenOnMouseUp_iff _ _ _).2 ?_
    rcases Bool.or_eq_true_iff.1 hreleased with hreleased | hlast
    · exact Window.AllStill.reached _ _ _ (ih hreleased)
    · exact hok (by simpa using hlast)

/-- Where the last release always reaches the windows dragged, windows stay where they are
    from the release of all buttons to the next press of button 1. -/
theorem stays_of_releases (hr : (sessions.restrict ReleasesAll).Reachable s) (hreleased : s.released)
    (hs : sessions.step s e s') : s'.places = s.places := by
  obtain ⟨-, rfl⟩ := hs
  have hstill := still_of_reachable hr hreleased
  cases e with
  | move x y =>
    change Window.allPlaces (Window.childrenOnMouseMove _ _ _ _ _ _) = _
    rw [Window.AllStill.moveAll _ _ _ _ _ hstill, Window.childrenOnMouseMove_self]
    rfl
  | down button => exact Window.places_childrenOnMouseDown _ _ _
  | up button => exact Window.places_childrenOnMouseUp _ _ _

/-! ## A window dragged under another one -/

/-- Two windows of a desktop, of which the first one is in front. -/
def twoWindows : Session where
  desktop := .construct 320 200 0 0 0xA8
    [⟨200, 90, 50, 50, 0xA8, 0, 0, false, []⟩, ⟨150, 90, 50, 50, 0, 0xA8, 0, false, []⟩]
  held := []
  released := true

/-- The second one is dragged under the first one, and the button released. -/
def draggedUnder : Session := [.down 1, .move 160 0, .up 1].foldl next twoWindows

theorem init_twoWindows : sessions.init twoWindows := ⟨⟨⟨rfl, trivial⟩, ⟨rfl, trivial⟩, trivial⟩, rfl, rfl⟩

/-- It still moves with the pointer. -/
theorem not_stays_draggedUnder : sessions.Reachable draggedUnder ∧ draggedUnder.released ∧
    ∃ s', sessions.step draggedUnder (.move (-20) 0) s' ∧ s'.places ≠ draggedUnder.places := by
  have hdown : sessions.Reachable (twoWindows.next (.down 1)) :=
    .step (i := .down 1) (.init init_twoWindows) ⟨by decide, rfl⟩
  have hmove : sessions.Reachable ((twoWindows.next (.down 1)).next (.move 160 0)) :=
    .step (i := .move 160 0) hdown ⟨trivial, rfl⟩
  have hup : sessions.Reachable draggedUnder := .step (i := .up 1) hmove ⟨by decide, rfl⟩
  exact ⟨hup, by decide, draggedUnder.next (.move (-20) 0), ⟨trivial, rfl⟩, by decide +kernel⟩

/-- A window is pressed and released where it is. -/
def clicked : Session := [.down 1, .up 1].foldl next twoWindows

theorem reachable_clicked : (sessions.restrict ReleasesAll).Reachable clicked := by
  have hdown : (sessions.restrict ReleasesAll).Reachable (twoWindows.next (.down 1)) :=
    .step (i := .down 1) (.init init_twoWindows) ⟨trivial, by decide, rfl⟩
  refine .step (i := .up 1) hdown ⟨fun _ => ?_, by decide, rfl⟩
  have hstill : Window.AllStill clicked.desktop.children := ⟨⟨rfl, trivial⟩, ⟨rfl, trivial⟩, trivial⟩
  exact (Window.still_childrenOnMouseUp_iff _ _ _).1 hstill

/-- It does not move afterwards. -/
theorem stays_of_releases_clicked : (clicked.next (.move 4 4)).places = clicked.places :=
  stays_of_releases (e := .move 4 4) reachable_clicked (by decide) ⟨trivial, rfl⟩

end Session

end GtuOs

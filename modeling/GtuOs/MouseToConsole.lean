import GtuOs.Drivers.Mouse
import Mathlib.Tactic.IntervalCases

/-!
# The mouse on the console

`MouseToConsole`, from `kernel.cpp`: the cell at the pointer has its colours swapped, and is
swapped back before the pointer moves. The position is an `int8_t`, to which an offset is added
before it is brought back to the screen, so that an offset that takes it beyond 127 moves
the pointer to the opposite edge (`tracks_iff`).
-/

namespace GtuOs

/-- The foreground and background colours of a cell are swapped. -/
def swapColours (cell : UInt16) : UInt16 :=
  (cell &&& 0x0F00) <<< 4 ||| (cell &&& 0xF000) >>> 4 ||| (cell &&& 0x00FF)

/-- The video memory after a swap of the colours of a cell. -/
def swapCell (videoMemory : ℤ → UInt16) (i : ℤ) : ℤ → UInt16 :=
  Function.update videoMemory i (swapColours (videoMemory i))

/-- The handler, with the video memory. -/
structure MouseToConsole where
  x : Int8
  y : Int8
  videoMemory : ℤ → UInt16

namespace MouseToConsole

/-- The index of the cell at the pointer. -/
def index (s : MouseToConsole) : ℤ := 80 * s.y.toInt + s.x.toInt

/-- The constructor. -/
def construct (videoMemory : ℤ → UInt16) : MouseToConsole := ⟨40, 12, swapCell videoMemory (80 * 12 + 40)⟩

/-- A coordinate after an offset. -/
def moved (x : Int8) (offset : Int32) (size : Int8) : Int8 :=
  let x := (x.toInt32 + offset).toInt8
  let x := if x ≥ size then size - 1 else x
  if x < 0 then 0 else x

/-- `OnMouseMove`. -/
def onMouseMove (s : MouseToConsole) (xoffset yoffset : Int32) : MouseToConsole :=
  let videoMemory := swapCell s.videoMemory s.index
  let x := moved s.x xoffset 80
  let y := moved s.y yoffset 25
  ⟨x, y, swapCell videoMemory (80 * y.toInt + x.toInt)⟩

/-- The handler after an event: buttons do nothing. -/
def handle (s : MouseToConsole) : MouseEvent → MouseToConsole
  | .move x y => s.onMouseMove x y
  | _ => s

/-- The handler after several calls of `OnMouseMove`. -/
def run (videoMemory : ℤ → UInt16) (calls : List (Int32 × Int32)) : MouseToConsole :=
  calls.foldl (fun s call => s.onMouseMove call.1 call.2) (construct videoMemory)

/-- The pointer is moved by the offset, within the screen, and the video memory is the initial
    one but for the cell at the pointer. -/
structure Tracks (s : MouseToConsole) (videoMemory : ℤ → UInt16) (xoffset yoffset : Int32) : Prop where
  x : (s.onMouseMove xoffset yoffset).x.toInt = max 0 (min 79 (s.x.toInt + xoffset.toInt))
  y : (s.onMouseMove xoffset yoffset).y.toInt = max 0 (min 24 (s.y.toInt + yoffset.toInt))
  swapped : (s.onMouseMove xoffset yoffset).videoMemory =
    swapCell videoMemory (s.onMouseMove xoffset yoffset).index

/-- The sums fit into an `int8_t`. -/
structure Fits (s : MouseToConsole) (xoffset yoffset : Int32) : Prop where
  x : s.x.toInt + xoffset.toInt ≤ 127
  y : s.y.toInt + yoffset.toInt ≤ 127

/-- The pointer is on the screen, at the only cell that is swapped. -/
structure Shown (videoMemory : ℤ → UInt16) (s : MouseToConsole) : Prop where
  nonneg_x : 0 ≤ s.x.toInt
  x_lt : s.x.toInt < 80
  nonneg_y : 0 ≤ s.y.toInt
  y_lt : s.y.toInt < 25
  swapped : s.videoMemory = swapCell videoMemory s.index

variable {s : MouseToConsole} {videoMemory : ℤ → UInt16} {cell : UInt16} {i : ℤ} {x : Int8}
  {offset xoffset yoffset : Int32} {calls : List (Int32 × Int32)}

/-! ## Swaps -/

theorem swapColours_swapColours : swapColours (swapColours cell) = cell := by
  apply UInt16.eq_of_toBitVec_eq
  apply BitVec.eq_of_getLsbD_eq
  intro i hi
  simp [swapColours]
  interval_cases i <;> simp

/-- A second swap of a cell undoes the first. -/
theorem swapCell_swapCell : swapCell (swapCell videoMemory i) i = videoMemory := by
  rw [swapCell, swapCell, Function.update_self, swapColours_swapColours, Function.update_idem,
    Function.update_eq_self]

/-! ## Positions -/

/-- A coordinate is brought back to the screen, but to its start if the sum does not fit into
    an `int8_t`. -/
theorem toInt_moved {n : Int8} (hx : 0 ≤ x.toInt) (hlt : x.toInt < n.toInt) (hoffset : -128 ≤ offset.toInt)
    (hle : offset.toInt ≤ 128) : (moved x offset n).toInt =
      if x.toInt + offset.toInt ≤ 127 then max 0 (min (n.toInt - 1) (x.toInt + offset.toInt)) else 0 := by
  have hn := n.toInt_lt
  have hone : (1 : Int8).toInt = 1 := rfl
  have hpred : (n - 1).toInt = n.toInt - 1 := by
    rw [Int8.toInt_sub, hone, Int.bmod_eq_of_le (by omega) (by omega)]
  have hsum : (x.toInt32 + offset).toInt8.toInt = (x.toInt + offset.toInt).bmod (2 ^ 8) := by
    rw [Int32.toInt_toInt8, Int32.toInt_add, Int8.toInt_toInt32,
      Int.bmod_eq_of_le (n := x.toInt + offset.toInt) (by omega) (by omega)]
  simp only [moved, ge_iff_le, Int8.le_iff_toInt_le, Int8.lt_iff_toInt_lt, Int8.toInt_zero]
  by_cases hfits : x.toInt + offset.toInt ≤ 127
  · rw [Int.bmod_eq_of_le (by omega) (by omega)] at hsum
    rw [if_pos hfits]
    split_ifs <;> simp only [hsum, hpred, Int8.toInt_zero] at * <;> omega
  · -- The sum wraps around to a negative number.
    have hwraps : (x.toInt32 + offset).toInt8.toInt < 0 := by
      rw [hsum, Int.bmod_def]
      omega
    rw [if_neg hfits]
    split_ifs
    · omega
    · omega
    · rfl

/-- The video memory is the initial one but for the cell at the pointer. -/
theorem Shown.swapped_onMouseMove (h : Shown videoMemory s) :
    (s.onMouseMove xoffset yoffset).videoMemory =
      swapCell videoMemory (s.onMouseMove xoffset yoffset).index := by
  change swapCell (swapCell s.videoMemory s.index) _ = _
  rw [h.swapped, swapCell_swapCell]
  rfl

theorem shown_construct : Shown videoMemory (construct videoMemory) := by
  have hx : (construct videoMemory).x.toInt = 40 := rfl
  have hy : (construct videoMemory).y.toInt = 12 := rfl
  exact ⟨by omega, by omega, by omega, by omega, rfl⟩

/-- The pointer stays on the screen, and its cell is the only one that is swapped. -/
theorem Shown.onMouseMove (h : Shown videoMemory s) (hoffset : IsOffset xoffset yoffset) :
    Shown videoMemory (s.onMouseMove xoffset yoffset) := by
  obtain ⟨hx, hx', hy, hy'⟩ := hoffset
  have h80 : (80 : Int8).toInt = 80 := rfl
  have h25 : (25 : Int8).toInt = 25 := rfl
  have hx := toInt_moved (n := 80) h.nonneg_x h.x_lt hx (by omega)
  have hy := toInt_moved (n := 25) h.nonneg_y h.y_lt (by omega) hy'
  rw [h80] at hx
  rw [h25] at hy
  change (s.onMouseMove xoffset yoffset).x.toInt = _ at hx
  change (s.onMouseMove xoffset yoffset).y.toInt = _ at hy
  refine ⟨?_, ?_, ?_, ?_, h.swapped_onMouseMove⟩
  · rw [hx]
    split_ifs <;> omega
  · rw [hx]
    split_ifs <;> omega
  · rw [hy]
    split_ifs <;> omega
  · rw [hy]
    split_ifs <;> omega

/-- The pointer is moved by the offset, within the screen, exactly if the sums fit. -/
theorem Shown.tracks_iff_fits (h : Shown videoMemory s) (hoffset : IsOffset xoffset yoffset) :
    s.Tracks videoMemory xoffset yoffset ↔ s.Fits xoffset yoffset := by
  obtain ⟨hx, hx', hy, hy'⟩ := hoffset
  have h80 : (80 : Int8).toInt = 80 := rfl
  have h25 : (25 : Int8).toInt = 25 := rfl
  have hx := toInt_moved (n := 80) h.nonneg_x h.x_lt hx (by omega)
  have hy := toInt_moved (n := 25) h.nonneg_y h.y_lt (by omega) hy'
  rw [h80] at hx
  rw [h25] at hy
  change (s.onMouseMove xoffset yoffset).x.toInt = _ at hx
  change (s.onMouseMove xoffset yoffset).y.toInt = _ at hy
  constructor
  · rintro ⟨htx, hty, -⟩
    rw [hx] at htx
    rw [hy] at hty
    constructor
    · by_contra hwraps
      rw [if_neg hwraps] at htx
      omega
    · by_contra hwraps
      rw [if_neg hwraps] at hty
      omega
  · rintro ⟨hfx, hfy⟩
    rw [if_pos hfx] at hx
    rw [if_pos hfy] at hy
    exact ⟨hx, hy, h.swapped_onMouseMove⟩

/-! ## Runs -/

/-- In runs of any length, the pointer is on the screen, at the only cell that is swapped. -/
theorem Shown.foldl (h : Shown videoMemory s) (hcalls : ∀ call ∈ calls, IsOffset call.1 call.2) :
    Shown videoMemory (calls.foldl (fun s call => s.onMouseMove call.1 call.2) s) := by
  induction calls generalizing s with
  | nil => exact h
  | cons call calls ih =>
    have hcall := hcalls call List.mem_cons_self
    exact ih (h.onMouseMove hcall) fun c hc => hcalls c (List.mem_cons_of_mem call hc)

/-- So it is after any interrupts of the mouse. -/
theorem shown_events {m : MouseDriver} {interrupts : List (UInt8 × UInt8)} :
    Shown videoMemory ((m.events interrupts).foldl handle (construct videoMemory)) := by
  have hrun : ∀ (es : List MouseEvent) (s : MouseToConsole), Shown videoMemory s →
      (∀ x y, .move x y ∈ es → IsOffset x y) → Shown videoMemory (es.foldl handle s) := by
    intro es
    induction es with
    | nil => exact fun s h _ => h
    | cons e es ih =>
      intro s h hes
      refine ih (s.handle e) ?_ fun x y hxy => hes x y (List.mem_cons_of_mem e hxy)
      cases e with
      | move x y => exact h.onMouseMove (hes x y List.mem_cons_self)
      | down button => exact h
      | up button => exact h
  exact hrun _ _ shown_construct fun x y hxy => MouseDriver.isOffset_of_events hxy

/-- The pointer follows the calls of a run exactly if the sums of all of them fit. -/
theorem tracks_iff (hcalls : ∀ call ∈ calls, IsOffset call.1 call.2) :
    (∀ before call, before ++ [call] <+: calls →
      (run videoMemory before).Tracks videoMemory call.1 call.2) ↔
    ∀ before call, before ++ [call] <+: calls → (run videoMemory before).Fits call.1 call.2 := by
  have hiff : ∀ before call, before ++ [call] <+: calls →
      ((run videoMemory before).Tracks videoMemory call.1 call.2 ↔
        (run videoMemory before).Fits call.1 call.2) := by
    intro before call hbegins
    have hbefore : ∀ c ∈ before, IsOffset c.1 c.2 := fun c hc =>
      hcalls c (hbegins.subset (List.mem_append_left _ hc))
    have hcall := hcalls call (hbegins.subset (List.mem_append_right _ List.mem_cons_self))
    exact (shown_construct.foldl hbefore).tracks_iff_fits hcall
  constructor
  · intro h before call hbegins
    exact (hiff before call hbegins).1 (h before call hbegins)
  · intro h before call hbegins
    exact (hiff before call hbegins).2 (h before call hbegins)

/-- A movement to the right and upwards, and one that stops at the edge. -/
theorem tracks_iff_twice : (run (fun _ => 0x0720) []).Tracks (fun _ => 0x0720) 30 (-5) ∧
    (run (fun _ => 0x0720) [(30, -5)]).Tracks (fun _ => 0x0720) 20 0 := by
  have htracks : ∀ before call, before ++ [call] <+: [(30, -5), (20, 0)] →
      (run (fun _ => 0x0720) before).Tracks (fun _ => 0x0720) call.1 call.2 := by
    refine (tracks_iff fun call hcall => ?_).2 fun before call hbegins => ?_
    · obtain rfl | hcall := List.mem_cons.1 hcall
      · constructor <;> decide
      · obtain rfl := List.mem_singleton.1 hcall
        constructor <;> decide
    · rcases before with _ | ⟨first, _ | ⟨second, before⟩⟩
      · obtain rfl := (List.cons_prefix_cons.1 hbegins).1
        constructor <;> decide
      · obtain ⟨rfl, hrest⟩ := List.cons_prefix_cons.1 hbegins
        obtain rfl := (List.cons_prefix_cons.1 hrest).1
        constructor <;> decide
      · exact absurd hbegins.length_le (by simp)
  exact ⟨htracks [] (30, -5) ⟨[(20, 0)], rfl⟩, htracks [(30, -5)] (20, 0) (List.prefix_refl _)⟩

/-- An offset of `100` takes the pointer to the left edge. -/
theorem not_tracks_wrapping : ¬(run (fun _ => 0x0720) []).Tracks (fun _ => 0x0720) 100 0 := by
  rintro ⟨hx, -, -⟩
  revert hx
  decide

end MouseToConsole

end GtuOs

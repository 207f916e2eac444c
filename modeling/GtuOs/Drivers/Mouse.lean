import Mathlib.Data.Int.Notation
import Mathlib.Logic.Function.Basic
import Mathlib.Tactic.Common

/-!
# The mouse

The driver of the mouse, from `mouse.cpp`, which makes the events for its handler out of
packets of three bytes, one read at each interrupt.
-/

namespace GtuOs

/-- An event of the mouse. -/
inductive MouseEvent
  | move (x y : Int32)
  | down (button : UInt8)
  | up (button : UInt8)

/-- The driver of the mouse. -/
structure MouseDriver where
  buffer : ℕ → UInt8
  offset : UInt8
  buttons : UInt8

/-- An offset that a packet may have for `x`, and one that it may have for `y`. -/
structure IsOffset (x y : Int32) : Prop where
  le_x : -128 ≤ x.toInt
  x_le : x.toInt ≤ 127
  le_y : -127 ≤ y.toInt
  y_le : y.toInt ≤ 128

namespace MouseDriver

/-- The event for a button whose state has changed. -/
def buttonEvent (buttons now i : UInt8) : List MouseEvent :=
  if now &&& (1 <<< i) ≠ buttons &&& (1 <<< i) then
    if buttons &&& (1 <<< i) ≠ 0 then [.up (i + 1)] else [.down (i + 1)]
  else []

/-- The events of a packet. -/
def packet (buffer : ℕ → UInt8) (buttons : UInt8) : List MouseEvent :=
  (if buffer 1 ≠ 0 ∨ buffer 2 ≠ 0 then
    [.move (buffer 1).toInt8.toInt32 (-(buffer 2).toInt8.toInt32)] else []) ++
  [0, 1, 2].flatMap (buttonEvent buttons (buffer 0))

/-- `HandleInterrupt`, with the bytes read, and the events for the handler. -/
def handleInterrupt (m : MouseDriver) (status data : UInt8) : MouseDriver × List MouseEvent :=
  if status &&& 0x20 = 0 then (m, [])
  else
    let buffer := Function.update m.buffer m.offset.toNat data
    let offset := (m.offset + 1) % 3
    if offset = 0 then (⟨buffer, offset, buffer 0⟩, packet buffer m.buttons)
    else (⟨buffer, offset, m.buttons⟩, [])

/-- The events of several interrupts. -/
def events (m : MouseDriver) : List (UInt8 × UInt8) → List MouseEvent
  | [] => []
  | (status, data) :: interrupts =>
    let (m', es) := m.handleInterrupt status data
    es ++ m'.events interrupts

variable {m : MouseDriver} {status data : UInt8} {x y : Int32}

theorem isOffset_toInt32 (a b : Int8) : IsOffset a.toInt32 (-b.toInt32) := by
  have ha := a.toInt_lt
  have ha' := a.le_toInt
  have hb := b.toInt_lt
  have hb' := b.le_toInt
  have hneg : (-b.toInt32).toInt = -b.toInt := by
    rw [Int32.toInt_neg, Int8.toInt_toInt32, Int.bmod_eq_of_le (by omega) (by omega)]
  constructor <;> first | rw [hneg] | rw [Int8.toInt_toInt32]
  all_goals omega

theorem not_move_mem_buttonEvent {buttons now i : UInt8} : .move x y ∉ buttonEvent buttons now i := by
  rw [buttonEvent]
  split_ifs <;> simp

/-- The handler gets offsets of a byte. -/
theorem isOffset_of_handleInterrupt (h : .move x y ∈ (m.handleInterrupt status data).2) : IsOffset x y := by
  have hpacket : ∀ buffer : ℕ → UInt8, .move x y ∈ packet buffer m.buttons → IsOffset x y := by
    intro buffer h
    rw [packet, List.mem_append, List.mem_flatMap] at h
    rcases h with h | ⟨i, -, h⟩
    · split_ifs at h
      · obtain ⟨rfl, rfl⟩ := MouseEvent.move.inj (List.mem_singleton.1 h)
        exact isOffset_toInt32 _ _
      · exact absurd h List.not_mem_nil
    · exact absurd h not_move_mem_buttonEvent
  rw [handleInterrupt] at h
  split_ifs at h
  · exact absurd h List.not_mem_nil
  · dsimp only at h
    split_ifs at h
    · exact hpacket _ h
    · exact absurd h List.not_mem_nil

theorem isOffset_of_events {interrupts : List (UInt8 × UInt8)} (h : .move x y ∈ m.events interrupts) :
    IsOffset x y := by
  induction interrupts generalizing m with
  | nil => exact absurd h List.not_mem_nil
  | cons interrupt interrupts ih =>
    rcases List.mem_append.1 h with h | h
    · exact isOffset_of_handleInterrupt h
    · exact ih h

end MouseDriver

end GtuOs

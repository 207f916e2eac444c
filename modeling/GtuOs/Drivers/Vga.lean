import Mathlib.Algebra.Group.Int.Defs
import Mathlib.Algebra.Group.Nat.Defs
import Mathlib.Data.Int.Init
import Mathlib.Data.Int.Notation
import Mathlib.Logic.Function.Basic
import Mathlib.Tactic.Common

/-!
# The screen

Drawing in the mode of 320 by 200 pixels, from `vga.cpp`. The frame buffer has a byte for
each pixel (`pixel`). A rectangle is filled by loops over signed coordinates that are compared
with the unsigned end of it, so that one that starts left of or above the screen is filled
up to the edge of it only (`pixel_fillRectangle`).
-/

namespace GtuOs

/-- The frame buffer, from the start of its segment. -/
abbrev Screen := ℕ → UInt8

namespace Screen

/-- The colour of a pixel. -/
def pixel (s : Screen) (x y : ℕ) : UInt8 := s (320 * y + x)

/-- `GetColorIndex`. -/
def getColorIndex (r g b : UInt8) : UInt8 :=
  if r = 0x00 ∧ g = 0x00 ∧ b = 0x00 then 0x00
  else if r = 0x00 ∧ g = 0x00 ∧ b = 0xA8 then 0x01
  else if r = 0x00 ∧ g = 0xA8 ∧ b = 0x00 then 0x02
  else if r = 0xA8 ∧ g = 0x00 ∧ b = 0x00 then 0x04
  else if r = 0xFF ∧ g = 0xFF ∧ b = 0xFF then 0x3F
  else 0x00

/-- `PutPixel`, with the index of a colour. -/
def putPixelIndex (s : Screen) (x y : Int32) (colorIndex : UInt8) : Screen :=
  if x < 0 ∨ 320 ≤ x ∨ y < 0 ∨ 200 ≤ y then s
  else Function.update s (320 * y + x).toInt.toNat colorIndex

/-- `PutPixel`. -/
def putPixel (s : Screen) (x y : Int32) (r g b : UInt8) : Screen :=
  s.putPixelIndex x y (getColorIndex r g b)

/-- The inner loop of `FillRectangle`, up to `last`, from `X` on. -/
def fillRow (s : Screen) (last : UInt32) (X Y : Int32) (r g b : UInt8) : ℕ → Screen
  | 0 => s
  | n + 1 => if X.toUInt32 < last then fillRow (s.putPixel X Y r g b) last (X + 1) Y r g b n else s

/-- The outer loop of `FillRectangle`, up to `last`, from `Y` on. -/
def fillRows (s : Screen) (x w last : UInt32) (Y : Int32) (r g b : UInt8) : ℕ → Screen
  | 0 => s
  | n + 1 =>
    if Y.toUInt32 < last then
      fillRows (s.fillRow (x + w) x.toInt32 Y r g b w.toNat) x w last (Y + 1) r g b n
    else s

/-- `FillRectangle`: the loops run at most as often as the rectangle is wide and high. -/
def fillRectangle (s : Screen) (x y w h : UInt32) (r g b : UInt8) : Screen :=
  s.fillRows x w (y + h) y.toInt32 r g b h.toNat

variable {s : Screen} {x y w h last : UInt32} {X Y : Int32} {r g b c : UInt8} {px py n : ℕ}

/-! ## Signed and unsigned coordinates -/

theorem toInt_eq : X.toInt = if X.toUInt32.toNat < 2 ^ 31 then (X.toUInt32.toNat : ℤ)
    else (X.toUInt32.toNat : ℤ) - 2 ^ 32 := by
  have h := BitVec.toInt_eq_toNat_cond X.toBitVec
  have hlt := X.toUInt32.toNat_lt
  rw [Int32.toNat_toBitVec] at h
  change X.toInt = _ at h
  rw [h]
  split_ifs <;> omega

/-- The coordinates of the screen are those that are small as unsigned numbers. -/
theorem inside_iff {size : ℕ} {k : Int32} (hk : k.toInt = size) : ¬(X < 0 ∨ k ≤ X) ↔ X.toUInt32.toNat < size := by
  have hlt := X.toUInt32.toNat_lt
  have hk' := k.toInt_lt
  have hX := toInt_eq (X := X)
  rw [Int32.lt_iff_toInt_lt, Int32.le_iff_toInt_le, hk, Int32.toInt_zero]
  split_ifs at hX <;> omega

/-- A pixel is set. -/
theorem pixel_putPixel (hx : px < 320) (hy : py < 200) : (s.putPixel X Y r g b).pixel px py =
    if X.toUInt32.toNat = px ∧ Y.toUInt32.toNat = py then getColorIndex r g b else s.pixel px py := by
  have hX := inside_iff (X := X) (k := 320) rfl
  have hY := inside_iff (X := Y) (k := 200) rfl
  rw [putPixel, putPixelIndex]
  by_cases hin : X.toUInt32.toNat < 320 ∧ Y.toUInt32.toNat < 200
  · -- The offset of the pixel does not wrap.
    have hoffset : (320 * Y + X).toInt.toNat = 320 * Y.toUInt32.toNat + X.toUInt32.toNat := by
      have hX' := toInt_eq (X := X)
      have hY' := toInt_eq (X := Y)
      rw [if_pos (by omega)] at hX' hY'
      have h320 : (320 : Int32).toInt = 320 := rfl
      have hmul : (320 * Y).toInt = 320 * Y.toUInt32.toNat := by
        rw [Int32.toInt_mul, h320, hY', Int.bmod_eq_of_le (by omega) (by omega)]
      rw [Int32.toInt_add, hmul, hX', Int.bmod_eq_of_le (by omega) (by omega)]
      omega
    have hout : ¬(X < 0 ∨ 320 ≤ X ∨ Y < 0 ∨ 200 ≤ Y) := by
      have hX'' := hX.2 hin.1
      have hY'' := hY.2 hin.2
      tauto
    rw [if_neg hout, pixel, hoffset]
    by_cases hpix : X.toUInt32.toNat = px ∧ Y.toUInt32.toNat = py
    · rw [if_pos hpix, hpix.1, hpix.2, Function.update_self]
    · rw [if_neg hpix, Function.update_of_ne (by omega)]
      rfl
  · have hout : X < 0 ∨ 320 ≤ X ∨ Y < 0 ∨ 200 ≤ Y := by
      by_contra hout
      exact hin ⟨hX.1 (by tauto), hY.1 (by tauto)⟩
    rw [if_pos hout, if_neg (by omega)]

/-! ## Rectangles -/

/-- The next coordinate. -/
theorem toNat_succ (h : X.toUInt32.toNat < last.toNat) : (X + 1).toUInt32.toNat = X.toUInt32.toNat + 1 := by
  have hlast := last.toNat_lt
  rw [Int32.toUInt32_add, UInt32.toNat_add]
  exact Nat.mod_eq_of_lt (by change X.toUInt32.toNat + 1 < _; omega)

/-- A row is filled from the start to the end, as unsigned coordinates. -/
theorem pixel_fillRow (hn : last.toNat ≤ X.toUInt32.toNat + n) (hx : px < 320) (hy : py < 200) :
    (s.fillRow last X Y r g b n).pixel px py =
      if X.toUInt32.toNat ≤ px ∧ px < last.toNat ∧ Y.toUInt32.toNat = py then getColorIndex r g b
      else s.pixel px py := by
  induction n generalizing X s with
  | zero => rw [fillRow, if_neg (by omega)]
  | succ n ih =>
    rw [fillRow]
    by_cases hlt : X.toUInt32 < last
    · have hlt' : X.toUInt32.toNat < last.toNat := hlt
      have hsucc := toNat_succ hlt'
      rw [if_pos hlt, ih (by omega), pixel_putPixel hx hy, hsucc]
      split_ifs <;> first | rfl | omega
    · have hle : last.toNat ≤ X.toUInt32.toNat := UInt32.not_lt.1 hlt
      rw [if_neg hlt, if_neg (by omega)]

/-- The rows are filled from the first to the last. -/
theorem pixel_fillRows (hn : last.toNat ≤ Y.toUInt32.toNat + n) (hw : (x + w).toNat ≤ x.toNat + w.toNat)
    (hx : px < 320) (hy : py < 200) : (s.fillRows x w last Y r g b n).pixel px py =
      if x.toNat ≤ px ∧ px < (x + w).toNat ∧ Y.toUInt32.toNat ≤ py ∧ py < last.toNat then
        getColorIndex r g b
      else s.pixel px py := by
  induction n generalizing Y s with
  | zero => rw [fillRows, if_neg (by omega)]
  | succ n ih =>
    rw [fillRows]
    by_cases hlt : Y.toUInt32 < last
    · have hlt' : Y.toUInt32.toNat < last.toNat := hlt
      have hsucc := toNat_succ hlt'
      have hrow := pixel_fillRow (s := s) (X := x.toInt32) (Y := Y) (r := r) (g := g) (b := b) hw hx hy
      rw [if_pos hlt, ih (by omega), hrow, hsucc, UInt32.toUInt32_toInt32]
      split_ifs <;> first | rfl | omega
    · have hle : last.toNat ≤ Y.toUInt32.toNat := UInt32.not_lt.1 hlt
      rw [if_neg hlt, if_neg (by omega)]

/-- A rectangle is filled from its corner to the end, as unsigned coordinates. -/
theorem pixel_fillRectangle (hx : px < 320) (hy : py < 200) :
    (s.fillRectangle x y w h r g b).pixel px py =
      if x.toNat ≤ px ∧ px < (x + w).toNat ∧ y.toNat ≤ py ∧ py < (y + h).toNat then getColorIndex r g b
      else s.pixel px py := by
  have hle : ∀ v u : UInt32, (v + u).toNat ≤ v.toNat + u.toNat := fun v u => by
    rw [UInt32.toNat_add]
    exact Nat.mod_le _ _
  rw [fillRectangle, pixel_fillRows (by rw [UInt32.toUInt32_toInt32]; exact hle y h) (hle x w) hx hy,
    UInt32.toUInt32_toInt32]

end Screen

end GtuOs

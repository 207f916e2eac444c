import Mathlib.Algebra.Group.Nat.Defs
import Mathlib.Data.Nat.Notation
import Mathlib.Order.Bounds.Basic
import Mathlib.Tactic.Common

/-!
# The entries of the global descriptor table

The class `SegmentDescriptor` of `gdt.cpp`. A descriptor is accessed through a pointer to
its eight bytes, over which base and limit are scattered. They are read back as they were,
but for a limit in pages, which is rounded down (`decode_construct`).
-/

namespace GtuOs.GlobalDescriptorTable

/-- The eight bytes of a descriptor. -/
abbrev SegmentDescriptor := Fin 8 → UInt8

namespace SegmentDescriptor

/-- The assignment `target[i] = v`. -/
def set (target : SegmentDescriptor) (i : Fin 8) (v : UInt8) : SegmentDescriptor :=
  fun j => if j = i then v else target j

/-- The constructor, in the memory of `target`. -/
def construct (target : SegmentDescriptor) (base limit : UInt32) (type : UInt8) :
    SegmentDescriptor :=
  let (target, limit) :=
    if limit ≤ 65536 then (target.set 6 0x40, limit)
    else
      let limit := if limit &&& 0xFFF ≠ 0xFFF then (limit >>> 12) - 1 else limit >>> 12
      (target.set 6 0xC0, limit)
  let target := target.set 0 (limit &&& 0xFF).toUInt8
  let target := target.set 1 ((limit >>> 8) &&& 0xFF).toUInt8
  let target := target.set 6 (target 6 ||| ((limit >>> 16) &&& 0xF).toUInt8)
  let target := target.set 2 (base &&& 0xFF).toUInt8
  let target := target.set 3 ((base >>> 8) &&& 0xFF).toUInt8
  let target := target.set 4 ((base >>> 16) &&& 0xFF).toUInt8
  let target := target.set 7 ((base >>> 24) &&& 0xFF).toUInt8
  target.set 5 type

/-- The address of the first byte of the segment. -/
def base (target : SegmentDescriptor) : UInt32 :=
  let result := (target 7).toUInt32
  let result := (result <<< 8) + (target 4).toUInt32
  let result := (result <<< 8) + (target 3).toUInt32
  (result <<< 8) + (target 2).toUInt32

/-- The largest offset in the segment. -/
def limit (target : SegmentDescriptor) : UInt32 :=
  let result := (target 6 &&& 0xF).toUInt32
  let result := (result <<< 8) + (target 1).toUInt32
  let result := (result <<< 8) + (target 0).toUInt32
  if target 6 &&& 0xC0 = 0xC0 then (result <<< 12) ||| 0xFFF else result

/-! ## Bytes of words -/

section bytes

variable {v w : UInt32} {b : UInt8} {n : ℕ}

theorem toNat_low_byte : (v &&& 0xFF).toUInt8.toNat = v.toNat % 256 := by
  rw [UInt32.toNat_toUInt8, UInt32.toNat_and]
  change (v.toNat &&& (2 ^ 8 - 1)) % 2 ^ 8 = _
  rw [Nat.and_two_pow_sub_one_eq_mod, Nat.mod_mod]

theorem toNat_byte (hw : w.toNat < 32) :
    ((v >>> w) &&& 0xFF).toUInt8.toNat = v.toNat / 2 ^ w.toNat % 256 := by
  rw [toNat_low_byte, UInt32.toNat_shiftRight, Nat.mod_eq_of_lt hw, Nat.shiftRight_eq_div_pow]

theorem toNat_shiftRight (hw : w.toNat < 32) : (v >>> w).toNat = v.toNat / 2 ^ w.toNat := by
  rw [UInt32.toNat_shiftRight, Nat.mod_eq_of_lt hw, Nat.shiftRight_eq_div_pow]

/-- A byte more. -/
theorem toNat_shiftLeft_add (hv : v.toNat < 2 ^ 24) :
    ((v <<< 8) + b.toUInt32).toNat = 256 * v.toNat + b.toNat := by
  have hb := b.toNat_lt
  rw [UInt32.toNat_add, UInt32.toNat_shiftLeft, UInt8.toNat_toUInt32]
  change (v.toNat <<< 8 % 2 ^ 32 + b.toNat) % 2 ^ 32 = _
  rw [Nat.shiftLeft_eq]
  omega

/-- The nibble shared with the flags. -/
theorem low_nibble : ((v >>> 16) &&& 0xF).toUInt8 = UInt8.ofNat (v.toNat / 65536 % 16) := by
  apply UInt8.toNat_inj.1
  rw [UInt32.toNat_toUInt8, UInt32.toNat_and, toNat_shiftRight (by decide), UInt8.toNat_ofNat']
  exact congrArg (· % 2 ^ 8) (Nat.and_two_pow_sub_one_eq_mod (v.toNat / 65536) 4)

/-- The flags and the nibble do not touch each other. -/
theorem flags_nibble (hn : n < 16) :
    ((0x40 ||| UInt8.ofNat n) &&& 0xF).toNat = n ∧ (0x40 ||| UInt8.ofNat n) &&& 0xF0 = 0x40 ∧
      ¬(0x40 ||| UInt8.ofNat n) &&& 0xC0 = 0xC0 ∧
    ((0xC0 ||| UInt8.ofNat n) &&& 0xF).toNat = n ∧ (0xC0 ||| UInt8.ofNat n) &&& 0xF0 = 0xC0 ∧
      (0xC0 ||| UInt8.ofNat n) &&& 0xC0 = 0xC0 := by
  revert n
  decide

/-- A number of pages, as the last byte of the last one. -/
theorem toNat_pages (hv : v.toNat < 2 ^ 20) : ((v <<< 12) ||| 0xFFF).toNat = 4096 * v.toNat + 4095 := by
  rw [UInt32.toNat_or, UInt32.toNat_shiftLeft]
  change v.toNat <<< 12 % 2 ^ 32 ||| 4095 = _
  rw [Nat.mod_eq_of_lt (by rw [Nat.shiftLeft_eq]; omega), ← Nat.shiftLeft_add_eq_or_of_lt (by decide),
    Nat.shiftLeft_eq]
  omega

end bytes

/-! ## Encoding -/

variable {target : SegmentDescriptor} {b l : UInt32} {type : UInt8}

@[simp] theorem set_apply {i j : Fin 8} {v : UInt8} :
    target.set i v j = if j = i then v else target j := rfl

/-- The number in the limit field, in bytes or in pages. -/
def units (limit : UInt32) : UInt32 :=
  if limit ≤ 65536 then limit
  else if limit &&& 0xFFF ≠ 0xFFF then (limit >>> 12) - 1 else limit >>> 12

variable (target b l type) in
/-- The bytes of a descriptor. -/
theorem construct_apply :
    (construct target b l type) 0 = ((units l) &&& 0xFF).toUInt8 ∧
    (construct target b l type) 1 = ((units l >>> 8) &&& 0xFF).toUInt8 ∧
    (construct target b l type) 2 = (b &&& 0xFF).toUInt8 ∧
    (construct target b l type) 3 = ((b >>> 8) &&& 0xFF).toUInt8 ∧
    (construct target b l type) 4 = ((b >>> 16) &&& 0xFF).toUInt8 ∧
    (construct target b l type) 5 = type ∧
    (construct target b l type) 6 =
      (if l ≤ 65536 then 0x40 else 0xC0 : UInt8) ||| ((units l >>> 16) &&& 0xF).toUInt8 ∧
    (construct target b l type) 7 = ((b >>> 24) &&& 0xFF).toUInt8 := by
  rw [construct, units]
  split_ifs <;> simp

/-- The base is read back. -/
theorem base_construct : (construct target b l type).base = b := by
  obtain ⟨-, -, h2, h3, h4, -, -, h7⟩ := construct_apply target b l type
  have hb := b.toNat_lt
  rw [base, h2, h3, h4, h7]
  apply UInt32.toNat_inj.1
  -- The bytes, the highest first.
  have hv₁ : ((b >>> 24) &&& 0xFF).toUInt8.toUInt32.toNat = b.toNat / 2 ^ 24 := by
    rw [UInt8.toNat_toUInt32, toNat_byte (by decide)]
    change b.toNat / 2 ^ 24 % 256 = _
    omega
  have hv₂ := toNat_shiftLeft_add (b := ((b >>> 16) &&& 0xFF).toUInt8) (lt_of_eq_of_lt hv₁ (by omega))
  rw [hv₁, toNat_byte (by decide)] at hv₂
  change _ = 256 * (b.toNat / 2 ^ 24) + b.toNat / 2 ^ 16 % 256 at hv₂
  have hv₃ := toNat_shiftLeft_add (b := ((b >>> 8) &&& 0xFF).toUInt8) (lt_of_eq_of_lt hv₂ (by omega))
  rw [hv₂, toNat_byte (by decide)] at hv₃
  change _ = _ + b.toNat / 2 ^ 8 % 256 at hv₃
  rw [toNat_shiftLeft_add (lt_of_eq_of_lt hv₃ (by omega)), hv₃, toNat_low_byte]
  omega

/-- The number in the limit field fits in its 20 bits. -/
theorem toNat_units : (units l).toNat = if l ≤ 65536 then l.toNat
    else if l.toNat % 4096 = 4095 then l.toNat / 4096 else l.toNat / 4096 - 1 := by
  have hlow : (l &&& 0xFFF).toNat = l.toNat % 4096 := by
    rw [UInt32.toNat_and]
    exact Nat.and_two_pow_sub_one_eq_mod _ 12
  have hones : l &&& 0xFFF = 0xFFF ↔ l.toNat % 4096 = 4095 := by
    rw [← hlow, ← UInt32.toNat_inj]
    rfl
  have hshift : (l >>> 12).toNat = l.toNat / 4096 := toNat_shiftRight (by decide)
  rw [units]
  split_ifs with h₁ h₂ h₃ h₃
  · rfl
  · exact absurd (hones.2 h₃) h₂
  · rw [UInt32.toNat_sub_of_le, hshift]
    · rfl
    · have h₁ : 65536 < l.toNat := UInt32.not_le.1 h₁
      rw [UInt32.le_iff_toNat_le, hshift]
      change 1 ≤ _
      omega
  · exact hshift
  · exact absurd (hones.1 (not_not.1 h₂)) h₃

variable (target b l type) in
/-- The limit is read back, in bytes or in pages. -/
theorem limit_construct : (construct target b l type).limit.toNat =
    if l ≤ 65536 then l.toNat else 4096 * (units l).toNat + 4095 := by
  obtain ⟨h0, h1, -, -, -, -, h6, -⟩ := construct_apply target b l type
  have hl := l.toNat_lt
  have hu := toNat_units (l := l)
  have hlt : (units l).toNat < 2 ^ 20 := by
    split_ifs at hu with h
    · have h : l.toNat ≤ 65536 := h
      omega
    · omega
    · omega
  rw [limit, h0, h1, h6, low_nibble]
  obtain ⟨hn₁, -, hc₁, hn₂, -, hc₂⟩ :=
    flags_nibble (n := (units l).toNat / 65536 % 16) (Nat.mod_lt _ (by decide))
  -- The three parts of the field.
  have hfield : ∀ f : UInt8, f.toNat = (units l).toNat / 65536 % 16 →
      ((((f.toUInt32 <<< 8) + ((units l >>> 8) &&& 0xFF).toUInt8.toUInt32) <<< 8) +
        ((units l) &&& 0xFF).toUInt8.toUInt32).toNat = (units l).toNat := fun f hf => by
    have hv₁ := toNat_shiftLeft_add (v := f.toUInt32) (b := ((units l >>> 8) &&& 0xFF).toUInt8)
      (by rw [UInt8.toNat_toUInt32]; omega)
    rw [UInt8.toNat_toUInt32, hf, toNat_byte (by decide)] at hv₁
    change _ = _ + (units l).toNat / 2 ^ 8 % 256 at hv₁
    rw [toNat_shiftLeft_add (lt_of_eq_of_lt hv₁ (by omega)), hv₁, toNat_low_byte]
    omega
  by_cases h : l ≤ 65536
  · simp only [if_pos h] at hu ⊢
    rw [if_neg hc₁, hfield _ hn₁, hu]
  · simp only [if_neg h]
    rw [if_pos hc₂, toNat_pages (lt_of_eq_of_lt (hfield _ hn₂) hlt), hfield _ hn₂]

/-- A descriptor is decoded to its base and type, and to the limit, which is rounded down to
    the end of a page unless it is counted in bytes. -/
theorem decode_construct : (construct target b l type).base = b ∧
    (if l ≤ 65536 then (construct target b l type).limit = l
    else IsGreatest {x | x ≤ l.toNat ∧ ∃ k, x = 4096 * k + 4095}
      (construct target b l type).limit.toNat) ∧
    (construct target b l type) 5 = type ∧
    (construct target b l type) 6 &&& 0xF0 = if l ≤ 65536 then 0x40 else 0xC0 := by
  refine ⟨base_construct, ?_, ?_, ?_⟩
  · have hlimit := limit_construct target b l type
    have hu := toNat_units (l := l)
    split_ifs at hlimit hu ⊢ with h hones
    · exact UInt32.toNat_inj.1 hlimit
    · refine ⟨⟨by omega, _, hlimit⟩, ?_⟩
      rintro x ⟨hx, k, rfl⟩
      omega
    · have h : 65536 < l.toNat := UInt32.not_le.1 h
      refine ⟨⟨by omega, _, hlimit⟩, ?_⟩
      rintro x ⟨hx, k, rfl⟩
      omega
  · exact (construct_apply target b l type).2.2.2.2.2.1
  · obtain ⟨-, -, -, -, -, -, h6, -⟩ := construct_apply target b l type
    obtain ⟨-, hf₁, -, -, hf₂, -⟩ :=
      flags_nibble (n := (units l).toNat / 65536 % 16) (Nat.mod_lt _ (by decide))
    rw [h6, low_nibble]
    split_ifs
    · exact hf₁
    · exact hf₂

end SegmentDescriptor

end GtuOs.GlobalDescriptorTable

import Mathlib.Data.List.GetD
import Mathlib.Data.List.Induction
import Mathlib.Algebra.Group.Nat.Defs
import Mathlib.Data.Nat.Notation
import Mathlib.Logic.Function.Basic
import Mathlib.Tactic.Common

/-!
# The ATA driver

`Read28` and `Write28` of `ata.cpp`, against a device with registers for the parts of the
sector number, which transfers a sector of 256 words after a command. Both functions
write the bits 16 to 23 of the sector number to the register for the bits 0 to 7, over
those, and nothing to the one for the bits 16 to 23: sectors that differ in their low byte
only share their place on the disk. The driver is a sector store as long as the last write
to one of them is that of the sector read (`isStore_iff`).
-/

namespace GtuOs.Ata

/-! ## The device -/

/-- The ports of one byte. -/
inductive Port
  | error
  | sectorCount
  | lbaLow
  | lbaMid
  | lbaHi
  | device
  | command

/-- The device: its registers, its sectors, and the transfer under way. It is busy for some
    reads of its status after a command. -/
structure Device where
  low : UInt8
  mid : UInt8
  high : UInt8
  device : UInt8
  sectors : Bool × ℕ → ℕ → UInt16
  command : UInt8
  target : Bool × ℕ
  received : List UInt16
  sent : ℕ
  busy : ℕ
  latency : ℕ

namespace Device

variable (d : Device)

/-- The drive and the sector selected. -/
def selected : Bool × ℕ :=
  (d.device &&& 0x10 != 0,
    d.low.toNat + 2 ^ 8 * d.mid.toNat + 2 ^ 16 * d.high.toNat + 2 ^ 24 * (d.device &&& 0xF).toNat)

/-- A write to a port. One sector is transferred, whatever its number. -/
def write (v : UInt8) : Port → Device
  | .error => d
  | .sectorCount => d
  | .lbaLow => { d with low := v }
  | .lbaMid => { d with mid := v }
  | .lbaHi => { d with high := v }
  | .device => { d with device := v }
  | .command =>
    { d with command := v, target := d.selected, received := [], sent := 0, busy := d.latency }

/-- The status, read from the command port. -/
def readStatus : UInt8 × Device :=
  if d.busy = 0 then (0x40, d) else (0x80, { d with busy := d.busy - 1 })

/-- A write to the data port. -/
def writeData (w : UInt16) : Device :=
  let sectors := if d.command = 0x30 ∧ d.received.length < 256 then
      Function.update d.sectors d.target (Function.update (d.sectors d.target) d.received.length w)
    else d.sectors
  { d with sectors := sectors, received := d.received ++ [w] }

/-- A read from the data port. -/
def readData : UInt16 × Device :=
  (if d.command = 0x20 ∧ d.sent < 256 then d.sectors d.target d.sent else 0, { d with sent := d.sent + 1 })

end Device

/-! ## The driver -/

/-- The writes to the ports in `Read28` and in `Write28`, which differ in the command. -/
def issue (master : Bool) (d : Device) (sectorNum : UInt32) (command : UInt8) : Device :=
  let d := d.write ((if master then 0xE0 else 0xF0 : UInt32) ||| ((sectorNum &&& 0x0F000000) >>> 24)).toUInt8 .device
  let d := d.write 0 .error
  let d := d.write 1 .sectorCount
  let d := d.write (sectorNum &&& 0x000000FF).toUInt8 .lbaLow
  let d := d.write ((sectorNum &&& 0x0000FF00) >>> 8).toUInt8 .lbaMid
  let d := d.write ((sectorNum &&& 0x00FF0000) >>> 16).toUInt8 .lbaLow
  d.write command .command

/-- The loops that wait until the device is not busy. -/
def poll (d : Device) : ℕ → Option (UInt8 × Device)
  | 0 => none
  | fuel + 1 =>
    let (status, d) := d.readStatus
    if status &&& 0x80 = 0x80 ∧ status &&& 0x01 ≠ 0x01 then poll d fuel else some (status, d)

/-- The first loop of `Read28`, from `i` on: the bytes that are printed. -/
def readLoop (count : ℕ) (d : Device) (i : ℕ) : ℕ → Device × List UInt8
  | 0 => (d, [])
  | n + 1 =>
    if i < count then
      let (wdata, d) := d.readData
      let text := (wdata &&& 0xFF).toUInt8 :: if i + 1 < count then [((wdata >>> 8) &&& 0xFF).toUInt8] else []
      let (d, texts) := readLoop count d (i + 2) n
      (d, text ++ texts)
    else (d, [])

/-- The second loop of `Read28`. -/
def skipLoop (d : Device) (i : ℕ) : ℕ → Device
  | 0 => d
  | n + 1 => if i < 512 then skipLoop d.readData.2 (i + 2) n else d

/-- `Read28`: the bytes that are printed. -/
def read28 (master : Bool) (d : Device) (sectorNum : UInt32) (count fuel : ℕ) :
    Option (Device × List UInt8) :=
  if sectorNum > 0x0FFFFFFF then some (d, [])
  else
    (poll (issue master d sectorNum 0x20) fuel).map fun (status, d) =>
      if status &&& 0x01 ≠ 0 then (d, [])
      else
        let (d, text) := readLoop count d 0 count
        (skipLoop d (count + count % 2) 256, text)

/-- The word made of the bytes `i` and `i + 1`. -/
def wdata (data : ℕ → UInt8) (count i : ℕ) : UInt16 :=
  if i + 1 < count then (data i).toUInt16 ||| ((data (i + 1)).toUInt16 <<< 8) else (data i).toUInt16

/-- The first loop of `Write28`, from `i` on. -/
def writeLoop (data : ℕ → UInt8) (count : ℕ) (d : Device) (i : ℕ) : ℕ → Device
  | 0 => d
  | n + 1 => if i < count then writeLoop data count (d.writeData (wdata data count i)) (i + 2) n else d

/-- The second loop of `Write28`. -/
def padLoop (d : Device) (i : ℕ) : ℕ → Device
  | 0 => d
  | n + 1 => if i < 512 then padLoop (d.writeData 0x0000) (i + 2) n else d

/-- `Write28`. -/
def write28 (master : Bool) (d : Device) (sectorNum : UInt32) (data : ℕ → UInt8) (count : UInt32) : Device :=
  if sectorNum > 0x0FFFFFFF then d
  else if count > 512 then d
  else
    let d := issue master d sectorNum 0x30
    let d := writeLoop data count.toNat d 0 256
    padLoop d (count.toNat + count.toNat % 2) 256

/-! ## Sector stores -/

/-- A call of `Write28`. -/
structure Write where
  sector : UInt32
  data : ℕ → UInt8
  count : UInt32

/-- The bytes of the sector written. -/
def Write.bytes (w : Write) (j : ℕ) : UInt8 := if j < w.count.toNat then w.data j else 0

/-- The writes that the driver accepts. -/
def Write.Valid (w : Write) : Prop := w.sector.toNat < 2 ^ 28 ∧ w.count.toNat ≤ 512

/-- A sequence of writes. -/
def writes (master : Bool) (d : Device) (ws : List Write) : Device :=
  ws.foldl (fun d w => write28 master d w.sector w.data w.count) d

/-- The byte `j` of a sequence of words. -/
def byte (words : ℕ → UInt16) (j : ℕ) : UInt8 :=
  if j % 2 = 0 then (words (j / 2) &&& 0xFF).toUInt8 else ((words (j / 2) >>> 8) &&& 0xFF).toUInt8

/-- The bytes left by the last of the writes `ws`, if any. -/
def stored (ws : List Write) (bytes : ℕ → UInt8) : ℕ → UInt8 := (ws.getLast?.map Write.bytes).getD bytes

/-- The bytes that `Read28` prints. -/
def delivered (master : Bool) (d : Device) (s : UInt32) (count fuel : ℕ) : Option (List UInt8) :=
  (read28 master d s count fuel).map Prod.snd

/-- Every write transfers 256 words, the data and zeroes, and a read of the sector `s` delivers
    the data of the last write to it, or what it did before if there is none. -/
structure IsStore (master : Bool) (d : Device) (ws : List Write) (s : UInt32) : Prop where
  transfers : ∀ k w, ws[k]? = some w →
    (writes master d (ws.take (k + 1))).received.length = 256 ∧
      ∀ j < 512, byte ((writes master d (ws.take (k + 1))).received.getD · 0) j = w.bytes j
  delivers : ∀ count ≤ 512, ∀ fuel > d.latency,
    delivered master (writes master d ws) s count fuel =
      match (ws.filter (·.sector = s)).getLast? with
      | some w => some ((List.range count).map w.bytes)
      | none => delivered master d s count fuel

/-! ## The place of a sector -/

section place

variable {master : Bool} {d : Device} {s s' : UInt32} {c high : UInt8} {n : ℕ}

/-- Where the driver reads and writes the sector `s`, with what is left in the register for the
    bits 16 to 23. -/
def place (master : Bool) (high : UInt8) (s : UInt32) : Bool × ℕ :=
  (!master, s.toNat / 2 ^ 16 % 256 + 2 ^ 8 * (s.toNat / 2 ^ 8 % 256) + 2 ^ 16 * high.toNat +
    2 ^ 24 * (s.toNat / 2 ^ 24 % 16))

theorem toNat_field {m k w : ℕ} (hm : m = 2 ^ w - 1) (hw : w ≤ 8) {mask shift : UInt32}
    (hmask : mask.toNat = m <<< k) (hshift : shift.toNat = k) (hk : k < 32) :
    ((s &&& mask) >>> shift).toUInt8.toNat = s.toNat / 2 ^ k % 2 ^ w := by
  have hlt : s.toNat / 2 ^ k % 2 ^ w < 2 ^ 8 :=
    Nat.lt_of_lt_of_le (Nat.mod_lt _ (Nat.two_pow_pos w)) (Nat.pow_le_pow_right (by decide) hw)
  rw [UInt32.toNat_toUInt8, UInt32.toNat_shiftRight, UInt32.toNat_and, hmask, hshift,
    Nat.mod_eq_of_lt hk, Nat.shiftRight_and_distrib, Nat.shiftLeft_shiftRight, hm,
    Nat.and_two_pow_sub_one_eq_mod, Nat.shiftRight_eq_div_pow, Nat.mod_eq_of_lt hlt]

theorem device_register (hn : n < 16) :
    ((0xE0 ||| UInt8.ofNat n) &&& 0x10 != 0) = false ∧ ((0xE0 ||| UInt8.ofNat n) &&& 0xF).toNat = n ∧
    ((0xF0 ||| UInt8.ofNat n) &&& 0x10 != 0) = true ∧ ((0xF0 ||| UInt8.ofNat n) &&& 0xF).toNat = n := by
  revert n
  decide

variable (master d s c) in
/-- A command is for the place of the sector. -/
theorem issue_eq : issue master d s c = { d with
    device := ((if master then 0xE0 else 0xF0 : UInt32) ||| ((s &&& 0x0F000000) >>> 24)).toUInt8
    low := ((s &&& 0x00FF0000) >>> 16).toUInt8
    mid := ((s &&& 0x0000FF00) >>> 8).toUInt8
    command := c, target := place master d.high s, received := [], sent := 0, busy := d.latency } := by
  have hlow : ((s &&& 0x00FF0000) >>> 16).toUInt8.toNat = s.toNat / 2 ^ 16 % 256 :=
    toNat_field (m := 255) (w := 8) rfl (by decide) rfl rfl (by decide)
  have hmid : ((s &&& 0x0000FF00) >>> 8).toUInt8.toNat = s.toNat / 2 ^ 8 % 256 :=
    toNat_field (m := 255) (w := 8) rfl (by decide) rfl rfl (by decide)
  have hnibble : ((s &&& 0x0F000000) >>> 24).toUInt8 = UInt8.ofNat (s.toNat / 2 ^ 24 % 16) := by
    apply UInt8.toNat_inj.1
    rw [toNat_field (m := 15) (w := 4) rfl (by decide) rfl rfl (by decide), UInt8.toNat_ofNat']
    exact (Nat.mod_eq_of_lt (by omega)).symm
  obtain ⟨hE, hE', hF, hF'⟩ := device_register (Nat.mod_lt (s.toNat / 2 ^ 24) (by decide : 16 > 0))
  have hdevice : ((if master then 0xE0 else 0xF0 : UInt32) ||| ((s &&& 0x0F000000) >>> 24)).toUInt8 =
      (if master then 0xE0 else 0xF0) ||| UInt8.ofNat (s.toNat / 2 ^ 24 % 16) := by
    rw [UInt32.toUInt8_or, hnibble]
    cases master <;> rfl
  have htarget : (issue master d s c).target = place master d.high s := by
    simp only [issue, Device.write, Device.selected, place, hdevice, hlow, hmid]
    cases master with
    | true => simp only [if_true, hE, hE', Bool.not_true]
    | false => simp only [Bool.false_eq_true, if_false, hF, hF', Bool.not_false]
  rw [← htarget]
  rfl

/-- Sectors share their place if they differ in the low byte only. -/
theorem place_eq_iff (hs : s.toNat < 2 ^ 28) (hs' : s'.toNat < 2 ^ 28) :
    place master high s = place master high s' ↔ s.toNat / 256 = s'.toNat / 256 := by
  have hdigits : ∀ n < 2 ^ 28, n / 256 = n / 2 ^ 8 % 256 + 256 * (n / 2 ^ 16 % 256) +
      65536 * (n / 2 ^ 24 % 16) := by omega
  have hbounds : ∀ n : ℕ, n / 2 ^ 8 % 256 < 256 ∧ n / 2 ^ 16 % 256 < 256 := by omega
  obtain ⟨h8, h16⟩ := hbounds s.toNat
  obtain ⟨h8', h16'⟩ := hbounds s'.toNat
  rw [place, place, Prod.mk.injEq, hdigits _ hs, hdigits _ hs']
  generalize s.toNat / 2 ^ 8 % 256 = x8 at *
  generalize s.toNat / 2 ^ 16 % 256 = x16 at *
  generalize s'.toNat / 2 ^ 8 % 256 = y8 at *
  generalize s'.toNat / 2 ^ 16 % 256 = y16 at *
  constructor
  · rintro ⟨-, h⟩
    omega
  · intro h
    exact ⟨rfl, by omega⟩

end place

/-! ## Transfers -/

section transfer

variable {d : Device} {data : ℕ → UInt8} {count k n j fuel : ℕ} {ws : List UInt16} {w : UInt16}

/-- The device is ready in time. -/
theorem poll_eq (h : d.busy < fuel) : poll d fuel = some (0x40, { d with busy := 0 }) := by
  induction fuel generalizing d with
  | zero => cases h
  | succ fuel ih =>
    rw [poll, Device.readStatus]
    by_cases h0 : d.busy = 0
    · rw [if_pos h0, ← h0]
      rfl
    · rw [if_neg h0]
      exact ih (d := { d with busy := d.busy - 1 }) (by dsimp only; omega)

/-- A sequence of words is written to the data port. -/
def writeDatas (d : Device) (ws : List UInt16) : Device := ws.foldl Device.writeData d

theorem writeDatas_append {ws' : List UInt16} :
    writeDatas d (ws ++ ws') = writeDatas (writeDatas d ws) ws' := List.foldl_append

/-- The words received are those of the sector. -/
theorem writeDatas_eq (hcommand : d.command = 0x30) (hlen : d.received.length + ws.length ≤ 256) :
    writeDatas d ws = { d with
      received := d.received ++ ws
      sectors := Function.update d.sectors d.target fun k =>
        if d.received.length ≤ k ∧ k < d.received.length + ws.length then ws.getD (k - d.received.length) 0
        else d.sectors d.target k } := by
  induction ws generalizing d with
  | nil =>
    have hnone : (fun k => if d.received.length ≤ k ∧ k < d.received.length + 0 then
        ([] : List UInt16).getD (k - d.received.length) 0 else d.sectors d.target k) =
        d.sectors d.target := by
      funext k
      exact if_neg (by omega)
    rw [List.append_nil, List.length_nil, hnone, Function.update_eq_self]
    rfl
  | cons w ws ih =>
    rw [List.length_cons] at hlen
    have hw : d.writeData w = { d with
        sectors := Function.update d.sectors d.target
          (Function.update (d.sectors d.target) d.received.length w)
        received := d.received ++ [w] } := by
      rw [Device.writeData, if_pos ⟨hcommand, by omega⟩]
    have hcons : writeDatas d (w :: ws) = writeDatas (d.writeData w) ws := rfl
    rw [hcons, hw, ih (d := { d with
        sectors := Function.update d.sectors d.target
          (Function.update (d.sectors d.target) d.received.length w)
        received := d.received ++ [w] }) hcommand (by simp only [List.length_append, List.length_singleton]; omega)]
    simp only [List.append_assoc, List.singleton_append, List.length_append, List.length_cons,
      List.length_nil, Nat.zero_add, Function.update_idem, Function.update_self]
    congr 2
    funext k
    -- The words before, the one just written, and those that follow.
    rcases Nat.lt_trichotomy k d.received.length with hk | rfl | hk
    · rw [if_neg (by omega), if_neg (by omega), Function.update_of_ne (by omega)]
    · rw [if_neg (by omega), if_pos (by omega), Function.update_self, Nat.sub_self]
      rfl
    · have hsub : k - d.received.length = (k - (d.received.length + 1)) + 1 := by omega
      rw [Function.update_of_ne (by omega), hsub, List.getD_cons_succ]
      by_cases hk' : k < d.received.length + (ws.length + 1)
      · rw [if_pos (by omega), if_pos (by omega)]
      · rw [if_neg (by omega), if_neg (by omega)]

/-- The first loop of `Write28`, after `k` words. -/
theorem writeLoop_eq (hn : (count + 1) / 2 ≤ k + n) : writeLoop data count d (2 * k) n =
    writeDatas d ((List.range' k ((count + 1) / 2 - k)).map fun k => wdata data count (2 * k)) := by
  induction n generalizing k d with
  | zero =>
    rw [Nat.sub_eq_zero_of_le (by omega)]
    rfl
  | succ n ih =>
    rw [writeLoop]
    by_cases hk : 2 * k < count
    · have hsub : (count + 1) / 2 - k = ((count + 1) / 2 - (k + 1)) + 1 := by omega
      rw [if_pos hk, hsub, List.range'_succ]
      exact ih (k := k + 1) (by omega)
    · rw [if_neg hk, Nat.sub_eq_zero_of_le (by omega)]
      rfl

/-- The second loop, after `k` words. -/
theorem padLoop_eq (hn : 256 ≤ k + n) :
    padLoop d (2 * k) n = writeDatas d (List.replicate (256 - k) 0) := by
  induction n generalizing k d with
  | zero =>
    rw [Nat.sub_eq_zero_of_le (by omega)]
    rfl
  | succ n ih =>
    rw [padLoop]
    by_cases hk : k < 256
    · have hsub : 256 - k = (256 - (k + 1)) + 1 := by omega
      rw [if_pos (by omega), hsub, List.replicate_succ]
      exact ih (k := k + 1) (by omega)
    · rw [if_neg (by omega), Nat.sub_eq_zero_of_le (by omega)]
      rfl

/-- The first loop of `Read28` prints the bytes of the sector, after `k` words. -/
theorem readLoop_eq (hcommand : d.command = 0x20) (hsent : d.sent = k) (hcount : count ≤ 512)
    (hn : (count + 1) / 2 ≤ k + n) : (readLoop count d (2 * k) n).2 =
      (List.range' (2 * k) (count - 2 * k)).map (byte (d.sectors d.target)) := by
  have heven : byte (d.sectors d.target) (2 * k) = (d.sectors d.target k &&& 0xFF).toUInt8 := by
    rw [byte, if_pos (by omega), Nat.mul_div_cancel_left _ (by decide)]
  have hodd : byte (d.sectors d.target) (2 * k + 1) = ((d.sectors d.target k >>> 8) &&& 0xFF).toUInt8 := by
    rw [byte, if_neg (by omega), show (2 * k + 1) / 2 = k by omega]
  induction n generalizing k d with
  | zero =>
    rw [Nat.sub_eq_zero_of_le (by omega)]
    rfl
  | succ n ih =>
    rw [readLoop]
    by_cases hk : 2 * k < count
    · have hread : d.readData = (d.sectors d.target k, { d with sent := k + 1 }) := by
        rw [Device.readData, if_pos ⟨hcommand, by omega⟩, hsent]
      have hrest := ih (k := k + 1) (d := { d with sent := k + 1 }) hcommand rfl (by omega)
        (by rw [byte, if_pos (by omega), Nat.mul_div_cancel_left _ (by decide)])
        (by rw [byte, if_neg (by omega), show (2 * (k + 1) + 1) / 2 = k + 1 by omega])
      rw [if_pos hk, hread]
      dsimp only at hrest ⊢
      rw [Nat.mul_succ] at hrest
      rw [hrest]
      -- Two bytes, unless the second one is beyond the end.
      by_cases hk' : 2 * k + 1 < count
      · have hsub : count - 2 * k = (count - (2 * k + 2)) + 1 + 1 := by omega
        rw [if_pos hk', hsub, List.range'_succ, List.range'_succ, List.map_cons, List.map_cons, heven, hodd]
        rfl
      · have hsub : count - 2 * k = 0 + 1 := by omega
        rw [if_neg hk', Nat.sub_eq_zero_of_le (by omega), hsub, List.range'_succ, List.map_cons, heven]
        rfl
    · rw [if_neg hk, Nat.sub_eq_zero_of_le (by omega)]
      rfl

end transfer

/-! ## Sectors -/

section sectors

variable {master : Bool} {d : Device} {s : UInt32} {data : ℕ → UInt8} {count : UInt32}
  {fuel j k n : ℕ} {w : Write} {ws : List Write}

/-- The words that `Write28` transfers. -/
def words (data : ℕ → UInt8) (count : ℕ) : List UInt16 :=
  (List.range' 0 ((count + 1) / 2)).map (fun k => wdata data count (2 * k)) ++
    List.replicate (256 - (count + 1) / 2) 0

theorem length_words (h : n ≤ 512) : (words data n).length = 256 := by
  rw [words, List.length_append, List.length_map, List.length_range', List.length_replicate]
  omega

theorem getD_words :
    (words data n).getD k 0 = if 2 * k < n then wdata data n (2 * k) else 0 := by
  rw [words]
  by_cases h : 2 * k < n
  · have hlen : k < ((List.range' 0 ((n + 1) / 2)).map fun k => wdata data n (2 * k)).length := by
      rw [List.length_map, List.length_range']
      omega
    rw [if_pos h, List.getD_append _ _ _ _ hlen, List.getD_eq_getElem _ _ hlen, List.getElem_map,
      List.getElem_range', Nat.zero_add, Nat.one_mul]
  · rw [if_neg h, List.getD_append_right _ _ _ _ (by simp; omega)]
    simp

/-- A word has the two bytes. -/
theorem toNat_wdata (h : j + 1 < n) :
    (wdata data n j).toNat = (data j).toNat + 256 * (data (j + 1)).toNat := by
  have hlow := (data j).toNat_lt
  have hhigh := (data (j + 1)).toNat_lt
  rw [wdata, if_pos h, UInt16.toNat_or, UInt16.toNat_shiftLeft, UInt8.toNat_toUInt16,
    UInt8.toNat_toUInt16]
  change _ ||| (data (j + 1)).toNat <<< 8 % 2 ^ 16 = _
  rw [Nat.mod_eq_of_lt (by rw [Nat.shiftLeft_eq]; omega), Nat.or_comm,
    ← Nat.shiftLeft_add_eq_or_of_lt hlow, Nat.shiftLeft_eq]
  omega

theorem toNat_low {v : UInt16} : ((v &&& 0xFF).toUInt8).toNat = v.toNat % 256 := by
  rw [UInt16.toNat_toUInt8, UInt16.toNat_and]
  change (v.toNat &&& (2 ^ 8 - 1)) % 2 ^ 8 = _
  rw [Nat.and_two_pow_sub_one_eq_mod, Nat.mod_mod]

theorem toNat_high {v : UInt16} : (((v >>> 8) &&& 0xFF).toUInt8).toNat = v.toNat / 256 := by
  have hv := v.toNat_lt
  rw [toNat_low, UInt16.toNat_shiftRight]
  change v.toNat >>> 8 % 256 = _
  rw [Nat.shiftRight_eq_div_pow]
  omega

/-- The bytes transferred are the data and zeroes. -/
theorem byte_words :
    byte ((words data n).getD · 0) j = if j < n then data j else 0 := by
  rw [byte, getD_words]
  by_cases hn : 2 * (j / 2) < n
  · rw [if_pos hn]
    -- A word of two bytes of the data, or the last one, of one byte and a zero.
    by_cases hn' : 2 * (j / 2) + 1 < n
    · have hw : (wdata data n (2 * (j / 2))).toNat = _ := toNat_wdata hn'
      have hlow := (data (2 * (j / 2))).toNat_lt
      split_ifs with heven hlt hlt
      · apply UInt8.toNat_inj.1
        rw [toNat_low, hw, show 2 * (j / 2) = j by omega] at *
        omega
      · omega
      · apply UInt8.toNat_inj.1
        rw [toNat_high, hw, show 2 * (j / 2) + 1 = j by omega]
        omega
      · omega
    · have hw : wdata data n (2 * (j / 2)) = (data (2 * (j / 2))).toUInt16 := if_neg hn'
      have hlow := (data (2 * (j / 2))).toNat_lt
      rw [hw]
      split_ifs with heven hlt hlt
      · apply UInt8.toNat_inj.1
        rw [toNat_low, UInt8.toNat_toUInt16, show 2 * (j / 2) = j by omega] at *
        omega
      · omega
      · omega
      · apply UInt8.toNat_inj.1
        rw [toNat_high, UInt8.toNat_toUInt16]
        change _ = 0
        omega
  · rw [if_neg hn, if_neg (show ¬j < n by omega)]
    split_ifs <;> rfl

variable (master d data) in
/-- `Write28` transfers its words to the place of the sector. -/
theorem write28_eq (hs : s.toNat < 2 ^ 28) (hcount : count.toNat ≤ 512) :
    write28 master d s data count = { issue master d s 0x30 with
      received := words data count.toNat
      sectors := Function.update d.sectors (place master d.high s) fun k =>
        if k < 256 then (words data count.toNat).getD k 0 else d.sectors (place master d.high s) k } := by
  have hs' : ¬s > 0x0FFFFFFF := fun h => by
    have : 0x0FFFFFFF < s.toNat := h
    omega
  have hcount' : ¬count > 512 := fun h => by
    have : 512 < count.toNat := h
    omega
  have hpad : count.toNat + count.toNat % 2 = 2 * ((count.toNat + 1) / 2) := by omega
  rw [write28, if_neg hs', if_neg hcount', hpad]
  dsimp only
  rw [writeLoop_eq (k := 0) (by omega), padLoop_eq (by omega), ← writeDatas_append, Nat.sub_zero]
  change writeDatas _ (words data count.toNat) = _
  have hcommand : (issue master d s 0x30).command = 0x30 := by rw [issue_eq]
  have hreceived : (issue master d s 0x30).received = [] := by rw [issue_eq]
  have htarget : (issue master d s 0x30).target = place master d.high s := by rw [issue_eq]
  have hsectors : (issue master d s 0x30).sectors = d.sectors := by rw [issue_eq]
  have hlen : (words data count.toNat).length = 256 := length_words hcount
  rw [writeDatas_eq hcommand (by rw [hreceived, hlen]; decide), hreceived, htarget,
    hsectors]
  simp only [List.length_nil, Nat.zero_le, true_and, Nat.zero_add, Nat.sub_zero, List.nil_append, hlen]

/-- `Read28` prints the bytes at the place of the sector. -/
theorem delivered_eq (hs : s.toNat < 2 ^ 28) (hn : n ≤ 512) (hfuel : d.latency < fuel) :
    delivered master d s n fuel =
      some ((List.range n).map (byte (d.sectors (place master d.high s)))) := by
  have hs' : ¬s > 0x0FFFFFFF := fun h => by
    have : 0x0FFFFFFF < s.toNat := h
    omega
  rw [delivered, read28, if_neg hs', issue_eq, poll_eq hfuel]
  have hstatus : ¬(0x40 : UInt8) &&& 0x01 ≠ 0 := by decide
  simp only [Option.map_some, if_neg hstatus]
  rw [readLoop_eq (k := 0) rfl rfl hn (by omega), Nat.mul_zero, Nat.sub_zero, List.range_eq_range']

end sectors

/-! ## Sequences of writes -/

section writes

variable {master : Bool} {d : Device} {s : UInt32} {w : Write} {ws : List Write} {j : ℕ}

theorem writes_append : writes master d (ws ++ [w]) =
    write28 master (writes master d ws) w.sector w.data w.count := by
  rw [writes, writes, List.foldl_append]
  rfl

/-- The writes among `ws` to the place `p`. -/
def writesTo (master : Bool) (d : Device) (p : Bool × ℕ) (ws : List Write) : List Write :=
  ws.filter fun w => place master d.high w.sector = p

theorem stored_append {bytes : ℕ → UInt8} : stored (ws ++ [w]) bytes = w.bytes := by
  simp [stored]

variable (master d) in
/-- Each place has the bytes of the last write to it. -/
theorem byte_writes (hws : ∀ w ∈ ws, w.Valid) :
    (writes master d ws).high = d.high ∧ (writes master d ws).latency = d.latency ∧
      ∀ p, ∀ j < 512, byte ((writes master d ws).sectors p) j =
        stored (writesTo master d p ws) (byte (d.sectors p)) j := by
  induction ws using List.reverseRecOn with
  | nil => exact ⟨rfl, rfl, fun p j _ => rfl⟩
  | append_singleton ws w ih =>
    obtain ⟨hhigh, hlatency, hbytes⟩ := ih fun w hw => hws w (List.mem_append_left _ hw)
    obtain ⟨hs, hcount⟩ := hws w (by simp)
    have hw := write28_eq master (writes master d ws) w.data hs hcount
    rw [← writes_append, hhigh] at hw
    have hissue := issue_eq master (writes master d ws) w.sector 0x30
    refine ⟨by rw [hw, hissue, hhigh], by rw [hw, hissue, hlatency], fun p j hj => ?_⟩
    have hsectors := congrArg Device.sectors hw
    dsimp only at hsectors
    rw [hsectors, writesTo, List.filter_append]
    by_cases hp : place master d.high w.sector = p
    · have hcongr : byte (fun k => if k < 256 then (words w.data w.count.toNat).getD k 0
          else (writes master d ws).sectors p k) j = byte ((words w.data w.count.toNat).getD · 0) j := by
        simp only [byte, if_pos (show j / 2 < 256 by omega)]
      rw [List.filter_cons_of_pos (by simpa using hp), List.filter_nil, stored_append, hp,
        Function.update_self, hcongr, byte_words]
      rfl
    · rw [List.filter_cons_of_neg (by simpa using hp), List.filter_nil, List.append_nil,
        Function.update_of_ne (Ne.symm hp)]
      exact hbytes p j hj

/-- The sectors that differ from `s` in the low byte only were last left with the bytes that
    the last write to `s` left. -/
def Undisturbed (master : Bool) (d : Device) (ws : List Write) (s : UInt32) : Prop :=
  ∀ j < 512, stored (ws.filter fun w => w.sector.toNat / 256 = s.toNat / 256)
      (byte (d.sectors (place master d.high s))) j =
    stored (ws.filter fun w => w.sector = s) (byte (d.sectors (place master d.high s))) j

theorem writesTo_place (hws : ∀ w ∈ ws, w.Valid) (hs : s.toNat < 2 ^ 28) :
    writesTo master d (place master d.high s) ws =
      ws.filter fun w => w.sector.toNat / 256 = s.toNat / 256 :=
  List.filter_congr fun w hw => by simp [place_eq_iff (hws w hw).1 hs]

/-- The driver is a sector store exactly if the last write to a sector with the same number
    but for the low byte is one to the sector itself, or wrote the same bytes. -/
theorem isStore_iff (hws : ∀ w ∈ ws, w.Valid) (hs : s.toNat < 2 ^ 28) :
    IsStore master d ws s ↔ Undisturbed master d ws s := by
  obtain ⟨hhigh, hlatency, hbytes⟩ := byte_writes master d hws
  have hread : ∀ n ≤ 512, ∀ fuel > d.latency, delivered master (writes master d ws) s n fuel =
      some ((List.range n).map (stored (ws.filter fun w => w.sector.toNat / 256 = s.toNat / 256)
        (byte (d.sectors (place master d.high s))))) := fun n hn fuel hfuel => by
    rw [delivered_eq hs hn (hlatency ▸ hfuel), hhigh, ← writesTo_place hws hs]
    congr 1
    exact List.map_congr_left fun j hj => hbytes _ j (by have := List.mem_range.1 hj; omega)
  have hexpected : ∀ n ≤ 512, ∀ fuel > d.latency,
      (match (ws.filter (·.sector = s)).getLast? with
        | some w => some ((List.range n).map w.bytes)
        | none => delivered master d s n fuel) =
      some ((List.range n).map (stored (ws.filter fun w => w.sector = s)
        (byte (d.sectors (place master d.high s))))) := fun n hn fuel hfuel => by
    rw [stored]
    cases (ws.filter (·.sector = s)).getLast? with
    | some w => rfl
    | none => exact delivered_eq hs hn hfuel
  -- Both sides compare the byte that the device has with the one that was written last.
  constructor
  · intro h j hj
    have hall := h.delivers 512 (Nat.le_refl _) (d.latency + 1) (Nat.lt_succ_self _)
    rw [hread _ (Nat.le_refl _) _ (Nat.lt_succ_self _), hexpected _ (Nat.le_refl _) _ (Nat.lt_succ_self _)] at hall
    exact List.map_inj_left.1 (Option.some.inj hall) j (List.mem_range.2 hj)
  · intro h
    refine ⟨fun k w hk => ?_, fun n hn fuel hfuel => ?_⟩
    · have hw := hws w (List.mem_of_getElem? hk)
      rw [List.take_add_one, hk, Option.toList_some, writes_append, write28_eq _ _ _ hw.1 hw.2]
      exact ⟨length_words hw.2, fun j _ => byte_words⟩
    · rw [hread n hn fuel hfuel, hexpected n hn fuel hfuel]
      congr 1
      exact List.map_congr_left fun j hj => h j (by have := List.mem_range.1 hj; omega)

/-- A disk full of zeroes. -/
def emptyDisk : Device := ⟨0, 0, 0, 0, fun _ _ => 0, 0, (false, 0), [], 0, 0, 0⟩

/-- A byte is written to a sector. -/
def writeByte (s : UInt32) (v : UInt8) : Write := ⟨s, fun _ => v, 1⟩

/-- A write to the first sector, which is then read. -/
theorem isStore_iff_first : IsStore true emptyDisk [writeByte 0 1] 0 := by
  refine (isStore_iff (by simp [Write.Valid, writeByte]) (by decide)).2 fun j _ => ?_
  rfl

/-- A write to the second sector is one to the first. -/
theorem not_isStore_second : (∀ w ∈ [writeByte 1 1], w.Valid) ∧ ¬IsStore true emptyDisk [writeByte 1 1] 0 := by
  refine ⟨by simp [Write.Valid, writeByte], fun h => ?_⟩
  have hread := h.delivers 1 (by decide) 1 (by decide)
  exact absurd hread (by decide +kernel)

end writes

end GtuOs.Ata

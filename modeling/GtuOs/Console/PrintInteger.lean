import GtuOs.Console.Printf
import GtuOs.Lib.Buffer
import Mathlib.Data.Nat.Digits.Lemmas

/-!
# Printing numbers

`printInteger` and `printfHex`, from `kernel.cpp`. The digits of an integer are put into an array, the
last one first, which is then reversed. What is printed is the numeral of the integer (`numeralOf`),
from which the integer is read back (`valueOf_numeralOf`), and the array has room for it
(`printInteger_eq`). The negative of the least integer overflows.
-/

namespace GtuOs

/-- A string of ASCII, as bytes. -/
def ascii (str : String) : List UInt8 := str.toList.map fun c => .ofNat c.toNat

/-! ## Hexadecimal numbers -/

/-- The string `hex`. -/
def hex : List UInt8 := ascii "0123456789ABCDEF"

/-- What `printfHex` prints. -/
def hexByte (key : UInt8) : List UInt8 :=
  [hex.getD ((key >>> 4) &&& 0xF).toNat 0, hex.getD (key &&& 0xF).toNat 0]

namespace Console

/-- `printfHex`. -/
def printfHex (s : Console) (key : UInt8) : Console := s.printf (hexByte key)

/-- `printfHex16`. -/
def printfHex16 (s : Console) (key : UInt16) : Console :=
  (s.printfHex (key >>> 8).toUInt8).printfHex key.toUInt8

/-- `printfHex32`. -/
def printfHex32 (s : Console) (key : UInt32) : Console :=
  (((s.printfHex (key >>> 24).toUInt8).printfHex (key >>> 16).toUInt8).printfHex (key >>> 8).toUInt8).printfHex
    key.toUInt8

end Console

/-! ## Integers -/

/-- `'0'`. -/
def digitZero : UInt8 := 48

/-- `'-'`. -/
def hyphen : UInt8 := 45

theorem toInt_div_ten (num : Int32) : (num / 10).toInt = num.toInt.tdiv 10 := by
  have hlt := num.toInt_lt
  have hle := num.le_toInt
  have h10 : (10 : Int32).toInt = 10 := rfl
  have habs : (num.toInt.tdiv 10).natAbs = num.toInt.natAbs / 10 := Int.natAbs_tdiv _ _
  rw [Int32.toInt_div, h10]
  exact Int.bmod_eq_of_le (by omega) (by omega)

/-- The loop over the digits of `printInteger`, with the number of those put into the array. -/
def putDigits (num : Int32) (str : Buffer UInt8) (i : ℕ) : Buffer UInt8 × ℕ :=
  if num = 0 then (str, i)
  else putDigits (num / 10) (str.set i (num % 10 + digitZero.toInt8.toInt32).toInt8.toUInt8) (i + 1)
  termination_by num.toInt.natAbs
  decreasing_by
    have hne : num.toInt ≠ 0 := fun h => ‹¬num = 0› (Int32.toInt_inj.1 h)
    have habs : (num.toInt.tdiv 10).natAbs = num.toInt.natAbs / 10 := Int.natAbs_tdiv _ _
    rw [toInt_div_ten, habs]
    omega

/-- The array that `printInteger` prints at last, and was `str` at first. -/
def putNumeral (num : Int32) (str : Buffer UInt8) : Buffer UInt8 :=
  if num = 0 then (str.set 0 digitZero).set 1 0
  else
    let (str, i) := putDigits (if num < 0 then -num else num) str 0
    let (str, i) := if num < 0 then (str.set i hyphen, i + 1) else (str, i)
    (str.set i 0).reverse 0 (i - 1)

/-- The string in an array of 512 bytes. -/
def stringIn (str : Buffer UInt8) : List UInt8 := (str.toList 512).takeWhile (· ≠ 0)

/-- `printInteger`, with what the array holds at first. -/
def Console.printInteger (s : Console) (num : Int32) (str : Buffer UInt8) : Console :=
  (if num < 0 then s else s.printf [space]).printf (stringIn (putNumeral num str))

/-- The digits of a number. -/
def digitsOf (n : ℕ) : List UInt8 :=
  if n = 0 then [digitZero] else ((Nat.digits 10 n).map fun d => digitZero + .ofNat d).reverse

/-- The numeral of an integer, after a sign or a blank. -/
def numeralOf (n : ℤ) : List UInt8 := (if n < 0 then hyphen else space) :: digitsOf n.natAbs

/-- The integer that a numeral stands for. -/
def valueOf : List UInt8 → ℤ
  | [] => 0
  | sign :: digits =>
    let n : ℕ := Nat.ofDigits 10 (digits.reverse.map fun d => (d - digitZero).toNat)
    if sign = hyphen then -n else n

/-! ## Numerals -/

theorem digit_sub {d : ℕ} (hd : d < 10) : (digitZero + UInt8.ofNat d - digitZero).toNat = d := by
  rw [UInt8.add_comm, UInt8.add_sub_cancel]
  exact UInt8.toNat_ofNat_of_lt' (hd.trans (by decide))

theorem digit_ne_zero {d : ℕ} (hd : d < 10) : digitZero + UInt8.ofNat d ≠ 0 := by
  interval_cases d <;> decide

theorem charOf_digit {d : ℕ} {num : Int32} (hd : d < 10) (hnum : num.toInt = d) :
    (num + digitZero.toInt8.toInt32).toInt8.toUInt8 = digitZero + .ofNat d := by
  obtain rfl : num = Int32.ofInt d := Int32.toInt_inj.1 (hnum.trans (by interval_cases d <;> rfl))
  interval_cases d <;> decide

/-- The numeral reads back. -/
theorem valueOf_numeralOf (n : ℤ) : valueOf (numeralOf n) = n := by
  have hdigits : ((digitsOf n.natAbs).reverse.map fun d => (d - digitZero).toNat) =
      if n.natAbs = 0 then [0] else Nat.digits 10 n.natAbs := by
    rw [digitsOf]
    split_ifs
    · rfl
    · rw [List.reverse_reverse, List.map_map]
      exact (List.map_congr_left fun d hd => digit_sub (Nat.digits_lt_base (by decide) hd)).trans (List.map_id _)
  have hvalue : Nat.ofDigits 10 (if n.natAbs = 0 then [0] else Nat.digits 10 n.natAbs) = n.natAbs := by
    split_ifs with h
    · rw [h]
      rfl
    · exact Nat.ofDigits_digits 10 _
  simp only [numeralOf, valueOf, hdigits, hvalue]
  by_cases hn : n < 0
  · rw [if_pos hn, if_pos rfl]
    omega
  · rw [if_neg hn, if_neg (by decide)]
    omega

/-- The digits that are put into the array. -/
theorem putDigits_spec {num : Int32} (h : 0 ≤ num.toInt) (str : Buffer UInt8) (i : ℕ) :
    (putDigits num str i).2 = i + (Nat.digits 10 num.toInt.natAbs).length ∧
      (putDigits num str i).1.toList (putDigits num str i).2 =
        str.toList i ++ (Nat.digits 10 num.toInt.natAbs).map (fun d => digitZero + .ofNat d) ∧
      (putDigits num str i).1.top ≤ max str.top (putDigits num str i).2 := by
  induction num, str, i using putDigits.induct with
  | case1 str i => simp [putDigits]
  | case2 num str i hne ih =>
    have hdiv := toInt_div_ten num
    have hpos : 0 < num.toInt.natAbs := Int.natAbs_pos.2 fun h => hne (Int32.toInt_inj.1 h)
    have htdiv : num.toInt.tdiv 10 = num.toInt / 10 := Int.tdiv_eq_ediv_of_nonneg h
    have habs : (num / 10).toInt.natAbs = num.toInt.natAbs / 10 := by
      rw [hdiv, htdiv]
      omega
    have hdigit : (num % 10 + digitZero.toInt8.toInt32).toInt8.toUInt8 =
        digitZero + UInt8.ofNat (num.toInt.natAbs % 10) := by
      have h10 : (10 : Int32).toInt = 10 := rfl
      refine charOf_digit (Nat.mod_lt _ (by decide)) ?_
      rw [Int32.toInt_mod, h10, Int.tmod_eq_emod_of_nonneg h]
      omega
    rw [hdigit] at ih
    obtain ⟨hlen, htext, htop⟩ := ih (by rw [hdiv, htdiv]; omega)
    rw [Buffer.top_set] at htop
    rw [putDigits, if_neg hne, hdigit, htext, habs, Nat.digits_def' (by decide) hpos, Buffer.toList_set_end]
    refine ⟨?_, ?_, ?_⟩
    · rw [hlen, habs, List.length_cons]
      omega
    · rw [List.map_cons, List.append_assoc]
      rfl
    · omega

/-- A string that is terminated in the array. -/
theorem stringIn_eq {str : Buffer UInt8} {l : List UInt8} (hl : str.toList l.length = l) (hend : str.get l.length = 0)
    (hlt : l.length < 512) (hne : ∀ c ∈ l, c ≠ 0) : stringIn str = l := by
  obtain ⟨k, hk⟩ : ∃ k, 512 = l.length + (k + 1) := ⟨511 - l.length, by omega⟩
  have hsplit : str.toList 512 = l ++ 0 :: (List.range k).map fun j => str.get (l.length + (j + 1)) := by
    rw [hk, Buffer.toList, List.range_add, List.map_append, List.map_map, List.range_succ_eq_map, List.map_cons,
      List.map_map]
    refine congr (congrArg _ hl) (congr (congrArg _ hend) rfl)
  rw [stringIn, hsplit, List.takeWhile_append_of_pos fun c hc => by simpa using hne c hc]
  simp

/-- A string is terminated, and then reversed. -/
theorem stringIn_reverse {str : Buffer UInt8} {i : ℕ} (hpos : 0 < i) (hlt : i < 512)
    (hne : ∀ c ∈ str.toList i, c ≠ 0) : stringIn ((str.set i 0).reverse 0 (i - 1)) = (str.toList i).reverse := by
  have hlen : (str.toList i).reverse.length = i := by rw [List.length_reverse, Buffer.length_toList]
  have hkeep : (str.set i 0).toList i = str.toList i :=
    Buffer.toList_congr fun j hj => by rw [Buffer.get_set, if_neg hj.ne]
  refine stringIn_eq ?_ ?_ (hlen.trans_lt hlt) fun c hc => hne c (List.mem_reverse.1 hc)
  · rw [hlen, Buffer.toList_reverse, hkeep]
  · rw [hlen, Buffer.get_reverse, if_neg (by omega), Buffer.get_set, if_pos rfl]

theorem digitsOf_ne_zero {n : ℕ} {c : UInt8} (hc : c ∈ digitsOf n) : c ≠ 0 := by
  rw [digitsOf] at hc
  split_ifs at hc
  · obtain rfl := List.mem_singleton.1 hc
    decide
  · obtain ⟨d, hd, rfl⟩ := List.mem_map.1 (List.mem_reverse.1 hc)
    exact digit_ne_zero (Nat.digits_lt_base (by decide) hd)

/-- The absolute value, which the least integer does not have. -/
theorem toInt_abs {num : Int32} (h : num ≠ Int32.minValue) :
    (if num < 0 then -num else num).toInt = num.toInt.natAbs := by
  have hlt := num.toInt_lt
  have hle := num.le_toInt
  have hmin : num.toInt ≠ -2 ^ 31 := fun hmin => h (Int32.toInt_inj.1 hmin)
  split_ifs with hneg
  · rw [Int32.lt_iff_toInt_lt, Int32.toInt_zero] at hneg
    rw [Int32.toInt_neg, Int.bmod_eq_of_le (by omega) (by omega)]
    omega
  · rw [Int32.lt_iff_toInt_lt, Int32.toInt_zero] at hneg
    omega

/-- The array holds the numeral, but for the blank, and has room for it. -/
theorem putNumeral_spec {num : Int32} (h : num ≠ Int32.minValue) (str : Buffer UInt8) :
    stringIn (putNumeral num str) = (if num < 0 then [hyphen] else []) ++ digitsOf num.toInt.natAbs ∧
      (putNumeral num str).top ≤ max str.top 12 := by
  have hlt := num.toInt_lt
  have hle := num.le_toInt
  rw [putNumeral]
  by_cases hzero : num = 0
  · subst hzero
    rw [if_pos rfl]
    refine ⟨stringIn_eq (l := [digitZero]) rfl rfl (by decide +kernel) (by decide +kernel), ?_⟩
    rw [Buffer.top_set, Buffer.top_set]
    omega
  · rw [if_neg hzero]
    have habs := toInt_abs h
    have hpos' : 0 ≤ (if num < 0 then -num else num).toInt := by omega
    obtain ⟨hlen, htext, htop⟩ := putDigits_spec hpos' str 0
    rw [habs, Int.natAbs_natCast] at hlen htext
    have hpos : num.toInt.natAbs ≠ 0 := fun h => hzero (Int32.toInt_inj.1 (Int.natAbs_eq_zero.1 h))
    have hdigits : (Nat.digits 10 num.toInt.natAbs).length ≤ 10 :=
      (Nat.digits_length_le_iff (by decide) _).2 (by omega)
    have hne : digitsOf num.toInt.natAbs = ((Nat.digits 10 num.toInt.natAbs).map
        fun d => digitZero + .ofNat d).reverse := if_neg hpos
    have hlist : ∀ c ∈ (Nat.digits 10 num.toInt.natAbs).map (fun d => digitZero + .ofNat d), c ≠ 0 := fun c hc =>
      digitsOf_ne_zero (hne ▸ List.mem_reverse.2 hc)
    generalize putDigits (if num < 0 then -num else num) str 0 = p at *
    obtain ⟨str', i⟩ := p
    simp only [Nat.zero_add] at hlen htext htop
    have htext : str'.toList i = (Nat.digits 10 num.toInt.natAbs).map fun d => digitZero + .ofNat d := htext
    have hi : 0 < i := by
      rw [hlen, List.length_pos_iff]
      exact Nat.digits_ne_nil_iff_ne_zero.2 hpos
    dsimp only
    split_ifs with hneg
    · have hsign : (str'.set i hyphen).toList (i + 1) = str'.toList i ++ [hyphen] := Buffer.toList_set_end _ _ _
      constructor
      · rw [stringIn_reverse (by omega) (by omega), hsign, htext, List.reverse_append, hne]
        · rfl
        · rw [hsign, htext]
          intro c hc
          rcases List.mem_append.1 hc with hc | hc
          · exact hlist c hc
          · obtain rfl := List.mem_singleton.1 hc
            decide
      · refine Buffer.top_reverse_le ?_ (by omega)
        simp only [Buffer.top_set]
        omega
    · constructor
      · rw [stringIn_reverse hi (by omega), htext, hne]
        · rfl
        · rw [htext]
          exact hlist
      · refine Buffer.top_reverse_le ?_ (by omega)
        change max str'.top (i + 1) ≤ _
        omega

theorem Console.printInteger_numeralOf (s : Console) {num : Int32} (h : num ≠ Int32.minValue) (str : ℕ → UInt8) :
    s.printInteger num ⟨str, 0⟩ = s.printf (numeralOf num.toInt) := by
  have hneg : num < 0 ↔ num.toInt < 0 := by rw [Int32.lt_iff_toInt_lt, Int32.toInt_zero]
  rw [printInteger, (putNumeral_spec h ⟨str, 0⟩).1, numeralOf]
  by_cases hnum : num < 0
  · rw [if_pos hnum, if_pos hnum, if_pos (hneg.1 hnum)]
    rfl
  · rw [if_neg hnum, if_neg hnum, if_neg (hneg.not.1 hnum)]
    rfl

/-- **Integers are printed as numerals**, with a blank before those that are not negative; the array has room
    for them. The digits read back as the integer. -/
theorem Console.printInteger_eq (s : Console) {num : Int32} (h : num ≠ Int32.minValue) (str : ℕ → UInt8) :
    s.printInteger num ⟨str, 0⟩ = s.printf (numeralOf num.toInt) ∧ valueOf (numeralOf num.toInt) = num.toInt ∧
      (putNumeral num ⟨str, 0⟩).top ≤ 512 :=
  ⟨s.printInteger_numeralOf h str, valueOf_numeralOf _,
    (putNumeral_spec h ⟨str, 0⟩).2.trans (Nat.le_of_ble_eq_true rfl)⟩

/-- A negative integer, in an array that is not empty. -/
theorem Console.printInteger_eq_negative :
    ((start fun _ => 0x0720).printInteger (-107) ⟨fun _ => 7, 0⟩ =
      (start fun _ => 0x0720).printf (numeralOf (-107))) ∧ valueOf (numeralOf (-107)) = -107 := by
  have hne : (-107 : Int32) ≠ Int32.minValue := by decide
  have h := printInteger_eq (start fun _ => 0x0720) hne fun _ => 7
  exact ⟨h.1, h.2.1⟩

end GtuOs

import GtuOs.Lib.Searching
import GtuOs.Multitasking.ProcessTable

/-!
# The searching programs

`binarySearch` and `linearSearch`, from `kernel.cpp`, for any array. The first one sorts its copy of the array and
prints it, then the index at which it finds the number in the sorted array; the second one prints the first index at
which the number is. Neither leaves its array, and both find the number if it is there (`searches_eq`).

The indices are integers of 32 bits in the source. The sum of two indices of an array of at most `2 ^ 30` elements is
one.
-/

namespace GtuOs

/-- The array of the programs. -/
def homeworkArray : Buffer ℤ := ⟨fun i => [10, 20, 80, 30, 60, 50, 110, 100, 130, 170].getD i 0, 10⟩

/-- `resIdx` of the linear search. -/
def resIdx : Option ℕ → ℤ
  | none => -1
  | some i => i

namespace Console

/-- The last lines of both programs, before they exit. -/
def printResult (raw : ℕ → UInt8) (c : Console) (resIdx : ℤ) : Console :=
  ((c.printf (ascii "Result: ")).printInteger (.ofInt resIdx) ⟨raw, 0⟩).printf (ascii "\n")

/-- `binarySearch`, with the sorted array, unless it reads outside the array. -/
def binarySearch (raw : ℕ → UInt8) (c : Console) (arr : Buffer ℤ) (len : ℕ) (x : ℤ) : Option (Buffer ℤ × Console) :=
  let arr := arr.insertionSort 1 (len - 1)
  let c := c.printf (ascii "Sorted Array to Search: ")
  let c := (List.range len).foldl
    (fun c i => (c.printInteger (.ofInt (arr.get i)) ⟨raw, 0⟩).printf (ascii " ")) c
  let c := c.printf (ascii "\n")
  (arr.binarySearch len x 0 (len - 1)).map fun resIdx => (arr, c.printResult raw resIdx)

/-- `linearSearch`. -/
def linearSearch (raw : ℕ → UInt8) (c : Console) (arr : Buffer ℤ) (len : ℕ) (x : ℤ) : Console :=
  c.printResult raw (resIdx (arr.find (· = x) 0 len))

end Console

/-- The text of a result. -/
def resultText (resIdx : ℤ) : List UInt8 := ascii "Result: " ++ numeralOf resIdx ++ [newline]

/-- The text of `binarySearch`. -/
def searchText (sorted : List ℤ) (resIdx : ℤ) : List UInt8 :=
  ascii "Sorted Array to Search: " ++ sorted.flatMap (fun n => numeralOf n ++ [space]) ++ [newline] ++
    resultText resIdx

/-- An index at which `x` is, or `-1` if there is none. -/
def IsResult (l : List ℤ) (x r : ℤ) : Prop := (∃ i : ℕ, r = i ∧ l[i]? = some x) ∨ r = -1 ∧ x ∉ l

variable {arr : Buffer ℤ} {len : ℕ} {x r : ℤ} {l : List ℤ} {raw : ℕ → UInt8} {c : Console}

theorem IsResult.mem_iff (h : IsResult l x r) : x ∈ l ↔ r ≠ -1 := by
  rcases h with ⟨i, rfl, hi⟩ | ⟨rfl, hx⟩
  · exact iff_of_true (List.mem_of_getElem? hi) (by omega)
  · exact iff_of_false hx fun h => h rfl

theorem IsResult.printable (h : IsResult l x r) (hlen : l.length ≤ 2 ^ 30) : IsPrintable r := by
  rcases h with ⟨i, rfl, hi⟩ | ⟨rfl, -⟩
  · have hlt : i < l.length := (List.getElem?_eq_some_iff.1 hi).1
    exact ⟨by omega, by omega⟩
  · exact ⟨by norm_num, by norm_num⟩

theorem getElem?_toList {i : ℕ} (h : i < len) : (arr.toList len)[i]? = some (arr.get i) := by
  rw [List.getElem?_eq_getElem (by simpa using h), Buffer.getElem_toList]

/-- The linear search finds the first index. -/
theorem isResult_find (arr : Buffer ℤ) (len : ℕ) (x : ℤ) :
    IsResult (arr.toList len) x (resIdx (arr.find (· = x) 0 len)) ∧
      ∀ i : ℕ, i < resIdx (arr.find (· = x) 0 len) → (arr.toList len)[i]? ≠ some x := by
  have hspec := Buffer.find_spec (fun y => decide (y = x)) arr 0 len
  cases hfind : arr.find (fun y => decide (y = x)) 0 len with
  | none =>
    rw [hfind] at hspec
    refine ⟨.inr ⟨rfl, fun hx => ?_⟩, fun i hi => absurd hi (by rw [resIdx]; omega)⟩
    obtain ⟨i, hi, hix⟩ := Buffer.mem_toList.1 hx
    exact hspec i (Nat.zero_le i) (by omega) (decide_eq_true hix)
  | some k =>
    rw [hfind] at hspec
    obtain ⟨-, hk, hkx, hfirst⟩ := hspec
    have hk : k < len := by omega
    refine ⟨.inl ⟨k, rfl, ?_⟩, fun i hi hix => ?_⟩
    · rw [getElem?_toList hk, of_decide_eq_true hkx]
    · have hik : i < k := by
        rw [resIdx] at hi
        omega
      rw [getElem?_toList (hik.trans hk)] at hix
      exact hfirst i (Nat.zero_le i) hik (decide_eq_true (Option.some.inj hix))

namespace Console

theorem printResult_eq (h : IsPrintable r) : c.printResult raw r = c.printf (resultText r) := by
  rw [printResult, printInteger_ofInt h, printf_printf, printf_printf]
  rfl

/-- The sorted array is printed. -/
theorem foldl_printInteger (h : ∀ n ∈ arr.toList len, IsPrintable n) :
    (List.range len).foldl (fun c i => (c.printInteger (.ofInt (arr.get i)) ⟨raw, 0⟩).printf (ascii " ")) c =
      c.printf ((arr.toList len).flatMap fun n => numeralOf n ++ [space]) := by
  induction len with
  | zero => rfl
  | succ len ih =>
    rw [Buffer.toList_succ] at h ⊢
    have hlast : IsPrintable (arr.get len) := h _ (List.mem_append_right _ (List.mem_singleton_self _))
    rw [List.range_succ, List.foldl_append, ih fun n hn => h n (List.mem_append_left _ hn), List.foldl_cons,
      List.foldl_nil, printInteger_ofInt hlast, printf_printf, printf_printf, List.flatMap_append]
    simp only [List.flatMap_cons, List.flatMap_nil, List.append_nil]
    rfl

/-- **Both programs find the number**, if it is in the array. The binary search prints the array in order, and
an index at which the number is in what it has printed; the linear search prints the first one in the
array as it was. Neither leaves the array. -/
theorem searches_eq (raw : ℕ → UInt8) (c c' : Console) (arr : Buffer ℤ) (x : ℤ) (hpos : 0 < len)
    (hlen : len ≤ 2 ^ 30) (hprint : ∀ n ∈ arr.toList len, IsPrintable n) :
    ∃ (arr' : Buffer ℤ) (r r' : ℤ),
      c.binarySearch raw arr len x = some (arr', c.printf (searchText (arr'.toList len) r)) ∧
      c'.linearSearch raw arr len x = c'.printf (resultText r') ∧
      (arr'.toList len).Pairwise (· ≤ ·) ∧ (arr'.toList len).Perm (arr.toList len) ∧ arr'.top ≤ max arr.top len ∧
      IsResult (arr'.toList len) x r ∧ IsResult (arr.toList len) x r' ∧
      (∀ i : ℕ, i < r' → (arr.toList len)[i]? ≠ some x) ∧ (r = -1 ↔ r' = -1) := by
  obtain ⟨n, rfl⟩ : ∃ n, len = 1 + n := ⟨len - 1, by omega⟩
  obtain ⟨hsorted, hperm⟩ := Buffer.insertionSort_spec arr arr.sorted_one n
  obtain ⟨hr', hfirst⟩ := isResult_find arr (1 + n) x
  set arr' := arr.insertionSort 1 n with harr'
  have hri : ((1 + n : ℕ) : ℤ) - 1 < (1 + n : ℕ) := by omega
  obtain ⟨r, hsearch, hr⟩ := Buffer.binarySearch_spec (x := x) hsorted (le_refl (0 : ℤ)) hri
    fun k hk _ => ⟨by omega, by omega⟩
  have hr : IsResult (arr'.toList (1 + n)) x r := by
    rcases hr with ⟨k, hk, rfl, hkx⟩ | ⟨rfl, hx⟩
    · exact .inl ⟨k, rfl, by rw [getElem?_toList hk, hkx]⟩
    · refine .inr ⟨rfl, fun hmem => ?_⟩
      obtain ⟨k, hk, hkx⟩ := Buffer.mem_toList.1 hmem
      exact hx k hk hkx
  have hlength : ∀ b : Buffer ℤ, (b.toList (1 + n)).length ≤ 2 ^ 30 := fun b => by
    rw [Buffer.length_toList]
    exact hlen
  refine ⟨arr', r, _, ?_, ?_, hsorted, hperm, ?_, hr, hr', hfirst, ?_⟩
  · have hn : 1 + n - 1 = n := Nat.add_sub_cancel_left 1 n
    simp only [binarySearch]
    rw [hn, ← harr', hsearch, Option.map_some, printResult_eq (hr.printable (hlength arr')),
      foldl_printInteger fun m hm => hprint m (hperm.mem_iff.1 hm)]
    simp only [printf_printf, searchText, List.append_assoc]
    rfl
  · rw [linearSearch, printResult_eq (hr'.printable (hlength arr))]
  · exact Buffer.top_insertionSort_le (le_max_left _ _) (le_max_right _ _)
  · have hmem := hperm.mem_iff (a := x)
    rw [hr.mem_iff, hr'.mem_iff] at hmem
    exact not_iff_not.1 hmem

/-- The number and the array of the source. -/
theorem searches_eq_homeworkArray :
    ∃ (arr' : Buffer ℤ) (r r' : ℤ),
      (start fun _ => 0x0720).binarySearch (fun _ => 0) homeworkArray 10 110 =
        some (arr', (start fun _ => 0x0720).printf (searchText (arr'.toList 10) r)) ∧
      (start fun _ => 0x0720).linearSearch (fun _ => 0) homeworkArray 10 110 =
        (start fun _ => 0x0720).printf (resultText r') ∧
      IsResult (arr'.toList 10) 110 r ∧ IsResult (homeworkArray.toList 10) 110 r' := by
  have hprint : ∀ n ∈ homeworkArray.toList 10, IsPrintable n := by
    simp [homeworkArray, Buffer.toList, List.range_succ, IsPrintable]
  obtain ⟨arr', r, r', hbinary, hlinear, -, -, -, hr, hr', -⟩ :=
    searches_eq (fun _ => 0) (start fun _ => 0x0720) (start fun _ => 0x0720) homeworkArray 110 (by decide) (by decide)
      hprint
  exact ⟨arr', r, r', hbinary, hlinear, hr, hr'⟩

end Console

end GtuOs

import GtuOs.Lib.Buffer
import Mathlib.Data.Int.Order.Basic
import Mathlib.Order.Lattice

/-!
# Sorting and searching arrays

The insertion sort of an array (`Buffer.insertionSort`), which orders its elements
(`Buffer.sorted_insertionSort`, `Buffer.insertionSort_perm`), and the binary search (`Buffer.binarySearch`), which finds
an element of an ordered array, if there is one (`Buffer.binarySearch_spec`). The binary search fails if it is to read
an element that the array does not have.
-/

namespace Buffer

variable {α : Type*} [LinearOrder α] {b b' : Buffer α} {x : α} {i k len n : ℕ}

/-- The loop that inserts the elements from the index `i` on, `n` of them, each among those before it. -/
def insertionSort (b : Buffer α) (i : ℕ) : ℕ → Buffer α
  | 0 => b
  | n + 1 =>
    let (b', slot) := b.openSlot (b.get i < ·) i
    insertionSort (b'.set slot (b.get i)) (i + 1) n

/-- The loop of the binary search between `li` and `ri`, both included, with the index found or `-1`. -/
def binarySearch (b : Buffer α) (len : ℕ) (x : α) (li ri : ℤ) : Option ℤ :=
  if ri ≥ li then
    let mid := (li + ri) / 2
    if 0 ≤ mid ∧ mid < len then
      if b.get mid.toNat = x then some mid
      else if x < b.get mid.toNat then binarySearch b len x li (mid - 1)
      else binarySearch b len x (mid + 1) ri
    else none
  else some (-1)
  termination_by (ri + 1 - li).toNat
  decreasing_by all_goals omega

/-! ## Sorting -/

/-- The first elements are ordered. -/
def Sorted (b : Buffer α) (n : ℕ) : Prop := (b.toList n).Pairwise (· ≤ ·)

theorem sorted_one (b : Buffer α) : b.Sorted 1 := List.pairwise_singleton _ _

theorem Sorted.get_le {j : ℕ} (h : b.Sorted n) (hij : i ≤ j) (hj : j < n) : b.get i ≤ b.get j := by
  rcases Nat.eq_or_lt_of_le hij with rfl | hlt
  · exact le_rfl
  · have hpair := List.pairwise_iff_getElem.1 h i j (by simpa using hlt.trans hj) (by simpa using hj) hlt
    simpa using hpair

omit [LinearOrder α] in
/-- What is the same from some index on is permuted if it is permuted before it. -/
theorem perm_toList_add (h : (b'.toList k).Perm (b.toList k)) (hget : ∀ j, k ≤ j → b'.get j = b.get j) (n : ℕ) :
    (b'.toList (k + n)).Perm (b.toList (k + n)) := by
  induction n with
  | zero => exact h
  | succ n ih =>
    rw [← Nat.add_assoc, toList_succ, toList_succ, hget _ (Nat.le_add_right k n)]
    exact ih.append_right _

/-- An insertion. -/
theorem insert_spec (b : Buffer α) (i : ℕ) (hs : b.Sorted i) :
    let b' := (b.openSlot (b.get i < ·) i).1.set (b.openSlot (b.get i < ·) i).2 (b.get i)
    b'.Sorted (i + 1) ∧ (b'.toList (i + 1)).Perm (b.toList (i + 1)) ∧ ∀ j, i + 1 ≤ j → b'.get j = b.get j := by
  intro b'
  have hlist : b'.toList (i + 1) = insertBack (b.get i < ·) (b.get i) (b.toList i) := toList_set_openSlot _ b i _
  refine ⟨?_, ?_, fun j hj => ?_⟩
  · rw [Sorted, hlist]
    refine insertBack_pairwise (r := (· ≤ ·)) _ (fun _ _ _ => le_trans) hs (fun a _ h => ?_) fun a _ h => ?_
    · exact le_of_lt (of_decide_eq_true h)
    · exact le_of_not_gt fun hlt => h (decide_eq_true hlt)
  · rw [hlist, toList_succ]
    exact (insertBack_perm _ _ _).trans (List.perm_append_singleton _ _).symm
  · obtain ⟨hle, -, -, hget⟩ := openSlot_spec (b.get i < ·) b i
    rw [get_set, if_neg (by omega), hget, if_neg (by omega)]

theorem insertionSort_spec (b : Buffer α) (hs : b.Sorted i) (n : ℕ) :
    (b.insertionSort i n).Sorted (i + n) ∧ ((b.insertionSort i n).toList (i + n)).Perm (b.toList (i + n)) := by
  induction n generalizing b i with
  | zero => exact ⟨hs, .refl _⟩
  | succ n ih =>
    obtain ⟨hsorted, hperm, hget⟩ := insert_spec b i hs
    obtain ⟨hsorted', hperm'⟩ := ih _ hsorted
    have hadd : i + (n + 1) = i + 1 + n := by omega
    rw [hadd]
    exact ⟨hsorted', hperm'.trans (perm_toList_add hperm hget n)⟩

theorem top_insertionSort_le {m : ℕ} (hb : b.top ≤ m) (hm : i + n ≤ m) : (b.insertionSort i n).top ≤ m := by
  induction n generalizing b i with
  | zero => exact hb
  | succ n ih =>
    refine ih ?_ (by omega)
    have hle := (openSlot_spec (b.get i < ·) b i).1
    have htop : (b.openSlot (b.get i < ·) i).1.top ≤ m := top_openSlot_le _ hb (by omega)
    rw [top_set]
    omega

/-! ## Searching -/

/-- The binary search only reads elements of the array, and finds the element if there is one. -/
theorem binarySearch_spec (hs : b.Sorted len) {li ri : ℤ} (hli : 0 ≤ li) (hri : ri < len)
    (hx : ∀ k < len, b.get k = x → li ≤ k ∧ (k : ℤ) ≤ ri) :
    ∃ r, b.binarySearch len x li ri = some r ∧
      ((∃ k < len, r = k ∧ b.get k = x) ∨ r = -1 ∧ ∀ k < len, b.get k ≠ x) := by
  induction li, ri using binarySearch.induct b len x with
  | case1 li ri hle mid hmid heq =>
    rw [binarySearch, if_pos hle, if_pos hmid, if_pos heq]
    refine ⟨mid, rfl, .inl ⟨mid.toNat, ?_, ?_, heq⟩⟩ <;> omega
  | case2 li ri hle mid hmid hne hlt ih =>
    rw [binarySearch, if_pos hle, if_pos hmid, if_neg hne, if_pos hlt]
    -- From the middle on the elements are greater.
    refine ih hli (by omega) fun k hk hkx => ⟨(hx k hk hkx).1, ?_⟩
    by_contra hgt
    have hget := hs.get_le (i := mid.toNat) (j := k) (by omega) hk
    rw [hkx] at hget
    exact absurd hlt (not_lt_of_ge hget)
  | case3 li ri hle mid hmid hne hlt ih =>
    rw [binarySearch, if_pos hle, if_pos hmid, if_neg hne, if_neg hlt]
    refine ih (by omega) hri fun k hk hkx => ⟨?_, (hx k hk hkx).2⟩
    by_contra hgt
    have hget := hs.get_le (i := k) (j := mid.toNat) (by omega) (by omega)
    rw [hkx] at hget
    exact hne (le_antisymm (le_of_not_gt hlt) hget)
  | case4 li ri hle mid hmid =>
    have hmid' : (li + ri) / 2 = mid := rfl
    exact absurd ⟨by omega, by omega⟩ hmid
  | case5 li ri hle =>
    rw [binarySearch, if_neg hle]
    refine ⟨-1, rfl, .inr ⟨rfl, fun k hk hkx => ?_⟩⟩
    have := hx k hk hkx
    omega

end Buffer

import Mathlib.Data.List.DropRight
import Mathlib.Data.List.Nodup
import Mathlib.Logic.Function.Basic
import Mathlib.Tactic.Common

/-!
# Buffers

An array updated in place by loops, as C programs do, seen as the list of its
first elements. A buffer also records the highest index ever written
(`Buffer.top`), so that staying within bounds is a statement about it.

* `Buffer.toList b n`: the first `n` elements of the buffer;
* `Buffer.shiftDown`: the loop closing a gap, moving the elements above it down
  by one; on lists, it erases the element of the gap (`toList_shiftDown`);
* `Buffer.openSlot`: the loop of an insertion sort, moving the last elements
  up by one as long as they satisfy a test; on lists, writing to the slot it
  opens inserts before the longest suffix satisfying the test
  (`toList_set_openSlot`);
* `Buffer.reverse`: the loop swapping elements from both ends on
  (`toList_reverse`).
-/

/-- An array of unbounded size, with the first index above all those written. -/
structure Buffer (α : Type*) where
  /-- The elements. -/
  get : ℕ → α
  /-- One more than the highest index written so far. -/
  top : ℕ

namespace Buffer

variable {α : Type*}

/-- The assignment `b[i] = x`. -/
def set (b : Buffer α) (i : ℕ) (x : α) : Buffer α where
  get := Function.update b.get i x
  top := max b.top (i + 1)

/-- The first `n` elements. -/
def toList (b : Buffer α) (n : ℕ) : List α := (List.range n).map b.get

/-- The loop `for (j = i; j < i + n; ++j) b[j] = b[j + 1]`. -/
def shiftDown (b : Buffer α) (i : ℕ) : ℕ → Buffer α
  | 0 => b
  | n + 1 => shiftDown (b.set i (b.get (i + 1))) (i + 1) n

/-- The loop `for (j = i; j < i + n; ++j) if (p(b[j])) break`, with the index of
    the element found. -/
def find (p : α → Bool) (b : Buffer α) (i : ℕ) : ℕ → Option ℕ
  | 0 => none
  | n + 1 => if p (b.get i) then some i else find p b (i + 1) n

/-- The loop `for (j = n - 1; j >= 0 && p(b[j]); --j) b[j + 1] = b[j]`, with the
    final value of `j + 1`. -/
def openSlot (b : Buffer α) (p : α → Bool) : ℕ → Buffer α × ℕ
  | 0 => (b, 0)
  | k + 1 => if p (b.get k) then openSlot (b.set (k + 1) (b.get k)) p k else (b, k + 1)

@[simp] theorem get_set (b : Buffer α) (i j : ℕ) (x : α) :
    (b.set i x).get j = if j = i then x else b.get j := by
  simp [set, Function.update_apply]

@[simp] theorem top_set (b : Buffer α) (i : ℕ) (x : α) :
    (b.set i x).top = max b.top (i + 1) := rfl

@[simp] theorem length_toList (b : Buffer α) (n : ℕ) : (b.toList n).length = n := by
  simp [toList]

@[simp] theorem getElem_toList (b : Buffer α) (n i : ℕ) (h : i < (b.toList n).length) :
    (b.toList n)[i] = b.get i := by
  simp [toList]

theorem mem_toList {b : Buffer α} {n : ℕ} {x : α} :
    x ∈ b.toList n ↔ ∃ i < n, b.get i = x := by
  simp [toList]

theorem toList_succ (b : Buffer α) (n : ℕ) : b.toList (n + 1) = b.toList n ++ [b.get n] := by
  simp [toList, List.range_succ]

/-- The first elements are those read at the first indices. -/
theorem toList_congr {b b' : Buffer α} {n : ℕ} (h : ∀ i < n, b.get i = b'.get i) :
    b.toList n = b'.toList n := by
  simp only [toList]
  exact List.map_congr_left fun i hi => h i (List.mem_range.1 hi)

/-- Writing just above the first elements appends to them. -/
theorem toList_set_end (b : Buffer α) (n : ℕ) (x : α) :
    (b.set n x).toList (n + 1) = b.toList n ++ [x] := by
  rw [toList_succ, get_set, if_pos rfl]
  congr 1
  exact toList_congr fun i hi => by rw [get_set, if_neg (by omega)]

/-! ## Closing a gap -/

theorem get_shiftDown (b : Buffer α) (i n k : ℕ) :
    (b.shiftDown i n).get k = if i ≤ k ∧ k < i + n then b.get (k + 1) else b.get k := by
  induction n generalizing b i with
  | zero => rw [shiftDown, if_neg (by omega)]
  | succ n ih =>
    rw [shiftDown, ih]
    simp only [get_set]
    split_ifs <;> first | rfl | omega | (congr 1; omega)

theorem top_shiftDown_le {b : Buffer α} {i n m : ℕ} (hb : b.top ≤ m) (hm : i + n ≤ m) :
    (b.shiftDown i n).top ≤ m := by
  induction n generalizing b i with
  | zero => exact hb
  | succ n ih =>
    refine ih ?_ (by omega)
    rw [top_set]
    omega

/-- Closing a gap erases its element. -/
theorem toList_shiftDown (b : Buffer α) {i n : ℕ} (h : i ≤ n) :
    (b.shiftDown i (n - i)).toList n = (b.toList (n + 1)).eraseIdx i := by
  refine List.ext_getElem (by rw [List.length_eraseIdx]; simp; omega) fun k hk _ => ?_
  rw [List.getElem_eraseIdx]
  simp only [getElem_toList, get_shiftDown]
  rw [length_toList] at hk
  split_ifs <;> first | rfl | omega

/-- Closing the gap of the first element pops it. -/
theorem toList_shiftDown_zero (b : Buffer α) (n : ℕ) :
    (b.shiftDown 0 n).toList n = (b.toList (n + 1)).tail := by
  rw [← List.eraseIdx_zero]
  exact toList_shiftDown b (Nat.zero_le n)

theorem toList_head (b : Buffer α) (n : ℕ) :
    b.toList (n + 1) = b.get 0 :: (b.toList (n + 1)).tail := by
  simp [toList, List.range_succ_eq_map]

/-! ## Searching -/

/-- The loop finds the first element satisfying the test, if any. -/
theorem find_spec (p : α → Bool) (b : Buffer α) (i n : ℕ) :
    match b.find p i n with
    | none => ∀ j, i ≤ j → j < i + n → ¬p (b.get j)
    | some k => i ≤ k ∧ k < i + n ∧ p (b.get k) ∧ ∀ j, i ≤ j → j < k → ¬p (b.get j) := by
  induction n generalizing i with
  | zero => exact fun j hij hj => absurd hj (by omega)
  | succ n ih =>
    rw [find]
    split_ifs with hp
    · exact ⟨le_rfl, by omega, hp, fun j hij hj => absurd hj (by omega)⟩
    · -- The first element fails the test: those after it are searched.
      specialize ih (i + 1)
      cases hf : b.find p (i + 1) n with
      | none =>
        rw [hf] at ih
        intro j hij hj
        rcases Nat.eq_or_lt_of_le hij with rfl | hlt
        · exact hp
        · exact ih j hlt (by omega)
      | some k =>
        rw [hf] at ih
        obtain ⟨hik, hk, hpk, hfirst⟩ := ih
        refine ⟨by omega, by omega, hpk, fun j hij hj => ?_⟩
        rcases Nat.eq_or_lt_of_le hij with rfl | hlt
        · exact hp
        · exact hfirst j hlt hj

/-- Closing the gap of the first element equal to `x`, if any, erases `x`. -/
theorem toList_find [DecidableEq α] {b : Buffer α} {n : ℕ} {x : α} {p : α → Bool}
    (hp : ∀ a ∈ b.toList n, p a = true ↔ a = x) :
    (match b.find p 0 n with
      | none => b.toList n
      | some k => (b.shiftDown k (n - 1 - k)).toList (n - 1)) = (b.toList n).erase x := by
  have hspec := find_spec p b 0 n
  have htest : ∀ j < n, p (b.get j) = true ↔ b.get j = x := fun j hj =>
    hp _ (mem_toList.2 ⟨j, hj, rfl⟩)
  cases hf : b.find p 0 n with
  | none =>
    rw [hf] at hspec
    refine (List.erase_of_not_mem fun hx => ?_).symm
    obtain ⟨j, hj, hjx⟩ := mem_toList.1 hx
    exact hspec j (Nat.zero_le j) (by omega) ((htest j hj).2 hjx)
  | some k =>
    rw [hf] at hspec
    obtain ⟨-, hk, hpk, hfirst⟩ := hspec
    rw [Nat.zero_add] at hk
    have hidx : (b.toList n).idxOf? x = some k := by
      rw [List.idxOf?_eq_some_iff]
      refine ⟨by simpa using hk, by simpa using (htest k hk).1 hpk, fun j hj => ?_⟩
      simpa using fun hjx => hfirst j (Nat.zero_le j) hj ((htest j (hj.trans hk)).2 hjx)
    rw [List.erase_eq_eraseIdx, hidx]
    obtain ⟨m, rfl⟩ : ∃ m, n = m + 1 := ⟨n - 1, by omega⟩
    exact toList_shiftDown b (by omega)

/-! ## Opening a slot -/

variable (p : α → Bool)

/-- What the loop opening a slot does: the slot is below a suffix satisfying
    the test, as long as possible, which has moved up by one. -/
theorem openSlot_spec (b : Buffer α) (n : ℕ) :
    (b.openSlot p n).2 ≤ n ∧
      (∀ j, (b.openSlot p n).2 ≤ j → j < n → p (b.get j)) ∧
      (∀ m, (b.openSlot p n).2 = m + 1 → ¬p (b.get m)) ∧
      ∀ j, (b.openSlot p n).1.get j =
        if (b.openSlot p n).2 < j ∧ j ≤ n then b.get (j - 1) else b.get j := by
  induction n generalizing b with
  | zero =>
    refine ⟨Nat.le_refl _, fun j _ hj => absurd hj (Nat.not_lt_zero _), fun m hm => ?_, fun j => ?_⟩
    · simp [openSlot] at hm
    · rw [openSlot, if_neg fun h => absurd h.1 (by simpa using h.2)]
  | succ k ih =>
    rw [openSlot]
    split_ifs with hp
    -- The element is moved up, and the loop goes on below it.
    · obtain ⟨hle, hsat, hstop, hget⟩ := ih (b.set (k + 1) (b.get k))
      refine ⟨by omega, fun j hj hjk => ?_, fun m hm => ?_, fun j => ?_⟩
      · rcases Nat.lt_succ_iff_lt_or_eq.1 hjk with hlt | rfl
        · have := hsat j hj hlt
          rwa [get_set, if_neg (by omega)] at this
        · exact hp
      · have := hstop m hm
        rwa [get_set, if_neg (by omega)] at this
      · rw [hget]
        simp only [get_set]
        split_ifs <;> first | rfl | omega | (subst_vars; rfl)
    · refine ⟨Nat.le_refl _, fun j hj hjk => absurd hj (Nat.not_le.2 hjk), fun m hm => ?_,
        fun j => ?_⟩
      · simp only [Nat.add_right_cancel_iff] at hm
        exact hm ▸ hp
      · dsimp only
        rw [if_neg (by omega)]

theorem top_openSlot_le {b : Buffer α} {n m : ℕ} (hb : b.top ≤ m) (hm : n < m) :
    (b.openSlot p n).1.top ≤ m := by
  induction n generalizing b with
  | zero => exact hb
  | succ k ih =>
    rw [openSlot]
    split_ifs
    · exact ih (by rw [top_set]; omega) (by omega)
    · exact hb

theorem le_top_openSlot (b : Buffer α) (n : ℕ) : b.top ≤ (b.openSlot p n).1.top := by
  induction n generalizing b with
  | zero => exact le_rfl
  | succ k ih =>
    rw [openSlot]
    split_ifs
    · exact (le_max_left _ _).trans (ih (b.set (k + 1) (b.get k)))
    · exact le_rfl

/-- Insertion before the longest suffix satisfying the test. -/
def insertBack (x : α) (l : List α) : List α := l.rdropWhile p ++ x :: l.rtakeWhile p

theorem insertBack_perm (x : α) (l : List α) : (insertBack p x l).Perm (x :: l) := by
  conv_rhs => rw [← List.rdropWhile_append_rtakeWhile (p := p) (l := l)]
  exact List.perm_middle

/-- What is inserted can be taken out again. -/
theorem insertBack_erase [DecidableEq α] {x : α} {l : List α} (hx : x ∉ l) :
    (insertBack p x l).erase x = l := by
  have happ := List.rdropWhile_append_rtakeWhile (p := p) (l := l)
  have hx' : x ∉ l.rdropWhile p := fun hm => hx (happ ▸ List.mem_append_left _ hm)
  rw [insertBack, List.erase_append_right _ hx', List.erase_cons_head, happ]

/-- Insertion at the end of a suffix passed over moves on to what is before it. -/
theorem insertBack_append_of_pos (x : α) (l : List α) {a : α} (h : p a) :
    insertBack p x (l ++ [a]) = insertBack p x l ++ [a] := by
  simp [insertBack, List.rdropWhile_concat_pos _ _ _ h, List.rtakeWhile_concat_pos _ _ _ h]

theorem insertBack_append_of_neg (x : α) (l : List α) {a : α} (h : ¬p a) :
    insertBack p x (l ++ [a]) = l ++ [a, x] := by
  simp [insertBack, List.rdropWhile_concat_neg _ _ _ h, List.rtakeWhile_concat_neg _ _ _ h]

/-- Inserting an element in an ordered list keeps it ordered. -/
theorem insertBack_pairwise {r : α → α → Prop} (htrans : ∀ a b c, r a b → r b c → r a c) {x : α}
    {l : List α} (hl : l.Pairwise r) (hp : ∀ a ∈ l, p a = true → r x a)
    (hnp : ∀ a ∈ l, ¬p a = true → r a x) : (insertBack p x l).Pairwise r := by
  induction l using List.reverseRecOn with
  | nil => simp [insertBack]
  | append_singleton l a ih =>
    obtain ⟨hl, -, hla⟩ := List.pairwise_append.1 hl
    have hmem : ∀ b ∈ l, b ∈ l ++ [a] := fun b hb => List.mem_append_left _ hb
    have ha : a ∈ l ++ [a] := List.mem_append_right _ (List.mem_singleton_self a)
    by_cases hpa : p a
    · -- The new element goes before the last one.
      rw [insertBack_append_of_pos p x l hpa, List.pairwise_append]
      refine ⟨ih hl (fun b hb => hp b (hmem b hb)) fun b hb => hnp b (hmem b hb),
        List.pairwise_singleton _ _, fun b hb c hc => ?_⟩
      rw [List.mem_singleton.1 hc]
      rcases List.mem_cons.1 ((insertBack_perm p x l).mem_iff.1 hb) with rfl | hb
      · exact hp a ha hpa
      · exact hla b hb a (List.mem_singleton_self a)
    · -- It goes after the last one, hence after all of them.
      have hax : r a x := hnp a ha hpa
      rw [insertBack_append_of_neg p x l hpa, List.pairwise_append]
      refine ⟨hl, by simpa using hax, fun b hb c hc => ?_⟩
      have hba := hla b hb a (List.mem_singleton_self a)
      rcases List.mem_cons.1 hc with rfl | hc
      · exact hba
      · rw [List.mem_singleton.1 hc]
        exact htrans _ _ _ hba hax

/-- Writing to the slot the loop opens inserts before the longest suffix
    satisfying the test. -/
theorem toList_set_openSlot (b : Buffer α) (n : ℕ) (x : α) :
    ((b.openSlot p n).1.set (b.openSlot p n).2 x).toList (n + 1) =
      insertBack p x (b.toList n) := by
  induction n generalizing b with
  | zero => simp [openSlot, toList, insertBack]
  | succ k ih =>
    rw [openSlot, toList_succ b k]
    split_ifs with hp
    · -- The last element is passed over: it ends up above the rest.
      rw [insertBack_append_of_pos p x _ hp, toList_succ _ (k + 1), ih]
      obtain ⟨hle, _, _, hget⟩ := openSlot_spec p (b.set (k + 1) (b.get k)) k
      congr 2
      · exact toList_congr fun i hi => by rw [get_set, if_neg (by omega)]
      · rw [get_set, if_neg (by omega), hget, if_neg (by omega), get_set, if_pos rfl]
    · -- The last element stays: the slot is right after it.
      rw [insertBack_append_of_neg p x _ hp, toList_set_end, toList_succ]
      simp

/-! ## Reversing -/

/-- The loop `while (i < j) { swap(b[i], b[j]); ++i; --j; }`. -/
def reverse (b : Buffer α) (i j : ℕ) : Buffer α :=
  if i < j then ((b.set i (b.get j)).set j (b.get i)).reverse (i + 1) (j - 1) else b
  termination_by j - i

theorem get_reverse (b : Buffer α) (i j k : ℕ) :
    (b.reverse i j).get k = if i ≤ k ∧ k ≤ j then b.get (i + j - k) else b.get k := by
  induction b, i, j using reverse.induct with
  | case1 b i j hij ih =>
    rw [reverse, if_pos hij, ih]
    simp only [get_set]
    split_ifs <;> first | rfl | omega | (congr 1; omega)
  | case2 b i j hij =>
    rw [reverse, if_neg hij]
    split_ifs
    · congr 1
      omega
    · rfl

theorem top_reverse_le {b : Buffer α} {i j m : ℕ} (hb : b.top ≤ m) (hj : j < m) : (b.reverse i j).top ≤ m := by
  induction b, i, j using reverse.induct with
  | case1 b i j hij ih =>
    rw [reverse, if_pos hij]
    refine ih ?_ (by omega)
    rw [top_set, top_set]
    omega
  | case2 b i j hij => rwa [reverse, if_neg hij]

/-- The first elements in reverse order. -/
theorem toList_reverse (b : Buffer α) (n : ℕ) : (b.reverse 0 (n - 1)).toList n = (b.toList n).reverse := by
  refine List.ext_getElem (by simp) fun k hk hk' => ?_
  rw [length_toList] at hk
  rw [getElem_toList, List.getElem_reverse, getElem_toList, get_reverse, if_pos (by omega), length_toList]
  congr 1
  omega

end Buffer

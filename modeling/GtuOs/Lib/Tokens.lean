import Mathlib.Data.Nat.Notation
import Mathlib.Tactic.Common

/-!
# Tokens

The pieces of a list between delimiters (`tokens`), and the function that takes the next one
of them (`nextToken`), as `strtok` does: it skips delimiters, and ends the token at the next one.
Taking tokens until there is none gives all of them (`tokens_of_nextToken`,
`nextToken_eq_none_iff`).
-/

universe u

variable {α : Type u} {p : α → Bool} {l rest t : List α} {x : α}

/-- The maximal non-empty pieces without a delimiter, in order. -/
def tokens (p : α → Bool) (l : List α) : List (List α) := (l.splitOnP p).filter (!·.isEmpty)

/-- The next token, and what comes after the delimiter that ends it. -/
def nextToken (p : α → Bool) (l : List α) : Option (List α × List α) :=
  match l.dropWhile p with
  | [] => none
  | x :: l => some ((x :: l).takeWhile (!p ·), ((x :: l).dropWhile (!p ·)).tail)

theorem of_dropWhile_eq_cons (h : l.dropWhile p = x :: t) : p x = false := by
  have hhead := List.head?_dropWhile_not p l
  rw [h] at hhead
  exact hhead

theorem tokens_cons_delim (hx : p x = true) : tokens p (x :: l) = tokens p l := by
  rw [tokens, List.splitOnP_cons_eq_if_modifyHead, if_pos hx]
  rfl

/-- Delimiters at the start do not matter. -/
theorem tokens_dropWhile (p : α → Bool) (l : List α) : tokens p (l.dropWhile p) = tokens p l := by
  induction l with
  | nil => rfl
  | cons x l ih =>
    by_cases hx : p x = true
    · rw [List.dropWhile_cons_of_pos hx, ih, tokens_cons_delim hx]
    · rw [List.dropWhile_cons_of_neg hx]

/-- The first token ends at the next delimiter. -/
theorem tokens_cons (hx : p x = false) : tokens p (x :: l) =
    (x :: l).takeWhile (!p ·) :: tokens p ((x :: l).dropWhile (!p ·)).tail := by
  have hsplit := List.takeWhile_append_dropWhile (p := (!p ·)) (l := x :: l)
  have hmem : ∀ y ∈ (x :: l).takeWhile (!p ·), p y = false := fun y hy => by
    simpa using List.all_eq_true.1 List.all_takeWhile y hy
  have hne : ((x :: l).takeWhile (!p ·)).isEmpty = false := by
    rw [List.takeWhile_cons_of_pos (by simp [hx])]
    rfl
  generalize (x :: l).takeWhile (!p ·) = t at *
  cases hdrop : (x :: l).dropWhile (!p ·) with
  | nil =>
    rw [hdrop, List.append_nil] at hsplit
    rw [← hsplit, tokens, List.splitOnP_eq_singleton hmem]
    simp [hne, tokens]
  | cons sep rest =>
    have hsep : p sep = true := by simpa using of_dropWhile_eq_cons hdrop
    rw [hdrop] at hsplit
    rw [← hsplit, tokens, List.splitOnP_append_cons_of_forall_mem hmem sep hsep]
    simp [hne, tokens]

theorem nextToken_eq_none_iff : nextToken p l = none ↔ tokens p l = [] := by
  rw [← tokens_dropWhile, nextToken]
  cases hl : l.dropWhile p with
  | nil => exact iff_of_true rfl rfl
  | cons x l' =>
    rw [tokens_cons (of_dropWhile_eq_cons hl)]
    exact iff_of_false (Option.some_ne_none _) (List.cons_ne_nil _ _)

/-- A token is the first one, and the others are those of the rest. -/
theorem tokens_of_nextToken (h : nextToken p l = some (t, rest)) :
    tokens p l = t :: tokens p rest ∧ rest.length < l.length := by
  rw [← tokens_dropWhile]
  rw [nextToken] at h
  have hle := (l.dropWhile_sublist p).length_le
  cases hl : l.dropWhile p with
  | nil =>
    rw [hl] at h
    nomatch h
  | cons x l' =>
    rw [hl] at h hle
    obtain ⟨rfl, rfl⟩ := Prod.mk.inj (Option.some.inj h)
    refine ⟨tokens_cons (of_dropWhile_eq_cons hl), ?_⟩
    have hle' := ((x :: l').dropWhile_sublist (!p ·)).length_le
    rw [List.length_tail]
    simp only [List.length_cons] at hle hle' ⊢
    omega

/-! ## Pieces put together -/

/-- What has no delimiter is one token. -/
theorem tokens_eq_singleton (h : ∀ y ∈ l, p y = false) (hne : l ≠ []) : tokens p l = [l] := by
  rw [tokens, List.splitOnP_eq_singleton h, List.filter_cons_of_pos (by simpa using hne), List.filter_nil]

/-- The tokens before a delimiter, and those after it. -/
theorem tokens_append_cons (hx : p x = true) : tokens p (l ++ x :: rest) = tokens p l ++ tokens p rest := by
  rw [tokens, List.splitOnP_append_cons l rest hx, List.filter_append]
  rfl

theorem tokens_word (h : ∀ y ∈ l, p y = false) (hne : l ≠ []) (hx : p x = true) :
    tokens p (l ++ x :: rest) = l :: tokens p rest := by
  rw [tokens_append_cons hx, tokens_eq_singleton h hne, List.singleton_append]

theorem tokens_replicate (k : ℕ) (hx : p x = true) : tokens p (List.replicate k x ++ l) = tokens p l := by
  induction k with
  | zero => rfl
  | succ k ih => rw [List.replicate_succ, List.cons_append, tokens_cons_delim hx, ih]

/-- Lines that end with a delimiter are split into these lines. -/
theorem splitOnP_flatMap {ls : List (List α)} (h : ∀ l ∈ ls, ∀ y ∈ l, p y = false) (hx : p x = true) :
    (ls.flatMap (· ++ [x])).splitOnP p = ls ++ [[]] := by
  induction ls with
  | nil => rfl
  | cons l ls ih =>
    have hl : ∀ y ∈ l, p y = false := h l List.mem_cons_self
    rw [List.flatMap_cons, List.append_assoc, List.singleton_append,
      List.splitOnP_append_cons_of_forall_mem hl x hx, ih fun l hl => h l (List.mem_cons_of_mem _ hl)]
    rfl

import Mathlib.Data.Nat.ModEq
import Mathlib.Tactic.Common

/-!
# Rings

A ring of `n` slots is filled at its tail by the one side and emptied at its head by the other, each of which
goes on to the next slot and starts anew after the last one. What is in the ring is a queue
(`RingHolds`): the slot at the head holds what the queue starts with (`RingHolds.head_eq`), and the one at the tail
is free exactly if there is room (`RingHolds.tail_eq_none_iff`). Filling a slot adds to the queue
(`RingHolds.push`), and emptying one takes from it (`RingHolds.pop`).
-/

variable {α : Type*} {slots slots' : ℕ → Option α} {n head j k : ℕ} {q : List α} {a : α}

/-- From the slot `head` on, the slots hold the queue, and the others are free. -/
structure RingHolds (slots : ℕ → Option α) (n head : ℕ) (q : List α) : Prop where
  length_le : q.length ≤ n
  get : ∀ j < n, slots ((head + j) % n) = q[j]?

/-- Slots at different distances from the head. -/
theorem add_mod_ne (hj : j < n) (hk : k < n) (hne : j ≠ k) : (head + j) % n ≠ (head + k) % n := fun h => by
  have hmod : j ≡ k [MOD n] := Nat.ModEq.add_left_cancel' head h
  exact hne (hmod.eq_of_lt_of_lt hj hk)

namespace RingHolds

/-- Nothing has been filled. -/
theorem nil (h : ∀ i < n, slots i = none) (hn : 0 < n) : RingHolds slots n head [] :=
  ⟨Nat.zero_le n, fun _ _ => h _ (Nat.mod_lt _ hn)⟩

theorem head_eq (h : RingHolds slots n head q) (hn : 0 < n) : slots (head % n) = q.head? := by
  have hget := h.get 0 hn
  rwa [Nat.add_zero, ← List.head?_eq_getElem?] at hget

theorem tail_eq_none_iff (h : RingHolds slots n head q) (hn : 0 < n) :
    slots ((head + q.length) % n) = none ↔ q.length < n := by
  constructor
  · intro hnone
    refine lt_of_le_of_ne h.length_le fun heq => ?_
    rw [heq, Nat.add_mod_right, h.head_eq hn, List.head?_eq_none_iff] at hnone
    rw [hnone, List.length_nil] at heq
    exact hn.ne heq
  · intro hlt
    rw [h.get _ hlt]
    exact List.getElem?_eq_none le_rfl

/-- The slot at the tail is filled. -/
theorem push (h : RingHolds slots n head q) (hlt : q.length < n) (hself : slots' ((head + q.length) % n) = some a)
    (hne : ∀ i < n, i ≠ (head + q.length) % n → slots' i = slots i) : RingHolds slots' n head (q ++ [a]) := by
  refine ⟨by rwa [List.length_append, List.length_singleton], fun j hj => ?_⟩
  rcases eq_or_ne j q.length with rfl | hjq
  · rw [hself, List.getElem?_concat_length]
  · rw [hne _ (Nat.mod_lt _ (Nat.zero_lt_of_lt hj)) (add_mod_ne hj hlt hjq), h.get j hj, List.getElem?_append]
    split_ifs with hlen
    · rfl
    · rw [List.getElem?_eq_none (Nat.le_of_not_lt hlen), List.getElem?_eq_none]
      rw [List.length_singleton]
      omega

/-- The slot at the head is emptied. -/
theorem pop (h : RingHolds slots n head (a :: q)) (hself : slots' (head % n) = none)
    (hne : ∀ i < n, i ≠ head % n → slots' i = slots i) : RingHolds slots' n (head + 1) q := by
  have hlen : q.length < n := h.length_le
  refine ⟨hlen.le, fun j hj => ?_⟩
  rw [Nat.add_assoc, Nat.add_comm 1]
  rcases Nat.lt_or_ge (j + 1) n with hj' | hj'
  · have hne' : (head + (j + 1)) % n ≠ head % n := add_mod_ne (k := 0) hj' (Nat.zero_lt_of_lt hj') (Nat.succ_ne_zero j)
    rw [hne _ (Nat.mod_lt _ (Nat.zero_lt_of_lt hj)) hne', h.get _ hj', List.getElem?_cons_succ]
  · -- The slot that has been emptied is the last one now.
    have hlast : j + 1 = n := Nat.le_antisymm hj hj'
    rw [hlast, Nat.add_mod_right, hself, List.getElem?_eq_none (by omega)]

end RingHolds

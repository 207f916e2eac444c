import Mathlib.Data.Int.Notation
import Mathlib.Data.Nat.Notation
import Mathlib.Tactic.SplitIfs

/-!
# Eager evaluation

To evaluate a long run the kernel has to evaluate each state before it goes on, or
else what it defers grows with every step. `f.withNat n` is `f n`, with the number
`n` evaluated first, by cases on it; similarly for the other types of data.
-/

namespace Eager

variable {α β : Type}

/-- `f n`, the number being evaluated first. -/
def withNat (n : ℕ) (f : ℕ → β) : β :=
  match n with
  | 0 => f 0
  | n + 1 => f (n + 1)

/-- `f n`, the number being evaluated first. -/
def withInt (n : ℤ) (f : ℤ → β) : β :=
  match n with
  | .ofNat n => withNat n fun n => f (.ofNat n)
  | .negSucc n => withNat n fun n => f (.negSucc n)

/-- `f b`, the truth value being evaluated first. -/
def withBool (b : Bool) (f : Bool → β) : β :=
  match b with
  | true => f true
  | false => f false

/-- `f g`, the first values of the function being evaluated first, by `w`. -/
def withFirst (w : α → (α → β) → β) (g : ℕ → α) : ℕ → ((ℕ → α) → β) → β
  | 0, f => f g
  | n + 1, f => w (g n) fun x => withFirst w g n fun g => f fun k => if k = n then x else g k

@[simp] theorem withNat_eq (n : ℕ) (f : ℕ → β) : withNat n f = f n := by cases n <;> rfl

@[simp] theorem withInt_eq (n : ℤ) (f : ℤ → β) : withInt n f = f n := by
  cases n with
  | ofNat n => exact withNat_eq n fun n => f (.ofNat n)
  | negSucc n => exact withNat_eq n fun n => f (.negSucc n)

@[simp] theorem withBool_eq (b : Bool) (f : Bool → β) : withBool b f = f b := by cases b <;> rfl

theorem withFirst_eq {w : α → (α → β) → β} (hw : ∀ x f, w x f = f x) (g : ℕ → α) (n : ℕ)
    (f : (ℕ → α) → β) : withFirst w g n f = f g := by
  induction n generalizing f with
  | zero => rfl
  | succ n ih =>
    rw [withFirst, hw, ih]
    congr 1
    funext k
    split_ifs with hk
    · rw [hk]
    · rfl

end Eager

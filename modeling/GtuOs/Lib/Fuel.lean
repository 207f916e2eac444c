import Mathlib.Data.Nat.Notation
import Mathlib.Tactic.Common

/-!
# Computations with fuel

The loops of a program take fuel, one unit an iteration. A computation `f` *settles* on a
result when it has this result with any amount of fuel from some amount on: it ends, or
fails for another reason than a lack of fuel. The rules follow the program text:
`Settles.succ` for an iteration, `Settles.bind` for a sequence.

More fuel does not change a result (`Below`, by `fuel_induction` over the program text), so that a
computation settles on any result that it has with some amount of fuel (`Settles.of_below`).
-/

universe u v

/-- With enough fuel, `f` has the result `x`. -/
def Settles {β : Type u} (f : ℕ → β) (x : β) : Prop := ∃ n₀, ∀ n, n₀ ≤ n → f n = x

namespace Settles

variable {ε : Type v} {α β : Type u} {x y : β} {e : ε}

/-- What needs no fuel. -/
theorem const (x : β) : Settles (fun _ => x) x := ⟨0, fun _ _ => rfl⟩

theorem unique {f : ℕ → β} (hx : Settles f x) (hy : Settles f y) : x = y := by
  obtain ⟨n₁, h₁⟩ := hx
  obtain ⟨n₂, h₂⟩ := hy
  rw [← h₁ (max n₁ n₂) (Nat.le_max_left ..), h₂ _ (Nat.le_max_right ..)]

/-- One iteration of a loop. -/
theorem succ {f g : ℕ → β} (hg : Settles g x) (h : ∀ n, f (n + 1) = g n) : Settles f x := by
  obtain ⟨n₀, hn⟩ := hg
  refine ⟨n₀ + 1, fun n hle => ?_⟩
  obtain ⟨n, rfl⟩ := Nat.exists_eq_succ_of_ne_zero (Nat.ne_of_gt (Nat.lt_of_lt_of_le n₀.succ_pos hle))
  rw [h, hn _ (Nat.le_of_succ_le_succ hle)]

theorem congr {f g : ℕ → β} (hg : Settles g x) (h : ∀ n, f n = g n) : Settles f x := by
  obtain ⟨n₀, hn⟩ := hg
  exact ⟨n₀, fun n hle => (h n).trans (hn n hle)⟩

/-- A computation followed by another one. -/
theorem bind {f : ℕ → Except ε α} {g : ℕ → α → Except ε β} {a : α} {r : Except ε β}
    (hf : Settles f (.ok a)) (hg : Settles (fun n => g n a) r) :
    Settles (fun n => f n >>= g n) r := by
  obtain ⟨n₁, h₁⟩ := hf
  obtain ⟨n₂, h₂⟩ := hg
  refine ⟨max n₁ n₂, fun n hn => ?_⟩
  dsimp only
  rw [h₁ n (Nat.le_trans (Nat.le_max_left ..) hn)]
  exact h₂ n (Nat.le_trans (Nat.le_max_right ..) hn)

/-- A computation followed by a step that needs no fuel. -/
theorem bind_const {f : ℕ → Except ε α} {r : Except ε α} (hf : Settles f r) (g : α → Except ε β) :
    Settles (fun n => f n >>= g) (r >>= g) := by
  obtain ⟨n₀, hn⟩ := hf
  exact ⟨n₀, fun n hle => congrArg (· >>= g) (hn n hle)⟩

end Settles

/-! ## More fuel -/

/-- Induction over an amount of fuel, along with a larger one. -/
@[elab_as_elim]
theorem fuel_induction {motive : (n m : ℕ) → n ≤ m → Prop} (zero : ∀ m, motive 0 m (Nat.zero_le m))
    (succ : ∀ n m (h : n ≤ m), motive n m h → motive (n + 1) (m + 1) (Nat.succ_le_succ h)) {n m : ℕ} (h : n ≤ m) :
    motive n m h := by
  induction n generalizing m with
  | zero => exact zero m
  | succ n ih =>
    cases m with
    | zero => exact absurd h n.not_succ_le_zero
    | succ m => exact succ n m (Nat.le_of_succ_le_succ h) (ih _)

/-- If `r` is a result, `r'` is this result. -/
def Below {ε : Type v} {α : Type u} (r r' : Except ε α) : Prop := ∀ x, r = .ok x → r' = .ok x

namespace Below

variable {ε : Type v} {α β : Type u} {r r' : Except ε α} {e : ε}

theorem refl (r : Except ε α) : Below r r := fun _ h => h

theorem error : Below (.error e) r := fun _ h => nomatch h

theorem bind {f f' : α → Except ε β} (hr : Below r r') (hf : ∀ a, Below (f a) (f' a)) :
    Below (r >>= f) (r' >>= f') := by
  intro x hx
  cases r with
  | error e => nomatch hx
  | ok a =>
    rw [hr a rfl]
    exact hf a x hx

theorem ite {c : Prop} [Decidable c] {t t' : Except ε α} (hr : c → Below r r') (ht : ¬c → Below t t') :
    Below (if c then r else t) (if c then r' else t') := by
  by_cases hc : c
  · rw [if_pos hc, if_pos hc]
    exact hr hc
  · rw [if_neg hc, if_neg hc]
    exact ht hc

end Below

/-- A computation settles on the result it has with some amount of fuel. -/
theorem Settles.of_below {ε : Type v} {α : Type u} {f : ℕ → Except ε α} {x : α} {n : ℕ}
    (hf : ∀ n m, n ≤ m → Below (f n) (f m)) (h : f n = .ok x) : Settles f (.ok x) :=
  ⟨n, fun m hm => hf n m hm x h⟩

/-- The test `P` of a result. -/
def yields {ε : Type v} {α : Type u} (r : Except ε α) (P : α → Bool) : Bool :=
  match r with
  | .ok x => P x
  | .error _ => false

/-- What a test shows about the result that a computation settles on. -/
theorem Settles.of_yields {ε : Type v} {α : Type u} {f : ℕ → Except ε α} {P : α → Bool} {n : ℕ}
    (hf : ∀ n m, n ≤ m → Below (f n) (f m)) (h : yields (f n) P = true) :
    ∃ x, Settles f (.ok x) ∧ P x = true := by
  cases hr : f n with
  | error e =>
    rw [hr] at h
    nomatch h
  | ok x =>
    rw [hr] at h
    exact ⟨x, .of_below hf hr, h⟩

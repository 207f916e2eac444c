import Mathlib.Data.Nat.Init
import Mathlib.Logic.Function.Iterate
import Mathlib.Order.Nat
import Mathlib.Tactic.Common

/-!
# Interruptible code

Code that shares variables with others, and accesses them one at a time: it can be interrupted between any two
accesses, and may then find other values. A `Thread` executes code, with registers of its own.

* `Code.Leads` is what the code does if it is not interrupted. A thread that has come to its end has done
  it (`Leads.eq_of_rest`).
* `Code.Triple` is what it does and keeps to (`G`, the *guarantee*) however it is interrupted, as long as the others
  keep to `R`, the *rely*. Its assertions are those that the others preserve (`Stable`).

The rules for both follow the program text.
-/

universe u v

/-- Code that shares `σ` with others, and has the registers `ρ`. -/
inductive Code (σ : Type u) (ρ : Type v)
  | skip
  /-- An access to what is shared, which is not interrupted. -/
  | access (f : σ → ρ → σ × ρ)
  | seq (a b : Code σ ρ)
  /-- The test is of what has been loaded. -/
  | ite (test : ρ → Bool) (a b : Code σ ρ)
  /-- What the test needs is loaded by `a`, before each iteration. -/
  | loop (a : Code σ ρ) (test : ρ → Bool) (b : Code σ ρ)

/-- Code that is being executed: what is left of it, and its registers. -/
structure Thread (σ : Type u) (ρ : Type v) where
  rest : List (Code σ ρ)
  registers : ρ

namespace Thread

variable {σ : Type u} {ρ : Type v}

/-- A step of a thread, which is an access at most. -/
def step : Thread σ ρ × σ → Thread σ ρ × σ
  | (⟨[], r⟩, s) => (⟨[], r⟩, s)
  | (⟨.skip :: rest, r⟩, s) => (⟨rest, r⟩, s)
  | (⟨.access f :: rest, r⟩, s) => (⟨rest, (f s r).2⟩, (f s r).1)
  | (⟨.seq a b :: rest, r⟩, s) => (⟨a :: b :: rest, r⟩, s)
  | (⟨.ite test a b :: rest, r⟩, s) => (⟨(if test r then a else b) :: rest, r⟩, s)
  | (⟨.loop a test b :: rest, r⟩, s) => (⟨a :: .ite test (.seq b (.loop a test b)) .skip :: rest, r⟩, s)

/-- The second is reached from the first without an interrupt. -/
def Goes (p q : Thread σ ρ × σ) : Prop := ∃ n, step^[n] p = q

variable {p p' q : Thread σ ρ × σ}

theorem Goes.refl : Goes p p := ⟨0, rfl⟩

/-- A step, and what follows. -/
theorem Goes.head (h : Goes (step p) q) : Goes p q := by
  obtain ⟨n, h⟩ := h
  exact ⟨n + 1, h⟩

theorem Goes.trans (h : Goes p p') (h' : Goes p' q) : Goes p q := by
  obtain ⟨n, rfl⟩ := h
  obtain ⟨n', rfl⟩ := h'
  exact ⟨n' + n, Function.iterate_add_apply ..⟩

/-- What follows, and a step. -/
theorem Goes.tail (h : Goes p q) : Goes p (step q) := h.trans ⟨1, rfl⟩

theorem step_of_rest (h : p.1.rest = []) : step p = p := by
  obtain ⟨⟨rest, r⟩, s⟩ := p
  obtain rfl : rest = [] := h
  rfl

/-- There is one end. -/
theorem Goes.unique (hp : Goes p p') (hq : Goes p q) (hp' : p'.1.rest = []) (hq' : q.1.rest = []) : p' = q := by
  have hstay : ∀ p : Thread σ ρ × σ, p.1.rest = [] → ∀ n, step^[n] p = p := fun p h n =>
    Function.iterate_fixed (step_of_rest h) n
  obtain ⟨n, rfl⟩ := hp
  obtain ⟨n', rfl⟩ := hq
  rcases le_total n n' with h | h
  · obtain ⟨k, rfl⟩ := Nat.exists_eq_add_of_le' h
    rw [Function.iterate_add_apply, hstay _ hp']
  · obtain ⟨k, rfl⟩ := Nat.exists_eq_add_of_le' h
    rw [Function.iterate_add_apply, hstay _ hq']

end Thread

namespace Code

variable {σ : Type u} {ρ : Type v} {a b c : Code σ ρ} {test : ρ → Bool} {s s' s'' : σ} {r r' r'' : ρ}

/-- `if`, without `else`. -/
def when (a : Code σ ρ) (test : ρ → Bool) (b : Code σ ρ) : Code σ ρ := .seq a (.ite test b .skip)

/-! ## Without interrupts -/

/-- The code takes the first to the second, if it is not interrupted. -/
def Ends (a : Code σ ρ) (s : σ) (r : ρ) (s' : σ) (r' : ρ) : Prop :=
  ∀ rest, Thread.Goes (⟨a :: rest, r⟩, s) (⟨rest, r'⟩, s')

/-- The code takes `s` to `s'`, whatever is in the registers. -/
def Leads (a : Code σ ρ) (s s' : σ) : Prop := ∀ r, ∃ r', a.Ends s r s' r'

/-- The code loads what the test needs, which has the result `v`. -/
def Tests (a : Code σ ρ) (test : ρ → Bool) (s : σ) (v : Bool) : Prop := ∀ r, ∃ r', a.Ends s r s r' ∧ test r' = v

namespace Ends

theorem skip : Ends .skip s r s r := fun _ => .head .refl

theorem access (f : σ → ρ → σ × ρ) : Ends (.access f) s r (f s r).1 (f s r).2 := fun _ => .head .refl

theorem seq (ha : a.Ends s r s' r') (hb : b.Ends s' r' s'' r'') : Ends (.seq a b) s r s'' r'' := fun rest =>
  .head ((ha (b :: rest)).trans (hb rest))

theorem ite (h : (if test r then a else b).Ends s r s' r') : Ends (.ite test a b) s r s' r' := fun rest =>
  .head (h rest)

theorem loop (ha : a.Ends s r s' r') (h : Ends (.ite test (.seq b (.loop a test b)) .skip) s' r' s'' r'') :
    Ends (.loop a test b) s r s'' r'' := fun rest => .head ((ha _).trans (h rest))

end Ends

namespace Leads

theorem seq (ha : a.Leads s s') (hb : b.Leads s' s'') : Leads (.seq a b) s s'' := fun r => by
  obtain ⟨r', ha⟩ := ha r
  obtain ⟨r'', hb⟩ := hb r'
  exact ⟨r'', ha.seq hb⟩

theorem when_true (ha : a.Tests test s true) (hb : b.Leads s s') : Leads (.when a test b) s s' := fun r => by
  obtain ⟨r', ha, htest⟩ := ha r
  obtain ⟨r'', hb⟩ := hb r'
  refine ⟨r'', ha.seq (.ite ?_)⟩
  rwa [if_pos htest]

theorem when_false (ha : a.Tests test s false) : Leads (.when a test b) s s := fun r => by
  obtain ⟨r', ha, htest⟩ := ha r
  refine ⟨r', ha.seq (.ite ?_)⟩
  rw [if_neg (by simp [htest])]
  exact .skip

/-- An iteration, and the others. -/
theorem loop_true (ha : a.Tests test s true) (hb : b.Leads s s') (hloop : Leads (.loop a test b) s' s'') :
    Leads (.loop a test b) s s'' := fun r => by
  obtain ⟨r', ha, htest⟩ := ha r
  obtain ⟨r'', h⟩ := hb.seq hloop r'
  refine ⟨r'', ha.loop (.ite ?_)⟩
  rwa [if_pos htest]

theorem loop_false (ha : a.Tests test s false) : Leads (.loop a test b) s s := fun r => by
  obtain ⟨r', ha, htest⟩ := ha r
  refine ⟨r', ha.loop (.ite ?_)⟩
  rw [if_neg (by simp [htest])]
  exact .skip

/-- A thread that has come to its end has done what the code does. -/
theorem eq_of_rest (h : a.Leads s s') {t : Thread σ ρ} (hgoes : Thread.Goes (⟨[a], r⟩, s) (t, s''))
    (ht : t.rest = []) : s'' = s' := by
  obtain ⟨r', hends⟩ := h r
  exact congrArg Prod.snd (hgoes.unique (hends []) ht rfl)

end Leads

end Code

/-! ## With interrupts -/

namespace Thread

variable {σ : Type u} {ρ : Type v}

/-- For `n` steps, of the thread and of the others, the thread keeps to the guarantee, and at its end `Q` holds. -/
def Safe (R G : σ → σ → Prop) (Q : σ → Prop) : ℕ → Thread σ ρ × σ → Prop
  | 0, _ => True
  | n + 1, p => (∀ s', R p.2 s' → Safe R G Q n (p.1, s')) ∧ (p.1.rest = [] → Q p.2) ∧
    (p.1.rest ≠ [] → G p.2 (step p).2 ∧ Safe R G Q n (step p))

variable {R G : σ → σ → Prop} {Q : σ → Prop} {t : Thread σ ρ} {s : σ}

/-- A thread that has come to its end. -/
theorem safe_of_rest (hQ : ∀ s s', R s s' → Q s → Q s') (ht : t.rest = []) (hs : Q s) (n : ℕ) :
    Safe R G Q n (t, s) := by
  induction n generalizing s with
  | zero => trivial
  | succ n ih => exact ⟨fun s' hR => ih (hQ s s' hR hs), fun _ => hs, fun h => absurd ht h⟩

end Thread

namespace Code

open Thread

variable {σ : Type u} {ρ : Type v} {R G : σ → σ → Prop} {P P' P'' : σ → ρ → Prop} {Q : σ → Prop} {a b : Code σ ρ}
  {test : ρ → Bool} {rest : List (Code σ ρ)} {n : ℕ}

/-- The others preserve the assertion. -/
def Stable (R : σ → σ → Prop) (P : σ → ρ → Prop) : Prop := ∀ s s' r, R s s' → P s r → P s' r

/-- From `P`, the code keeps to the guarantee and establishes `P'`, while the others keep to the rely. -/
def Triple (R G : σ → σ → Prop) (P : σ → ρ → Prop) (a : Code σ ρ) (P' : σ → ρ → Prop) : Prop :=
  ∀ n rest Q, (∀ m < n, ∀ s r, P' s r → Safe R G Q m (⟨rest, r⟩, s)) →
    ∀ s r, P s r → Safe R G Q n (⟨a :: rest, r⟩, s)

/-- The first step of the code, while the others preserve the assertion. -/
theorem safe_of_step (hP : Stable R P)
    (hstep : ∀ m < n, ∀ s r, P s r → G s (step (⟨a :: rest, r⟩, s)).2 ∧ Safe R G Q m (step (⟨a :: rest, r⟩, s))) :
    ∀ s r, P s r → Safe R G Q n (⟨a :: rest, r⟩, s) := by
  induction n with
  | zero => exact fun _ _ _ => trivial
  | succ n ih =>
    intro s r h
    refine ⟨fun s' hR => ?_, fun hrest => absurd hrest (List.cons_ne_nil _ _), fun _ => hstep n n.lt_succ_self s r h⟩
    exact ih (fun m hm => hstep m (hm.trans n.lt_succ_self)) s' r (hP s s' r hR h)

namespace Triple

theorem access {f : σ → ρ → σ × ρ} (hP : Stable R P) (h : ∀ s r, P s r → G s (f s r).1 ∧ P' (f s r).1 (f s r).2) :
    Triple R G P (.access f) P' := fun _ _ _ hrest =>
  safe_of_step hP fun m hm s r hs => ⟨(h s r hs).1, hrest m hm _ _ (h s r hs).2⟩

variable (hG : ∀ s, G s s)

include hG

theorem skip (hP : Stable R P) : Triple R G P .skip P := fun _ _ _ hrest =>
  safe_of_step hP fun m hm s r hs => ⟨hG s, hrest m hm s r hs⟩

theorem seq (hP : Stable R P) (ha : Triple R G P a P') (hb : Triple R G P' b P'') : Triple R G P (.seq a b) P'' := by
  intro n rest Q hrest
  refine safe_of_step hP fun m hm s r hs => ⟨hG s, ?_⟩
  exact ha m (b :: rest) Q (fun m' hm' => hb m' rest Q fun k hk => hrest k (hk.trans (hm'.trans hm))) s r hs

theorem ite (hP : Stable R P) (ha : Triple R G (fun s r => P s r ∧ test r = true) a P')
    (hb : Triple R G (fun s r => P s r ∧ test r = false) b P') : Triple R G P (.ite test a b) P' := by
  intro n rest Q hrest
  refine safe_of_step hP fun m hm s r hs => ⟨hG s, ?_⟩
  have hrest' : ∀ k < m, ∀ s r, P' s r → Safe R G Q k (⟨rest, r⟩, s) := fun k hk => hrest k (hk.trans hm)
  cases htest : test r with
  | true =>
    rw [step, if_pos htest]
    exact ha m rest Q hrest' s r ⟨hs, htest⟩
  | false =>
    rw [step, if_neg (by simp [htest])]
    exact hb m rest Q hrest' s r ⟨hs, htest⟩

omit hG in
theorem weaken {P₁ P₁' : σ → ρ → Prop} (h : Triple R G P a P') (hpre : ∀ s r, P₁ s r → P s r)
    (hpost : ∀ s r, P' s r → P₁' s r) : Triple R G P₁ a P₁' := fun n rest Q hrest s r hs =>
  h n rest Q (fun m hm s r hs' => hrest m hm s r (hpost s r hs')) s r (hpre s r hs)

theorem when (P' : σ → ρ → Prop) (hP : Stable R P) (hP' : Stable R P') (ha : Triple R G P a P')
    (hb : Triple R G (fun s r => P' s r ∧ test r = true) b P'')
    (hfalse : ∀ s r, P' s r ∧ test r = false → P'' s r) : Triple R G P (.when a test b) P'' := by
  have hstable : Stable R fun s r => P' s r ∧ test r = false := fun s s' r hR h => ⟨hP' s s' r hR h.1, h.2⟩
  exact seq hG hP ha (ite hG hP' hb ((skip hG hstable).weaken (fun _ _ h => h) hfalse))

/-- `P` holds before each iteration, and `P'` when the test is made. -/
theorem loop (P' : σ → ρ → Prop) (hP : Stable R P) (hP' : Stable R P') (ha : Triple R G P a P')
    (hb : Triple R G (fun s r => P' s r ∧ test r = true) b P)
    (hfalse : ∀ s r, P' s r ∧ test r = false → P'' s r) : Triple R G P (.loop a test b) P'' := by
  have hstable : ∀ v, Stable R fun s r => P' s r ∧ test r = v := fun v s s' r hR h => ⟨hP' s s' r hR h.1, h.2⟩
  intro n
  induction n using Nat.strongRecOn with
  | ind n ih =>
    intro rest Q hrest
    refine safe_of_step hP fun m hm s r hs => ⟨hG s, ?_⟩
    refine ha m (.ite test (.seq b (.loop a test b)) .skip :: rest) Q (fun k hk => ?_) s r hs
    refine safe_of_step hP' fun j hj s r hs => ⟨hG s, ?_⟩
    have hjn : j < n := hj.trans (hk.trans hm)
    cases htest : test r with
    | true =>
      rw [step, if_pos htest]
      refine safe_of_step (hstable true) (fun i hi s r hs => ⟨hG s, ?_⟩) s r ⟨hs, htest⟩
      exact hb i _ Q (fun l hl => ih l (hl.trans (hi.trans hjn)) rest Q fun m' hm' =>
        hrest m' (hm'.trans (hl.trans (hi.trans hjn)))) s r hs
    | false =>
      rw [step, if_neg (by simp [htest])]
      exact skip hG (hstable false) j rest Q (fun m' hm' s r hs => hrest m' (hm'.trans hjn) s r (hfalse s r hs)) s r
        ⟨hs, htest⟩

omit hG in
/-- A thread that starts with the code is safe. -/
theorem safe (h : Triple R G P a P') (hQ : ∀ s s', R s s' → Q s → Q s') (hpost : ∀ s r, P' s r → Q s) (n : ℕ) {s : σ}
    {r : ρ} (hs : P s r) : Safe R G Q n (⟨[a], r⟩, s) :=
  h n [] Q (fun m _ s _ hs => safe_of_rest hQ rfl (hpost s _ hs) m) s r hs

end Triple

end Code

/-!
# Transition systems

A `System` has initial states and labelled steps; its *runs* start in an initial
state and go on with steps. The two rules for runs:

* `Reachable.invariant`: what holds initially and is preserved by the steps from
  reachable states holds in every reachable state;
* `Reachable.stable`: what is preserved by the steps from reachable states is
  preserved by runs.

A system is restricted to the steps meeting a condition (`System.restrict`), or
extended with a *monitor*, a variable recording what happens in the run without
affecting it (`System.monitored`).

A system *simulates* another one if each of its steps is one of the other, or leaves the other where it
is, between related states (`System.Simulates`). So is each of its runs (`Simulates.runs`).
-/

universe u v w x

/-- A transition system with states `σ` and labels `ι`. -/
structure System (σ : Type u) (ι : Type v) where
  init : σ → Prop
  step : σ → ι → σ → Prop

/-- A variable recording what happens in runs. -/
structure Monitor (σ : Type u) (ι : Type v) (μ : Type w) where
  init : σ → μ → Prop
  next : μ → σ → ι → σ → μ

namespace System

variable {σ : Type u} {ι : Type v} {μ : Type w}

/-- The states of runs. -/
inductive Reachable (S : System σ ι) : σ → Prop
  | init {s : σ} : S.init s → Reachable S s
  | step {s s' : σ} {i : ι} : Reachable S s → S.step s i s' → Reachable S s'

/-- The runs from a state to another. -/
inductive Steps (S : System σ ι) (s : σ) : σ → Prop
  | refl : Steps S s s
  | step {s' s'' : σ} {i : ι} : Steps S s s' → S.step s' i s'' → Steps S s s''

/-- The runs from a state to another, with the labels of their steps. -/
inductive Runs (S : System σ ι) (s : σ) : List ι → σ → Prop
  | refl : Runs S s [] s
  | step {s' s'' : σ} {labels : List ι} {i : ι} : Runs S s labels s' → S.step s' i s'' → Runs S s (labels ++ [i]) s''

/-- The system restricted to the steps meeting a condition. -/
def restrict (S : System σ ι) (ok : σ → ι → Prop) : System σ ι where
  init := S.init
  step s i s' := ok s i ∧ S.step s i s'

/-- The system with a monitor. -/
def monitored (S : System σ ι) (M : Monitor σ ι μ) : System (σ × μ) ι where
  init p := S.init p.1 ∧ M.init p.1 p.2
  step p i p' := S.step p.1 i p'.1 ∧ p'.2 = M.next p.2 p.1 i p'.1

variable {S : System σ ι} {M : Monitor σ ι μ} {s s' : σ}

namespace Reachable

/-- Invariants hold in every reachable state. -/
theorem invariant {P : σ → Prop} (h : S.Reachable s) (hinit : ∀ s, S.init s → P s)
    (hstep : ∀ s i s', S.Reachable s → P s → S.step s i s' → P s') : P s := by
  induction h with
  | init h0 => exact hinit _ h0
  | step hs hi ih => exact hstep _ _ _ hs ih hi

theorem steps (h : S.Reachable s) (hs : S.Steps s s') : S.Reachable s' := by
  induction hs with
  | refl => exact h
  | step _ hi ih => exact ih.step hi

/-- What steps preserve is preserved by runs. -/
theorem stable {P : σ → Prop} (h : S.Reachable s) (hs : S.Steps s s') (hP : P s)
    (hstep : ∀ s i s', S.Reachable s → P s → S.step s i s' → P s') : P s' := by
  induction hs with
  | refl => exact hP
  | step hs hi ih => exact hstep _ _ _ (h.steps hs) ih hi

/-- Restricted runs are runs. -/
theorem of_restrict {ok : σ → ι → Prop} (h : (S.restrict ok).Reachable s) : S.Reachable s :=
  h.invariant (fun _ h0 => .init h0) fun _ _ _ _ hs hi => hs.step hi.2

/-- Monitored runs are runs. -/
theorem of_monitored {p : σ × μ} (h : (S.monitored M).Reachable p) : S.Reachable p.1 :=
  h.invariant (P := fun p => S.Reachable p.1) (fun _ h0 => .init h0.1)
    fun _ _ _ _ hs hi => hs.step hi.1

/-- A monitor does not notice the restriction of a system. -/
theorem of_restrict_monitored {ok : σ → ι → Prop} {p : σ × μ}
    (h : ((S.restrict ok).monitored M).Reachable p) : (S.monitored M).Reachable p :=
  h.invariant (fun _ h0 => .init h0) fun _ _ _ _ hs hi => hs.step ⟨hi.1.2, hi.2⟩

end Reachable

theorem Steps.trans {s'' : σ} (h : S.Steps s s') (h' : S.Steps s' s'') : S.Steps s s'' := by
  induction h' with
  | refl => exact h
  | step _ hi ih => exact ih.step hi

theorem Steps.of_restrict {ok : σ → ι → Prop} (h : (S.restrict ok).Steps s s') : S.Steps s s' := by
  induction h with
  | refl => exact .refl
  | step _ hi ih => exact ih.step hi.2

theorem Runs.steps {labels : List ι} (h : S.Runs s labels s') : S.Steps s s' := by
  induction h with
  | refl => exact .refl
  | step _ hi ih => exact ih.step hi

/-! ## Simulations -/

variable {α : Type w} {κ : Type x} {A : System α κ} {f : ι → Option κ} {R : σ → α → Prop} {a : α}

/-- A step, or none. -/
def move (A : System α κ) (a : α) : Option κ → α → Prop
  | none, a' => a' = a
  | some k, a' => A.step a k a'

/-- Each step `i` of the system is the step `f i` of `A`, or leaves it where it is, between related states. -/
def Simulates (S : System σ ι) (A : System α κ) (f : ι → Option κ) (R : σ → α → Prop) : Prop :=
  ∀ s a i s', R s a → S.step s i s' → ∃ a', A.move a (f i) a' ∧ R s' a'

/-- Each run is one of the other system. -/
theorem Simulates.runs {labels : List ι} (h : S.Simulates A f R) (hR : R s a) (hruns : S.Runs s labels s') :
    ∃ a', A.Runs a (labels.filterMap f) a' ∧ R s' a' := by
  induction hruns with
  | refl => exact ⟨a, .refl, hR⟩
  | @step s' s'' labels i _ hi ih =>
    obtain ⟨a', ha', hR'⟩ := ih
    obtain ⟨a'', hmove, hR''⟩ := h _ _ _ _ hR' hi
    refine ⟨a'', ?_, hR''⟩
    rw [List.filterMap_append, List.filterMap_cons]
    cases hf : f i with
    | none =>
      rw [hf] at hmove
      obtain rfl : a'' = a' := hmove
      simpa using ha'
    | some k =>
      rw [hf] at hmove
      exact ha'.step hmove

end System

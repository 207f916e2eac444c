import GtuOs.Multitasking.Interrupts

/-!
# The last task

`SetLastTaskPriority` and `CollatzAdded` are about the last task of the table, which
the init routines take for the child they have just forked. A monitor records the
child every process has forked last, and the process that has forked last
(`ChildLog`).

`last_task_targets`: in the runs of all system calls the two calls are about the task
created last, by whichever process; it is the last child of the caller exactly when no
other process has forked since (`not_targetsOwnChild` is a run where one has).
-/

namespace GtuOs.TaskManager

variable {s s' : TaskManager} {i : Interrupt} {t c : ℕ}

/-- The forks of a run. -/
structure ChildLog where
  /-- The last child of every process that has forked. -/
  child : ℕ → Option ℕ
  /-- The process that has forked last. -/
  forker : Option ℕ

/-- The log after an interrupt: the new task is the last child of the running process. -/
def ChildLog.next (w : ChildLog) (s : TaskManager) (i : Interrupt) (_ : TaskManager) : ChildLog :=
  match i.call with
  | some .fork => ⟨Function.update w.child s.current (some s.numTasks), some s.current⟩
  | _ => w

/-- The monitor of the children. -/
def children : Monitor TaskManager Interrupt ChildLog where
  init _ w := w = ⟨fun _ => none, none⟩
  next := ChildLog.next

/-- The runs of all interrupts in any lifecycle, with room in the table for forks. Among them are those in which an
empty queue is popped, a null pointer is followed or the ready queue is overrun, where the program has no defined
behaviour: what is proved of all of them holds of the others too. -/
def openSystem : System TaskManager Interrupt where
  init s := ∃ b : Boot, b.firstTick.1 = s ∧ 0 < b.start.numTasks
  step s i s' := (i.call = some .fork → s.numTasks < maxNumTasks) ∧ (s.handle i).1 = s'

/-- A call changes the priority of the task `t` to `p`, and no other. -/
def SetsPriority (s s' : TaskManager) (t : ℕ) (p : Priority) : Prop :=
  (s'.tasks t).priority = p ∧ ∀ k, k ≠ t → (s'.tasks k).priority = (s.tasks k).priority

/-- The two calls, made by the running process, are about the task `t`. -/
structure Targets (s : TaskManager) (t : ℕ) : Prop where
  priority : ∀ i priority, i.call = some (.setLastTaskPriority priority) →
    s.SetsPriority (s.handle i).1 t priority.toInt32.toInt
  collatz : ∀ i, i.call = some .collatzAdded → (s.handle i).1.collatzTask = some t

/-- The two calls are about the child the running process has forked last, if any. -/
def TargetsOwnChild (s : TaskManager) (w : ChildLog) : Prop :=
  ∀ c, w.child s.current = some c → s.Targets c

/-- A tick, and a system call with its frame at `esp`, the memory being zero otherwise. -/
def tickAt (esp : ℕ) : Interrupt := .timer (fun _ => 0) esp

def callAt (esp : ℕ) (eax ebx : UInt32) : Interrupt :=
  .syscall ((Memory.store32 (fun _ => 0) (esp + 4) ebx).store32 esp eax) esp

/-! ## The target -/

/-- The two calls are about the last task of the table. -/
theorem targets_last (h : 0 < s.numTasks) : s.Targets (s.numTasks - 1) := by
  refine ⟨fun i priority hcall => ?_, fun i hcall => ?_⟩
  · cases i with
    | timer mem esp => cases hcall
    | syscall mem esp =>
      have hsys : (CPUState.load mem esp).syscall = .setLastTaskPriority priority :=
        Option.some_inj.1 hcall
      have heq : (s.handle (.syscall mem esp)).1 =
          { s with mem }.reprioritize (s.numTasks - 1) priority.toInt32.toInt := by
        rw [← setLastTaskPriority_eq (s := { s with mem }) h]
        simp only [handle, handleInterrupt, hsys]
      have htasks : (s.handle (.syscall mem esp)).1.tasks = Function.update s.tasks (s.numTasks - 1)
          { s.tasks (s.numTasks - 1) with priority := priority.toInt32.toInt, state := .ready } := by
        rw [heq, reprioritize_eq]
      refine ⟨by rw [htasks, Function.update_self], fun k hk => ?_⟩
      rw [htasks, Function.update_of_ne hk]
  · cases i with
    | timer mem esp => cases hcall
    | syscall mem esp =>
      have hsys : (CPUState.load mem esp).syscall = .collatzAdded := Option.some_inj.1 hcall
      simp only [handle, handleInterrupt, hsys]
      rw [collatzAdded, if_pos h]

/-- They are about no other task. -/
theorem Targets.unique (h : s.Targets t) (h' : s.Targets c) : t = c := by
  have hcall : (callAt 0 11 0).call = some .collatzAdded := by decide +kernel
  exact Option.some_inj.1 ((h.collatz _ hcall).symm.trans (h'.collatz _ hcall))

/-! ## Runs -/

/-- The last child of a process is the last task exactly when this process has forked
    last. -/
structure ChildInv (s : TaskManager) (w : ChildLog) : Prop where
  pos : 0 < s.numTasks
  child : ∀ t c, w.child t = some c → c < s.numTasks ∧ (c = s.numTasks - 1 ↔ w.forker = some t)

/-- One interrupt. -/
theorem ChildInv.handle {w : ChildLog} (h : ChildInv s w)
    (hroom : i.call = some .fork → s.numTasks < maxNumTasks) :
    ChildInv (s.handle i).1 (w.next s i (s.handle i).1) := by
  have hnum := handle_numTasks hroom
  have hpos := h.pos
  by_cases hcall : i.call = some .fork
  · rw [if_pos hcall] at hnum
    have hnext : w.next s i (s.handle i).1 =
        ⟨Function.update w.child s.current (some s.numTasks), some s.current⟩ := by
      rw [ChildLog.next]
      rw [hcall]
    rw [hnext]
    refine ⟨by omega, fun t c hc => ?_⟩
    dsimp only at hc ⊢
    rw [hnum]
    rcases eq_or_ne t s.current with rfl | ht
    · -- The child of the process that has just forked is the last task.
      rw [Function.update_self, Option.some_inj] at hc
      exact ⟨by omega, iff_of_true (by omega) rfl⟩
    · -- The children of the others are older.
      rw [Function.update_of_ne ht] at hc
      have hlt := (h.child t c hc).1
      exact ⟨by omega, iff_of_false (by omega) fun he => ht (Option.some_inj.1 he).symm⟩
  · rw [if_neg hcall] at hnum
    have hnext : w.next s i (s.handle i).1 = w := by
      rw [ChildLog.next]
      split
      · next hc => exact absurd hc hcall
      · rfl
    rw [hnext]
    exact ⟨by rw [hnum]; exact hpos, fun t c hc => by rw [hnum]; exact h.child t c hc⟩

theorem childInv_of_reachable {p : TaskManager × ChildLog}
    (h : (openSystem.monitored children).Reachable p) : ChildInv p.1 p.2 := by
  refine h.invariant (P := fun p => ChildInv p.1 p.2) (fun p h0 => ?_) fun p i p' _ hp hi => ?_
  · obtain ⟨⟨b, hb, hpos⟩, hw⟩ := h0
    have hnum : p.1.numTasks = b.start.numTasks := by
      rw [← hb]
      exact scheduleTick_numTasks _ _
    rw [hw]
    exact ⟨hnum ▸ hpos, nofun⟩
  · obtain ⟨⟨hroom, hs⟩, hw⟩ := hi
    rw [hw, ← hs]
    exact hp.handle hroom

/-- **The targets of `SetLastTaskPriority` and `CollatzAdded`**, in every run: the task
    created last; this is the last child of the caller exactly when no other process
    has forked since. -/
theorem last_task_targets {p : TaskManager × ChildLog}
    (h : (openSystem.monitored children).Reachable p) :
    p.1.Targets (p.1.numTasks - 1) ∧
      ∀ c, p.2.child p.1.current = some c →
        (p.1.Targets c ↔ p.2.forker = some p.1.current) := by
  have hinv := childInv_of_reachable h
  have hlast := targets_last hinv.pos
  refine ⟨hlast, fun c hc => Iff.trans ⟨fun ht => ht.unique hlast, ?_⟩ (hinv.child _ c hc).2⟩
  rintro rfl
  exact hlast

/-! ## Two processes that fork -/

/-- The next state, with the log. -/
def stepLog (p : TaskManager × ChildLog) (i : Interrupt) : TaskManager × ChildLog :=
  ((p.1.handle i).1, p.2.next p.1 i (p.1.handle i).1)

/-- The init process forks the task 1. -/
def firstForked : TaskManager × ChildLog :=
  stepLog (sampleState, ⟨fun _ => none, none⟩) (callAt 12000 57 0)

/-- After a tick the task 1 forks the task 2. -/
def secondForked : TaskManager × ChildLog :=
  stepLog (stepLog firstForked (tickAt 12000)) (callAt 16136 57 0)

/-- After another tick the init process runs, whose last child is the task 1. -/
def bothForked : TaskManager × ChildLog :=
  stepLog secondForked (tickAt 16136)

theorem bothForked_reachable : (openSystem.monitored children).Reachable bothForked := by
  have hstep : ∀ {p : TaskManager × ChildLog} {i : Interrupt},
      (openSystem.monitored children).Reachable p →
      (i.call = some .fork → p.1.numTasks < maxNumTasks) →
      (openSystem.monitored children).Reachable (stepLog p i) := fun hp hroom =>
    hp.step (i := _) ⟨⟨hroom, rfl⟩, rfl⟩
  have h₀ : (openSystem.monitored children).Reachable (sampleState, ⟨fun _ => none, none⟩) :=
    .init ⟨⟨sampleBoot, rfl, by decide +kernel⟩, rfl⟩
  have h₁ : (openSystem.monitored children).Reachable firstForked :=
    hstep h₀ fun _ => by decide +kernel
  have h₂ : (openSystem.monitored children).Reachable secondForked :=
    hstep (hstep h₁ nofun) fun _ => by decide +kernel
  exact hstep h₂ nofun

/-- Calls of the init process after the task 1 has forked: they are about the task 2. -/
theorem not_targetsOwnChild : ¬∀ p, (openSystem.monitored children).Reachable p →
    p.1.TargetsOwnChild p.2 := fun h => by
  have hcur : bothForked.1.current = 0 := by decide +kernel
  have hchild : bothForked.2.child bothForked.1.current = some 1 := by
    rw [hcur]
    decide +kernel
  have hlow : (callAt 12000 10 2).call = some (.setLastTaskPriority 2) := by
    decide +kernel
  have hset := ((h bothForked bothForked_reachable 1 hchild).priority _ _ hlow).1
  have hkept : ((bothForked.1.handle (callAt 12000 10 2)).1.tasks 1).priority = 0 := by
    decide +kernel
  rw [hkept] at hset
  exact absurd hset (by decide)

/-- The calls of the init process then are about the task 2. -/
theorem last_task_targets_bothForked :
    bothForked.1.Targets (bothForked.1.numTasks - 1) ∧ ¬bothForked.1.Targets 1 := by
  have hcur : bothForked.1.current = 0 := by decide +kernel
  have hchild : bothForked.2.child bothForked.1.current = some 1 := by
    rw [hcur]
    decide +kernel
  have hforker : bothForked.2.forker = some 1 := by decide +kernel
  obtain ⟨hlast, hown⟩ := last_task_targets bothForked_reachable
  refine ⟨hlast, fun ht => ?_⟩
  have hbad := (hown 1 hchild).1 ht
  rw [hforker, hcur] at hbad
  cases hbad

end GtuOs.TaskManager

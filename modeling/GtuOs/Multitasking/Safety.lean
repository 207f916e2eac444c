import GtuOs.Multitasking.Boot

/-!
# Safety of the task manager

The invariant of runs read off, in every state reached:

* `consistent_of_reachable`: state flags, ready queue, `currentTask`, pids and
  waiting flags agree, and a task that has terminated stays so;
* `never_pops_empty`: the scheduler always finds a task to run.
-/

namespace GtuOs.TaskManager

variable {s : TaskManager} {i : Interrupt} {r : TaskManager × ℕ} {k : ℕ}

/-! ## What happens to a task that is neither running nor ready -/

/-- Dispatching only changes the state of a ready task. -/
theorem Dispatches.tasks_eq (h : Dispatches s r) (k : ℕ) :
    r.1.tasks k = s.tasks k ∨
      (s.tasks k).state = .ready ∧ r.1.tasks k = { s.tasks k with state := .running } := by
  obtain ⟨t, -, hst, htasks, -⟩ := h
  rw [htasks]
  rcases eq_or_ne k t with rfl | hne
  · exact .inr ⟨hst, Function.update_self _ _ _⟩
  · exact .inl (Function.update_of_ne hne _ _)

theorem Dispatches.tasks_of_ne (h : Dispatches s r) (hk : (s.tasks k).state ≠ .ready) :
    r.1.tasks k = s.tasks k := (h.tasks_eq k).resolve_right fun hr => hk hr.1

/-- The table only grows. -/
theorem Effect.numTasks_le (h : Effect s i r) : s.numTasks ≤ r.1.numTasks := by
  cases h with
  | tick hd => exact hd.numTasks_eq.ge
  | fork _ _ _ _ hnum => exact hnum ▸ Nat.le_succ _
  | block _ _ _ hd => exact hd.numTasks_eq.ge
  | exit _ _ hd => exact hd.numTasks_eq.ge
  | exitWake _ _ _ _ hd => exact hd.numTasks_eq.ge
  | skip | forkpid | execve | reap | refuse => exact le_rfl

/-- The blocked task `k` is woken up by the exit of a child it waits for, whose pid
    is written in the `eax` of its frame. -/
structure Woken (s : TaskManager) (i : Interrupt) (r : TaskManager × ℕ) (k : ℕ) : Prop where
  call : i.call = some .exit
  blocked : (s.tasks k).state = .blocked
  waits : WaitsFor s.procs k s.current
  state : (r.1.tasks k).state ≠ .blocked ∧ (r.1.tasks k).state ≠ .terminated
  cpustate : (r.1.tasks k).cpustate = (s.tasks k).cpustate
  mem : r.1.mem = CPUState.setEax i.mem (s.tasks k).cpustate (.ofInt s.current)

/-- A blocked or terminated task stays as it is, but for the mark of a task reaped,
    unless it is woken up. -/
theorem Effect.idle (h : Effect s i r) (hk : k < s.numTasks) (hne : k ≠ s.current)
    (hst : (s.tasks k).state ≠ .ready) :
    (∃ took, r.1.tasks k = { s.tasks k with parentTookInWait := took }) ∨ Woken s i r k := by
  have hupdate : ∀ u, Function.update s.tasks s.current u k = s.tasks k := fun u =>
    Function.update_of_ne hne _ _
  have hsame : r.1.tasks k = s.tasks k →
      ∃ took, r.1.tasks k = { s.tasks k with parentTookInWait := took } := fun he => ⟨_, he⟩
  -- Besides the running task, an interrupt changes the task dispatched, a child reaped and a parent
  -- woken.
  cases h with
  | tick hd =>
    refine .inl (hsame ?_)
    rw [hd.tasks_of_ne] <;> simp [hupdate, hst]
  | skip | forkpid => exact .inl (hsame rfl)
  | fork _ _ htasks =>
    refine .inl (hsame ?_)
    dsimp only
    rw [htasks, Function.update_of_ne hk.ne, hupdate]
  | execve => exact .inl (hsame (hupdate _))
  | @reap _ _ c =>
    left
    rcases eq_or_ne k c with rfl | hkc
    · exact ⟨true, Function.update_self _ _ _⟩
    · exact hsame ((Function.update_of_ne hkc _ _).trans (hupdate _))
  | refuse => exact .inl (hsame (hupdate _))
  | block _ _ _ hd =>
    refine .inl (hsame ?_)
    rw [hd.tasks_of_ne] <;> simp [hupdate, hst]
  | exit _ _ hd =>
    refine .inl (hsame ?_)
    rw [hd.tasks_of_ne] <;> simp [hupdate, hst]
  | @exitWake _ _ p _ hcall _ hblk hw hd =>
    rcases eq_or_ne k p with rfl | hkp
    · right
      have htask := hd.tasks_eq k
      simp only [Function.update_self] at htask
      refine ⟨hcall, hblk, hw, ?_, ?_, hd.mem_eq⟩
      · rcases htask with ht | ⟨-, ht⟩ <;> simp [ht]
      · rcases htask with ht | ⟨-, ht⟩ <;> simp [ht]
    · refine .inl (hsame ?_)
      rw [hd.tasks_of_ne] <;> simp [Function.update_of_ne hkp, hupdate, hst]

/-- A terminated task stays so. -/
theorem Effect.state_of_terminated (h : Effect s i r) (hs : s.Inv) (hk : k < s.numTasks)
    (hst : (s.tasks k).state = .terminated) : (r.1.tasks k).state = .terminated := by
  have hne : k ≠ s.current := fun he => by
    rw [he, hs.state_current] at hst
    cases hst
  rcases h.idle hk hne (by simp [hst]) with ⟨_, hi⟩ | hw
  · rw [hi, hst]
  · have := hw.blocked
    rw [hst] at this
    cases this

/-- A blocked task is woken up or stays so. -/
theorem Effect.state_of_blocked (h : Effect s i r) (hs : s.Inv) (hk : k < s.numTasks)
    (hst : (s.tasks k).state = .blocked) :
    (r.1.tasks k).state = .blocked ∧ (r.1.tasks k).proc.waiting = (s.tasks k).proc.waiting ∨
      Woken s i r k := by
  have hne : k ≠ s.current := fun he => by
    rw [he, hs.state_current] at hst
    cases hst
  rcases h.idle hk hne (by simp [hst]) with ⟨_, hi⟩ | hw
  · exact .inl ⟨by rw [hi, hst], by rw [hi]; rfl⟩
  · exact .inr hw

/-- A ready task stays so, or is dispatched. -/
theorem Effect.state_of_ready (h : Effect s i r) (hs : s.Inv) (hk : k < s.numTasks)
    (hst : (s.tasks k).state = .ready) :
    (r.1.tasks k).state = .ready ∨ (r.1.tasks k).state = .running := by
  have hne : k ≠ s.current := fun he => by
    rw [he, hs.state_current] at hst
    cases hst
  have hd : ∀ {s₁ : TaskManager}, Dispatches s₁ r → s₁.tasks k = s.tasks k →
      (r.1.tasks k).state = .ready ∨ (r.1.tasks k).state = .running := fun hd he => by
    rcases hd.tasks_eq k with h | ⟨-, h⟩
    · exact .inl (by rw [h, he, hst])
    · exact .inr (by rw [h])
  have hupdate : ∀ u, Function.update s.tasks s.current u k = s.tasks k := fun u =>
    Function.update_of_ne hne _ _
  -- Neither a child reaped nor a parent woken up is ready before.
  cases h with
  | tick h => exact hd h (hupdate _)
  | skip | forkpid => exact .inl hst
  | fork _ _ htasks =>
    left
    dsimp only
    rw [htasks, Function.update_of_ne hk.ne, hupdate, hst]
  | execve | refuse =>
    left
    dsimp only
    rw [hupdate, hst]
  | @reap _ _ c _ _ _ _ _ hterm =>
    have hkc : k ≠ c := fun he => by
      rw [he, hterm] at hst
      cases hst
    left
    dsimp only
    rw [Function.update_of_ne hkc, hupdate, hst]
  | block _ _ _ h => exact hd h (hupdate _)
  | exit _ _ h => exact hd h (hupdate _)
  | @exitWake _ _ p _ _ _ hblk _ h =>
    have hkp : k ≠ p := fun he => by
      rw [he, hblk] at hst
      cases hst
    exact hd h ((Function.update_of_ne hkp _ _).trans (hupdate _))

/-! ## What does not change -/

section Fields

variable {α : Type*} {g : Task → α}

/-- Interrupts only change the frame, the state, the waiting flags and the mark of a task
    reaped, and `Fork` the fork pid of its caller: a field of tasks independent of
    these does not change. -/
theorem Effect.field_eq (h : Effect s i r) (hk : k < s.numTasks)
    (hg : ∀ (t : Task) (cpustate : ℕ) (state : State) (waitingChild : Bool) (waitingChildId : ℤ)
      (parentTookInWait : Bool),
      g { t with cpustate, state, waitingChild, waitingChildId, parentTookInWait } = g t)
    (hf : i.call = some .fork → k = s.current → ∀ (t : Task) (forkPid : ℤ),
      g { t with forkPid } = g t) : g (r.1.tasks k) = g (s.tasks k) := by
  -- A dispatch changes a state only, and an update the task updated.
  have hd : ∀ {s₁ : TaskManager}, Dispatches s₁ r → g (r.1.tasks k) = g (s₁.tasks k) := fun hd => by
    rcases hd.tasks_eq k with h | ⟨-, h⟩
    · rw [h]
    · rw [h]
      exact hg _ _ _ _ _ _
  have hupdate : ∀ (f : ℕ → Task) (j : ℕ) (u : Task), (k = j → g u = g (f j)) →
      g (Function.update f j u k) = g (f k) := fun f j u hu => by
    rcases eq_or_ne k j with rfl | hne
    · rw [Function.update_self, hu rfl]
    · rw [Function.update_of_ne hne]
  cases h with
  | tick h => exact (hd h).trans (hupdate _ _ _ fun _ => hg _ _ _ _ _ _)
  | skip | forkpid => rfl
  | @fork _ esp _ hcall _ htasks =>
    dsimp only
    rw [htasks, Function.update_of_ne hk.ne]
    refine hupdate _ _ _ fun he => ?_
    exact (hf hcall he { s.tasks s.current with cpustate := esp } _).trans
      (hg (s.tasks s.current) _ _ _ _ _)
  | execve => exact hupdate _ _ _ fun _ => hg _ _ _ _ _ _
  | @reap _ _ c =>
    dsimp only
    rcases eq_or_ne k c with rfl | hkc
    · rw [Function.update_self]
      exact hg _ _ _ _ _ _
    · rw [Function.update_of_ne hkc]
      exact hupdate _ _ _ fun _ => hg _ _ _ _ _ _
  | refuse => exact hupdate _ _ _ fun _ => hg _ _ _ _ _ _
  | block _ _ _ h => exact (hd h).trans (hupdate _ _ _ fun _ => hg _ _ _ _ _ _)
  | exit _ _ h => exact (hd h).trans (hupdate _ _ _ fun _ => hg _ _ _ _ _ _)
  | @exitWake _ _ p _ _ _ _ _ h =>
    refine (hd h).trans ?_
    dsimp only
    rcases eq_or_ne k p with rfl | hkp
    · rw [Function.update_self]
      exact hg _ _ _ _ _ _
    · rw [Function.update_of_ne hkp]
      exact hupdate _ _ _ fun _ => hg _ _ _ _ _ _

/-- The parent of a task does not change. -/
theorem Effect.ppid_eq (h : Effect s i r) (hk : k < s.numTasks) :
    (r.1.tasks k).ppid = (s.tasks k).ppid :=
  h.field_eq hk (fun _ _ _ _ _ _ => rfl) fun _ _ _ _ => rfl

/-- Nor does its pid. -/
theorem Effect.pid_eq (h : Effect s i r) (hk : k < s.numTasks) :
    (r.1.tasks k).pid = (s.tasks k).pid :=
  h.field_eq hk (fun _ _ _ _ _ _ => rfl) fun _ _ _ _ => rfl

/-- The fork pid of a task only changes when it forks. -/
theorem Effect.forkPid_eq (h : Effect s i r) (hk : k < s.numTasks)
    (hf : i.call = some .fork → k ≠ s.current) : (r.1.tasks k).forkPid = (s.tasks k).forkPid :=
  h.field_eq hk (fun _ _ _ _ _ _ => rfl) fun hcall he => absurd he (hf hcall)

end Fields

/-! ## Consistency -/

/-- The flags, the queue and the pids of a state agree. -/
structure Consistent (s : TaskManager) : Prop where
  /-- Exactly one task is running: it is `tasks[currentTask]`. -/
  running : 0 ≤ s.currentTask ∧ s.currentTask < s.numTasks ∧
    ∀ i < s.numTasks, (s.tasks i).state = .running ↔ (i : ℤ) = s.currentTask
  /-- The queue holds every ready task exactly once, and nothing else. -/
  ready : s.queue.Nodup ∧ ∀ i, i ∈ s.queue ↔ i < s.numTasks ∧ (s.tasks i).state = .ready
  blocked : ∀ i < s.numTasks, (s.tasks i).state = .blocked ↔ (s.tasks i).waitingChild = true
  pid : ∀ i < s.numTasks, (s.tasks i).pid = i ∧ (s.tasks i).ppid < (s.tasks i).pid
  /-- No index out of the array of the queue was ever written. -/
  bounds : s.readyQueue.top ≤ maxNumTasks

theorem Inv.consistent (h : s.Inv) : s.Consistent := by
  have hcur : (s.current : ℤ) = s.currentTask := Int.toNat_of_nonneg h.currentTask_nonneg
  refine ⟨⟨h.currentTask_nonneg, ?_, fun i hi => ?_⟩, ⟨h.queueOk.nodup, h.queueOk.mem_iff⟩,
    fun i hi => ?_, fun i hi => ⟨h.pid_eq i hi, ?_⟩, h.queueOk.top_le⟩
  · rw [← hcur]
    exact Int.ofNat_lt.2 h.current_lt
  · refine (h.table.running_iff i hi).trans ?_
    rw [← hcur, Option.some_inj]
    omega
  · refine (h.table.blocked_iff i hi).trans ?_
    cases hw : (s.tasks i).waitingChild <;> simp [procs, Task.proc, hw]
  · rw [h.pid_eq i hi]
    exact h.table.ppid_lt i hi

/-- **The representation invariant.** Every state reached is consistent, and a task
    that has terminated is not put in the queue nor run again by the rest of the
    run. -/
theorem consistent_of_reachable (h : system.Reachable s) :
    s.Consistent ∧ ∀ s', system.Steps s s' → ∀ i < s.numTasks, (s.tasks i).state = .terminated →
      (s'.tasks i).state = .terminated ∧ i ∉ s'.queue ∧ (i : ℤ) ≠ s'.currentTask := by
  refine ⟨(inv_of_reachable h).consistent, fun s' hs i hi hst => ?_⟩
  have hinv := inv_of_reachable (h.steps hs)
  obtain ⟨hi', hst'⟩ := h.stable hs (P := fun s => i < s.numTasks ∧ (s.tasks i).state = .terminated)
    ⟨hi, hst⟩ fun s j s' hr ⟨hi, hst⟩ ⟨hj, hs'⟩ => by
      have heff := ((inv_of_reachable hr).handle hj).1
      rw [← hs']
      exact ⟨lt_of_lt_of_le hi heff.numTasks_le, heff.state_of_terminated (inv_of_reachable hr) hi hst⟩
  refine ⟨hst', fun hq => ?_, fun he => ?_⟩
  · have := (hinv.consistent.ready.2 i).1 hq
    rw [hst'] at this
    exact absurd this.2 (by decide)
  · have := (hinv.consistent.running.2.2 i hi').2 he
    rw [hst'] at this
    cases this

/-- After the first `Fork`, for one. -/
theorem consistent_after_fork :
    (sampleState.handle (sampleCall 57 0)).1.Consistent ∧
      ∀ s', system.Steps (sampleState.handle (sampleCall 57 0)).1 s' →
        ∀ i < (sampleState.handle (sampleCall 57 0)).1.numTasks,
          ((sampleState.handle (sampleCall 57 0)).1.tasks i).state = .terminated →
            (s'.tasks i).state = .terminated ∧ i ∉ s'.queue ∧ (i : ℤ) ≠ s'.currentTask :=
  consistent_of_reachable sampleFork_reachable

/-- **The scheduler always has a runnable task**: the empty queue is never popped,
    and not all tasks are blocked. -/
theorem never_pops_empty (h : system.Reachable s) :
    s.poppedEmpty = false ∧ ∃ i < s.numTasks, (s.tasks i).state = .running :=
  have hinv := inv_of_reachable h
  ⟨hinv.flags.1, s.current, hinv.current_lt, hinv.state_current⟩

/-- After the first `Fork`, for one. -/
theorem never_pops_empty_after_fork :
    (sampleState.handle (sampleCall 57 0)).1.poppedEmpty = false ∧
      ∃ i < (sampleState.handle (sampleCall 57 0)).1.numTasks,
        ((sampleState.handle (sampleCall 57 0)).1.tasks i).state = .running :=
  never_pops_empty sampleFork_reachable

end GtuOs.TaskManager

import GtuOs.Multitasking.Programs

/-!
# The hand-off of lifecycle B3

The init process calls `BlockForCollatz`, and is put back in the ready queue by the
`Exit` of the collatz task, or else by the 5th interrupt after `CollatzAdded`. The first
forgets the collatz task but not the blocked one, so that the 5th interrupt, if it comes
after, puts the init process back once more (`not_handsOff`). In the runs in which it
does not, each block is released exactly once (`handsOff_iff`).

While the init process is blocked so (`Parked`), the state is related to one in which it
is blocked in `Waitpid` (`waiting`).
-/

namespace GtuOs.TaskManager

variable {s : TaskManager} {n : ℕ} {e : Event} {mem : Memory} {esp : ℕ}

/-! ## What happens -/

/-- The task the mechanism puts back in the queue in an event, if any: at the 5th
    interrupt, and at the `Exit` of the collatz task. -/
def putsBack (s : TaskManager) (e : Event) : Option ℕ :=
  match e.action with
  | none =>
    if s.lifeCycleType = .lifeCycleB3 ∧ s.interruptNumAfterCollatz = 4 then
      s.blockedTaskForCollatz else none
  | some (.call .exit) =>
    match s.collatzTask, s.blockedTaskForCollatz with
    | some c, some b => if (s.tasks s.current).pid = (s.tasks c).pid then some b else none
    | _, _ => none
  | some _ => none

/-- The task is blocked, and not in `Waitpid`. -/
structure BlockedForCollatz (s : TaskManager) (k : ℕ) : Prop where
  lt : k < s.numTasks
  blocked : (s.tasks k).state = .blocked
  notWaiting : (s.tasks k).waitingChild = false

/-- How often `BlockForCollatz` has been called, and a task been put back. -/
structure HandOffs where
  calls : ℕ
  putBack : ℕ

/-- The monitor counting them. -/
def handOffMonitor : Monitor (TaskManager × ℕ) Event HandOffs where
  init _ l := l = ⟨0, 0⟩
  next l p e _ :=
    ⟨if e.action = some (.call .blockForCollatz) then l.calls + 1 else l.calls,
      if (p.1.putsBack e).isSome then l.putBack + 1 else l.putBack⟩

/-- What holds of states. -/
structure HandsOff (s : TaskManager) (l : HandOffs) : Prop where
  calls : l.calls ≤ 1
  putBack : l.putBack ≤ l.calls
  /-- The init process is blocked as long as it has not been put back. -/
  blocked : ∀ k, s.BlockedForCollatz k ↔ k = 0 ∧ l.putBack < l.calls
  /-- No task is queued twice, and none that is not ready. -/
  queue : s.queue.Nodup ∧ ∀ k ∈ s.queue, (s.tasks k).state = .ready

/-- What holds of events. -/
structure HandsOffIn (s : TaskManager) (e : Event) : Prop where
  /-- Only a task that is blocked by `BlockForCollatz` is put back: it is ready then, or
      runs again. -/
  only : ∀ b, s.putsBack e = some b → s.BlockedForCollatz b ∧
    (((s.perform e).tasks b).state = .ready ∨ ((s.perform e).tasks b).state = .running)
  /-- It is put back by the 5th interrupt, and by the `Exit` of the collatz task. -/
  puts : ∀ b, s.BlockedForCollatz b →
    e.action = none ∧ s.interruptNumAfterCollatz = 4 ∨
      e.action = some (.call .exit) ∧ s.collatzTask = some s.current →
    s.putsBack e = some b

/-- The 5th interrupt, if it is to put a task back, comes before the `Exit` of the
    collatz task has. -/
def FifthInTime (p : TaskManager × ℕ) (e : Event) : Prop :=
  e.action = none → p.1.AtFifth → p.1.collatzTask ≠ none

/-! ## Parking -/

/-- The state with the init process waiting for the first child. -/
def waiting (s : TaskManager) : TaskManager :=
  s.modifyTask 0 fun t => { t with waitingChild := true, waitingChildId := 1 }

theorem waiting_tasks_zero (s : TaskManager) : s.waiting.tasks 0 =
    { s.tasks 0 with waitingChild := true, waitingChildId := 1 } := by
  rw [waiting, modifyTask_tasks, Function.update_self]

theorem waiting_tasks_of_ne {k : ℕ} (hk : k ≠ 0) : s.waiting.tasks k = s.tasks k :=
  Function.update_of_ne hk _ _

theorem update_waiting (s : TaskManager) {k : ℕ} (hk : k ≠ 0) (u : Task) :
    { s with tasks := Function.update s.tasks k u }.waiting =
      { s.waiting with tasks := Function.update s.waiting.tasks k u } := by
  unfold waiting modifyTask
  dsimp only
  rw [Function.update_of_ne hk.symm, Function.update_comm hk]

theorem schedule_waiting (s : TaskManager) :
    s.waiting.schedule = (s.schedule.1.waiting, s.schedule.2) :=
  schedule_modifyTask (fun _ => rfl) (fun _ => rfl) fun _ => rfl

theorem preempted_waiting (hcur : s.current ≠ 0) (esp : ℕ) :
    s.waiting.preempted esp = (s.preempted esp).waiting := by
  have hcomm : s.waiting.modifyTask s.current (fun t => { t with cpustate := esp }) =
      (s.modifyTask s.current fun t => { t with cpustate := esp }).waiting := by
    rw [modifyTask, waiting_tasks_of_ne hcur]
    exact (update_waiting s hcur _).symm
  show (s.waiting.modifyTask s.current fun t => { t with cpustate := esp }).addToReadyQueue
    s.current = _
  rw [hcomm]
  exact addToReadyQueue_modifyTask hcur.symm rfl rfl

theorem countInterrupt_waiting (s : TaskManager) :
    s.waiting.countInterrupt = s.countInterrupt.waiting := by
  simp only [countInterrupt]
  split_ifs with h₁ h₂ h₂
  · rfl
  · exact absurd h₁ h₂
  · exact absurd h₂ h₁
  · rfl

/-- A tick that is not the 5th one. -/
theorem tick_waiting (hcur : s.current ≠ 0) (hno : ¬s.AtFifth) (mem : Memory) (esp : ℕ) :
    (s.waiting.handle (.timer mem esp)).1 = (s.handle (.timer mem esp)).1.waiting := by
  have hno₁ : ¬{ s with mem }.AtFifth := hno
  have hno₂ : ¬{ s.waiting with mem }.AtFifth := hno
  have hwith : { s.waiting with mem } = { s with mem }.waiting := rfl
  show ({ s.waiting with mem }.scheduleTick esp).1 = ({ s with mem }.scheduleTick esp).1.waiting
  rw [scheduleTick_eq, scheduleTick_eq, fifth_of_not hno₁, fifth_of_not hno₂, hwith,
    countInterrupt_waiting]
  have hcur₁ : { s with mem }.countInterrupt.current ≠ 0 := by
    rw [countInterrupt_eq]
    exact hcur
  have hrequeue : ({ s with mem }.countInterrupt.waiting).requeueCurrent esp =
      ({ s with mem }.countInterrupt.requeueCurrent esp).waiting := by
    simp only [requeueCurrent]
    show (if { s with mem }.countInterrupt.currentTask ≥ 0 then _ else _) = _
    split_ifs
    · exact preempted_waiting hcur₁ esp
    · rfl
  rw [hrequeue, schedule_waiting]
  show (if s.numTasks ≤ 0 then _ else if s.lifeCycleType = .lifeCycleB4 ∧ s.ignoreSchedule = true then _
    else _ : TaskManager × ℕ).1 = _
  split_ifs <;> rfl

/-- The init process is parked, and its first child, the collatz task, is running. -/
structure Parked (s : TaskManager) : Prop where
  primed : s.waiting.Primed
  current : s.current = 1
  numTasks : s.numTasks = 2
  blocked : (s.tasks 0).state = .blocked
  notWaiting : (s.tasks 0).waitingChild = false

namespace Parked

variable {i : Interrupt}

/-- Scheduling changes no flag. -/
theorem schedule_waitingChild (s : TaskManager) (k : ℕ) :
    (s.schedule.1.tasks k).waitingChild = (s.tasks k).waitingChild := by
  have htasks : s.schedule.1.tasks = Function.update s.tasks (s.readyQueue.get 0)
      { s.tasks (s.readyQueue.get 0) with state := .running } := by
    rw [schedule_eq_runHead]
    rfl
  rw [htasks]
  rcases eq_or_ne k (s.readyQueue.get 0) with rfl | hk
  · rw [Function.update_self]
  · rw [Function.update_of_ne hk]

/-- The only task that can run is the first child. -/
theorem of_dispatches {r : TaskManager × ℕ} (hd : Dispatches s r) (hn : s.numTasks = 2)
    (h0 : (s.tasks 0).state = .blocked) : r.1.current = 1 ∧ r.1.tasks 0 = s.tasks 0 := by
  obtain ⟨t, ht, hst, htasks, hcur, -⟩ := hd
  have ht1 : t = 1 := by
    rcases Nat.eq_zero_or_pos t with rfl | hpos
    · rw [h0] at hst
      cases hst
    · omega
  subst ht1
  refine ⟨by rw [TaskManager.current, hcur]; rfl, ?_⟩
  rw [htasks, Function.update_of_ne (by decide)]

/-- A tick that is not the 5th one. -/
theorem tick (h : s.Parked) (hlife : s.lifeCycleType = .lifeCycleB3) (hno : ¬s.AtFifth)
    (mem : Memory) (esp : ℕ) : (s.handle (.timer mem esp)).1.Parked ∧
      (s.handle (.timer mem esp)).1.mode = s.countInterrupt.mode := by
  have hcur : s.current ≠ 0 := by rw [h.current]; decide
  have hwait := tick_waiting hcur hno mem esp
  have hnum := handle_numTasks (s := s) (i := .timer mem esp) fun h => by cases h
  have hb4 : ¬(s.lifeCycleType = .lifeCycleB4 ∧ s.ignoreSchedule = true) := fun hb => by
    rw [hlife] at hb
    cases hb.1
  obtain ⟨hplain, hmode⟩ := tick_plain (s := s.waiting) h.primed.inv mem esp hb4 hno
  have heff := (h.primed.inv.handle (i := .timer mem esp) trivial).1
  rw [hwait] at hplain hmode
  rw [countInterrupt_waiting] at hmode
  -- Nobody sets the flag of a task that is not running.
  have hchild : ((s.handle (.timer mem esp)).1.tasks 0).waitingChild = false := by
    have hn : ¬s.numTasks ≤ 0 := by
      rw [h.numTasks]
      decide
    have hnonneg : { s with mem }.countInterrupt.currentTask ≥ 0 := by
      rw [countInterrupt_eq]
      exact h.primed.inv.currentTask_nonneg
    show (({ s with mem }.scheduleTick esp).1.tasks 0).waitingChild = false
    have hno₁ : ¬{ s with mem }.AtFifth := hno
    rw [scheduleTick_eq, if_neg hn, if_neg hb4, fifth_of_not hno₁, schedule_waitingChild,
      requeueCurrent, if_pos hnonneg, preempted_tasks, countInterrupt_eq]
    show (Function.update s.tasks s.current _ 0).waitingChild = false
    rw [Function.update_of_ne hcur.symm]
    exact h.notWaiting
  -- In the state in which it waits, the tick dispatches a ready task: not the init process, which
  -- is blocked.
  generalize hr : s.waiting.plain.handle (.timer mem esp) = r at heff hplain
  cases heff with
  | tick hd =>
    have hblocked : (s.waiting.tasks 0).state = .blocked := by
      rw [waiting_tasks_zero]
      exact h.blocked
    have hzero : ∀ u, Function.update s.waiting.tasks s.current u 0 = s.waiting.tasks 0 := fun u =>
      Function.update_of_ne hcur.symm _ _
    obtain ⟨hcur', htasks⟩ := of_dispatches hd h.numTasks (by
      show (Function.update s.waiting.tasks s.current _ 0).state = .blocked
      rw [hzero, hblocked])
    refine ⟨⟨h.primed.handle (i := .timer mem esp) trivial (hplain.trans (by rw [hr])), ?_,
      hnum.trans h.numTasks, ?_, hchild⟩, hmode⟩
    · rw [← hplain] at hcur'
      exact hcur'
    · have htasks' : (s.handle (.timer mem esp)).1.waiting.tasks 0 = s.waiting.tasks 0 := by
        rw [← hplain] at htasks
        exact htasks.trans (hzero _)
      rw [waiting_tasks_zero, waiting_tasks_zero] at htasks'
      exact (congrArg Task.state htasks' : _).trans h.blocked

/-- The calls of the collatz task, but for `Exit`. -/
theorem call (h : s.Parked) {c : Syscall} (hcall : i.call = some c) (hc : ChildAction (.call c))
    (hne : c ≠ .exit) : (s.handle i).1.Parked ∧ (s.handle i).1.mode = s.mode := by
  have hcur : s.current ≠ 0 := by rw [h.current]; decide
  have hallow : s.waiting.plain.Allowed i := by
    rw [Allowed]
    rw [hcall]
    cases c <;> trivial
  -- The calls do not touch the init process, and do the same whether or not it waits for a child.
  have hwait : (s.handle i).1.waiting.plain = (s.waiting.plain.handle i).1 ∧
      (s.handle i).1.tasks 0 = s.tasks 0 ∧ (s.handle i).1.current = s.current ∧
      (s.handle i).1.numTasks = s.numTasks ∧ (s.handle i).1.mode = s.mode := by
    rw [handle_of_call hcall, handle_of_call hcall]
    have htask : s.waiting.tasks s.current = s.tasks s.current := waiting_tasks_of_ne hcur
    cases c with
    | printf | other => exact ⟨rfl, rfl, rfl, rfl, rfl⟩
    | forkpid =>
      refine ⟨?_, rfl, rfl, rfl, rfl⟩
      show _ = { s.waiting.plain with
        mem := CPUState.setEax i.mem i.esp (.ofInt (s.waiting.tasks s.current).forkPid) }
      rw [htask]
      rfl
    | execve entrypoint =>
      dsimp only
      rw [execve_eq, execve_eq]
      refine ⟨?_, Function.update_of_ne hcur.symm _ _, rfl, rfl, rfl⟩
      show _ = { s.waiting.plain with
        mem := ((s.waiting.tasks s.current).reset i.mem entrypoint).2
        tasks := Function.update s.waiting.tasks s.current
          ((s.waiting.tasks s.current).reset i.mem entrypoint).1 }
      rw [htask]
      exact congrArg plain (update_waiting
        { s with mem := ((s.tasks s.current).reset i.mem entrypoint).2 } hcur _)
    | exit => exact absurd rfl hne
    | fork | waitpid | blockForCollatz | setLastTaskPriority | collatzAdded => exact hc.elim
  obtain ⟨hplain, htasks, hcurrent, hnum, hmode⟩ := hwait
  exact ⟨⟨h.primed.handle hallow hplain, hcurrent.trans h.current, hnum.trans h.numTasks,
    htasks ▸ h.blocked, htasks ▸ h.notWaiting⟩, hmode⟩

/-! ## Parking and releasing -/

/-- The init process blocks for the collatz task. -/
theorem blockForCollatz (h : s.Prepares 1 2) (esp : ℕ) :
    (s.blockForCollatz esp).1.Parked ∧
      (s.blockForCollatz esp).1.mode = { s.mode with blockedTaskForCollatz := some 0 } := by
  let s₁ := { s.modifyTask s.current (fun t => { t with cpustate := esp, state := .blocked }) with
    blockedTaskForCollatz := some s.current }
  have heq : s.blockForCollatz esp = s₁.schedule := rfl
  have hself : s₁.tasks 0 = { s.tasks 0 with cpustate := esp, state := .blocked } := by
    show Function.update s.tasks s.current _ 0 = _
    rw [h.current, Function.update_self]
  -- It could as well wait for its child.
  have hwait : s₁.waiting.plain = s.plain.blockedFor esp 1 := by
    have htasks : s₁.waiting.tasks = (s.plain.blockedFor esp 1).tasks := by
      rw [Inv.blockedFor_tasks, show s.plain.current = 0 from h.current, waiting, modifyTask_tasks, hself]
      show Function.update (Function.update s.tasks s.current _) 0 _ = _
      rw [h.current, Function.update_idem]
      rfl
    have hfields : s₁.waiting.plain = { s.plain with tasks := s₁.waiting.tasks } := rfl
    rw [hfields, htasks]
    rfl
  have hchild := h.ready 1 le_rfl (by rw [h.numTasks]; decide)
  have hat : (s.plain.blockedFor esp 1).InvAt none := by
    refine h.primed.inv.blockedFor esp (show (1 : ℤ) = if (1 : UInt32) = -1 then -1 else _ by decide)
      ⟨1, ?_, .inr rfl, ?_, ?_⟩ fun k hk hask hpp hst => ?_
    · show 1 < s.numTasks
      rw [h.numTasks]
      decide
    · rw [show s.plain.current = 0 from h.current]
      exact hchild.2
    · rw [show s.plain.tasks 1 = s.tasks 1 from rfl, hchild.1]
      decide
    · obtain rfl : 1 = k := hask.resolve_left (by decide)
      rw [show s.plain.tasks 1 = s.tasks 1 from rfl, hchild.1] at hst
      cases hst
  have hrank : (s.plain.blockedFor esp 1).Ranked :=
    (h.primed.ranked.modifyTask _ rfl rfl).modifyTask _ rfl rfl
  obtain ⟨hd, hinv⟩ := hat.schedule
  have hsched : s₁.schedule.1.waiting.plain = (s.plain.blockedFor esp 1).schedule.1 := by
    have hplain := schedule_withMode s₁.waiting .plain
    rw [schedule_waiting] at hplain
    rw [← hwait]
    exact (congrArg Prod.fst hplain).symm
  have hzero : (s.plain.blockedFor esp 1).tasks 0 = { s.tasks 0 with
      cpustate := esp, state := .blocked, waitingChild := true, waitingChildId := 1 } := by
    rw [Inv.blockedFor_tasks, show s.plain.current = 0 from h.current, Function.update_self]
    rfl
  obtain ⟨hcur, htask⟩ := of_dispatches hd (show s.numTasks = 2 from h.numTasks) (by rw [hzero])
  have hnum := hd.numTasks_eq
  have hprio : ∀ k, ((s.plain.blockedFor esp 1).schedule.1.tasks k).priority = (s.tasks k).priority :=
    fun k => by
      have hk : ((s.plain.blockedFor esp 1).tasks k).priority = (s.tasks k).priority := by
        rcases eq_or_ne k 0 with rfl | hk
        · rw [hzero]
        · rw [Inv.blockedFor_tasks, Function.update_of_ne (by rwa [show s.plain.current = 0 from h.current])]
          rfl
      rcases hd.tasks_eq k with he | ⟨-, he⟩ <;> rw [he, ← hk]
  rw [heq]
  rw [← hsched] at hinv hcur htask hnum hprio
  have hzero' : s₁.schedule.1.waiting.tasks 0 = _ := htask.trans hzero
  rw [waiting_tasks_zero] at hzero'
  have hn : s₁.schedule.1.numTasks = 2 := hnum.trans h.numTasks
  refine ⟨⟨⟨hinv, hsched ▸ (hrank.schedule hat).1, (hprio 0).trans h.primed.high, fun k hk => ?_⟩,
    hcur, hn, ?_, ?_⟩, ?_⟩
  · exact (h.primed.nonneg k (by rw [h.numTasks]; exact hn ▸ hk)).trans_eq (hprio k).symm
  · exact (congrArg Task.state hzero' :)
  · rw [schedule_waitingChild, hself]
    have hchild : (s.tasks s.current).waitingChild = false := h.primed.inv.waitingChild_current
    rwa [h.current] at hchild
  · rw [schedule_mode]
    show { s.mode with blockedTaskForCollatz := some s.current } = _
    rw [h.current]

/-- Released, the init process is ready. -/
theorem addToReadyQueue (h : s.Parked) : (s.addToReadyQueue 0).Primed := by
  have hn : 0 < s.numTasks := by
    rw [h.numTasks]
    decide
  -- Without the flags of the init process.
  have hrestore : s.plain = s.waiting.plain.modifyTask 0 fun t => { t with
      waitingChild := false, waitingChildId := (s.tasks 0).waitingChildId } := by
    have htasks : Function.update s.waiting.tasks 0 { s.waiting.tasks 0 with
        waitingChild := false, waitingChildId := (s.tasks 0).waitingChildId } = s.tasks := by
      rw [waiting_tasks_zero]
      rw [waiting, modifyTask]
      dsimp only
      rw [Function.update_idem, ← h.notWaiting]
      exact Function.update_eq_self 0 s.tasks
    exact congrArg (fun tasks => { s.plain with tasks }) htasks.symm
  have hbase : s.plain.Base := by
    rw [hrestore]
    exact h.primed.inv.toBase.modifyTask hn rfl rfl Iff.rfl
  have hrank : s.plain.Ranked := by
    rw [hrestore]
    exact h.primed.ranked.modifyTask 0 rfl rfl
  have hnotReady : (s.tasks 0).state ≠ .ready := by
    rw [h.blocked]
    decide
  have hplain : (s.addToReadyQueue 0).plain = s.plain.addToReadyQueue 0 :=
    (addToReadyQueue_withMode s .plain 0).symm
  have htasks : (s.addToReadyQueue 0).tasks = Function.update s.tasks 0 { s.tasks 0 with state := .ready } :=
    addToReadyQueue_tasks s 0
  have htable : Table (some s.current) (s.plain.addToReadyQueue 0).procs s.numTasks := by
    have hwake := h.primed.inv.table.wake (t := 0) hn (by
      show (s.waiting.tasks 0).state = .blocked
      rw [waiting_tasks_zero]
      exact h.blocked)
    have hprocs : (s.plain.addToReadyQueue 0).procs = Function.update s.waiting.plain.procs 0
        { s.waiting.plain.procs 0 with state := .ready, waiting := none } := by
      have hself : s.waiting.plain.procs 0 = (s.waiting.tasks 0).proc := rfl
      rw [procs_eq_update (addToReadyQueue_tasks s.plain 0), hself, waiting_tasks_zero,
        show s.waiting.plain.procs = _ from procs_eq_update (s := s.plain) rfl, Function.update_idem]
      congr 1
      show ({ s.tasks 0 with state := .ready } : Task).proc = _
      rw [Task.proc, h.notWaiting]
      rfl
    rw [hprocs]
    exact hwake
  have hcur : (s.plain.addToReadyQueue 0).currentTask = s.currentTask :=
    addToReadyQueue_currentTask s.plain 0
  refine ⟨?_, ?_, ?_, fun k hk => ?_⟩
  · rw [hplain]
    refine ⟨⟨hbase.addToReadyQueue hn hnotReady, ?_⟩, ?_⟩
    · rw [addToReadyQueue_numTasks, TaskManager.current, hcur]
      exact htable
    · rw [hcur]
      exact h.primed.inv.currentTask_nonneg
  · rw [hplain]
    exact hrank.addToReadyQueue hbase.queueOk (fun k hk => hk.1) hn fun hm => hnotReady hm.2
  · rw [htasks, Function.update_self]
    have hhigh := h.primed.high
    rw [waiting_tasks_zero] at hhigh
    exact hhigh
  · rw [addToReadyQueue_numTasks] at hk
    have hnonneg := h.primed.nonneg k hk
    rw [htasks]
    rcases eq_or_ne k 0 with rfl | hk0
    · rw [waiting_tasks_zero] at hnonneg
      rw [Function.update_self]
      exact hnonneg
    · rw [waiting_tasks_of_ne hk0] at hnonneg
      rwa [Function.update_of_ne hk0]

/-- Released, it is what runs next. -/
theorem released (h : s.Parked) {s' : TaskManager} {i : Interrupt}
    (hi : i.call = none ∨ i.call = some .exit)
    (hs' : s'.plain = ((s.addToReadyQueue 0).plain.handle i).1) : s'.Prepares 2 2 := by
  have hprimed := h.addToReadyQueue
  have hcur : (s.addToReadyQueue 0).plain.current = 1 := by
    show (s.addToReadyQueue 0).currentTask.toNat = 1
    rw [addToReadyQueue_currentTask]
    exact h.current
  have hnum : (s.addToReadyQueue 0).numTasks = 2 := by
    rw [addToReadyQueue_numTasks]
    exact h.numTasks
  have hallow : (s.addToReadyQueue 0).plain.Allowed i := by
    rw [Allowed]
    rcases hi with hi | hi <;> rw [hi]
    · trivial
    · dsimp only
      rw [hcur]
      decide
  have hprio : (s.addToReadyQueue 0).plain.PriorityAllowed i := by
    rw [PriorityAllowed]
    rcases hi with hi | hi <;> rw [hi] <;> exact hallow
  have hdecides : (s.addToReadyQueue 0).plain.Decides i := by
    rw [Decides]
    rcases hi with hi | hi <;> rw [hi] <;> trivial
  have hready : ((s.addToReadyQueue 0).plain.tasks 0).state = .ready := by
    show ((s.addToReadyQueue 0).tasks 0).state = .ready
    rw [addToReadyQueue_tasks, Function.update_self]
  have hpos : 0 < (s.addToReadyQueue 0).plain.numTasks := lt_of_lt_of_eq (by decide) hnum.symm
  -- It is ready, has the highest priority, and came first: no other task is better.
  have hstate := (hprimed.inv.handle hallow).1.state_of_ready hprimed.inv hpos hready
  have hbest := (hprimed.ranked.handle hprimed.inv hprio).2.2 hdecides
  have hnum' := handle_numTasks (s := (s.addToReadyQueue 0).plain) (i := i) fun hf => by
    rcases hi with hi | hi <;> rw [hi] at hf <;> cases hf
  have hn : s'.plain.numTasks = 2 := by
    rw [hs', hnum', if_neg fun hf => ?_]
    · exact hnum
    · rcases hi with hi | hi <;> rw [hi] at hf <;> cases hf
  have hprimed' := hprimed.handle hallow hs'
  rw [← hs'] at hstate hbest
  refine ⟨hprimed', hprimed'.current_eq_zero hbest hstate, fun k hlo hk => ?_, hn⟩
  have hk' : k < s'.plain.numTasks := hk
  omega

theorem withMem (h : s.Parked) (mem : Memory) : { s with mem }.Parked :=
  ⟨h.primed.withMem mem, h.current, h.numTasks, h.blocked, h.notWaiting⟩

/-- The 5th interrupt. -/
theorem fifth (h : s.Parked) (hlife : s.lifeCycleType = .lifeCycleB3)
    (hblk : s.blockedTaskForCollatz = some 0) (hnum : s.interruptNumAfterCollatz = 4)
    (mem : Memory) (esp : ℕ) : (s.handle (.timer mem esp)).1.Prepares 2 2 ∧
      (s.handle (.timer mem esp)).1.mode =
        { s.mode with interruptNumAfterCollatz := 5, blockedTaskForCollatz := none } := by
  let s₁ : TaskManager := { s with mem, interruptNumAfterCollatz := 5 }
  let s₂ : TaskManager := { s₁.addToReadyQueue 0 with blockedTaskForCollatz := none }
  -- The count becomes 5, so that the blocked task is put back before the collatz task is.
  have heq : s.handle (.timer mem esp) = (s₂.requeueCurrent esp).schedule := by
    have hn : ¬s.numTasks ≤ 0 := by
      rw [h.numTasks]
      decide
    have hb4 : ¬(s.lifeCycleType = .lifeCycleB4 ∧ s.ignoreSchedule = true) := fun hb => by
      rw [hlife] at hb
      cases hb.1
    have hcount : { s with mem }.countInterrupt = s₁ := by
      have hne : s.interruptNumAfterCollatz ≠ -1 := by rw [hnum]; decide
      rw [countInterrupt, if_pos hne, hnum]
      rfl
    have hpromote : s₁.promoteAtFifth = s₁ := if_neg fun hb => by
      have hb4 := hlife.symm.trans hb.1
      cases hb4
    have hunblock : s₁.unblockAtFifth = s₂ := by
      have hblk₁ : s₁.blockedTaskForCollatz = some 0 := hblk
      rw [unblockAtFifth, if_pos ⟨hlife, rfl⟩, unblockForCollatz, hblk₁]
    show { s with mem }.scheduleTick esp = _
    rw [scheduleTick_eq, if_neg hn, if_neg hb4, hcount, hpromote, hunblock]
  -- Up to the mode this is an ordinary tick after it has been put back.
  have hplain : s₂.plain = ({ s with mem }.addToReadyQueue 0).plain :=
    (addToReadyQueue_withMode s₁ .plain 0).symm.trans (addToReadyQueue_withMode { s with mem } .plain 0)
  have hinv : s₂.plain.Inv := by
    rw [hplain]
    exact (h.withMem mem).addToReadyQueue.inv
  obtain ⟨hafter, hmode⟩ := requeue_handle hinv esp
  rw [heq]
  refine ⟨(h.withMem mem).released (i := .timer s₂.mem esp) (.inl rfl) (hplain ▸ hafter), ?_⟩
  rw [hmode]
  show { (s₁.addToReadyQueue 0).mode with blockedTaskForCollatz := none } = _
  rw [addToReadyQueue_mode]
  rfl

/-- A parent that is not waiting is not woken up. -/
theorem wakeParent_eq_self {s : TaskManager} {k : ℕ}
    (h : (s.tasks (s.tasks k).ppid.toNat).waitingChild = false) : s.wakeParent k = s := by
  rw [wakeParent]
  dsimp only
  split_ifs with h₁ h₂
  · rw [h] at h₂
    cases h₂.1
  · rfl
  · rfl

/-- The `Exit` of the collatz task. -/
theorem exit (h : s.Parked) {i : Interrupt} (hcall : i.call = some .exit)
    (hcollatz : s.collatzTask = some 1) (hblk : s.blockedTaskForCollatz = some 0) :
    (s.handle i).1.Prepares 2 2 ∧ (s.handle i).1.mode = { s.mode with collatzTask := none } := by
  have h10 : 1 ≠ 0 := by decide
  let u : TaskManager := { s with mem := i.mem }
  have hu : u.Parked := h.withMem i.mem
  let terminate : Task → Task := fun t => { t with state := .terminated }
  let s₁ : TaskManager := u.modifyTask 1 terminate
  let s₂ : TaskManager := { u.addToReadyQueue 0 with collatzTask := none }
  have hppid : (u.tasks 1).ppid.toNat = 0 := by
    have hge := hu.primed.inv.table.ppid_ge 1 (lt_of_lt_of_eq (by decide) hu.numTasks.symm)
    have hlt := hu.primed.inv.table.ppid_lt 1 (lt_of_lt_of_eq (by decide) hu.numTasks.symm)
    have hone : (u.waiting.plain.procs 1).ppid = (u.tasks 1).ppid := by
      show (u.waiting.tasks 1).ppid = _
      rw [waiting_tasks_of_ne h10]
    rw [hone] at hge hlt
    omega
  have hone : s₁.tasks 1 = terminate (u.tasks 1) := by
    rw [modifyTask_tasks, Function.update_self]
  have hzero : s₁.tasks 0 = u.tasks 0 := by
    rw [modifyTask_tasks, Function.update_of_ne h10.symm]
  -- `Exit` in `u`, where the parent is not woken up but released.
  have hexit : u.exit = { s₁.addToReadyQueue 0 with collatzTask := none }.schedule := by
    have hwake : s₁.wakeParent 1 = s₁ := wakeParent_eq_self (by
      rw [hone, show (terminate (u.tasks 1)).ppid = (u.tasks 1).ppid from rfl, hppid, hzero]
      exact hu.notWaiting)
    have hrelease : s₁.releaseForCollatz 1 = { s₁.addToReadyQueue 0 with collatzTask := none } := by
      rw [releaseForCollatz]
      rw [show s₁.collatzTask = some 1 from hcollatz, show s₁.blockedTaskForCollatz = some 0 from hblk]
      exact if_pos rfl
    have heq : u.exit = (((u.modifyTask u.current terminate).wakeParent u.current).releaseForCollatz
        u.current).schedule := rfl
    rw [heq, hu.current, hwake, hrelease]
  -- `Exit` in the state in which it has been released already.
  have hexit₂ : s₂.exit = { s₁.addToReadyQueue 0 with collatzTask := none }.schedule := by
    have hcomm : s₂.modifyTask 1 terminate = { s₁.addToReadyQueue 0 with collatzTask := none } :=
      congrArg (fun s : TaskManager => { s with collatzTask := none })
        (addToReadyQueue_modifyTask (s := u) (t := 0) (i := 1) (by decide) rfl rfl).symm
    have hcur : s₂.current = 1 := by
      show (u.addToReadyQueue 0).currentTask.toNat = 1
      rw [addToReadyQueue_currentTask]
      exact hu.current
    have htasks : { s₁.addToReadyQueue 0 with collatzTask := none }.tasks =
        Function.update s₁.tasks 0 { s₁.tasks 0 with state := .ready } := addToReadyQueue_tasks s₁ 0
    have hwake : { s₁.addToReadyQueue 0 with collatzTask := none }.wakeParent 1 =
        { s₁.addToReadyQueue 0 with collatzTask := none } := wakeParent_eq_self (by
      rw [htasks, Function.update_of_ne h10, hone,
        show (terminate (u.tasks 1)).ppid = (u.tasks 1).ppid from rfl, hppid, Function.update_self, hzero]
      exact hu.notWaiting)
    have heq : s₂.exit = (((s₂.modifyTask s₂.current terminate).wakeParent s₂.current).releaseForCollatz
        s₂.current).schedule := rfl
    rw [heq, hcur, hcomm, hwake]
    rfl
  have hmem : (s₂.plain.handle i).1 = s₂.plain.exit.1 := by
    have hm : s₂.plain.mem = i.mem := addToReadyQueue_mem u 0
    rw [handle_of_call hcall, ← hm]
  have hplain := exit_plain (s := s₂) (.inl rfl)
  have hhandle : (s.handle i).1 = s₂.plain.exit.1.withMode s₂.mode := by
    have heq : (s.handle i).1 = u.exit.1 := handle_of_call hcall
    rw [heq, hexit, ← hexit₂, hplain]
  have hprio : s₂.plain.PriorityAllowed i := by
    have hcur : s₂.plain.current = 1 := by
      show (u.addToReadyQueue 0).currentTask.toNat = 1
      rw [addToReadyQueue_currentTask]
      exact hu.current
    rw [PriorityAllowed, Allowed]
    rw [hcall]
    dsimp only
    rw [hcur]
    decide
  have hstay := plain_handle (s := s₂) hu.addToReadyQueue.inv hprio
  rw [hmem] at hstay
  rw [hhandle]
  refine ⟨hu.released (.inr hcall) ?_, ?_⟩
  · rw [plain_withMode, hstay]
    exact hmem.symm
  · rw [mode_withMode]
    show { (u.addToReadyQueue 0).mode with collatzTask := none } = _
    rw [addToReadyQueue_mode]
    rfl

end Parked

/-! ## Runs -/

/-- The `n`-th action of `initB3` is one of the preparation, but for the call of
    `BlockForCollatz`. The first child is the collatz task. -/
def ActionB3 (n : ℕ) : Action → Prop
  | .call c =>
    if n = 4 then c = .blockForCollatz
    else Preparatory (if n < 4 then 1 else 2) (1 + forkCount initB3 n) c ∧
      (c = .collatzAdded ↔ n = 3)
  | .setIgnoreSchedule _ => False

instance (n : ℕ) : DecidablePred (ActionB3 n)
  | .call c => inferInstanceAs (Decidable (if n = 4 then c = .blockForCollatz
      else Preparatory (if n < 4 then 1 else 2) (1 + forkCount initB3 n) c ∧
        (c = .collatzAdded ↔ n = 3)))
  | .setIgnoreSchedule _ => .isFalse id

theorem initB3_action : ∀ (n : ℕ) (h : n < initB3.length), ActionB3 n initB3[n] := by decide +kernel

/-- What the init process does while it prepares its children. -/
theorem Follows.actionB3 {a : Action} (hf : Follows initB3 s n e) (hact : e.action = some a)
    (hcur : s.current = 0) (hn : n < initB3.length) : initB3[n]? = some a ∧ ActionB3 n a := by
  have hget := (hf.action_init hact hcur).resolve_right fun h => absurd hn (Nat.not_lt.2 h.1)
  obtain ⟨hn, rfl⟩ := List.getElem?_eq_some_iff.1 hget
  exact ⟨hget, initB3_action n hn⟩

/-- The invariant of runs in lifecycle B3. -/
inductive InvB3 : TaskManager → ℕ → HandOffs → Prop
  /-- The init process has not blocked yet. -/
  | before {s : TaskManager} {n : ℕ} : n < 5 → s.Prepares 1 (1 + forkCount initB3 n) →
      s.lifeCycleType = .lifeCycleB3 → s.blockedTaskForCollatz = none →
      (n = 4 → s.collatzTask = some 1) → InvB3 s n ⟨0, 0⟩
  /-- It is blocked for the collatz task. -/
  | parked {s : TaskManager} : s.Parked → s.lifeCycleType = .lifeCycleB3 →
      s.blockedTaskForCollatz = some 0 → s.collatzTask = some 1 → InvB3 s 5 ⟨1, 0⟩
  /-- It has been put back. -/
  | released {s : TaskManager} {n : ℕ} : 4 < n → s.Primed → s.lifeCycleType = .lifeCycleB3 →
      s.Quiet → (n ≤ initB3.length → s.Prepares 2 (1 + forkCount initB3 n)) → InvB3 s n ⟨1, 1⟩

namespace InvB3

variable {l : HandOffs}

/-- In states that are those of lifecycle A, nobody is blocked for the collatz task. -/
theorem not_blockedForCollatz (h : s.Primed) (k : ℕ) : ¬s.BlockedForCollatz k := fun hk => by
  have hchild := (h.inv.consistent.blocked k hk.lt).1 hk.blocked
  have hfalse : (s.plain.tasks k).waitingChild = false := hk.notWaiting
  rw [hfalse] at hchild
  cases hchild

theorem handsOff (h : InvB3 s n l) : HandsOff s l := by
  have hprimed : s.Primed → s.queue.Nodup ∧ ∀ k ∈ s.queue, (s.tasks k).state = .ready := fun h =>
    ⟨h.inv.queueOk.nodup, fun k hk => ((h.inv.queueOk.mem_iff k).1 hk).2⟩
  -- Nobody is blocked for the collatz task but the init process while it is parked.
  cases h with
  | before _ hprep =>
    exact ⟨by decide, by decide, fun k => ⟨fun hk => absurd hk (not_blockedForCollatz hprep.primed k),
      fun hk => absurd hk.2 (by decide)⟩, hprimed hprep.primed⟩
  | released _ hprim =>
    exact ⟨by decide, by decide, fun k => ⟨fun hk => absurd hk (not_blockedForCollatz hprim k),
      fun hk => absurd hk.2 (by decide)⟩, hprimed hprim⟩
  | parked hpark =>
    refine ⟨by decide, by decide, fun k => ⟨fun hk => ⟨?_, by decide⟩, ?_⟩,
      hpark.primed.inv.queueOk.nodup, fun k hk => ?_⟩
    · have hlt := hk.lt
      rw [hpark.numTasks] at hlt
      by_contra hne
      obtain rfl : k = 1 := by omega
      have hrun : (s.waiting.tasks s.current).state = .running := hpark.primed.inv.state_current
      rw [hpark.current, waiting_tasks_of_ne hne, hk.blocked] at hrun
      cases hrun
    · rintro ⟨rfl, -⟩
      exact ⟨lt_of_lt_of_eq (by decide) hpark.numTasks.symm, hpark.blocked, hpark.notWaiting⟩
    · have hready : (s.waiting.tasks k).state = .ready :=
        ((hpark.primed.inv.queueOk.mem_iff k).1 hk).2
      rcases eq_or_ne k 0 with rfl | hk0
      · rwa [waiting_tasks_zero] at hready
      · rwa [waiting_tasks_of_ne hk0] at hready

/-- The first tick. -/
theorem boot {b : Boot} (hlife : b.lifeCycleType = .lifeCycleB3)
    (hsch : b.schedulerType = .preemptivePriority) : InvB3 b.firstTick.1 0 ⟨0, 0⟩ := by
  obtain ⟨hprimed, hmode, hcur, hnum⟩ := Primed.boot hsch
  refine .before (by decide) ⟨hprimed, hcur, fun k hk hkn => ?_, hnum⟩ ?_ ?_ fun h => absurd h (by decide)
  · rw [hnum] at hkn
    omega
  · exact (congrArg Mode.lifeCycleType hmode).trans hlife
  · exact congrArg Mode.blockedTaskForCollatz hmode

/-! ### What is put back -/

theorem putsBack_tick (h : e.action = none) : s.putsBack e =
    if s.lifeCycleType = .lifeCycleB3 ∧ s.interruptNumAfterCollatz = 4 then
      s.blockedTaskForCollatz else none := by
  rw [putsBack]
  rw [h]

theorem putsBack_exit (h : e.action = some (.call .exit)) : s.putsBack e =
    match s.collatzTask, s.blockedTaskForCollatz with
    | some c, some b => if (s.tasks s.current).pid = (s.tasks c).pid then some b else none
    | _, _ => none := by
  rw [putsBack]
  rw [h]

theorem putsBack_other {a : Action} (h : e.action = some a) (hne : a ≠ .call .exit) :
    s.putsBack e = none := by
  rw [putsBack]
  rw [h]
  cases a with
  | setIgnoreSchedule b => rfl
  | call c =>
    cases c with
    | exit => exact absurd rfl hne
    | _ => rfl

/-- Nobody is put back when there is nobody to. -/
theorem putsBack_quiet (hquiet : s.Quiet) (hno : e.action = none → ¬s.AtFifth) :
    s.putsBack e = none := by
  rcases hact : e.action with _ | a
  · rw [putsBack_tick hact]
    split_ifs with hc
    · by_contra hne
      exact hno hact ⟨hc.2, .inr ⟨hc.1, hne⟩⟩
    · rfl
  · by_cases ha : a = .call .exit
    · rw [putsBack_exit (hact.trans (congrArg some ha))]
      rcases hquiet with hq | hq <;> rw [hq]
      cases s.collatzTask <;> rfl
    · exact putsBack_other hact ha

/-- The tick of a released process is not the 5th, if that is in time. -/
theorem not_atFifth (hlife : s.lifeCycleType = .lifeCycleB3) (hquiet : s.Quiet)
    (hok : FifthInTime (s, n) e) (hact : e.action = none) : ¬s.AtFifth := fun hf => by
  have hblk : s.blockedTaskForCollatz ≠ none := by
    rcases hf.2 with hb4 | hb3
    · rw [hlife] at hb4
      cases hb4
    · exact hb3.2
  exact hquiet.elim (hok hact hf) hblk

/-- While it is parked, the init process is put back by the 5th interrupt and by the
    `Exit` of the collatz task, and by nothing else. -/
theorem putsBack_parked (hpark : s.Parked) (hlife : s.lifeCycleType = .lifeCycleB3)
    (hblk : s.blockedTaskForCollatz = some 0) (hct : s.collatzTask = some 1) : s.putsBack e =
      if e.action = none ∧ s.interruptNumAfterCollatz = 4 ∨ e.action = some (.call .exit) then
        some 0 else none := by
  rcases hact : e.action with _ | a
  · rw [putsBack_tick hact, hblk]
    simp [hlife]
  · by_cases ha : a = .call .exit
    · rw [putsBack_exit (hact.trans (congrArg some ha)), hct, hblk, hpark.current]
      simp [ha]
    · rw [putsBack_other hact ha]
      simp [ha]

/-! ### Steps -/

/-- The state after an event, and what has happened. -/
def After (s : TaskManager) (n : ℕ) (l : HandOffs) (e : Event) : Prop :=
  InvB3 (s.perform e) (advance s n e) (handOffMonitor.next l (s, n) e (s.perform e, advance s n e))

theorem advance_tick (h : e.action = none) : advance s n e = n := if_neg fun hs => by
  rw [h] at hs
  cases hs.2

theorem advance_init (h : e.action ≠ none) (hcur : s.current = 0) : advance s n e = n + 1 :=
  if_pos ⟨hcur, Option.isSome_iff_ne_none.2 h⟩

theorem step_before (hn : n < 5) (h : s.Prepares 1 (1 + forkCount initB3 n))
    (hlife : s.lifeCycleType = .lifeCycleB3) (hblk : s.blockedTaskForCollatz = none)
    (hct : n = 4 → s.collatzTask = some 1) (hf : Follows initB3 s n e) : After s n ⟨0, 0⟩ e := by
  have hno : ¬s.AtFifth := fun hf => by
    rcases hf.2 with hb4 | hb3
    · rw [hlife] at hb4
      cases hb4
    · exact hb3.2 hblk
  have hput : s.putsBack e = none := putsBack_quiet (.inr hblk) fun _ => hno
  have hlen : n < initB3.length := lt_trans hn (by decide)
  cases e with
  | setIgnoreSchedule b => exact (hf.actionB3 rfl h.current hlen).2.elim
  | interrupt i =>
    -- A tick leaves everything prepared; a system call is the next action of the init routine.
    cases i with
    | timer mem esp =>
      have hact : (Event.interrupt (.timer mem esp)).action = none := rfl
      obtain ⟨hplain, hmode⟩ := tick_plain h.primed.inv mem esp (fun hi => by
        rw [hlife] at hi
        cases hi.1) hno
      have hafter := h.tick mem esp hplain
      rw [After, handOffMonitor]
      dsimp only
      rw [advance_tick hact, hput, hact, if_neg (by simp), if_neg (by simp)]
      rw [countInterrupt_eq] at hmode
      exact .before hn hafter ((congrArg Mode.lifeCycleType hmode).trans hlife)
        ((congrArg Mode.blockedTaskForCollatz hmode).trans hblk) fun h4 =>
          (congrArg Mode.collatzTask hmode).trans (hct h4)
    | syscall mem esp =>
      obtain ⟨c, hcall⟩ : ∃ c, Interrupt.call (.syscall mem esp) = some c := ⟨_, rfl⟩
      have hact := Event.action_of_call hcall
      obtain ⟨hget, haction⟩ := hf.actionB3 hact h.current hlen
      have hadv := advance_init (n := n) (by rw [hact]; simp) h.current
      rw [After, handOffMonitor]
      dsimp only
      rw [hadv, hput, hact, if_neg (by simp : ¬((none : Option ℕ).isSome = true))]
      unfold ActionB3 at haction
      dsimp only at haction
      by_cases h4 : n = 4
      · -- The init process blocks.
        subst h4
        rw [if_pos rfl] at haction
        rw [haction, if_pos rfl]
        have heq : s.perform (.interrupt (.syscall mem esp)) = ({ s with mem }.blockForCollatz esp).1 :=
          handle_of_call (i := .syscall mem esp) (hcall.trans (congrArg some haction))
        obtain ⟨hpark, hmode⟩ := Parked.blockForCollatz (h.withMem mem) esp
        rw [heq]
        exact .parked hpark ((congrArg Mode.lifeCycleType hmode).trans hlife)
          (congrArg Mode.blockedTaskForCollatz hmode)
          ((congrArg Mode.collatzTask hmode).trans (hct rfl))
      · rw [if_neg h4] at haction
        obtain ⟨hpre, hadded⟩ := haction
        have hlt : n < 4 := by omega
        rw [if_pos hlt] at hpre
        have hne : c ≠ .blockForCollatz := fun he => by
          rw [he] at hpre
          exact hpre
        obtain ⟨hprep, hmode⟩ := h.call Nat.one_pos hcall hpre (.inr hblk)
        rw [if_neg (by simpa using hne)]
        have hfork := forkCount_succ_call 1 hget
        rw [← hfork] at hprep
        rw [modeAfter] at hmode
        -- The collatz task is remembered by the 4th action only.
        by_cases hc : c = .collatzAdded
        · rw [if_pos hc] at hmode
          have hn3 := hadded.1 hc
          refine .before (by omega) hprep ((congrArg Mode.lifeCycleType hmode).trans hlife)
            ((congrArg Mode.blockedTaskForCollatz hmode).trans hblk) fun _ => ?_
          refine (congrArg Mode.collatzTask hmode).trans ?_
          dsimp only
          rw [h.numTasks, hn3]
          decide
        · rw [if_neg hc] at hmode
          refine .before (by omega) hprep ((congrArg Mode.lifeCycleType hmode).trans hlife)
            ((congrArg Mode.blockedTaskForCollatz hmode).trans hblk) fun h4 => ?_
          exact absurd (hadded.2 (by omega)) hc

theorem step_parked (h : s.Parked) (hlife : s.lifeCycleType = .lifeCycleB3)
    (hblk : s.blockedTaskForCollatz = some 0) (hct : s.collatzTask = some 1)
    (hf : Follows initB3 s 5 e) : After s 5 ⟨1, 0⟩ e := by
  have hcur : s.current ≠ 0 := by
    rw [h.current]
    decide
  have hadv : advance s 5 e = 5 := if_neg fun hs => hcur hs.1
  have hput := putsBack_parked (e := e) h hlife hblk hct
  have hreleased : ∀ {s' : TaskManager}, s'.Prepares 2 2 → s'.lifeCycleType = .lifeCycleB3 →
      s'.Quiet → InvB3 s' 5 ⟨1, 1⟩ := fun hprep hlife hquiet =>
    .released (by decide) hprep.primed hlife hquiet fun _ =>
      (show 1 + forkCount initB3 5 = 2 by decide) ▸ hprep
  rw [After, handOffMonitor]
  dsimp only
  rw [hadv]
  cases e with
  | setIgnoreSchedule b => exact (hf.action_child rfl hcur).elim
  | interrupt i =>
    cases i with
    | timer mem esp =>
      have hact : (Event.interrupt (.timer mem esp)).action = none := rfl
      rw [hact, if_neg (by simp)]
      -- The 5th tick puts it back.
      by_cases hfour : s.interruptNumAfterCollatz = 4
      · obtain ⟨hprep, hmode⟩ := h.fifth hlife hblk hfour mem esp
        rw [hput.trans (if_pos (.inl ⟨hact, hfour⟩)), if_pos (by simp)]
        exact hreleased hprep ((congrArg Mode.lifeCycleType hmode).trans hlife)
          (.inr (congrArg Mode.blockedTaskForCollatz hmode))
      · obtain ⟨hpark, hmode⟩ := h.tick hlife (fun hf => hfour hf.1) mem esp
        rw [countInterrupt_eq] at hmode
        rw [hput.trans (if_neg (by simp [hact, hfour])), if_neg (by simp)]
        exact .parked hpark ((congrArg Mode.lifeCycleType hmode).trans hlife)
          ((congrArg Mode.blockedTaskForCollatz hmode).trans hblk)
          ((congrArg Mode.collatzTask hmode).trans hct)
    | syscall mem esp =>
      obtain ⟨c, hcall⟩ : ∃ c, Interrupt.call (.syscall mem esp) = some c := ⟨_, rfl⟩
      have hact := Event.action_of_call hcall
      have hchild := hf.late (fun h0 => absurd h0 hcur) hcall
      replace hchild : ChildAction (.call c) := (hchild.resolve_left fun h0 => hcur h0.1).2
      have hne : c ≠ .blockForCollatz := fun he => by
        rw [he] at hchild
        exact hchild
      rw [hact, if_neg (by simpa using hne)]
      -- So does the end of the collatz task.
      by_cases hexit : c = .exit
      · obtain ⟨hprep, hmode⟩ := h.exit (hcall.trans (congrArg some hexit)) hct hblk
        rw [hput.trans (if_pos (.inr (by rw [hact, hexit]))), if_pos (by simp)]
        exact hreleased hprep ((congrArg Mode.lifeCycleType hmode).trans hlife)
          (.inl (congrArg Mode.collatzTask hmode))
      · obtain ⟨hpark, hmode⟩ := h.call hcall hchild hexit
        rw [hput.trans (if_neg (by simpa [hact] using hexit)), if_neg (by simp)]
        exact .parked hpark ((congrArg Mode.lifeCycleType hmode).trans hlife)
          ((congrArg Mode.blockedTaskForCollatz hmode).trans hblk)
          ((congrArg Mode.collatzTask hmode).trans hct)

theorem step_released (hn : 4 < n) (h : s.Primed) (hlife : s.lifeCycleType = .lifeCycleB3)
    (hquiet : s.Quiet) (hprep : n ≤ initB3.length → s.Prepares 2 (1 + forkCount initB3 n))
    (hf : Follows initB3 s n e) (hok : FifthInTime (s, n) e) : After s n ⟨1, 1⟩ e := by
  have hno := not_atFifth hlife hquiet hok
  have hput := putsBack_quiet hquiet hno
  have hmono : n ≤ advance s n e := by
    rw [advance]
    split_ifs <;> omega
  -- What happens to the mode keeps everybody released.
  have hreleased : ∀ {s' : TaskManager} {n' : ℕ}, 4 < n' → s'.Primed → s'.mode.lifeCycleType =
      s.lifeCycleType → s'.mode.collatzTask = s.collatzTask →
      s'.mode.blockedTaskForCollatz = s.blockedTaskForCollatz →
      (n' ≤ initB3.length → s'.Prepares 2 (1 + forkCount initB3 n')) → InvB3 s' n' ⟨1, 1⟩ :=
    fun hn h hl hc hb hp => .released hn h (hl.trans hlife)
      (hquiet.imp (fun hq => hc.trans hq) fun hq => hb.trans hq) hp
  rw [After, handOffMonitor]
  dsimp only
  rw [hput, if_neg (by simp : ¬((none : Option ℕ).isSome = true))]
  cases e with
  | setIgnoreSchedule b =>
    by_cases hcur : s.current = 0
    · by_cases hlen : n < initB3.length
      · exact (hf.actionB3 rfl hcur hlen).2.elim
      · have hfollows := hf.action_init rfl hcur
        rw [List.getElem?_eq_none (Nat.not_lt.1 hlen)] at hfollows
        rcases hfollows with h | ⟨-, h⟩ <;> cases h
    · exact (hf.action_child rfl hcur).elim
  | interrupt i =>
    cases i with
    | timer mem esp =>
      have hact : (Event.interrupt (.timer mem esp)).action = none := rfl
      obtain ⟨hplain, hmode⟩ := tick_plain h.inv mem esp (fun hi => by
        rw [hlife] at hi
        cases hi.1) (hno hact)
      rw [countInterrupt_eq] at hmode
      rw [advance_tick hact, hact, if_neg (by simp)]
      exact hreleased hn (h.handle (i := .timer mem esp) trivial hplain)
        (congrArg Mode.lifeCycleType hmode) (congrArg Mode.collatzTask hmode)
        (congrArg Mode.blockedTaskForCollatz hmode) fun hle => (hprep hle).tick mem esp hplain
    | syscall mem esp =>
      obtain ⟨c, hcall⟩ : ∃ c, Interrupt.call (.syscall mem esp) = some c := ⟨_, rfl⟩
      have hact := Event.action_of_call hcall
      have hperform : s.perform (.interrupt (.syscall mem esp)) = (s.handle (.syscall mem esp)).1 := rfl
      rw [hact]
      by_cases hlen : n < initB3.length
      · -- The init process goes on preparing its children.
        have h' := hprep hlen.le
        obtain ⟨hget, haction⟩ := hf.actionB3 hact h'.current hlen
        unfold ActionB3 at haction
        dsimp only at haction
        rw [if_neg (by omega), if_neg (by omega)] at haction
        obtain ⟨hpre, hadded⟩ := haction
        have hne : c ≠ .blockForCollatz := fun he => by
          rw [he] at hpre
          exact hpre
        have hnot : c ≠ .collatzAdded := fun he => by
          have := hadded.1 he
          omega
        obtain ⟨hafter, hmode⟩ := h'.call (by decide) hcall hpre hquiet
        rw [modeAfter, if_neg hnot] at hmode
        have hfork := forkCount_succ_call 1 hget
        rw [← hfork] at hafter
        rw [advance_init (by rw [hact]; simp) h'.current, if_neg (by simpa using hne), hperform]
        exact hreleased (by omega) hafter.primed (congrArg Mode.lifeCycleType hmode)
          (congrArg Mode.collatzTask hmode) (congrArg Mode.blockedTaskForCollatz hmode) fun _ => hafter
      · have hdone : s.current = 0 → initB3.length ≤ n := fun _ => Nat.not_lt.1 hlen
        obtain ⟨hafter, hmode⟩ := h.late hf hdone (by rw [hcall]; simp) hquiet
        have hne : c ≠ .blockForCollatz := fun he => by
          rcases hf.late hdone hcall with ⟨-, hc⟩ | ⟨-, hc⟩
          · rw [he] at hc
            cases hc
          · rw [he] at hc
            exact hc
        rw [if_neg (by simpa using hne), hperform]
        refine hreleased (by omega) hafter (congrArg Mode.lifeCycleType hmode)
          (congrArg Mode.collatzTask hmode) (congrArg Mode.blockedTaskForCollatz hmode) fun hle => ?_
        have hcur := (hprep (by omega)).current
        have hadv := advance_init (n := n) (e := .interrupt (.syscall mem esp)) (by rw [hact]; simp) hcur
        omega

/-- **One event**, if the 5th interrupt is in time. -/
theorem step (h : InvB3 s n l) (hf : Follows initB3 s n e) (hok : FifthInTime (s, n) e) :
    After s n l e := by
  cases h with
  | before hn hprep hlife hblk hct => exact step_before hn hprep hlife hblk hct hf
  | parked hpark hlife hblk hct => exact step_parked hpark hlife hblk hct hf
  | released hn hprim hlife hquiet hprep => exact step_released hn hprim hlife hquiet hprep hf hok

/-! ### What holds of events -/

/-- **One event**, again: who is put back was blocked, and is ready or runs then. -/
theorem handsOffIn (h : InvB3 s n l) (hf : Follows initB3 s n e) (hok : FifthInTime (s, n) e) :
    HandsOffIn s e := by
  have hafter := h.step hf hok
  have hnobody : s.Primed → s.putsBack e = none → HandsOffIn s e := fun hprim hput =>
    ⟨fun b hb => (by rw [hput] at hb; cases hb), fun b hb => absurd hb (not_blockedForCollatz hprim b)⟩
  cases h with
  | before hn hprep hlife hblk hct =>
    refine hnobody hprep.primed (putsBack_quiet (.inr hblk) fun _ hf => ?_)
    rcases hf.2 with hb4 | hb3
    · rw [hlife] at hb4
      cases hb4
    · exact hb3.2 hblk
  | released hn hprim hlife hquiet hprep =>
    exact hnobody hprim (putsBack_quiet hquiet (not_atFifth hlife hquiet hok))
  | parked hpark hlife hblk hct =>
    have hput := putsBack_parked (e := e) hpark hlife hblk hct
    have hpos : 0 < s.numTasks := lt_of_lt_of_eq (by decide) hpark.numTasks.symm
    constructor
    · intro b hb
      obtain rfl : b = 0 := by
        rw [hput] at hb
        split_ifs at hb
        exact (Option.some_inj.1 hb).symm
      refine ⟨⟨hpos, hpark.blocked, hpark.notWaiting⟩, ?_⟩
      -- It has been put back, and so is not blocked any more.
      rw [After, handOffMonitor] at hafter
      dsimp only at hafter
      rw [hb, if_pos (by simp : (some 0).isSome = true)] at hafter
      generalize s.perform e = s' at hafter
      generalize (if e.action = some (.call .blockForCollatz) then 1 + 1 else 1) = calls at hafter
      have hn : advance s 5 e = 5 := if_neg fun hs => by
        rw [hpark.current] at hs
        cases hs.1
      rw [hn] at hafter
      cases hafter with
      | released _ hprim _ _ hprep =>
        have hrun : (s'.plain.tasks s'.plain.current).state = .running := hprim.inv.state_current
        rw [show s'.plain.current = 0 from (hprep (by decide)).current] at hrun
        exact .inr hrun
    · intro b hb hwhen
      obtain rfl : b = 0 := (((InvB3.parked hpark hlife hblk hct).handsOff.blocked b).1 hb).1
      rw [hput]
      exact if_pos (hwhen.imp_right And.left)

/-- The 5th interrupt that comes too late puts back a task that is not blocked. -/
theorem fifthInTime_of_handsOffIn (h : InvB3 s n l) (hin : HandsOffIn s e) :
    FifthInTime (s, n) e := by
  intro hact hfifth hnone
  have hlife : s.lifeCycleType = .lifeCycleB3 := by
    cases h with
    | before _ _ hlife => exact hlife
    | parked _ hlife => exact hlife
    | released _ _ hlife => exact hlife
  have hblk : s.blockedTaskForCollatz ≠ none := by
    rcases hfifth.2 with hb4 | hb3
    · rw [hlife] at hb4
      cases hb4
    · exact hb3.2
  obtain ⟨b, hb⟩ := Option.ne_none_iff_exists'.1 hblk
  have hput : s.putsBack e = some b := by
    rw [putsBack_tick hact, if_pos ⟨hlife, hfifth.1⟩, hb]
  have hblocked := (hin.only b hput).1
  cases h with
  | before _ hprep => exact not_blockedForCollatz hprep.primed b hblocked
  | released _ hprim => exact not_blockedForCollatz hprim b hblocked
  | parked _ _ _ hct =>
    rw [hct] at hnone
    cases hnone

end InvB3

/-- The runs in lifecycle B3 in which the 5th interrupt is in time, and what happens. -/
def handOffSystem : System ((TaskManager × ℕ) × HandOffs) Event :=
  ((programSystem .lifeCycleB3 initB3).restrict FifthInTime).monitored handOffMonitor

theorem invB3_of_reachable {q : (TaskManager × ℕ) × HandOffs} (h : handOffSystem.Reachable q) :
    InvB3 q.1.1 q.1.2 q.2 := by
  refine h.invariant (P := fun q => InvB3 q.1.1 q.1.2 q.2) (fun q h0 => ?_) fun q e q' _ hq hs => ?_
  · obtain ⟨⟨b, hlife, hsch, hp⟩, hl⟩ := h0
    rw [hp, hl]
    exact .boot hlife hsch
  · obtain ⟨⟨hok, hf, hp⟩, hl⟩ := hs
    have hafter := hq.step hf hok
    rw [hl, hp]
    exact hafter

/-- **The hand-off.** In every run in which the 5th interrupt is in time, the init process
    blocks for the collatz task at most once, and is put back at most once, by the `Exit`
    of the collatz task or the 5th interrupt, whichever comes first. And events go on so
    exactly as long as the 5th interrupt is in time. -/
theorem handsOff_iff : ∀ q, handOffSystem.Reachable q → HandsOff q.1.1 q.2 ∧
    ∀ e, Follows initB3 q.1.1 q.1.2 e → (HandsOffIn q.1.1 e ↔ FifthInTime q.1 e) := by
  intro q hq
  have hinv := invB3_of_reachable hq
  exact ⟨hinv.handsOff, fun e hf => ⟨hinv.fifthInTime_of_handsOffIn, hinv.handsOffIn hf⟩⟩

/-- The start. -/
def startB3 : TaskManager × ℕ := ((programBoot .lifeCycleB3).firstTick.1, 0)

theorem startB3_reachable : handOffSystem.Reachable (startB3, ⟨0, 0⟩) :=
  .init ⟨⟨programBoot .lifeCycleB3, rfl, rfl, rfl⟩, rfl⟩

/-- Without ticks, the 5th interrupt is in time. -/
theorem reachable_calls {q : (TaskManager × ℕ) × HandOffs} (h : handOffSystem.Reachable q) {es : List Event}
    (hes : FollowsAll initB3 q.1 es) (hcalls : ∀ e ∈ es, e.action ≠ none) :
    ∃ l, handOffSystem.Reachable (performAll q.1 es, l) := by
  induction es generalizing q with
  | nil => exact ⟨q.2, h⟩
  | cons e es ih =>
    obtain ⟨he, hcalls⟩ := List.forall_mem_cons.1 hcalls
    have hstep : handOffSystem.step q e ((q.1.1.perform e, advance q.1.1 q.1.2 e),
        handOffMonitor.next q.2 q.1 e (q.1.1.perform e, advance q.1.1 q.1.2 e)) :=
      ⟨⟨fun hnone => absurd hnone he, hes.1, rfl⟩, rfl⟩
    exact ih (h.step hstep) hes.2 hcalls

/-- The init process has blocked for the collatz task, which runs. -/
def blockedB3 : TaskManager × ℕ := performAll startB3 (forkEvents 2 ++ [callEvent 11 0, callEvent 9 0])

theorem blockedB3_spec : (∃ l, handOffSystem.Reachable (blockedB3, l)) ∧ blockedB3.1.BlockedForCollatz 0 ∧
    Follows initB3 blockedB3.1 blockedB3.2 (callEvent 8 0) ∧
    blockedB3.1.putsBack (callEvent 8 0) = some 0 ∧
    ((blockedB3.1.perform (callEvent 8 0)).tasks 0).state = .running := by
  have hleads : leadsTo initB3 (fun s => decide ((0 < s.numTasks ∧ (s.tasks 0).state = .blocked ∧
      (s.tasks 0).waitingChild = false) ∧ s.current ≠ 0 ∧ s.putsBack (callEvent 8 0) = some 0 ∧
      ((s.perform (callEvent 8 0)).tasks 0).state = .running)) (programBoot .lifeCycleB3).firstTick.1 0
      (forkEvents 2 ++ [callEvent 11 0, callEvent 9 0]) = true := by
    decide +kernel
  obtain ⟨hall, hP⟩ := followsAll_of_leadsTo hleads
  obtain ⟨⟨hlt, hblocked, hwaiting⟩, hcur, hput, hrun⟩ := of_decide_eq_true hP
  refine ⟨reachable_calls startB3_reachable hall (by decide +kernel), ⟨hlt, hblocked, hwaiting⟩, ?_, hput, hrun⟩
  have hexit : (callEvent 8 0).action = some (.call .exit) := by decide +kernel
  rw [Follows, hexit]
  exact (if_neg hcur).mpr trivial

/-- The init process blocks, and the `Exit` of the collatz task puts it back. -/
theorem handsOff_iff_blockedB3 : handOffSystem.Reachable (blockedB3, ⟨1, 0⟩) ∧
    HandsOff blockedB3.1 ⟨1, 0⟩ ∧ blockedB3.1.BlockedForCollatz 0 ∧
    HandsOffIn blockedB3.1 (callEvent 8 0) ∧
    HandsOff (blockedB3.1.perform (callEvent 8 0)) ⟨1, 1⟩ ∧
    ((blockedB3.1.perform (callEvent 8 0)).tasks 0).state = .running := by
  obtain ⟨⟨l, hreach⟩, hblocked, hfollows, hput, hrun⟩ := blockedB3_spec
  obtain ⟨hoff, hin⟩ := handsOff_iff (blockedB3, l) hreach
  -- The log is known by what holds of the state.
  obtain ⟨-, hlt⟩ := (hoff.blocked 0).1 hblocked
  have hcalls := hoff.calls
  obtain rfl : l = ⟨1, 0⟩ := by
    obtain ⟨calls, putBack⟩ := l
    dsimp only at hlt hcalls
    obtain rfl : calls = 1 := by omega
    obtain rfl : putBack = 0 := by omega
    rfl
  have haction : (callEvent 8 0).action = some (.call .exit) := by decide +kernel
  have hintime : FifthInTime blockedB3 (callEvent 8 0) := fun hnone => by
    rw [haction] at hnone
    cases hnone
  have hnext : handOffMonitor.next ⟨1, 0⟩ blockedB3 (callEvent 8 0)
      (blockedB3.1.perform (callEvent 8 0), advance blockedB3.1 blockedB3.2 (callEvent 8 0)) = ⟨1, 1⟩ := by
    simp only [handOffMonitor, haction, hput]
    rfl
  have hstep : handOffSystem.step (blockedB3, ⟨1, 0⟩) (callEvent 8 0)
      ((blockedB3.1.perform (callEvent 8 0), advance blockedB3.1 blockedB3.2 (callEvent 8 0)), ⟨1, 1⟩) :=
    ⟨⟨hintime, hfollows, rfl⟩, hnext.symm⟩
  exact ⟨hreach, hoff, hblocked, (hin _ hfollows).2 hintime, (handsOff_iff _ (hreach.step hstep)).1, hrun⟩

/-- The collatz task has exited at once, and four ticks have come then. -/
def lateB3 : TaskManager × ℕ :=
  performAll startB3 (forkEvents 2 ++ [callEvent 11 0, callEvent 9 0, callEvent 8 0] ++
    List.replicate 4 tickEvent)

theorem lateB3_spec : (programSystem .lifeCycleB3 initB3).Reachable lateB3 ∧
    lateB3.1.putsBack tickEvent = some 0 ∧ (lateB3.1.tasks 0).state = .running := by
  have hleads : leadsTo initB3 (fun s => decide (s.putsBack tickEvent = some 0 ∧
      (s.tasks 0).state = .running)) (programBoot .lifeCycleB3).firstTick.1 0
      (forkEvents 2 ++ [callEvent 11 0, callEvent 9 0, callEvent 8 0] ++
        List.replicate 4 tickEvent) = true := by
    decide +kernel
  obtain ⟨hall, hP⟩ := followsAll_of_leadsTo hleads
  obtain ⟨hput, hrun⟩ := of_decide_eq_true hP
  rw [lateB3, startB3]
  exact ⟨reachable_performAll (programBoot_reachable _ _) hall, hput, hrun⟩

/-- The 5th interrupt may put back a task that has been put back already, and is running. -/
theorem not_handsOff : ¬∀ p, (programSystem .lifeCycleB3 initB3).Reachable p →
    ∀ e, Follows initB3 p.1 p.2 e → HandsOffIn p.1 e := by
  obtain ⟨hreach, hput, hrun⟩ := lateB3_spec
  intro h
  have hblocked := ((h lateB3 hreach tickEvent trivial).only 0 hput).1.blocked
  rw [hrun] at hblocked
  cases hblocked

end GtuOs.TaskManager

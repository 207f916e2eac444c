import GtuOs.Multitasking.Step

/-!
# The effect of `Fork`

With room in the table, `AddTask` adds a ready task to the table and to the
queue (`pushTask`), and `Fork` makes it a child of the running task, with a copy
of its stack and of its frame (`Inv.fork`).
-/

namespace GtuOs.TaskManager

variable {s : TaskManager} {mem : Memory} {esp : ℕ}

/-! ## Adding a task -/

section PushTask

variable (mem : Memory) (task : Task)

/-- The state after a new task is added to the table and to the queue. -/
def pushTask (s : TaskManager) (mem : Memory) (task : Task) : TaskManager :=
  { { s with mem, tasks := Function.update s.tasks s.numTasks task }.addToReadyQueue s.numTasks with
    numTasks := s.numTasks + 1
    nextArrivalOrder := s.nextArrivalOrder + 1 }

/-- `AddTask` with room in the table. -/
theorem addTask_eq (newTask : Task) (priority : Priority) (ppid : ℤ)
    (hroom : s.numTasks < maxNumTasks) :
    s.addTask newTask priority ppid =
      (s.pushTask ((s.tasks s.numTasks).copy newTask s.mem).2
        { ((s.tasks s.numTasks).copy newTask s.mem).1 with
          priority, ppid, pid := s.numTasks, arrivalOrder := s.nextArrivalOrder },
        some s.numTasks) := by
  rw [addTask, pushTask]
  rw [if_neg (Nat.not_le.2 hroom)]
  simp only [addToReadyQueue_numTasks, addToReadyQueue_nextArrivalOrder]

theorem pushTask_tasks : (s.pushTask mem task).tasks =
    Function.update s.tasks s.numTasks { task with state := .ready } := by
  rw [pushTask]
  rw [addToReadyQueue_tasks]
  dsimp only
  rw [Function.update_self, Function.update_idem]

theorem pushTask_mem : (s.pushTask mem task).mem = mem := addToReadyQueue_mem _ _
theorem pushTask_numTasks : (s.pushTask mem task).numTasks = s.numTasks + 1 := rfl
theorem pushTask_currentTask : (s.pushTask mem task).currentTask = s.currentTask :=
  addToReadyQueue_currentTask _ _
theorem pushTask_base : (s.pushTask mem task).base = s.base := addToReadyQueue_base _ _

/-- Adding a task changes nothing else. -/
theorem pushTask_eq : s.pushTask mem task =
    { s with
      mem
      tasks := Function.update s.tasks s.numTasks { task with state := .ready }
      readyQueue := (s.pushTask mem task).readyQueue
      queueLen := s.queueLen + 1
      numTasks := s.numTasks + 1
      nextArrivalOrder := s.nextArrivalOrder + 1 } := by
  rw [pushTask]
  rw [addToReadyQueue_eq]
  simp only [Function.update_self, Function.update_idem]

/-- The new task is in the queue. -/
theorem pushTask_queue (hlen : 0 ≤ s.queueLen) :
    (s.pushTask mem task).queue.Perm (s.numTasks :: s.queue) := by
  let s₁ : TaskManager := { s with mem, tasks := Function.update s.tasks s.numTasks task }
  have hqueue : (s.pushTask mem task).queue = s₁.enqueue s.numTasks :=
    queue_addToReadyQueue (s := s₁) hlen
  exact hqueue ▸ s₁.enqueue_perm s.numTasks

theorem top_pushTask : (s.pushTask mem task).readyQueue.top = max s.readyQueue.top (s.queueLen.toNat + 1) :=
  top_addToReadyQueue { s with mem, tasks := Function.update s.tasks s.numTasks task } s.numTasks

theorem Base.pushTask (h : s.Base) (hroom : s.numTasks < maxNumTasks) (hpid : task.pid = s.numTasks)
    (hstack : task.stack = (s.tasks s.numTasks).stack) :
    (s.pushTask mem task).Base := by
  have hself : (s.pushTask mem task).tasks s.numTasks = { task with state := .ready } := by
    rw [pushTask_tasks, Function.update_self]
  have hne : ∀ i, i ≠ s.numTasks → (s.pushTask mem task).tasks i = s.tasks i := fun i hi => by
    rw [pushTask_tasks, Function.update_of_ne hi]
  have hnum := pushTask_numTasks (s := s) mem task
  -- The new task is ready.
  have hR : (s.pushTask mem task).readyTasks = insert s.numTasks s.readyTasks := by
    ext i
    rw [Set.mem_insert_iff, mem_readyTasks, mem_readyTasks, hnum]
    rcases eq_or_ne i s.numTasks with rfl | hi
    · simp [hself]
    · rw [hne i hi]
      simp only [hi, false_or]
      exact and_congr_left fun _ => by omega
  have hqueue : QueueOk { s with mem, tasks := Function.update s.tasks s.numTasks task } s.readyTasks :=
    h.queueOk.congr rfl rfl
  have hadd := hqueue.add (t := s.numTasks) (fun hm => absurd hm.1 (lt_irrefl _)) hroom
  refine h.of_update (u := { task with state := .ready }) ?_ le_rfl hroom hpid hstack (hR ▸ hadd.congr rfl rfl)
  rw [max_eq_right (Nat.le_succ _), pushTask_eq]

end PushTask

/-! ## Forking -/

/-- What `Fork` does after `AddTask`, for a child that is not its parent. -/
theorem recordFork_eq {parent child : ℕ} (hne : parent ≠ child) :
    s.recordFork parent child esp =
      { (s.modifyTask parent fun t => { t with forkPid := (s.tasks child).pid }).modifyTask child
          fun t => { t with forkPid := 0 } with
        mem := CPUState.setEcx (CPUState.setEcx ((s.tasks child).copyCpuState s.mem esp) esp
          (.ofInt (s.tasks child).pid)) (s.tasks child).cpustate 0 } := by
  have hchild : (s.modifyTask parent fun t => { t with forkPid := (s.tasks child).pid }).tasks child =
      s.tasks child := Function.update_of_ne hne.symm _ _
  simp only [recordFork, modifyTask_tasks _ child, Function.update_self, hchild]

/-- `Fork` with room in the table. -/
theorem fork_eq (hroom : s.numTasks < maxNumTasks) (hne : s.current ≠ s.numTasks) :
    s.fork esp =
      ((s.saved esp).pushTask
        (s.mem.copyLoop (s.tasks s.numTasks).stack (s.tasks s.current).stack 0 maxStackSize)
        { s.forkChild esp with
          state := (s.tasks s.numTasks).state
          forkPid := (s.tasks s.numTasks).forkPid }).recordFork
        s.current s.numTasks esp := by
  have hself := saved_tasks_current s esp
  have hnew : (s.saved esp).tasks s.numTasks = s.tasks s.numTasks := saved_tasks_of_ne hne.symm esp
  rw [fork_of_some (addTask_eq (s := s.saved esp) _ _ _ hroom), hself]
  dsimp only
  rw [show (s.saved esp).numTasks = s.numTasks from rfl, hnew]
  rfl

/-- What `Fork` does when there is room in the table, to the tasks and the memory. -/
theorem fork_spec (esp : ℕ) (hroom : s.numTasks < maxNumTasks) (hne : s.current ≠ s.numTasks) :
    (s.fork esp).tasks = Function.update (Function.update s.tasks s.current
        { s.tasks s.current with cpustate := esp, forkPid := s.numTasks })
        s.numTasks (s.forkChild esp) ∧
      (s.fork esp).mem = s.forkMem s.mem esp ∧ (s.fork esp).numTasks = s.numTasks + 1 ∧
      (s.fork esp).currentTask = s.currentTask ∧ (s.fork esp).base = s.base := by
  have hnew : (s.saved esp).tasks s.numTasks = s.tasks s.numTasks := saved_tasks_of_ne hne.symm esp
  rw [fork_eq hroom hne]
  generalize hmem : s.mem.copyLoop (s.tasks s.numTasks).stack (s.tasks s.current).stack 0
    maxStackSize = mem
  generalize htask : { s.forkChild esp with
    state := (s.tasks s.numTasks).state
    forkPid := (s.tasks s.numTasks).forkPid } = task
  have hpid : task.pid = s.numTasks := by rw [← htask]; rfl
  -- The tasks after the push: the parent, the child, and the others.
  have hparent : ((s.saved esp).pushTask mem task).tasks s.current =
      { s.tasks s.current with cpustate := esp } := by
    rw [pushTask_tasks]
    exact (Function.update_of_ne hne _ _).trans (Function.update_self _ _ _)
  have hchild : ((s.saved esp).pushTask mem task).tasks s.numTasks = { task with state := .ready } := by
    rw [pushTask_tasks]
    exact Function.update_self _ _ _
  have hfork : { { task with state := .ready } with forkPid := 0 } = s.forkChild esp := by
    rw [← htask]
    rfl
  have hothers : ∀ i, i ≠ s.current → i ≠ s.numTasks →
      ((s.saved esp).pushTask mem task).tasks i = s.tasks i := fun i hi hin => by
    rw [pushTask_tasks]
    exact (Function.update_of_ne hin _ _).trans (Function.update_of_ne hi _ _)
  have hpmem := pushTask_mem (s := s.saved esp) mem task
  have hpcur := pushTask_currentTask (s := s.saved esp) mem task
  have hpbase := pushTask_base (s := s.saved esp) mem task
  have hpnum := pushTask_numTasks (s := s.saved esp) mem task
  refine ⟨?_, ?_, ?_, ?_, ?_⟩
  all_goals
    rw [recordFork_eq hne]
    generalize (s.saved esp).pushTask mem task = s₁ at *
  -- The pids are recorded in both tasks then.
  · funext i
    dsimp only [modifyTask_tasks]
    rcases eq_or_ne i s.numTasks with rfl | hin
    · rw [Function.update_self, Function.update_self, Function.update_of_ne hne.symm, hchild]
      exact hfork
    · rw [Function.update_of_ne hin, Function.update_of_ne hin]
      rcases eq_or_ne i s.current with rfl | hi
      · rw [Function.update_self, Function.update_self, hparent, hchild]
        rw [← htask]
        rfl
      · rw [Function.update_of_ne hi, Function.update_of_ne hi, hothers i hi hin]
  · dsimp only
    rw [hchild, hpmem, hpid, ← hmem, ← htask]
    rfl
  · exact hpnum
  · exact hpcur
  · exact hpbase

/-- What `Fork` does to the queue, and to the collatz task. -/
theorem fork_queue (esp : ℕ) (hroom : s.numTasks < maxNumTasks) (hne : s.current ≠ s.numTasks)
    (hlen : 0 ≤ s.queueLen) :
    (s.fork esp).queueLen = s.queueLen + 1 ∧ (s.fork esp).queue.Perm (s.numTasks :: s.queue) ∧
      (s.fork esp).nullDeref = s.nullDeref ∧ (s.fork esp).poppedEmpty = s.poppedEmpty ∧
      (s.fork esp).blockedTaskForCollatz = s.blockedTaskForCollatz ∧
      (s.fork esp).collatzTask = s.collatzTask ∧
      (s.fork esp).interruptNumAfterCollatz = s.interruptNumAfterCollatz := by
  rw [fork_eq hroom hne, recordFork_eq hne]
  have hperm := pushTask_queue (s := s.saved esp) (s.mem.copyLoop (s.tasks s.numTasks).stack
    (s.tasks s.current).stack 0 maxStackSize) { s.forkChild esp with
      state := (s.tasks s.numTasks).state, forkPid := (s.tasks s.numTasks).forkPid } hlen
  have heq := pushTask_eq (s := s.saved esp) (s.mem.copyLoop (s.tasks s.numTasks).stack
    (s.tasks s.current).stack 0 maxStackSize) { s.forkChild esp with
      state := (s.tasks s.numTasks).state, forkPid := (s.tasks s.numTasks).forkPid }
  generalize (s.saved esp).pushTask _ _ = s₁ at *
  exact ⟨(congrArg queueLen heq :), hperm, (congrArg nullDeref heq :), (congrArg poppedEmpty heq :),
    (congrArg blockedTaskForCollatz heq :), (congrArg collatzTask heq :),
    (congrArg interruptNumAfterCollatz heq :)⟩

/-- `Fork` writes the end of the queue. -/
theorem top_fork (esp : ℕ) (hroom : s.numTasks < maxNumTasks) (hne : s.current ≠ s.numTasks) :
    (s.fork esp).readyQueue.top = max s.readyQueue.top (s.queueLen.toNat + 1) := by
  rw [fork_eq hroom hne, recordFork_eq hne]
  exact top_pushTask (s := s.saved esp) _ _

namespace Inv

/-- A new child of the running task, recorded by `Fork`. -/
theorem recordFork (h : s.Inv) (mem : Memory) (esp : ℕ) (hroom : s.numTasks < maxNumTasks)
    {task : Task}
    (hpid : task.pid = s.numTasks) (hppid : task.ppid = s.current)
    (hstack : task.stack = (s.tasks s.numTasks).stack) (hw : task.waitingChild = false)
    (hr : task.parentTookInWait = false) :
    ((s.pushTask mem task).recordFork s.current s.numTasks esp).Inv := by
  have hc := h.current_lt
  have hne : s.current ≠ s.numTasks := by omega
  have hnum := pushTask_numTasks (s := s) mem task
  have hcurrent := pushTask_currentTask (s := s) mem task
  have hcur : (s.pushTask mem task).current = s.current := congrArg Int.toNat hcurrent
  have hbase := h.toBase.pushTask mem task hroom hpid hstack
  have hprocs : (s.pushTask mem task).procs =
      Function.update s.procs s.numTasks { ppid := s.current, state := .ready, waiting := none, reaped := false } := by
    rw [procs_eq_update (pushTask_tasks mem task)]
    simp [Task.proc, hppid, hw, hr]
  have htable : Table (some s.current) (s.pushTask mem task).procs (s.numTasks + 1) := by
    rw [hprocs]
    exact h.table.fork hc rfl
  rw [recordFork_eq hne]
  generalize s.pushTask mem task = s₁ at *
  -- Recording the pids changes no process.
  have hb₁ := hbase.modifyTask (t := s.current)
    (f := fun t => { t with forkPid := (s₁.tasks s.numTasks).pid }) (by omega) rfl rfl Iff.rfl
  have hb₂ := hb₁.modifyTask (t := s.numTasks) (f := fun t => { t with forkPid := 0 })
    (show s.numTasks < s₁.numTasks by omega) rfl rfl Iff.rfl
  have hprocs₂ : ((s₁.modifyTask s.current fun t =>
      { t with forkPid := (s₁.tasks s.numTasks).pid }).modifyTask s.numTasks
      fun t => { t with forkPid := 0 }).procs = s₁.procs :=
    (procs_eq_self (modifyTask_tasks _ _ _) rfl).trans (procs_eq_self (modifyTask_tasks _ _ _) rfl)
  refine ⟨⟨hb₂.withMem _, ?_⟩, hcurrent ▸ h.currentTask_nonneg⟩
  have hrun : Table (some s₁.current) s₁.procs s₁.numTasks := by rwa [hcur, hnum]
  rw [← hprocs₂] at hrun
  exact hrun

/-- What `Fork` does when there is room in the table. -/
theorem fork (h : s.Inv) (esp : ℕ) (hroom : s.numTasks < maxNumTasks) :
    (s.fork esp).tasks = Function.update (Function.update s.tasks s.current
        { s.tasks s.current with cpustate := esp, forkPid := s.numTasks })
        s.numTasks (s.forkChild esp) ∧
      (s.fork esp).mem = s.forkMem s.mem esp ∧ (s.fork esp).numTasks = s.numTasks + 1 ∧
      (s.fork esp).currentTask = s.currentTask ∧ (s.fork esp).base = s.base ∧
      (s.fork esp).Inv := by
  have hc := h.current_lt
  have hne : s.current ≠ s.numTasks := by omega
  have h₀ := h.saved esp
  have hstack : (s.tasks s.numTasks).stack = ((s.saved esp).tasks s.numTasks).stack := by
    rw [saved_tasks_of_ne hne.symm esp]
  obtain ⟨hw, hr⟩ := h.fresh s.numTasks le_rfl
  obtain ⟨htasks, hmem, hnum, hcur, hbase⟩ := fork_spec esp hroom hne
  refine ⟨htasks, hmem, hnum, hcur, hbase, ?_⟩
  rw [fork_eq hroom hne]
  exact h₀.recordFork _ esp hroom rfl h.pid_current hstack hw hr

end Inv
end GtuOs.TaskManager

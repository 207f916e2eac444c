import GtuOs.Multitasking.Wait

/-!
# Booting

The first task is the init process, and the first timer tick dispatches it
(`Boot.firstTick_spec`). From there on the invariant holds in every state of a
run (`inv_of_reachable`).
-/

namespace GtuOs.TaskManager

namespace Boot

variable (b : Boot)

/-- The local `task1` of `startInitProcess` after `Reset`, and the memory. -/
def resetTask1 : Task × Memory := b.task1.construct.reset b.raw.mem b.init

/-- The init process, once `AddTask` has copied `task1` to it, and the memory. -/
def initTask : Task × Memory :=
  ({ b.raw.tasks 0 with stack := b.raw.base + 0 * Task.sizeof } : Task).construct.copy
    b.resetTask1.1 b.resetTask1.2

variable {b}

/-- The init process is started, except in lifecycles B3 and B4 with the other scheduler. -/
theorem start_eq_of_not (hkind : ¬((b.lifeCycleType = .lifeCycleB3 ∨ b.lifeCycleType = .lifeCycleB4) ∧
    b.schedulerType = .roundRobin)) :
    b.start =
      { b.raw.construct b.schedulerType b.lifeCycleType with mem := b.resetTask1.2 }.pushTask
        b.initTask.2
        { b.initTask.1 with
          priority := .high, ppid := -1, pid := (0 : ℕ), arrivalOrder := 1 } := by
  have hroom : { b.raw.construct b.schedulerType b.lifeCycleType with
      mem := b.resetTask1.2 }.numTasks < maxNumTasks := show 0 < maxNumTasks by decide
  have heq : b.start =
      if (b.lifeCycleType = .lifeCycleB3 ∨ b.lifeCycleType = .lifeCycleB4) ∧
          b.schedulerType = .roundRobin then
        b.raw.construct b.schedulerType b.lifeCycleType
      else ({ b.raw.construct b.schedulerType b.lifeCycleType with
        mem := b.resetTask1.2 }.addTask b.resetTask1.1 .high (-1)).1 := rfl
  rw [heq, if_neg hkind, addTask_eq _ _ _ hroom]
  rfl

theorem start_eq (h : b.Allowed) :
    b.start =
      { b.raw.construct b.schedulerType b.lifeCycleType with mem := b.resetTask1.2 }.pushTask
        b.initTask.2
        { b.initTask.1 with
          priority := .high, ppid := -1, pid := (0 : ℕ), arrivalOrder := 1 } := by
  refine start_eq_of_not ?_
  rcases h.1 with hl | hl | hl <;> simp [hl]

/-- An empty task manager. -/
theorem construct_base (h : b.Allowed) :
    (b.raw.construct b.schedulerType b.lifeCycleType).Base := by
  refine ⟨fun i hi => absurd hi (Nat.not_lt_zero i), Nat.zero_le _, ⟨le_rfl, List.nodup_nil,
    fun i => ?_, fun i hi => absurd hi.1 (Nat.not_lt_zero i), Nat.zero_le _⟩, fun i _ => ⟨rfl, rfl⟩,
    fun i => rfl, ?_, ⟨rfl, h.2⟩, ⟨rfl, rfl⟩⟩
  · exact iff_of_false List.not_mem_nil fun hi => absurd hi.1 (Nat.not_lt_zero i)
  · have hlife : (b.raw.construct b.schedulerType b.lifeCycleType).lifeCycleType = b.lifeCycleType :=
      rfl
    rw [hlife]
    rcases h.1 with hl | hl | hl <;> simp [hl]

/-- The init process alone: ready, until the first tick. -/
theorem table_single {procs : ℕ → Proc}
    (h0 : procs 0 = { ppid := -1, state := .ready, waiting := none, reaped := false }) :
    Table none procs 1 := by
  have hall : ∀ i < 1, procs i = { ppid := -1, state := .ready, waiting := none, reaped := false } :=
    fun i hi => by
      obtain rfl : i = 0 := by omega
      exact h0
  refine ⟨fun i hi => ?_, fun i hi => ?_, nofun, fun i hi => ?_, fun i hi => ?_, fun i hi hb => ?_,
    fun i hi c hc hw => ?_, fun i hi hr => ?_, Nat.one_pos, ?_⟩
  · rw [hall i hi]
  · rw [hall i hi]
    dsimp only
    omega
  · simp [hall i hi]
  · simp [hall i hi]
  · simp [hall i hi] at hb
  · simp [WaitsFor, hall i hi] at hw
  · simp [hall i hi] at hr
  · simp [h0]

/-- The state before the first tick. -/
theorem start_spec (h : b.Allowed) :
    b.start.InvAt none ∧ b.start.numTasks = 1 ∧ b.start.currentTask = -1 ∧
      b.start.mem = b.initTask.2 ∧ b.start.base = b.raw.base ∧
      (b.start.tasks 0).cpustate = b.initTask.1.cpustate := by
  have hbase := (construct_base h).withMem b.resetTask1.2
  have hnum : (b.raw.construct b.schedulerType b.lifeCycleType).numTasks = 0 := rfl
  rw [start_eq h]
  refine ⟨⟨hbase.pushTask _ _ (show 0 < maxNumTasks by decide) rfl rfl, ?_⟩, pushTask_numTasks _ _,
    pushTask_currentTask _ _, pushTask_mem _ _, pushTask_base _ _, ?_⟩
  · rw [pushTask_numTasks]
    refine table_single ?_
    rw [procs_eq_update (pushTask_tasks _ _)]
    exact Function.update_self _ _ _
  · rw [pushTask_tasks]
    dsimp only
    rw [hnum, Function.update_self]

/-- The first timer tick finds no task running. -/
theorem firstTick_eq (h : b.Allowed) : b.firstTick = { b.start with mem := b.mem }.schedule := by
  obtain ⟨hinv, hnum, hcur, -⟩ := start_spec h
  simp [firstTick, scheduleTick, hnum, hcur, hinv.lifeCycle, hinv.noCollatz]

/-- The state at the first tick, in which no task is running. -/
theorem start_invAt (h : b.Allowed) : { b.start with mem := b.mem }.InvAt none :=
  have hinv := (start_spec h).1
  ⟨hinv.toBase.withMem b.mem, hinv.table⟩

/-- The first timer tick dispatches the init process. -/
theorem firstTick_spec (h : b.Allowed) :
    Dispatches { b.start with mem := b.mem } b.firstTick ∧ b.firstTick.1.Inv := by
  rw [firstTick_eq h]
  exact (start_invAt h).schedule

/-- After the first tick, the init process is running, alone. -/
theorem firstTick_single (h : b.Allowed) {k : ℕ} (hk : k < b.firstTick.1.numTasks) :
    k = b.firstTick.1.current := by
  obtain ⟨hd, hinv⟩ := firstTick_spec h
  obtain ⟨-, hnum, -⟩ := start_spec h
  have hcur := hinv.current_lt
  have hone : b.firstTick.1.numTasks = 1 := hd.numTasks_eq.trans hnum
  omega

end Boot

/-- **The representation invariant** holds in every state of a run. -/
theorem inv_of_reachable {s : TaskManager} (h : system.Reachable s) : s.Inv := by
  refine h.invariant (fun s h0 => ?_) fun s i s' _ hs hi => ?_
  · obtain ⟨b, hb, rfl⟩ := h0
    exact (Boot.firstTick_spec hb).2
  · rw [← hi.2]
    exact (hs.handle hi.1).2

/-! ## A start -/

/-- A task manager in a memory full of zeros. -/
def sampleRaw : TaskManager where
  schedulerType := .roundRobin
  lifeCycleType := .lifeCycleA
  base := 8192
  mem := fun _ => 0
  tasks := fun _ =>
    { stack := 0, cpustate := 0, pid := 0, ppid := 0, priority := 0, state := .ready
      waitingChild := false, waitingChildId := 0, parentTookInWait := false, arrivalOrder := 0
      forkPid := 0 }
  currentTask := 0
  numTasks := 0
  nextArrivalOrder := 0
  interruptNumAfterCollatz := 0
  collatzTask := none
  blockedTaskForCollatz := none
  readyQueue := ⟨fun _ => 0, 0⟩
  queueLen := 0
  ignoreSchedule := false
  poppedEmpty := false
  nullDeref := false

/-- A start in lifecycle A, the memory being left alone until the first tick. -/
def sampleBoot : Boot :=
  let b : Boot := ⟨sampleRaw, .roundRobin, .lifeCycleA, sampleRaw.tasks 0, 0x1000, fun _ => 0, 0⟩
  { b with mem := b.start.mem }

/-- The state when the init process starts. -/
def sampleState : TaskManager := sampleBoot.firstTick.1

/-- A system call of the init process. -/
def sampleCall (eax ebx : UInt32) : Interrupt :=
  .syscall ((sampleState.mem.store32 12004 ebx).store32 12000 eax) 12000

theorem sampleBoot_allowed : sampleBoot.Allowed := ⟨.inl rfl, rfl⟩

theorem sampleCall_fork_allowed : sampleState.Allowed (sampleCall 57 0) := by
  have hcall : (sampleCall 57 0).call = some .fork := by decide +kernel
  have hroom : sampleState.numTasks < maxNumTasks := by decide +kernel
  rw [Allowed]
  rw [hcall]
  exact hroom

theorem sampleCall_waitpid_allowed : sampleState.Allowed (sampleCall 7 5) := by
  have hcall : (sampleCall 7 5).call = some (.waitpid 5) := by decide +kernel
  rw [Allowed]
  rw [hcall]
  trivial

theorem sampleState_reachable : system.Reachable sampleState :=
  .init ⟨sampleBoot, sampleBoot_allowed, rfl⟩

/-- The state after the first `Fork`. -/
theorem sampleFork_reachable : system.Reachable (sampleState.handle (sampleCall 57 0)).1 :=
  sampleState_reachable.step ⟨sampleCall_fork_allowed, rfl⟩

end GtuOs.TaskManager

import GtuOs.Multitasking.Run

/-!
# What an interrupt does

`Effect s i r`: what the handling `r` of the interrupt `i` in the state `s` may
be, in terms of the tasks and of the memory. Every handling has an effect and
preserves the invariant (`Inv.handle`); all properties of runs are proved from
this, by cases on the effect. This module defines effects and has those of timer
ticks and of `Execve`.
-/

namespace GtuOs.TaskManager

/-- The task `k` is asked for by `Waitpid(pid)`. -/
def Asks (pid : UInt32) (k : ℕ) : Prop := pid = -1 ∨ pid.toNat = k

/-- The child `Fork` creates. -/
def forkChild (s : TaskManager) (esp : ℕ) : Task :=
  { s.tasks s.numTasks with
    cpustate := (((s.tasks s.numTasks).stack : ℤ) - (((s.tasks s.current).stack : ℤ) - esp)).toNat
    pid := s.numTasks
    ppid := (s.tasks s.current).pid
    priority := (s.tasks s.current).priority
    arrivalOrder := s.nextArrivalOrder
    state := .ready
    forkPid := 0 }

/-- The memory after `Fork`: the stack and the frame of the parent copied to the
    child, and `ecx` written in both frames. -/
def forkMem (s : TaskManager) (mem : Memory) (esp : ℕ) : Memory :=
  let mem := mem.copyLoop (s.tasks s.numTasks).stack (s.tasks s.current).stack 0 maxStackSize
  let mem := mem.move (s.forkChild esp).cpustate esp CPUState.sizeof
  let mem := CPUState.setEcx mem esp (.ofInt s.numTasks)
  CPUState.setEcx mem (s.forkChild esp).cpustate 0

/-- The effect of an interrupt. -/
inductive Effect (s : TaskManager) : Interrupt → TaskManager × ℕ → Prop
  /-- The running task is preempted. -/
  | tick {mem : Memory} {esp : ℕ} {r : TaskManager × ℕ} :
      Dispatches { s with
        mem, tasks := Function.update s.tasks s.current
          { s.tasks s.current with cpustate := esp, state := .ready } } r →
      Effect s (.timer mem esp) r
  /-- A system call that does not concern the task manager. -/
  | skip {mem : Memory} {esp : ℕ} :
      (∃ str, Interrupt.call (.syscall mem esp) = some (.printf str)) ∨
        Interrupt.call (.syscall mem esp) = some .other →
      Effect s (.syscall mem esp) ({ s with mem }, esp)
  | forkpid {mem : Memory} {esp : ℕ} : Interrupt.call (.syscall mem esp) = some .forkpid →
      Effect s (.syscall mem esp)
        ({ s with mem := CPUState.setEax mem esp (.ofInt (s.tasks s.current).forkPid) }, esp)
  | fork {mem : Memory} {esp : ℕ} {s' : TaskManager} :
      Interrupt.call (.syscall mem esp) = some .fork → s.numTasks < maxNumTasks →
      s'.tasks = Function.update (Function.update s.tasks s.current
        { s.tasks s.current with cpustate := esp, forkPid := s.numTasks })
        s.numTasks (s.forkChild esp) →
      s'.mem = s.forkMem mem esp → s'.numTasks = s.numTasks + 1 →
      s'.currentTask = s.currentTask → s'.base = s.base →
      Effect s (.syscall mem esp) (s', esp)
  | execve {mem : Memory} {esp : ℕ} {entrypoint : UInt32} :
      Interrupt.call (.syscall mem esp) = some (.execve entrypoint) →
      Effect s (.syscall mem esp)
        ({ s with
            mem := ((s.tasks s.current).reset mem entrypoint).2
            tasks := Function.update s.tasks s.current
              ((s.tasks s.current).reset mem entrypoint).1 },
          ((s.tasks s.current).reset mem entrypoint).1.cpustate)
  /-- A `Waitpid` reaps a terminated child. -/
  | reap {mem : Memory} {esp k : ℕ} {pid : UInt32} :
      Interrupt.call (.syscall mem esp) = some (.waitpid pid) → k < s.numTasks → Asks pid k →
      (s.tasks k).ppid = s.current → (s.tasks k).state = .terminated →
      (s.tasks k).parentTookInWait = false →
      Effect s (.syscall mem esp)
        ({ s with
            mem := CPUState.setEax mem esp (.ofInt k)
            tasks := Function.update (Function.update s.tasks s.current
              { s.tasks s.current with cpustate := esp }) k
              { s.tasks k with parentTookInWait := true } }, esp)
  /-- A `Waitpid` fails: there is no child it could wait for. -/
  | refuse {mem : Memory} {esp : ℕ} {pid : UInt32} :
      Interrupt.call (.syscall mem esp) = some (.waitpid pid) →
      (∀ k < s.numTasks, Asks pid k → (s.tasks k).ppid = s.current →
        (s.tasks k).parentTookInWait = true) →
      Effect s (.syscall mem esp)
        ({ s with
            mem := CPUState.setEax mem esp (-1)
            tasks := Function.update s.tasks s.current
              { s.tasks s.current with cpustate := esp, waitingChild := false } }, esp)
  /-- A `Waitpid` blocks: some child it asks for is alive, and none is to be reaped. -/
  | block {mem : Memory} {esp : ℕ} {pid : UInt32} {r : TaskManager × ℕ} :
      Interrupt.call (.syscall mem esp) = some (.waitpid pid) →
      (∃ k < s.numTasks, Asks pid k ∧ (s.tasks k).ppid = s.current ∧
        (s.tasks k).state ≠ .terminated) →
      (∀ k < s.numTasks, Asks pid k → (s.tasks k).ppid = s.current →
        (s.tasks k).state = .terminated → (s.tasks k).parentTookInWait = true) →
      Dispatches { s with
        mem, tasks := Function.update s.tasks s.current
          { s.tasks s.current with
            cpustate := esp, state := .blocked, waitingChild := true
            waitingChildId := if pid = -1 then -1 else pid.toNat } } r →
      Effect s (.syscall mem esp) r
  /-- The running task exits, its parent not waiting for it. -/
  | exit {mem : Memory} {esp : ℕ} {r : TaskManager × ℕ} :
      Interrupt.call (.syscall mem esp) = some .exit →
      (∀ p < s.numTasks, ¬WaitsFor s.procs p s.current) →
      Dispatches { s with
        mem, tasks := Function.update s.tasks s.current
          { s.tasks s.current with state := .terminated } } r →
      Effect s (.syscall mem esp) r
  /-- The running task exits, waking up its parent `p`. -/
  | exitWake {mem : Memory} {esp p : ℕ} {r : TaskManager × ℕ} :
      Interrupt.call (.syscall mem esp) = some .exit → p < s.numTasks →
      (s.tasks p).state = .blocked → WaitsFor s.procs p s.current →
      Dispatches { s with
        mem := CPUState.setEax mem (s.tasks p).cpustate (.ofInt s.current)
        tasks := Function.update (Function.update s.tasks s.current
          { s.tasks s.current with state := .terminated, parentTookInWait := true }) p
          { s.tasks p with waitingChild := false, state := .ready } } r →
      Effect s (.syscall mem esp) r

variable {s : TaskManager} {mem : Memory} {esp : ℕ}

/-- The state after the frame of the running task is saved. -/
def saved (s : TaskManager) (esp : ℕ) : TaskManager :=
  s.modifyTask s.current fun t => { t with cpustate := esp }

/-- `Fork` with no room for the child. -/
theorem fork_of_none {s s' : TaskManager} {esp : ℕ} (h : (s.saved esp).addTask ((s.saved esp).tasks s.current)
    ((s.saved esp).tasks s.current).priority ((s.saved esp).tasks s.current).pid = (s', none)) :
    s.fork esp = { s' with nullDeref := true } := by
  rw [saved] at h
  simp only [fork, h]

/-- `Fork` with the child that has been added. -/
theorem fork_of_some {s s' : TaskManager} {esp child : ℕ}
    (h : (s.saved esp).addTask ((s.saved esp).tasks s.current) ((s.saved esp).tasks s.current).priority
      ((s.saved esp).tasks s.current).pid = (s', some child)) :
    s.fork esp = s'.recordFork s.current child esp := by
  rw [saved] at h
  simp only [fork, h]

theorem saved_tasks_current (s : TaskManager) (esp : ℕ) : (s.saved esp).tasks s.current =
    { s.tasks s.current with cpustate := esp } := Function.update_self _ _ _

theorem saved_tasks_of_ne {i : ℕ} (hi : i ≠ s.current) (esp : ℕ) :
    (s.saved esp).tasks i = s.tasks i :=
  Function.update_of_ne hi _ _

/-- The state in which the running task is preempted. -/
def preempted (s : TaskManager) (esp : ℕ) : TaskManager :=
  (s.modifyTask s.current fun t => { t with cpustate := esp }).addToReadyQueue s.current

theorem preempted_tasks (s : TaskManager) (esp : ℕ) : (s.preempted esp).tasks =
    Function.update s.tasks s.current
      { s.tasks s.current with cpustate := esp, state := .ready } := by
  rw [preempted, addToReadyQueue_tasks, modifyTask_tasks, Function.update_self,
    Function.update_idem]

theorem preempted_mem (s : TaskManager) (esp : ℕ) : (s.preempted esp).mem = s.mem := by
  rw [preempted, addToReadyQueue_mem]
  rfl

theorem preempted_numTasks (s : TaskManager) (esp : ℕ) :
    (s.preempted esp).numTasks = s.numTasks := by
  rw [preempted, addToReadyQueue_numTasks]
  rfl

theorem preempted_base (s : TaskManager) (esp : ℕ) : (s.preempted esp).base = s.base := by
  rw [preempted, addToReadyQueue_base]
  rfl

namespace Inv

theorem current_lt (h : s.Inv) : s.current < s.numTasks := h.table.run_lt _ rfl

theorem state_current (h : s.Inv) : (s.tasks s.current).state = .running := h.table.state_running

theorem pid_current (h : s.Inv) : (s.tasks s.current).pid = s.current := h.pid_eq _ h.current_lt

theorem waitingChild_current (h : s.Inv) : (s.tasks s.current).waitingChild = false := by
  have hb := h.table.waiting_eq_none h.current_lt (by simp [procs, Task.proc, h.state_current])
  cases hw : (s.tasks s.current).waitingChild with
  | false => rfl
  | true => simp [procs, Task.proc, hw] at hb

/-- The memory does not matter. -/
theorem withMem (h : s.Inv) (mem : Memory) : { s with mem }.Inv :=
  ⟨⟨h.toBase.withMem mem, h.table⟩, h.currentTask_nonneg⟩

/-- A state with the same processes, as far as the invariant is concerned. -/
theorem modifyCurrent (h : s.Inv) {f : Task → Task}
    (hpid : (f (s.tasks s.current)).pid = (s.tasks s.current).pid)
    (hstack : (f (s.tasks s.current)).stack = (s.tasks s.current).stack)
    (hproc : (f (s.tasks s.current)).proc = (s.tasks s.current).proc) :
    (s.modifyTask s.current f).Inv := by
  refine ⟨⟨h.toBase.modifyTask h.current_lt hpid hstack ?_, ?_⟩, h.currentTask_nonneg⟩
  · have : (f (s.tasks s.current)).state = (s.tasks s.current).state := congrArg Proc.state hproc
    rw [this]
  · rw [procs_eq_self (modifyTask_tasks s s.current f) hproc]
    exact h.table

theorem saved (h : s.Inv) (esp : ℕ) : (s.saved esp).Inv := h.modifyCurrent rfl rfl rfl

/-! ## Timer ticks -/

/-- The preempted state, in which no task is running. -/
theorem preempted (h : s.Inv) (esp : ℕ) : (s.preempted esp).InvAt none := by
  have hc := h.current_lt
  refine ⟨Base.addToReadyQueue (h.toBase.modifyTask hc rfl rfl Iff.rfl) hc ?_, ?_⟩
  · rw [modifyTask_tasks, Function.update_self]
    simp [h.state_current]
  · rw [procs_eq_update (preempted_tasks s esp), preempted_numTasks]
    exact h.table.preempt

/-- A timer tick preempts the running task and schedules. -/
theorem scheduleTick_eq (h : s.Inv) (esp : ℕ) : s.scheduleTick esp = (s.preempted esp).schedule := by
  have hc := h.current_lt
  have hn : ¬s.numTasks ≤ 0 := by omega
  have hcur : s.currentTask ≥ 0 := h.currentTask_nonneg
  simp [TaskManager.scheduleTick, hn, h.lifeCycle, h.noCollatz, hcur, TaskManager.preempted]

theorem scheduleTick (h : s.Inv) (esp : ℕ) :
    Effect s (.timer s.mem esp) (s.scheduleTick esp) ∧ (s.scheduleTick esp).1.Inv := by
  obtain ⟨hd, hinv⟩ := (h.preempted esp).schedule
  rw [h.scheduleTick_eq]
  exact ⟨.tick (hd.congr (preempted_tasks s esp).symm (preempted_mem s esp).symm
    (preempted_numTasks s esp).symm (preempted_base s esp).symm), hinv⟩

/-! ## Execve -/

theorem execve (h : s.Inv) (entrypoint : UInt32) : (s.execve entrypoint).1.Inv :=
  (h.withMem ((s.tasks s.current).reset s.mem entrypoint).2).modifyCurrent
    (f := fun t => (t.reset s.mem entrypoint).1) rfl rfl rfl

end Inv

theorem execve_eq (entrypoint : UInt32) : s.execve entrypoint =
    ({ s with
        mem := ((s.tasks s.current).reset s.mem entrypoint).2
        tasks := Function.update s.tasks s.current ((s.tasks s.current).reset s.mem entrypoint).1 },
      ((s.tasks s.current).reset s.mem entrypoint).1.cpustate) := by
  rw [TaskManager.execve]
  dsimp only [current]
  rw [Function.update_self]

/-- The effect of an interrupt does not depend on the memory before it. -/
theorem Effect.withMem {i : Interrupt} {r : TaskManager × ℕ} (h : Effect { s with mem } i r) :
    Effect s i r := by
  cases h with
  | tick hd => exact .tick hd
  | skip hcall => exact .skip hcall
  | forkpid hcall => exact .forkpid hcall
  | fork hcall hroom htasks hmem hnum hcur hbase =>
    exact .fork hcall hroom htasks hmem hnum hcur hbase
  | execve hcall => exact .execve hcall
  | reap hcall hk hask hpp hst htook => exact .reap hcall hk hask hpp hst htook
  | refuse hcall hno => exact .refuse hcall hno
  | block hcall hlive hdead hd => exact .block hcall hlive hdead hd
  | exit hcall hno hd => exact .exit hcall hno hd
  | exitWake hcall hp hst hw hd => exact .exitWake hcall hp hst hw hd

end GtuOs.TaskManager

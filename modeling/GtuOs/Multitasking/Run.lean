import GtuOs.Lib.System
import GtuOs.Multitasking.Queue
import GtuOs.Multitasking.Table

/-!
# Runs of the task manager

A run of the `system` starts with `startInitProcess` in lifecycle A, B1 or B2
and the first timer tick (`Boot`), and goes on with interrupts: timer ticks, and
system calls of the running task. Between two interrupts the running task may
have done anything to the memory, and an interrupt arrives with any `esp`.

`Inv` is the representation invariant of the task manager: the process table is
sound (`Table`), and the ready queue holds the ready tasks.
-/

namespace GtuOs.TaskManager

/-- An interrupt: what the memory is when it arrives, and the address of the frame
    it has pushed. -/
inductive Interrupt
  | timer (mem : Memory) (esp : ℕ)
  | syscall (mem : Memory) (esp : ℕ)

namespace Interrupt

def mem : Interrupt → Memory
  | timer mem _ => mem
  | syscall mem _ => mem

def esp : Interrupt → ℕ
  | timer _ esp => esp
  | syscall _ esp => esp

/-- The system call made, if any. -/
def call : Interrupt → Option Syscall
  | timer _ _ => none
  | syscall mem esp => some (CPUState.load mem esp).syscall

end Interrupt

/-- The handling of an interrupt: the new state and the frame handed back. -/
def handle (s : TaskManager) : Interrupt → TaskManager × ℕ
  | .timer mem esp => { s with mem }.scheduleTick esp
  | .syscall mem esp => { s with mem }.handleInterrupt esp

/-- The interrupts of runs: `Fork` is called only with room in the table, the init
    process never exits, and the system calls of the other lifecycles are not
    used. -/
def Allowed (s : TaskManager) (i : Interrupt) : Prop :=
  match i.call with
  | some .fork => s.numTasks < maxNumTasks
  | some .exit => s.current ≠ 0
  | some .blockForCollatz => False
  | some (.setLastTaskPriority _) => False
  | some .collatzAdded => False
  | _ => True

/-- What the start depends on: the memory of the object and of the local `task1`
    before, the constants of `kernel.cpp`, and the first timer interrupt. -/
structure Boot where
  raw : TaskManager
  schedulerType : SchedulerType
  lifeCycleType : LifeCycleType
  task1 : Task
  init : UInt32
  mem : Memory
  esp : ℕ

namespace Boot

/-- The state when `startInitProcess` returns. -/
def start (b : Boot) : TaskManager :=
  (b.raw.construct b.schedulerType b.lifeCycleType).startInitProcess b.task1 b.init

/-- The first timer tick. -/
def firstTick (b : Boot) : TaskManager × ℕ := { b.start with mem := b.mem }.scheduleTick b.esp

/-- The lifecycles of runs; `collatzTask`, which is not initialised, is null. -/
def Allowed (b : Boot) : Prop :=
  (b.lifeCycleType = .lifeCycleA ∨ b.lifeCycleType = .lifeCycleB1 ∨
    b.lifeCycleType = .lifeCycleB2) ∧ b.raw.collatzTask = none

end Boot

/-- The runs of the task manager. -/
def system : System TaskManager Interrupt where
  init s := ∃ b : Boot, b.Allowed ∧ b.firstTick.1 = s
  step s i s' := s.Allowed i ∧ (s.handle i).1 = s'

/-! ## The invariant -/

/-- The processes of the tasks. -/
def procs (s : TaskManager) (i : ℕ) : Proc := (s.tasks i).proc

/-- The ready tasks. -/
def readyTasks (s : TaskManager) : Set ℕ := {i | i < s.numTasks ∧ (s.tasks i).state = .ready}

theorem mem_readyTasks {s : TaskManager} {i : ℕ} :
    i ∈ s.readyTasks ↔ i < s.numTasks ∧ (s.tasks i).state = .ready := Iff.rfl

/-- The invariant but for the process table. -/
structure Base (s : TaskManager) : Prop where
  pid_eq : ∀ i < s.numTasks, (s.tasks i).pid = i
  numTasks_le : s.numTasks ≤ maxNumTasks
  queueOk : s.QueueOk s.readyTasks
  fresh : ∀ i, s.numTasks ≤ i →
    (s.tasks i).waitingChild = false ∧ (s.tasks i).parentTookInWait = false
  stack_eq : ∀ i, (s.tasks i).stack = s.base + i * Task.sizeof
  lifeCycle : s.lifeCycleType ≠ .lifeCycleB3 ∧ s.lifeCycleType ≠ .lifeCycleB4
  noCollatz : s.interruptNumAfterCollatz = -1 ∧ s.collatzTask = none
  flags : s.poppedEmpty = false ∧ s.nullDeref = false

/-- The invariant, with the task `run` running (if any). -/
structure InvAt (run : Option ℕ) (s : TaskManager) : Prop extends Base s where
  table : Table run s.procs s.numTasks

/-- The representation invariant, between interrupts. -/
structure Inv (s : TaskManager) : Prop extends InvAt (some s.current) s where
  currentTask_nonneg : 0 ≤ s.currentTask

variable {s : TaskManager} {t : ℕ}

/-- The processes after an update of a task. -/
theorem procs_eq_update {s' : TaskManager} {u : Task}
    (h : s'.tasks = Function.update s.tasks t u) :
    s'.procs = Function.update s.procs t u.proc := by
  funext i
  simp only [procs, h]
  exact Function.apply_update (fun _ => Task.proc) s.tasks t u i

/-- The processes after an update of a task that keeps its process. -/
theorem procs_eq_self {s' : TaskManager} {u : Task}
    (h : s'.tasks = Function.update s.tasks t u) (hu : u.proc = (s.tasks t).proc) :
    s'.procs = s.procs := by
  rw [procs_eq_update h, hu]
  exact Function.update_eq_self t s.procs

namespace Base

/-- The memory does not matter. -/
theorem withMem (h : s.Base) (mem : Memory) : { s with mem }.Base :=
  ⟨h.pid_eq, h.numTasks_le, h.queueOk.congr rfl rfl, h.fresh, h.stack_eq, h.lifeCycle,
    h.noCollatz, h.flags⟩

/-- The update of a task of the table, or of the next one, that keeps its pid and its stack.
    The queue may change too. -/
theorem of_update (h : s.Base) {s' : TaskManager} {u : Task}
    (heq : s' = { s with
      mem := s'.mem
      tasks := Function.update s.tasks t u
      currentTask := s'.currentTask
      numTasks := max s.numTasks (t + 1)
      nextArrivalOrder := s'.nextArrivalOrder
      readyQueue := s'.readyQueue
      queueLen := s'.queueLen })
    (ht : t ≤ s.numTasks) (hroom : t < maxNumTasks) (hpid : u.pid = t) (hstack : u.stack = (s.tasks t).stack)
    (hqueue : s'.QueueOk s'.readyTasks) : s'.Base := by
  have htasks : s'.tasks = Function.update s.tasks t u := by rw [heq]
  have hself : s'.tasks t = u := by rw [htasks, Function.update_self]
  have hne : ∀ i, i ≠ t → s'.tasks i = s.tasks i := fun i hi => by
    rw [htasks, Function.update_of_ne hi]
  have hnum : s'.numTasks = max s.numTasks (t + 1) := by rw [heq]
  have hbase : s'.base = s.base := by rw [heq]
  refine ⟨fun i hi => ?_, hnum ▸ max_le h.numTasks_le hroom, hqueue, fun i hi => ?_, fun i => ?_, ?_, ?_, ?_⟩
  · rcases eq_or_ne i t with rfl | hit
    · rw [hself]
      exact hpid
    · rw [hne i hit, h.pid_eq i (by omega)]
  · rw [hne i (by omega)]
    exact h.fresh i (by omega)
  · rw [hbase]
    rcases eq_or_ne i t with rfl | hit
    · rw [hself, hstack]
      exact h.stack_eq i
    · rw [hne i hit]
      exact h.stack_eq i
  · rw [heq]
    exact h.lifeCycle
  · rw [heq]
    exact h.noCollatz
  · rw [heq]
    exact h.flags

/-- The update of a task keeping its pid and its stack, that does not change
    whether it is ready. -/
theorem modifyTask (h : s.Base) (ht : t < s.numTasks) {f : Task → Task}
    (hpid : (f (s.tasks t)).pid = (s.tasks t).pid)
    (hstack : (f (s.tasks t)).stack = (s.tasks t).stack)
    (hready : (f (s.tasks t)).state = .ready ↔ (s.tasks t).state = .ready) :
    (s.modifyTask t f).Base := by
  have hR : (s.modifyTask t f).readyTasks = s.readyTasks := by
    ext i
    refine and_congr_right fun _ => ?_
    show (Function.update s.tasks t (f (s.tasks t)) i).state = .ready ↔ _
    rcases eq_or_ne i t with rfl | hi
    · rw [Function.update_self, hready]
    · rw [Function.update_of_ne hi]
  refine h.of_update (u := f (s.tasks t)) ?_ ht.le (lt_of_lt_of_le ht h.numTasks_le) (hpid.trans (h.pid_eq t ht))
    hstack (hR ▸ h.queueOk.congr rfl rfl)
  rw [max_eq_left ht]
  rfl

/-- A task that is not ready is made ready. -/
theorem addToReadyQueue (h : s.Base) (ht : t < s.numTasks) (hst : (s.tasks t).state ≠ .ready) :
    (s.addToReadyQueue t).Base := by
  have hself : (s.addToReadyQueue t).tasks t = { s.tasks t with state := .ready } := by
    rw [addToReadyQueue_tasks, Function.update_self]
  have hne : ∀ i, i ≠ t → (s.addToReadyQueue t).tasks i = s.tasks i := fun i hi => by
    rw [addToReadyQueue_tasks, Function.update_of_ne hi]
  have hR : (s.addToReadyQueue t).readyTasks = insert t s.readyTasks := by
    ext i
    rw [Set.mem_insert_iff]
    simp only [mem_readyTasks, addToReadyQueue_numTasks]
    rcases eq_or_ne i t with rfl | hi
    · simp [hself, ht]
    · simp [hne i hi, hi]
  have hadd := h.queueOk.add (t := t) (fun hm => hst hm.2) (lt_of_lt_of_le ht h.numTasks_le)
  rw [← hR] at hadd
  refine h.of_update (u := { s.tasks t with state := .ready }) ?_ ht.le (lt_of_lt_of_le ht h.numTasks_le)
    (h.pid_eq t ht) rfl hadd
  rw [max_eq_left ht, addToReadyQueue_eq]

end Base

/-- The outcome `r` of a scheduling decision in the state `s`: a ready task runs,
    and its frame is handed back. -/
def Dispatches (s : TaskManager) (r : TaskManager × ℕ) : Prop :=
  ∃ t < s.numTasks, (s.tasks t).state = .ready ∧
    r.1.tasks = Function.update s.tasks t { s.tasks t with state := .running } ∧
    r.1.currentTask = t ∧ r.1.mem = s.mem ∧ r.1.numTasks = s.numTasks ∧ r.1.base = s.base ∧
    r.2 = (s.tasks t).cpustate

/-- Only tasks, memory and base matter. -/
theorem Dispatches.congr {s' : TaskManager} {r : TaskManager × ℕ} (h : Dispatches s r)
    (ht : s'.tasks = s.tasks) (hm : s'.mem = s.mem) (hn : s'.numTasks = s.numTasks)
    (hb : s'.base = s.base) : Dispatches s' r := by
  rw [Dispatches]
  rw [ht, hm, hn, hb]
  exact h

theorem Dispatches.numTasks_eq {r : TaskManager × ℕ} (h : Dispatches s r) :
    r.1.numTasks = s.numTasks := by
  obtain ⟨_, _, _, _, _, _, hn, _⟩ := h
  exact hn

theorem Dispatches.mem_eq {r : TaskManager × ℕ} (h : Dispatches s r) : r.1.mem = s.mem := by
  obtain ⟨_, _, _, _, _, hm, _⟩ := h
  exact hm

namespace InvAt

variable {run : Option ℕ}

/-- When no task is running, the head of the queue is a ready task. -/
theorem exists_head (h : s.InvAt none) :
    ∃ t q, s.queue = t :: q ∧ t < s.numTasks ∧ (s.tasks t).state = .ready := by
  obtain ⟨r, hr, hst⟩ := h.table.exists_ready
  have hmem : r ∈ s.queue := (h.queueOk.mem_iff r).2 ⟨hr, hst⟩
  cases hq : s.queue with
  | nil =>
    rw [hq] at hmem
    cases hmem
  | cons t q =>
    have ht : t ∈ s.queue := by rw [hq]; exact List.mem_cons_self
    exact ⟨t, q, rfl, (h.queueOk.mem_iff t).1 ht⟩

/-- When no task is running, scheduling restores the invariant. -/
theorem schedule (h : s.InvAt none) : Dispatches s s.schedule ∧ s.schedule.1.Inv := by
  obtain ⟨t, q, hq, ht, hst⟩ := h.exists_head
  have hpid := h.pid_eq t ht
  have heq := schedule_eq hq hpid
  have hself : s.schedule.1.tasks t = { s.tasks t with state := .running } := by
    rw [heq]
    exact Function.update_self _ _ _
  have hne : ∀ i, i ≠ t → s.schedule.1.tasks i = s.tasks i := fun i hi => by
    rw [heq]
    exact Function.update_of_ne hi _ _
  have hnum : s.schedule.1.numTasks = s.numTasks := by rw [heq]
  have htasks : s.schedule.1.tasks = Function.update s.tasks t { s.tasks t with state := .running } := by
    rw [heq]
  have hcur : s.schedule.1.current = t := by rw [heq]; rfl
  -- The head of the queue is not ready any more, but runs.
  have hR : s.schedule.1.readyTasks = s.readyTasks \ {t} := by
    ext i
    rw [Set.mem_sdiff, Set.mem_singleton_iff]
    simp only [mem_readyTasks, hnum]
    rcases eq_or_ne i t with rfl | hi
    · simp [hself]
    · simp [hne i hi, hi]
  have hqueue := h.queueOk.schedule hq hpid
  rw [← hR] at hqueue
  have hbase : s.schedule.1.Base := by
    refine h.of_update (u := { s.tasks t with state := .running }) ?_ ht.le (lt_of_lt_of_le ht h.numTasks_le) hpid rfl
      hqueue
    rw [max_eq_left ht, heq]
  refine ⟨⟨t, ht, hst, htasks, by rw [heq], by rw [heq], hnum, by rw [heq], by rw [heq]⟩, ⟨⟨hbase, ?_⟩, ?_⟩⟩
  · rw [hnum, hcur, procs_eq_update htasks]
    exact h.table.dispatch ht hst
  · rw [heq]
    exact Int.natCast_nonneg t

end InvAt

end GtuOs.TaskManager

import GtuOs.Lib.Buffer
import GtuOs.Multitasking.Task

/-!
# The task manager

The `TaskManager` class of `multitasking.cpp` and the dispatch of
`SyscallHandler::HandleInterrupt`, function by function. A `Task*` is the
index of the task in the array `tasks`, and null is `none`. What a switch prints
of the process table, which changes nothing here, is in `Multitasking.Printing`.

Two flags record what a run must never do: popping the empty ready queue
(`poppedEmpty`), and following the null pointer `AddTask` returns for a full
table (`nullDeref`). The highest index written in the ready queue is that of its
buffer.
-/

namespace GtuOs

/-- The fields of the class, the memory the stacks live in, and the flags. -/
structure TaskManager where
  schedulerType : SchedulerType
  lifeCycleType : LifeCycleType
  /-- The address of the array `tasks`. -/
  base : ℕ
  mem : Memory
  tasks : ℕ → Task
  currentTask : ℤ
  numTasks : ℕ
  nextArrivalOrder : ℤ
  interruptNumAfterCollatz : ℤ
  collatzTask : Option ℕ
  blockedTaskForCollatz : Option ℕ
  readyQueue : Buffer ℕ
  queueLen : ℤ
  ignoreSchedule : Bool
  poppedEmpty : Bool
  nullDeref : Bool

namespace TaskManager

/-- The constructor, on the `raw` contents of the memory of the object: it leaves
    `collatzTask`, the queue and most fields of the tasks as they are. -/
def construct (raw : TaskManager) (schedulerType : SchedulerType) (lifeCycleType : LifeCycleType) :
    TaskManager :=
  { raw with
    schedulerType
    lifeCycleType
    tasks := fun i => ({ raw.tasks i with stack := raw.base + i * Task.sizeof } : Task).construct
    numTasks := 0
    currentTask := -1
    nextArrivalOrder := 1
    interruptNumAfterCollatz := -1
    blockedTaskForCollatz := none
    readyQueue := { raw.readyQueue with top := 0 }
    queueLen := 0
    ignoreSchedule := false
    poppedEmpty := false
    nullDeref := false }

/-- The assignment of fields of the task `i`. -/
def modifyTask (s : TaskManager) (i : ℕ) (f : Task → Task) : TaskManager :=
  { s with tasks := Function.update s.tasks i (f (s.tasks i)) }

/-- The index of `GetCurrentTask()`. -/
def current (s : TaskManager) : ℕ := s.currentTask.toNat

/-! ## The ready queue -/

/-- `AddToReadyQueueRoundRobin`: at the tail. -/
def addToReadyQueueRoundRobin (s : TaskManager) (task : ℕ) : TaskManager :=
  { s with readyQueue := s.readyQueue.set s.queueLen.toNat task, queueLen := s.queueLen + 1 }

/-- The test of the insertion sort: whether `task` goes before `oth`. -/
def goesBefore (s : TaskManager) (task oth : ℕ) : Bool :=
  (s.tasks task).priority < (s.tasks oth).priority ||
    ((s.tasks task).priority = (s.tasks oth).priority &&
      (s.tasks task).arrivalOrder < (s.tasks oth).arrivalOrder)

/-- `AddToReadyQueuePreemptivePriority`: insertion sort. -/
def addToReadyQueuePreemptivePriority (s : TaskManager) (task : ℕ) : TaskManager :=
  let readyQueue := s.readyQueue.set s.queueLen.toNat task
  let (readyQueue, slot) := readyQueue.openSlot (s.goesBefore task) s.queueLen.toNat
  { s with readyQueue := readyQueue.set slot task, queueLen := s.queueLen + 1 }

/-- `AddToReadyQueue`. -/
def addToReadyQueue (s : TaskManager) (task : ℕ) : TaskManager :=
  let s := s.modifyTask task fun t => { t with state := .ready }
  match s.schedulerType with
  | .roundRobin => s.addToReadyQueueRoundRobin task
  | .preemptivePriority => s.addToReadyQueuePreemptivePriority task

/-- `PopFromReadyQueue`. -/
def popFromReadyQueue (s : TaskManager) : TaskManager × ℕ :=
  ({ s with
      readyQueue := s.readyQueue.shiftDown 0 (s.queueLen - 1).toNat
      queueLen := s.queueLen - 1
      poppedEmpty := s.poppedEmpty || s.queueLen ≤ 0 },
    s.readyQueue.get 0)

/-- `RemoveFromReadyQueue`: the first task of the queue with this pid, if any. -/
def removeFromReadyQueue (s : TaskManager) (pid : ℤ) : TaskManager :=
  match s.readyQueue.find (fun i => (s.tasks i).pid = pid) 0 s.queueLen.toNat with
  | none => s
  | some idx =>
    { s with
      readyQueue := s.readyQueue.shiftDown idx (s.queueLen - 1 - idx).toNat
      queueLen := s.queueLen - 1 }

/-! ## Scheduling -/

/-- The common body of `RoundRobinSchedule` and `PreemptivePrioritySchedule`: the
    head of the queue runs, and its frame is handed back. -/
def runHead (s : TaskManager) : TaskManager × ℕ :=
  let (s, task) := s.popFromReadyQueue
  let s := s.modifyTask task fun t => { t with state := .running }
  let s := { s with currentTask := (s.tasks task).pid }
  (s, (s.tasks s.current).cpustate)

/-- `RoundRobinSchedule`. -/
def roundRobinSchedule (s : TaskManager) : TaskManager × ℕ := s.runHead

/-- `PreemptivePrioritySchedule`. -/
def preemptivePrioritySchedule (s : TaskManager) : TaskManager × ℕ := s.runHead

/-- `Schedule()`. -/
def schedule (s : TaskManager) : TaskManager × ℕ :=
  match s.schedulerType with
  | .roundRobin => s.roundRobinSchedule
  | .preemptivePriority => s.preemptivePrioritySchedule

/-- The 5th interrupt after the collatz task was added, in lifecycle B4: the task
    gets the priority `High`. -/
def promoteCollatz (s : TaskManager) : TaskManager :=
  match s.collatzTask with
  | none => { s with nullDeref := true }
  | some c =>
    let s := s.removeFromReadyQueue (s.tasks c).pid
    let s := s.modifyTask c fun t => { t with priority := .high }
    s.addToReadyQueue c

/-- The 5th interrupt after the collatz task was added, in lifecycle B3: the
    blocked init process starts again. -/
def unblockForCollatz (s : TaskManager) : TaskManager :=
  match s.blockedTaskForCollatz with
  | none => s
  | some b => { s.addToReadyQueue b with blockedTaskForCollatz := none }

/-- `Schedule(cpustate)`, run by every timer interrupt. -/
def scheduleTick (s : TaskManager) (cpustate : ℕ) : TaskManager × ℕ :=
  if s.numTasks ≤ 0 then (s, cpustate)
  else if s.lifeCycleType = .lifeCycleB4 ∧ s.ignoreSchedule then (s, cpustate)
  else
    let s := if s.interruptNumAfterCollatz ≠ -1 then
        { s with interruptNumAfterCollatz := s.interruptNumAfterCollatz + 1 } else s
    let s := if s.lifeCycleType = .lifeCycleB4 ∧ s.interruptNumAfterCollatz = 5 then
        s.promoteCollatz else s
    let s := if s.lifeCycleType = .lifeCycleB3 ∧ s.interruptNumAfterCollatz = 5 then
        s.unblockForCollatz else s
    let s := if s.currentTask ≥ 0 then
        (s.modifyTask s.current fun t => { t with cpustate }).addToReadyQueue s.current else s
    s.schedule

/-! ## Creating tasks -/

/-- `AddTask`: null when the table is full. -/
def addTask (s : TaskManager) (newTask : Task) (priority : Priority) (ppid : ℤ) :
    TaskManager × Option ℕ :=
  if s.numTasks ≥ maxNumTasks then (s, none)
  else
    let (task, mem) := (s.tasks s.numTasks).copy newTask s.mem
    let task := { task with
      priority, ppid, pid := s.numTasks, arrivalOrder := s.nextArrivalOrder }
    let s := { s with mem, tasks := Function.update s.tasks s.numTasks task }
    let s := s.addToReadyQueue s.numTasks
    ({ s with numTasks := s.numTasks + 1, nextArrivalOrder := s.nextArrivalOrder + 1 },
      some s.numTasks)

/-- `CollatzAdded`. -/
def collatzAdded (s : TaskManager) : TaskManager :=
  if s.numTasks > 0 then
    { s with collatzTask := some (s.numTasks - 1), interruptNumAfterCollatz := 0 }
  else s

/-- `SetLastTaskPriority`. -/
def setLastTaskPriority (s : TaskManager) (priority : UInt32) : TaskManager :=
  if s.numTasks > 0 then
    let task := s.numTasks - 1
    let s := s.removeFromReadyQueue (s.tasks task).pid
    let s := s.modifyTask task fun t => { t with priority := priority.toInt32.toInt }
    s.addToReadyQueue task
  else s

/-- `SetIgnoreSchedule`. -/
def setIgnoreSchedule (s : TaskManager) (ignoreSchedule : Bool) : TaskManager :=
  { s with ignoreSchedule }

/-! ## System calls -/

/-- `BlockForCollatz`. -/
def blockForCollatz (s : TaskManager) (cpustate : ℕ) : TaskManager × ℕ :=
  let s := s.modifyTask s.current fun t => { t with cpustate, state := .blocked }
  let s := { s with blockedTaskForCollatz := some s.current }
  s.schedule

/-- `Fork` from the creation of the task `child` on: its frame, the fork pids, and
    `ecx` in both frames. -/
def recordFork (s : TaskManager) (parent child cpustate : ℕ) : TaskManager :=
  let mem := (s.tasks child).copyCpuState s.mem cpustate
  let s := s.modifyTask parent fun t => { t with forkPid := (s.tasks child).pid }
  let s := s.modifyTask child fun t => { t with forkPid := 0 }
  let mem := CPUState.setEcx mem cpustate (.ofInt (s.tasks child).pid)
  { s with mem := CPUState.setEcx mem (s.tasks child).cpustate 0 }

/-- `Fork`. -/
def fork (s : TaskManager) (cpustate : ℕ) : TaskManager :=
  let parent := s.current
  let s := s.modifyTask parent fun t => { t with cpustate }
  match s.addTask (s.tasks parent) (s.tasks parent).priority (s.tasks parent).pid with
  | (s, none) => { s with nullDeref := true }
  | (s, some child) => s.recordFork parent child cpustate

/-- `Execve`. -/
def execve (s : TaskManager) (entrypoint : UInt32) : TaskManager × ℕ :=
  let (task, mem) := (s.tasks s.current).reset s.mem entrypoint
  let s := { s with mem, tasks := Function.update s.tasks s.current task }
  (s, (s.tasks s.current).cpustate)

/-- The loop of `Waitpid(-1)` from the task `i` on: the first terminated child of
    `ppid` its parent has not taken yet, if any, and the number of children seen,
    `childNum` of them before. -/
def searchChild (s : TaskManager) (ppid : ℤ) (i childNum : ℕ) : ℕ → Option ℕ × ℕ
  | 0 => (none, childNum)
  | n + 1 =>
    if ¬(s.tasks i).parentTookInWait ∧ (s.tasks i).ppid = ppid then
      if (s.tasks i).state = .terminated then (some i, childNum + 1)
      else s.searchChild ppid (i + 1) (childNum + 1) n
    else s.searchChild ppid (i + 1) childNum n

/-- `Waitpid`. -/
def waitpid (s : TaskManager) (pid : UInt32) (cpustate : ℕ) : TaskManager × ℕ :=
  let running := s.current
  let s := s.modifyTask running fun t => { t with cpustate }
  if pid = -1 then
    match s.searchChild (s.tasks running).pid 0 0 s.numTasks with
    | (some child, _) =>
      let s := s.modifyTask child fun t => { t with parentTookInWait := true }
      ({ s with mem := CPUState.setEax s.mem cpustate (.ofInt (s.tasks child).pid) }, cpustate)
    | (none, childNum) =>
      if childNum = 0 then
        let s := { s with mem := CPUState.setEax s.mem cpustate (-1) }
        (s.modifyTask running fun t => { t with waitingChild := false }, cpustate)
      else
        let s := s.modifyTask running fun t =>
          { t with state := .blocked, waitingChild := true, waitingChildId := -1 }
        s.schedule
  else if pid.toNat ≥ s.numTasks then
    let s := { s with mem := CPUState.setEax s.mem cpustate (-1) }
    (s.modifyTask running fun t => { t with waitingChild := false }, cpustate)
  else
    let task := pid.toNat
    if (s.tasks task).parentTookInWait ∨ (s.tasks task).ppid ≠ (s.tasks running).pid then
      let s := { s with mem := CPUState.setEax s.mem cpustate (-1) }
      (s.modifyTask running fun t => { t with waitingChild := false }, cpustate)
    else if (s.tasks task).state = .terminated then
      let s := s.modifyTask task fun t => { t with parentTookInWait := true }
      ({ s with mem := CPUState.setEax s.mem cpustate pid }, cpustate)
    else
      let s := s.modifyTask running fun t =>
        { t with state := .blocked, waitingChild := true, waitingChildId := pid.toNat }
      s.schedule

/-- What `Exit` does for the parent of the task `i`: if it is waiting for this
    child, it is ready again, with the pid in the `eax` of its frame. -/
def wakeParent (s : TaskManager) (i : ℕ) : TaskManager :=
  if (s.tasks i).ppid ≠ -1 then
    let parent := (s.tasks i).ppid.toNat
    if (s.tasks parent).waitingChild ∧
        ((s.tasks parent).waitingChildId = -1 ∨ (s.tasks parent).waitingChildId = (s.tasks i).pid) then
      let s := s.modifyTask i fun t => { t with parentTookInWait := true }
      let s := s.modifyTask parent fun t => { t with waitingChild := false }
      let s := s.addToReadyQueue parent
      { s with mem := CPUState.setEax s.mem (s.tasks parent).cpustate (.ofInt (s.tasks i).pid) }
    else s
  else s

/-- What `Exit` does when the task `i` is the collatz task. -/
def releaseForCollatz (s : TaskManager) (i : ℕ) : TaskManager :=
  match s.collatzTask, s.blockedTaskForCollatz with
  | some c, some b =>
    if (s.tasks i).pid = (s.tasks c).pid then
      { s.addToReadyQueue b with collatzTask := none }
    else s
  | _, _ => s

/-- `Exit`. -/
def exit (s : TaskManager) : TaskManager × ℕ :=
  let running := s.current
  let s := s.modifyTask running fun t => { t with state := .terminated }
  let s := s.wakeParent running
  let s := s.releaseForCollatz running
  s.schedule

end TaskManager

/-! ## Dispatch -/

/-- The system calls. -/
inductive Syscall
  | printf (str : UInt32)
  | fork
  | forkpid
  | execve (entrypoint : UInt32)
  | waitpid (pid : UInt32)
  | exit
  | blockForCollatz
  | setLastTaskPriority (priority : UInt32)
  | collatzAdded
  | other
  deriving DecidableEq

/-- The system call a frame asks for: its number in `eax`, its argument in `ebx`. -/
def CPUState.syscall (cpu : CPUState) : Syscall :=
  if cpu.eax = 1 then .printf cpu.ebx
  else if cpu.eax = 57 then .fork
  else if cpu.eax = 58 then .forkpid
  else if cpu.eax = 59 then .execve cpu.ebx
  else if cpu.eax = 7 then .waitpid cpu.ebx
  else if cpu.eax = 8 then .exit
  else if cpu.eax = 9 then .blockForCollatz
  else if cpu.eax = 10 then .setLastTaskPriority cpu.ebx
  else if cpu.eax = 11 then .collatzAdded
  else .other

namespace TaskManager

/-- `SyscallHandler::HandleInterrupt`. -/
def handleInterrupt (s : TaskManager) (esp : ℕ) : TaskManager × ℕ :=
  match (CPUState.load s.mem esp).syscall with
  | .printf _ => (s, esp)
  | .fork => (s.fork esp, esp)
  | .forkpid => ({ s with mem := CPUState.setEax s.mem esp (.ofInt (s.tasks s.current).forkPid) }, esp)
  | .execve entrypoint => s.execve entrypoint
  | .waitpid pid => s.waitpid pid esp
  | .exit => s.exit
  | .blockForCollatz => s.blockForCollatz esp
  | .setLastTaskPriority priority => (s.setLastTaskPriority priority, esp)
  | .collatzAdded => (s.collatzAdded, esp)
  | .other => (s, esp)

/-- `startInitProcess`: the first task is a copy of the local `task1`, reset to the
    init routine of the lifecycle, whose address is `init`. Lifecycles B3 and B4
    need the preemptive scheduler. -/
def startInitProcess (s : TaskManager) (task1 : Task) (init : UInt32) : TaskManager :=
  if (s.lifeCycleType = .lifeCycleB3 ∨ s.lifeCycleType = .lifeCycleB4) ∧
      s.schedulerType = .roundRobin then s
  else
    let (task1, mem) := task1.construct.reset s.mem init
    ({ s with mem }.addTask task1 .high (-1)).1

end TaskManager

end GtuOs

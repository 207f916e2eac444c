import GtuOs.Multitasking.Interrupts

/-!
# Modes

The fields of the task manager that only lifecycles B3 and B4 use (`Mode`). The other
handlers neither read nor change them: they commute with a change of mode, and so act
as in lifecycle A, the mode being `Mode.plain` (`TaskManager.plain`). This carries
their effects and the invariant over to lifecycles B3 and B4.
-/

namespace GtuOs.TaskManager

/-- The fields lifecycles B3 and B4 use. -/
structure Mode where
  lifeCycleType : LifeCycleType
  interruptNumAfterCollatz : ℤ
  collatzTask : Option ℕ
  blockedTaskForCollatz : Option ℕ
  ignoreSchedule : Bool

/-- The mode of lifecycle A. -/
def Mode.plain : Mode := ⟨.lifeCycleA, -1, none, none, false⟩

/-- The mode of a state. -/
def mode (s : TaskManager) : Mode :=
  ⟨s.lifeCycleType, s.interruptNumAfterCollatz, s.collatzTask, s.blockedTaskForCollatz,
    s.ignoreSchedule⟩

/-- The state with another mode. -/
def withMode (s : TaskManager) (m : Mode) : TaskManager :=
  { s with
    lifeCycleType := m.lifeCycleType
    interruptNumAfterCollatz := m.interruptNumAfterCollatz
    collatzTask := m.collatzTask
    blockedTaskForCollatz := m.blockedTaskForCollatz
    ignoreSchedule := m.ignoreSchedule }

/-- The state in lifecycle A. -/
def plain (s : TaskManager) : TaskManager := s.withMode .plain

variable (s : TaskManager) (m : Mode)

@[simp] theorem withMode_mode : s.withMode s.mode = s := rfl
@[simp] theorem mode_withMode : (s.withMode m).mode = m := rfl
@[simp] theorem plain_withMode : (s.withMode m).plain = s.plain := rfl

/-! ## Handlers commuting with modes -/

theorem addToReadyQueue_withMode (t : ℕ) :
    (s.withMode m).addToReadyQueue t = (s.addToReadyQueue t).withMode m := by
  simp only [addToReadyQueue]
  cases hsch : s.schedulerType <;> simp only [withMode, modifyTask, hsch] <;> rfl

theorem schedule_withMode :
    (s.withMode m).schedule = (s.schedule.1.withMode m, s.schedule.2) := by
  rw [schedule_eq_runHead, schedule_eq_runHead]
  rfl

theorem removeFromReadyQueue_withMode (pid : ℤ) :
    (s.withMode m).removeFromReadyQueue pid = (s.removeFromReadyQueue pid).withMode m := by
  have hfind : (s.withMode m).readyQueue.find (fun i => ((s.withMode m).tasks i).pid = pid) 0
      (s.withMode m).queueLen.toNat = s.readyQueue.find (fun i => (s.tasks i).pid = pid) 0 s.queueLen.toNat := rfl
  rw [removeFromReadyQueue, removeFromReadyQueue, hfind]
  cases s.readyQueue.find (fun i => (s.tasks i).pid = pid) 0 s.queueLen.toNat with
  | none => rfl
  | some idx => rfl

theorem reprioritize_withMode (t : ℕ) (p : Priority) :
    (s.withMode m).reprioritize t p = (s.reprioritize t p).withMode m := by
  rw [reprioritize]
  have ht : (s.withMode m).tasks = s.tasks := rfl
  rw [ht, removeFromReadyQueue_withMode]
  exact addToReadyQueue_withMode ((s.removeFromReadyQueue (s.tasks t).pid).modifyTask t fun u =>
    { u with priority := p }) m t

theorem preempted_withMode (esp : ℕ) :
    (s.withMode m).preempted esp = (s.preempted esp).withMode m :=
  addToReadyQueue_withMode (s.modifyTask s.current fun t => { t with cpustate := esp }) m s.current

theorem searchChild_withMode (ppid : ℤ) (i c n : ℕ) :
    (s.withMode m).searchChild ppid i c n = s.searchChild ppid i c n := by
  induction n generalizing i c with
  | zero => rfl
  | succ n ih =>
    rw [searchChild, searchChild, ih, ih]
    rfl

theorem waitpid_withMode (pid : UInt32) (esp : ℕ) :
    (s.withMode m).waitpid pid esp = ((s.waitpid pid esp).1.withMode m, (s.waitpid pid esp).2) := by
  have hblock : ∀ w, ((s.withMode m).blockedFor esp w).schedule =
      ((s.blockedFor esp w).schedule.1.withMode m, (s.blockedFor esp w).schedule.2) := fun w =>
    schedule_withMode (s.blockedFor esp w) m
  by_cases hpid : pid = -1
  · have hsearch : ((s.withMode m).saved esp).searchChild
        (((s.withMode m).saved esp).tasks (s.withMode m).current).pid 0 0 (s.withMode m).numTasks =
        (s.saved esp).searchChild ((s.saved esp).tasks s.current).pid 0 0 s.numTasks :=
      searchChild_withMode (s.saved esp) m ((s.saved esp).tasks s.current).pid 0 0 s.numTasks
    rw [hpid, waitpid_any_eq, waitpid_any_eq, hsearch, hblock]
    rcases (s.saved esp).searchChild ((s.saved esp).tasks s.current).pid 0 0 s.numTasks with
      ⟨_ | k, childNum⟩
    · dsimp only
      split_ifs <;> rfl
    · rfl
  · rw [waitpid_one_eq hpid, waitpid_one_eq hpid, hblock]
    show (if pid.toNat ≥ s.numTasks then _
      else if ((s.saved esp).tasks pid.toNat).parentTookInWait ∨
        ((s.saved esp).tasks pid.toNat).ppid ≠ ((s.saved esp).tasks s.current).pid then _
      else if ((s.saved esp).tasks pid.toNat).state = .terminated then _
      else _) = _
    split_ifs <;> rfl

theorem pushTask_withMode (mem : Memory) (task : Task) :
    (s.withMode m).pushTask mem task = (s.pushTask mem task).withMode m := by
  have hadd := addToReadyQueue_withMode
    { s with mem, tasks := Function.update s.tasks s.numTasks task } m s.numTasks
  rw [pushTask]
  exact congrArg (fun s' : TaskManager => { s' with
    numTasks := s.numTasks + 1, nextArrivalOrder := s.nextArrivalOrder + 1 }) hadd

theorem fork_withMode (esp : ℕ) (hroom : s.numTasks < maxNumTasks) (hne : s.current ≠ s.numTasks) :
    (s.withMode m).fork esp = (s.fork esp).withMode m := by
  have hpush := fun task => pushTask_withMode (s.saved esp) m
    (s.mem.copyLoop (s.tasks s.numTasks).stack (s.tasks s.current).stack 0 maxStackSize) task
  rw [fork_eq (s := s.withMode m) hroom hne, fork_eq hroom hne]
  exact congrArg (fun s' : TaskManager => s'.recordFork s.current s.numTasks esp) (hpush _)

theorem wakeParent_withMode (t : ℕ) :
    (s.withMode m).wakeParent t = (s.wakeParent t).withMode m := by
  unfold wakeParent
  have hadd := fun p : ℕ => addToReadyQueue_withMode ((s.modifyTask t fun u =>
    { u with parentTookInWait := true }).modifyTask p fun u => { u with waitingChild := false }) m p
  dsimp only
  show (if (s.tasks t).ppid ≠ -1 then
    if (s.tasks (s.tasks t).ppid.toNat).waitingChild ∧
        ((s.tasks (s.tasks t).ppid.toNat).waitingChildId = -1 ∨
          (s.tasks (s.tasks t).ppid.toNat).waitingChildId = (s.tasks t).pid) then _ else _
    else _) = _
  split_ifs
  · exact congrArg (fun s' : TaskManager => { s' with
      mem := CPUState.setEax s'.mem (s'.tasks (s.tasks t).ppid.toNat).cpustate
        (.ofInt (s'.tasks t).pid) }) (hadd (s.tasks t).ppid.toNat)
  · rfl
  · rfl

/-! ## Handlers keeping the mode -/

theorem addToReadyQueue_mode (t : ℕ) : (s.addToReadyQueue t).mode = s.mode :=
  (congrArg mode (addToReadyQueue_withMode s s.mode t) :)

theorem schedule_mode : s.schedule.1.mode = s.mode :=
  congrArg (fun r => r.1.mode) (schedule_withMode s s.mode)

theorem preempted_mode (esp : ℕ) : (s.preempted esp).mode = s.mode :=
  (congrArg mode (preempted_withMode s s.mode esp) :)

theorem waitpid_mode (pid : UInt32) (esp : ℕ) : (s.waitpid pid esp).1.mode = s.mode :=
  congrArg (fun r => r.1.mode) (waitpid_withMode s s.mode pid esp)

theorem wakeParent_mode (t : ℕ) : (s.wakeParent t).mode = s.mode :=
  (congrArg mode (wakeParent_withMode s s.mode t) :)

theorem requeueCurrent_mode (esp : ℕ) : (s.requeueCurrent esp).mode = s.mode := by
  rw [requeueCurrent]
  split_ifs
  · exact preempted_mode s esp
  · rfl

/-- `Exit` does not touch the count of the interrupts. -/
theorem exit_interruptNum :
    s.exit.1.interruptNumAfterCollatz = s.interruptNumAfterCollatz := by
  have hrelease : ∀ (s : TaskManager) (t : ℕ),
      (s.releaseForCollatz t).interruptNumAfterCollatz = s.interruptNumAfterCollatz := fun s t => by
    rw [releaseForCollatz]
    split
    · split_ifs
      · exact congrArg Mode.interruptNumAfterCollatz (addToReadyQueue_mode s _)
      · rfl
    · rfl
  let s₁ := s.modifyTask s.current fun t => { t with state := .terminated }
  have hexit : s.exit = ((s₁.wakeParent s.current).releaseForCollatz s.current).schedule := rfl
  rw [hexit]
  refine Eq.trans (congrArg Mode.interruptNumAfterCollatz (schedule_mode _)) ?_
  exact (hrelease _ _).trans (congrArg Mode.interruptNumAfterCollatz (wakeParent_mode s₁ s.current))

/-! ## Handlers in other lifecycles -/

variable {s}

/-- The `Exit` of the collatz task has nobody to release, or there is none. -/
def Quiet (s : TaskManager) : Prop := s.collatzTask = none ∨ s.blockedTaskForCollatz = none

/-- With nobody to release, `Exit` does what it does in lifecycle A. -/
theorem exit_plain (h : s.Quiet) :
    s.exit = (s.plain.exit.1.withMode s.mode, s.plain.exit.2) := by
  have hnone : ∀ {s' : TaskManager} (t : ℕ),
      s'.Quiet → s'.releaseForCollatz t = s' := by
    intro s' t h'
    rw [releaseForCollatz]
    rcases h' with h' | h' <;> rw [h']
    cases s'.collatzTask <;> rfl
  let s₁ := s.modifyTask s.current fun t => { t with state := .terminated }
  have hwake : s₁.wakeParent s.current = (s₁.plain.wakeParent s.current).withMode s.mode :=
    wakeParent_withMode s₁.plain s.mode s.current
  have hexit : s.exit = (s₁.wakeParent s.current).schedule := by
    show ((s₁.wakeParent s.current).releaseForCollatz s.current).schedule = _
    rw [hnone _ (by rw [hwake]; exact h)]
  have hplain : s.plain.exit = (s₁.plain.wakeParent s.current).schedule := by
    show ((s₁.plain.wakeParent s.current).releaseForCollatz s.current).schedule = _
    have hmode : s₁.plain.wakeParent s.current =
        (s₁.plain.wakeParent s.current).withMode .plain :=
      wakeParent_withMode s₁.plain .plain s.current
    rw [hnone _ (by rw [hmode]; exact .inl rfl)]
  rw [hexit, hplain, hwake, schedule_withMode]

/-- The state a tick reaches after the parts for the collatz task. -/
theorem requeue_plain (h : s.plain.Inv) (esp : ℕ) : (s.requeueCurrent esp).schedule =
    ((s.plain.scheduleTick esp).1.withMode s.mode, (s.plain.scheduleTick esp).2) := by
  have hcur : s.currentTask ≥ 0 := h.currentTask_nonneg
  have hpre : s.preempted esp = (s.plain.preempted esp).withMode s.mode :=
    preempted_withMode s.plain s.mode esp
  rw [requeueCurrent, if_pos hcur, h.scheduleTick_eq, hpre, schedule_withMode]

/-- A system call that is not for the collatz task does what it does in lifecycle A. -/
theorem handleInterrupt_plain (h : s.plain.Inv) {esp : ℕ}
    (hi : s.PriorityAllowed (.syscall s.mem esp))
    (hquiet : s.Quiet) :
    s.handleInterrupt esp =
      ((s.plain.handleInterrupt esp).1.withMode s.mode, (s.plain.handleInterrupt esp).2) := by
  have hcall : Interrupt.call (.syscall s.mem esp) = some (CPUState.load s.mem esp).syscall := rfl
  have hmem : s.plain.mem = s.mem := rfl
  have hcur : s.current ≠ s.numTasks := h.current_lt.ne
  rw [PriorityAllowed, Allowed] at hi
  rw [hcall] at hi
  simp only [handleInterrupt]
  rw [hmem]
  cases hsys : (CPUState.load s.mem esp).syscall <;> rw [hsys] at hi <;> dsimp only at hi ⊢
  case printf => rfl
  case fork => exact Prod.ext (fork_withMode s.plain s.mode esp hi hcur) rfl
  case forkpid => rfl
  case execve => rfl
  case waitpid pid => exact waitpid_withMode s.plain s.mode pid esp
  case exit => exact exit_plain hquiet
  case setLastTaskPriority priority =>
    have hpos : 0 < s.numTasks := lt_of_le_of_lt (Nat.zero_le _) h.current_lt
    refine Prod.ext ?_ rfl
    dsimp only
    rw [setLastTaskPriority_eq hpos, setLastTaskPriority_eq (s := s.plain) hpos]
    exact reprioritize_withMode s.plain s.mode _ _
  case other => rfl

/-- A tick without a special case. -/
theorem scheduleTick_plain (h : s.plain.Inv) (esp : ℕ)
    (hignore : ¬(s.lifeCycleType = .lifeCycleB4 ∧ s.ignoreSchedule = true))
    (hfifth : ¬s.AtFifth) :
    s.scheduleTick esp = ((s.plain.scheduleTick esp).1.withMode s.countInterrupt.mode,
      (s.plain.scheduleTick esp).2) := by
  have hn : ¬s.numTasks ≤ 0 := Nat.not_le.2 (lt_of_le_of_lt (Nat.zero_le _) h.current_lt)
  have hplain : s.countInterrupt.plain = s.plain := by
    rw [countInterrupt_eq]
    rfl
  rw [scheduleTick_eq, if_neg hn, if_neg hignore, fifth_of_not hfifth,
    requeue_plain (s := s.countInterrupt) (by rwa [hplain]), hplain]

/-- In lifecycle A, handlers stay in its mode. -/
theorem plain_handle (h : s.plain.Inv) {i : Interrupt} (hi : s.PriorityAllowed i) :
    (s.plain.handle i).1.plain = (s.plain.handle i).1 := by
  cases i with
  | timer mem esp =>
    have heq := scheduleTick_plain (s := { s.plain with mem }) (h.withMem mem) esp
      (fun h => by cases h.1) fun h => absurd h.1 (show ¬(-1 : ℤ) = 4 by decide)
    exact (congrArg Prod.fst heq).symm
  | syscall mem esp =>
    have heq := handleInterrupt_plain (s := { s.plain with mem }) (h.withMem mem) hi (.inl rfl)
    exact (congrArg Prod.fst heq).symm

/-- **System calls that are not for the collatz task**, in any lifecycle. -/
theorem syscall_plain (h : s.plain.Inv) {i : Interrupt} (hi : s.PriorityAllowed i)
    (hcall : i.call ≠ none) (hquiet : s.Quiet) :
    (s.handle i).1.plain = (s.plain.handle i).1 ∧ (s.handle i).1.mode = s.mode := by
  have hplain := plain_handle h hi
  cases i with
  | timer mem esp => exact absurd rfl hcall
  | syscall mem esp =>
    have heq : s.handle (.syscall mem esp) = ((s.plain.handle (.syscall mem esp)).1.withMode s.mode,
        (s.plain.handle (.syscall mem esp)).2) :=
      handleInterrupt_plain (s := { s with mem }) (h.withMem mem) hi hquiet
    rw [heq, plain_withMode, hplain]
    exact ⟨rfl, rfl⟩

/-- **Ticks without a special case**, in any lifecycle. -/
theorem tick_plain (h : s.plain.Inv) (mem : Memory) (esp : ℕ)
    (hignore : ¬(s.lifeCycleType = .lifeCycleB4 ∧ s.ignoreSchedule = true))
    (hfifth : ¬s.AtFifth) :
    (s.handle (.timer mem esp)).1.plain = (s.plain.handle (.timer mem esp)).1 ∧
      (s.handle (.timer mem esp)).1.mode = s.countInterrupt.mode := by
  have hplain := plain_handle (i := .timer mem esp) h trivial
  have heq : s.handle (.timer mem esp) = ((s.plain.handle (.timer mem esp)).1.withMode
      { s with mem }.countInterrupt.mode, (s.plain.handle (.timer mem esp)).2) :=
    scheduleTick_plain (s := { s with mem }) (h.withMem mem) esp hignore hfifth
  have hmode : { s with mem }.countInterrupt.mode = s.countInterrupt.mode := by
    unfold countInterrupt
    dsimp only
    split_ifs <;> rfl
  rw [heq, plain_withMode, hplain, hmode]
  exact ⟨rfl, rfl⟩

/-- The end of a tick is a tick of lifecycle A. -/
theorem requeue_handle (h : s.plain.Inv) (esp : ℕ) :
    (s.requeueCurrent esp).schedule.1.plain = (s.plain.handle (.timer s.mem esp)).1 ∧
      (s.requeueCurrent esp).schedule.1.mode = s.mode := by
  have hplain := plain_handle (s := s) (i := .timer s.mem esp) h trivial
  rw [requeue_plain h]
  exact ⟨hplain, rfl⟩

end GtuOs.TaskManager

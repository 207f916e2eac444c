import GtuOs.Multitasking.Priority

/-!
# Interrupts in any state

What holds of the handlers without the invariant, and for all system calls: a tick is
the composition of its parts (`scheduleTick_eq`), and the table only grows by forks
(`handle_numTasks`).
-/

namespace GtuOs.TaskManager

variable {s : TaskManager} {i : Interrupt}

/-! ## The parts of a tick -/

/-- The count of the interrupts since the collatz task was added. -/
def countInterrupt (s : TaskManager) : TaskManager :=
  if s.interruptNumAfterCollatz ≠ -1 then
    { s with interruptNumAfterCollatz := s.interruptNumAfterCollatz + 1 } else s

/-- The 5th interrupt in lifecycle B4. -/
def promoteAtFifth (s : TaskManager) : TaskManager :=
  if s.lifeCycleType = .lifeCycleB4 ∧ s.interruptNumAfterCollatz = 5 then s.promoteCollatz else s

/-- The 5th interrupt in lifecycle B3. -/
def unblockAtFifth (s : TaskManager) : TaskManager :=
  if s.lifeCycleType = .lifeCycleB3 ∧ s.interruptNumAfterCollatz = 5 then
    s.unblockForCollatz else s

/-- The running task, if any, goes back to the queue. -/
def requeueCurrent (s : TaskManager) (esp : ℕ) : TaskManager :=
  if s.currentTask ≥ 0 then s.preempted esp else s

theorem scheduleTick_eq (s : TaskManager) (esp : ℕ) : s.scheduleTick esp =
    if s.numTasks ≤ 0 then (s, esp)
    else if s.lifeCycleType = .lifeCycleB4 ∧ s.ignoreSchedule then (s, esp)
    else (s.countInterrupt.promoteAtFifth.unblockAtFifth.requeueCurrent esp).schedule := rfl

/-- The next interrupt is the 5th after the collatz task was added, and there is
    something to do for it. -/
def AtFifth (s : TaskManager) : Prop :=
  s.interruptNumAfterCollatz = 4 ∧
    (s.lifeCycleType = .lifeCycleB4 ∨
      s.lifeCycleType = .lifeCycleB3 ∧ s.blockedTaskForCollatz ≠ none)

theorem countInterrupt_eq_five :
    s.countInterrupt.interruptNumAfterCollatz = 5 ↔ s.interruptNumAfterCollatz = 4 := by
  rw [countInterrupt]
  split_ifs with h
  · dsimp only
    omega
  · omega

theorem countInterrupt_eq (s : TaskManager) : s.countInterrupt =
    { s with interruptNumAfterCollatz := s.countInterrupt.interruptNumAfterCollatz } := by
  rw [countInterrupt]
  split_ifs <;> rfl

/-- Any other tick only counts. -/
theorem fifth_of_not (h : ¬s.AtFifth) :
    s.countInterrupt.promoteAtFifth.unblockAtFifth = s.countInterrupt := by
  have heq := countInterrupt_eq s
  have hlife : s.countInterrupt.lifeCycleType = s.lifeCycleType := by rw [heq]
  have hblk : s.countInterrupt.blockedTaskForCollatz = s.blockedTaskForCollatz := by rw [heq]
  have hprom : s.countInterrupt.promoteAtFifth = s.countInterrupt := by
    refine if_neg fun ⟨hb4, h5⟩ => h ⟨countInterrupt_eq_five.1 h5, .inl (hlife ▸ hb4)⟩
  rw [hprom]
  rw [unblockAtFifth]
  split_ifs with hc
  · -- Nobody is blocked.
    have hnone : s.blockedTaskForCollatz = none := by
      by_contra hne
      exact h ⟨countInterrupt_eq_five.1 hc.2, .inr ⟨hlife ▸ hc.1, hne⟩⟩
    rw [unblockForCollatz]
    rw [hblk, hnone]
  · rfl

/-! ## The size of the table -/

theorem schedule_numTasks (s : TaskManager) : s.schedule.1.numTasks = s.numTasks := by
  rw [schedule, roundRobinSchedule, preemptivePrioritySchedule]
  cases s.schedulerType <;> rfl

theorem reprioritize_numTasks (s : TaskManager) (t : ℕ) (p : Priority) :
    (s.reprioritize t p).numTasks = s.numTasks := by rw [reprioritize_eq]

theorem promoteAtFifth_numTasks (s : TaskManager) : s.promoteAtFifth.numTasks = s.numTasks := by
  rw [promoteAtFifth, promoteCollatz]
  split_ifs
  · split
    · rfl
    · exact reprioritize_numTasks _ _ _
  · rfl

theorem unblockAtFifth_numTasks (s : TaskManager) : s.unblockAtFifth.numTasks = s.numTasks := by
  rw [unblockAtFifth, unblockForCollatz]
  split_ifs
  · split
    · rfl
    · exact addToReadyQueue_numTasks _ _
  · rfl

theorem scheduleTick_numTasks (s : TaskManager) (esp : ℕ) :
    (s.scheduleTick esp).1.numTasks = s.numTasks := by
  have hcount : s.countInterrupt.numTasks = s.numTasks := by
    rw [countInterrupt]
    split_ifs <;> rfl
  have hrequeue : ∀ s : TaskManager, (s.requeueCurrent esp).numTasks = s.numTasks := fun s => by
    rw [requeueCurrent]
    split_ifs
    · exact preempted_numTasks s esp
    · rfl
  rw [scheduleTick_eq]
  split_ifs
  · rfl
  · rfl
  · rw [schedule_numTasks, hrequeue, unblockAtFifth_numTasks, promoteAtFifth_numTasks, hcount]

theorem waitpid_numTasks (s : TaskManager) (pid : UInt32) (esp : ℕ) :
    (s.waitpid pid esp).1.numTasks = s.numTasks := by
  rw [waitpid]
  dsimp only
  split_ifs
  · split
    · rfl
    · split_ifs
      · rfl
      · exact schedule_numTasks _
  · rfl
  · rfl
  · rfl
  · exact schedule_numTasks _

theorem exit_numTasks (s : TaskManager) : s.exit.1.numTasks = s.numTasks := by
  have hwake : ∀ (s : TaskManager) (t : ℕ), (s.wakeParent t).numTasks = s.numTasks := fun s t => by
    rw [wakeParent]
    dsimp only
    split_ifs
    · exact addToReadyQueue_numTasks _ _
    · rfl
    · rfl
  have hrelease : ∀ (s : TaskManager) (t : ℕ), (s.releaseForCollatz t).numTasks = s.numTasks :=
    fun s t => by
      rw [releaseForCollatz]
      split
      · split_ifs
        · exact addToReadyQueue_numTasks _ _
        · rfl
      · rfl
  unfold exit
  dsimp only
  rw [schedule_numTasks, hrelease, hwake]
  rfl

theorem fork_numTasks (esp : ℕ) (hroom : s.numTasks < maxNumTasks) :
    (s.fork esp).numTasks = s.numTasks + 1 := by
  have hadd := addTask_eq (s := s.saved esp) ((s.saved esp).tasks s.current)
    ((s.saved esp).tasks s.current).priority ((s.saved esp).tasks s.current).pid hroom
  rw [fork_of_some hadd]
  rfl

theorem setLastTaskPriority_numTasks (s : TaskManager) (priority : UInt32) :
    (s.setLastTaskPriority priority).numTasks = s.numTasks := by
  rcases Nat.eq_zero_or_pos s.numTasks with h | h
  · rw [setLastTaskPriority, if_neg (by omega)]
  · rw [setLastTaskPriority_eq h, reprioritize_numTasks]

/-- The table only grows by forks. -/
theorem handle_numTasks (hroom : i.call = some .fork → s.numTasks < maxNumTasks) :
    (s.handle i).1.numTasks = if i.call = some .fork then s.numTasks + 1 else s.numTasks := by
  cases i with
  | timer mem esp => exact scheduleTick_numTasks _ _
  | syscall mem esp =>
    have hcall : Interrupt.call (.syscall mem esp) = some (CPUState.load mem esp).syscall := rfl
    have heq : s.handle (.syscall mem esp) = { s with mem }.handleInterrupt esp := rfl
    rw [hcall] at hroom ⊢
    rw [heq]
    rw [handleInterrupt]
    dsimp only
    cases hsys : (CPUState.load mem esp).syscall <;> dsimp only
    case fork => exact fork_numTasks esp (hroom (by rw [hsys]))
    case execve entrypoint => rfl
    case waitpid pid => exact waitpid_numTasks _ _ _
    case exit => exact exit_numTasks _
    case blockForCollatz => exact schedule_numTasks _
    case setLastTaskPriority priority => exact setLastTaskPriority_numTasks _ _
    case collatzAdded =>
      rw [collatzAdded]
      split_ifs <;> simp_all
    all_goals rfl

end GtuOs.TaskManager

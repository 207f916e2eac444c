import GtuOs.Multitasking.Interrupts
import GtuOs.Multitasking.ProcessTable

/-!
# When the process table is printed

The printing that `Schedule`, `Schedule(cpustate)`, `Waitpid` and `Exit` do, as the texts that the handlers print.
In every run the tables that have been printed read back as those of the states that the type of the
printing is about (`shown`). If it is about the switches, the tasks that are running in the tables are those
that have run, in order (`readTables_log`).
-/

namespace GtuOs

inductive ProcessTablePrintType
  | printEverySwitch
  | printEveryTimeInterrupt
  | printOnlyTermination
  | doNotPrint
  deriving DecidableEq

namespace TaskManager

/-! ## The texts -/

section

variable (pt : ProcessTablePrintType)

/-- What `PrintProcessTable` prints. -/
def tableText (s : TaskManager) : List UInt8 := s.snapshot.text

/-- What `Schedule()` prints, once the next task runs. -/
def scheduleText (s : TaskManager) : List UInt8 :=
  if pt = .printEveryTimeInterrupt ∨ s.currentTask ≠ s.schedule.1.currentTask ∧ pt = .printEverySwitch then
    s.schedule.1.tableText
  else []

/-- What is printed before the 5th interrupt. -/
def beforeFifthText (s : TaskManager) : List UInt8 :=
  ascii "\nBEFORE 5th INTERRUPT (SEE TABLE BELOW) : \n" ++
    { s with interruptNumAfterCollatz := s.interruptNumAfterCollatz - 1 }.tableText

/-- What `Schedule(cpustate)` prints. -/
def scheduleTickText (s : TaskManager) (cpustate : ℕ) : List UInt8 :=
  if s.numTasks ≤ 0 then []
  else if s.lifeCycleType = .lifeCycleB4 ∧ s.ignoreSchedule then []
  else
    let s := s.countInterrupt
    let promoted := if s.lifeCycleType = .lifeCycleB4 ∧ s.interruptNumAfterCollatz = 5 then
        s.beforeFifthText ++ s.promoteAtFifth.tableText else []
    let s := s.promoteAtFifth
    let unblocked := if s.lifeCycleType = .lifeCycleB3 ∧ s.interruptNumAfterCollatz = 5 ∧
        s.blockedTaskForCollatz ≠ none then s.beforeFifthText else []
    let s := s.unblockAtFifth
    promoted ++ unblocked ++ (s.requeueCurrent cpustate).scheduleText pt

/-- What `BlockForCollatz` prints. -/
def blockForCollatzText (s : TaskManager) (cpustate : ℕ) : List UInt8 :=
  let s := s.modifyTask s.current fun t => { t with cpustate, state := .blocked }
  { s with blockedTaskForCollatz := some s.current }.scheduleText pt

/-- What `Waitpid` prints. -/
def waitpidText (s : TaskManager) (pid : UInt32) (cpustate : ℕ) : List UInt8 :=
  let saved := s.saved cpustate
  if pid = -1 then
    match saved.searchChild (saved.tasks s.current).pid 0 0 s.numTasks with
    | (some _, _) => []
    | (none, childNum) => if childNum = 0 then [] else (s.blockedFor cpustate (-1)).scheduleText pt
  else if pid.toNat ≥ s.numTasks then []
  else if (saved.tasks pid.toNat).parentTookInWait ∨ (saved.tasks pid.toNat).ppid ≠ (saved.tasks s.current).pid then []
  else if (saved.tasks pid.toNat).state = .terminated then []
  else (s.blockedFor cpustate pid.toNat).scheduleText pt

/-- The state in which `Exit` calls `Schedule()`. -/
def exiting (s : TaskManager) : TaskManager :=
  ((s.modifyTask s.current fun t => { t with state := .terminated }).wakeParent s.current).releaseForCollatz s.current

/-- What `Exit` prints. -/
def exitText (s : TaskManager) : List UInt8 :=
  (if pt = .printOnlyTermination then s.exiting.tableText else []) ++ s.exiting.scheduleText pt

/-- What the task manager prints in a system call. -/
def handleInterruptText (s : TaskManager) (esp : ℕ) : List UInt8 :=
  match (CPUState.load s.mem esp).syscall with
  | .waitpid pid => s.waitpidText pt pid esp
  | .exit => s.exitText pt
  | .blockForCollatz => s.blockForCollatzText pt esp
  | _ => []

/-- What the task manager prints in an interrupt. -/
def handleText (s : TaskManager) : Interrupt → List UInt8
  | .timer mem esp => { s with mem }.scheduleTickText pt esp
  | .syscall mem esp => { s with mem }.handleInterruptText pt esp

end

/-! ## The states that are shown -/

open Classical in
/-- The states whose tables are printed. -/
noncomputable def shown (pt : ProcessTablePrintType) (s : TaskManager) (i : Interrupt) : List TaskManager :=
  match pt with
  | .printEverySwitch => if s.currentTask ≠ (s.handle i).1.currentTask then [(s.handle i).1] else []
  | .printEveryTimeInterrupt => if s.Decides i then [(s.handle i).1] else []
  | .printOnlyTermination => if i.call = some .exit then [{ s with mem := i.mem }.exiting] else []
  | .doNotPrint => []

variable {pt : ProcessTablePrintType} {s s' : TaskManager} {i : Interrupt} {esp : ℕ}

/-- Nothing is printed if nothing is decided. -/
theorem shown_of_not_decides (hnot : ¬s.Decides i) (hcur : (s.handle i).1.currentTask = s.currentTask) :
    shown pt s i = [] := by
  have hexit : i.call ≠ some .exit := fun hcall => hnot (by rw [Decides, hcall]; trivial)
  cases pt with
  | printEverySwitch => exact if_neg (not_not.2 hcur.symm)
  | printEveryTimeInterrupt => exact if_neg hnot
  | printOnlyTermination => exact if_neg hexit
  | doNotPrint => rfl

/-- What a decision prints. -/
theorem scheduleText_eq (hdecides : s.Decides i) (hpt : pt = .printOnlyTermination → i.call ≠ some .exit)
    (hcur : s'.currentTask = s.currentTask) (heq : s'.schedule.1 = (s.handle i).1) :
    s'.scheduleText pt = (shown pt s i).flatMap tableText := by
  rw [scheduleText, heq, hcur]
  cases pt with
  | printEverySwitch =>
    rw [shown]
    by_cases hne : s.currentTask ≠ (s.handle i).1.currentTask
    · rw [if_pos hne, if_pos (.inr ⟨hne, rfl⟩), List.flatMap_singleton]
    · rw [if_neg hne, if_neg (by simpa using hne)]
      rfl
  | printEveryTimeInterrupt => rw [shown, if_pos hdecides, if_pos (.inl rfl), List.flatMap_singleton]
  | printOnlyTermination =>
    rw [shown, if_neg (hpt rfl)]
    exact if_neg (by simp)
  | doNotPrint => exact if_neg (by simp)

/-- What `Exit` prints: the table before the decision, or as any decision does. -/
theorem exitText_eq (hcall : i.call = some .exit) (hs' : s' = { s with mem := i.mem })
    (hcur : s'.exiting.currentTask = s.currentTask) (heq : s'.exiting.schedule.1 = (s.handle i).1) :
    s'.exitText pt = (shown pt s i).flatMap tableText := by
  have hdecides : s.Decides i := by
    rw [Decides, hcall]
    trivial
  rw [exitText]
  by_cases hpt : pt = .printOnlyTermination
  · have hnone : s'.exiting.scheduleText pt = [] := by
      rw [scheduleText, hpt]
      exact if_neg (by simp)
    rw [hnone, if_pos hpt, List.append_nil, hpt, shown, if_pos hcall, List.flatMap_singleton, hs']
  · rw [if_neg hpt, List.nil_append]
    exact scheduleText_eq hdecides (fun h => absurd h hpt) hcur heq

/-! ## One interrupt -/

/-- A tick prints what a decision prints. -/
theorem Base.scheduleTickText (hs : s.Base) (hn : 0 < s.numTasks) (esp : ℕ) :
    s.scheduleTickText pt esp = (s.requeueCurrent esp).scheduleText pt := by
  have hcount : s.countInterrupt = s := if_neg (not_not.2 hs.noCollatz.1)
  have hpromote : s.promoteAtFifth = s := if_neg fun h => hs.lifeCycle.2 h.1
  have hunblock : s.unblockAtFifth = s := if_neg fun h => hs.lifeCycle.1 h.1
  rw [TaskManager.scheduleTickText, if_neg (Nat.not_le.2 hn), if_neg fun h => hs.lifeCycle.2 h.1]
  dsimp only
  rw [hcount, hpromote, hunblock, if_neg fun h => hs.lifeCycle.2 h.1, if_neg fun h => hs.lifeCycle.1 h.1]
  rfl

/-- `Waitpid` prints what a decision prints if it blocks, and otherwise nothing. -/
theorem Inv.waitpidText (hs : s.Inv) (pt : ProcessTablePrintType) (pid : UInt32) (esp : ℕ) :
    (∃ w, s.waitpidText pt pid esp = (s.blockedFor esp w).scheduleText pt ∧
        s.waitpid pid esp = (s.blockedFor esp w).schedule) ∨
      s.waitpidText pt pid esp = [] ∧ (s.waitpid pid esp).1.currentTask = s.currentTask ∧
        ((s.waitpid pid esp).1.tasks s.current).state ≠ .blocked := by
  have hrun : ((s.saved esp).tasks s.current).state = .running := by
    rw [saved_tasks_current]
    exact hs.state_current
  have hmodify : ∀ (j : ℕ) (f : Task → Task), (∀ t, (f t).state = t.state) →
      (((s.saved esp).modifyTask j f).tasks s.current).state ≠ .blocked := by
    intro j f hf
    rw [modifyTask_tasks]
    rcases eq_or_ne s.current j with hj | hj
    · rw [hj, Function.update_self, hf, ← hj, hrun]
      exact State.noConfusion
    · rw [Function.update_of_ne hj, hrun]
      exact State.noConfusion
  have hrefuse := hmodify s.current (fun t => { t with waitingChild := false }) fun _ => rfl
  have hreap := fun child => hmodify child (fun t => { t with parentTookInWait := true }) fun _ => rfl
  by_cases hpid : pid = -1
  · rw [hpid, waitpid_any_eq, TaskManager.waitpidText, if_pos rfl]
    dsimp only
    rcases (s.saved esp).searchChild ((s.saved esp).tasks s.current).pid 0 0 s.numTasks with ⟨_ | child, childNum⟩
    · dsimp only
      split_ifs
      · exact .inr ⟨rfl, rfl, hrefuse⟩
      · exact .inl ⟨_, rfl, rfl⟩
    · exact .inr ⟨rfl, rfl, hreap child⟩
  · rw [waitpid_one_eq hpid, TaskManager.waitpidText, if_neg hpid]
    dsimp only
    split_ifs
    · exact .inr ⟨rfl, rfl, hrefuse⟩
    · exact .inr ⟨rfl, rfl, hrefuse⟩
    · exact .inr ⟨rfl, rfl, hreap _⟩
    · exact .inl ⟨_, rfl, rfl⟩

/-- If `Waitpid` has called `Schedule()`, the task is blocked. -/
theorem Inv.state_of_waitpid_eq (hs : s.Inv) {pid : UInt32} {w : ℤ}
    (h : s.waitpid pid esp = (s.blockedFor esp w).schedule) :
    ((s.waitpid pid esp).1.tasks s.current).state = .blocked := by
  -- It is waiting, unlike a task that `Waitpid` returns to.
  have hwaiting : ((s.waitpid pid esp).1.tasks s.current).waitingChild = true := by
    rw [h, schedule_eq_runHead]
    have hself : (s.blockedFor esp w).tasks s.current = _ := Function.update_self _ _ _
    rcases eq_or_ne s.current ((s.blockedFor esp w).readyQueue.get 0) with hhead | hhead
    · have hrun : (s.blockedFor esp w).runHead.1.tasks s.current =
          { (s.blockedFor esp w).tasks s.current with state := .running } := by
        conv_lhs => rw [hhead]
        conv_rhs => rw [hhead]
        exact Function.update_self _ _ _
      rw [hrun, hself]
    · have hrun : (s.blockedFor esp w).runHead.1.tasks s.current = (s.blockedFor esp w).tasks s.current :=
        Function.update_of_ne hhead _ _
      rw [hrun, hself]
  have hsaved : ((s.saved esp).tasks s.current).waitingChild = false := by
    rw [saved_tasks_current]
    exact hs.waitingChild_current
  have hres := hs.waitpid_result pid esp
  clear h
  generalize s.waitpid pid esp = r at hres hwaiting ⊢
  cases hres with
  | @reap k _ _ _ hterm _ =>
    have hne : s.current ≠ k := fun he => by
      rw [← he, hs.state_current] at hterm
      cases hterm
    have hself : (s.reaped esp k).tasks s.current = (s.saved esp).tasks s.current := Function.update_of_ne hne _ _
    rw [hself, hsaved] at hwaiting
    cases hwaiting
  | refuse =>
    have hself : ((s.refused esp).tasks s.current).waitingChild = false := by
      rw [refused, modifyTask_tasks, Function.update_self]
    rw [hself] at hwaiting
    cases hwaiting
  | block hw hlive hdead => exact Inv.state_blockedFor (hs.blockedFor esp hw hlive hdead)

theorem exiting_currentTask (s : TaskManager) : s.exiting.currentTask = s.currentTask := by
  have hwake : ∀ (s : TaskManager) (t : ℕ), (s.wakeParent t).currentTask = s.currentTask := fun s t => by
    rw [wakeParent]
    dsimp only
    split_ifs
    · dsimp only
      rw [addToReadyQueue_currentTask]
      rfl
    · rfl
    · rfl
  rw [exiting, releaseForCollatz]
  split
  · split_ifs
    · dsimp only
      rw [addToReadyQueue_currentTask, hwake]
      rfl
    · exact hwake _ _
  · exact hwake _ _

/-- **What an interrupt prints.** -/
theorem Inv.handleText (hs : s.Inv) (hi : s.Allowed i) : s.handleText pt i = (shown pt s i).flatMap tableText := by
  cases i with
  | timer mem esp =>
    have hs' := hs.withMem mem
    have hn : 0 < s.numTasks := lt_of_le_of_lt (Nat.zero_le _) hs.current_lt
    have hrequeue : ({ s with mem } : TaskManager).requeueCurrent esp = { s with mem }.preempted esp :=
      if_pos hs.currentTask_nonneg
    have htext : s.handleText pt (.timer mem esp) = ({ s with mem }.preempted esp).scheduleText pt :=
      hrequeue ▸ hs'.scheduleTickText hn esp
    have heq : (({ s with mem } : TaskManager).preempted esp).schedule.1 = (s.handle (.timer mem esp)).1 :=
      congrArg Prod.fst (hs'.scheduleTick_eq esp).symm
    rw [htext]
    refine scheduleText_eq trivial (fun _ h => nomatch h) ?_ heq
    rw [TaskManager.preempted, addToReadyQueue_currentTask]
    rfl
  | syscall mem esp =>
    have hs' := hs.withMem mem
    have hcall : Interrupt.call (.syscall mem esp) = some (CPUState.load mem esp).syscall := rfl
    have heq : s.handle (.syscall mem esp) = { s with mem }.handleInterrupt esp := rfl
    have htext : s.handleText pt (.syscall mem esp) = { s with mem }.handleInterruptText pt esp := rfl
    have hskip : (∀ pid, (CPUState.load mem esp).syscall ≠ .waitpid pid) → (CPUState.load mem esp).syscall ≠ .exit →
        ({ s with mem }.handleInterrupt esp).1.currentTask = s.currentTask →
        [] = (shown pt s (.syscall mem esp)).flatMap tableText := fun hwait hexit hcur => by
      have hnot : ¬s.Decides (.syscall mem esp) := fun h => by
        rw [Decides, hcall] at h
        split at h
        · next hnone => cases hnone
        · next hsome => exact hexit (Option.some.inj hsome)
        · next pid hsome => exact hwait pid (Option.some.inj hsome)
        · exact h
      rw [shown_of_not_decides hnot hcur]
      rfl
    rw [Allowed, hcall] at hi
    rw [htext, handleInterruptText]
    rw [TaskManager.handleInterrupt] at hskip heq
    cases hsys : (CPUState.load mem esp).syscall <;> rw [hsys] at hi hskip heq <;> dsimp only at hi hskip heq ⊢
    case waitpid pid =>
      rcases hs'.waitpidText pt pid esp with ⟨w, htext', hwait⟩ | ⟨htext', hcur, hstate⟩
      · have hblocked : ((s.handle (.syscall mem esp)).1.tasks s.current).state = .blocked := by
          rw [heq]
          exact hs'.state_of_waitpid_eq hwait
        have hdecides : s.Decides (.syscall mem esp) := by
          rw [Decides, hcall, hsys]
          exact hblocked
        rw [htext']
        refine scheduleText_eq hdecides (fun _ h => ?_) rfl ?_
        · cases (hcall.symm.trans h).symm.trans (congrArg some hsys)
        · rw [heq, hwait]
      · have hnot : ¬s.Decides (.syscall mem esp) := fun h => by
          rw [Decides, hcall, hsys, heq] at h
          exact hstate h
        rw [htext', shown_of_not_decides hnot (by rw [heq]; exact hcur)]
        rfl
    case exit =>
      exact exitText_eq (hcall.trans (congrArg some hsys)) rfl (exiting_currentTask _) (congrArg Prod.fst heq).symm
    all_goals refine hskip (fun _ h => by cases h) (fun h => by cases h) ?_
    case fork =>
      obtain ⟨-, -, -, hcur, -⟩ := hs'.fork esp hi
      exact hcur
    case execve entrypoint =>
      rw [execve_eq]
    all_goals rfl

/-! ## The numbers of the tasks -/

/-- Neither priorities nor arrival orders are changed. -/
structure Keeps (s s' : TaskManager) : Prop where
  numTasks : s'.numTasks = s.numTasks
  next : s'.nextArrivalOrder = s.nextArrivalOrder
  priority : ∀ k, (s'.tasks k).priority = (s.tasks k).priority
  arrivalOrder : ∀ k, (s'.tasks k).arrivalOrder = (s.tasks k).arrivalOrder

/-- The tasks are numbered in the order in which they are added, and have the priority of the init process. -/
structure Numbered (s : TaskManager) : Prop where
  next : s.nextArrivalOrder = s.numTasks + 1
  priority : ∀ k < s.numTasks, (s.tasks k).priority = .high
  arrivalOrder : ∀ k < s.numTasks, (s.tasks k).arrivalOrder = k + 1

namespace Keeps

variable {s'' : TaskManager} {t : ℕ}

theorem refl (s : TaskManager) : s.Keeps s := ⟨rfl, rfl, fun _ => rfl, fun _ => rfl⟩

theorem trans (h : s.Keeps s') (h' : s'.Keeps s'') : s.Keeps s'' :=
  ⟨h'.numTasks.trans h.numTasks, h'.next.trans h.next, fun k => (h'.priority k).trans (h.priority k),
    fun k => (h'.arrivalOrder k).trans (h.arrivalOrder k)⟩

theorem update {u : Task} (hn : s'.numTasks = s.numTasks) (hnext : s'.nextArrivalOrder = s.nextArrivalOrder)
    (htasks : s'.tasks = Function.update s.tasks t u) (hp : u.priority = (s.tasks t).priority)
    (ha : u.arrivalOrder = (s.tasks t).arrivalOrder) : s.Keeps s' := by
  refine ⟨hn, hnext, fun k => ?_, fun k => ?_⟩
  · rw [htasks]
    rcases eq_or_ne k t with rfl | hk
    · rw [Function.update_self, hp]
    · rw [Function.update_of_ne hk]
  · rw [htasks]
    rcases eq_or_ne k t with rfl | hk
    · rw [Function.update_self, ha]
    · rw [Function.update_of_ne hk]

theorem addToReadyQueue (s : TaskManager) (t : ℕ) : s.Keeps (s.addToReadyQueue t) :=
  update (addToReadyQueue_numTasks s t) (addToReadyQueue_nextArrivalOrder s t) (addToReadyQueue_tasks s t) rfl rfl

theorem schedule (s : TaskManager) : s.Keeps s.schedule.1 := by
  rw [schedule_eq_runHead]
  exact update rfl rfl rfl rfl rfl

theorem withMem (s : TaskManager) (mem : Memory) : s.Keeps { s with mem } := ⟨rfl, rfl, fun _ => rfl, fun _ => rfl⟩

theorem preempted (s : TaskManager) (esp : ℕ) : s.Keeps (s.preempted esp) := by
  have hsaved : s.Keeps (s.saved esp) := update rfl rfl rfl rfl rfl
  exact hsaved.trans (addToReadyQueue _ s.current)

theorem wakeParent (s : TaskManager) (t : ℕ) : s.Keeps (s.wakeParent t) := by
  rw [TaskManager.wakeParent]
  dsimp only
  split_ifs
  · let s₁ := s.modifyTask t fun u => { u with parentTookInWait := true }
    let s₂ := s₁.modifyTask (s.tasks t).ppid.toNat fun u => { u with waitingChild := false }
    have h₁ : s.Keeps s₁ := update rfl rfl rfl rfl rfl
    have h₂ : s₁.Keeps s₂ := update rfl rfl rfl rfl rfl
    have h₃ := (h₁.trans h₂).trans (addToReadyQueue s₂ (s.tasks t).ppid.toNat)
    exact ⟨h₃.numTasks, h₃.next, h₃.priority, h₃.arrivalOrder⟩
  · exact refl s
  · exact refl s

theorem releaseForCollatz (s : TaskManager) (t : ℕ) : s.Keeps (s.releaseForCollatz t) := by
  rw [TaskManager.releaseForCollatz]
  split
  · split_ifs
    · obtain ⟨hn, hnext, hp, ha⟩ := addToReadyQueue s _
      exact ⟨hn, hnext, hp, ha⟩
    · exact refl s
  · exact refl s

theorem exiting (s : TaskManager) : s.Keeps s.exiting := by
  have hterminated : s.Keeps (s.modifyTask s.current fun t => { t with state := .terminated }) :=
    update rfl rfl rfl rfl rfl
  exact (hterminated.trans (wakeParent _ _)).trans (releaseForCollatz _ _)

theorem waitpid (s : TaskManager) (pid : UInt32) (esp : ℕ) : s.Keeps (s.waitpid pid esp).1 := by
  have hsaved : s.Keeps (s.saved esp) := update rfl rfl rfl rfl rfl
  have hrefused : s.Keeps (s.refused esp) := hsaved.trans (update rfl rfl rfl rfl rfl)
  have hblocked : ∀ w, s.Keeps (s.blockedFor esp w).schedule.1 := fun w => by
    have hupdate : (s.saved esp).Keeps (s.blockedFor esp w) := update rfl rfl rfl rfl rfl
    exact (hsaved.trans hupdate).trans (schedule _)
  by_cases hpid : pid = -1
  · rw [hpid, waitpid_any_eq]
    rcases (s.saved esp).searchChild ((s.saved esp).tasks s.current).pid 0 0 s.numTasks with ⟨_ | child, childNum⟩
    · dsimp only
      split_ifs
      · exact hrefused
      · exact hblocked _
    · exact hsaved.trans (update rfl rfl rfl rfl rfl)
  · rw [waitpid_one_eq hpid]
    split_ifs
    · exact hrefused
    · exact hrefused
    · exact hsaved.trans (update rfl rfl rfl rfl rfl)
    · exact hblocked _

end Keeps

namespace Numbered

theorem keeps (h : s.Numbered) (hk : s.Keeps s') : s'.Numbered := by
  refine ⟨by rw [hk.next, hk.numTasks, h.next], fun k hlt => ?_, fun k hlt => ?_⟩ <;> rw [hk.numTasks] at hlt
  · rw [hk.priority, h.priority k hlt]
  · rw [hk.arrivalOrder, h.arrivalOrder k hlt]

theorem fork (h : s.Numbered) (hs : s.Inv) (hroom : s.numTasks < maxNumTasks) : (s.fork esp).Numbered := by
  obtain ⟨htasks, -, hn, -⟩ := hs.fork esp hroom
  have hne : s.current ≠ s.numTasks := hs.current_lt.ne
  have hnext : (s.fork esp).nextArrivalOrder = s.nextArrivalOrder + 1 := by
    rw [fork_eq hroom hne, recordFork_eq hne]
    rfl
  have hold : ∀ k < s.numTasks, ((s.fork esp).tasks k).priority = (s.tasks k).priority ∧
      ((s.fork esp).tasks k).arrivalOrder = (s.tasks k).arrivalOrder := fun k hk => by
    rw [htasks, Function.update_of_ne hk.ne]
    rcases eq_or_ne k s.current with rfl | hcur
    · rw [Function.update_self]
      exact ⟨rfl, rfl⟩
    · rw [Function.update_of_ne hcur]
      exact ⟨rfl, rfl⟩
  have hnew : (s.fork esp).tasks s.numTasks = s.forkChild esp := by rw [htasks, Function.update_self]
  refine ⟨by rw [hnext, hn, h.next]; rfl, fun k hk => ?_, fun k hk => ?_⟩ <;>
    rcases Nat.lt_succ_iff_lt_or_eq.1 (hn ▸ hk) with hlt | rfl
  · rw [(hold k hlt).1, h.priority k hlt]
  · rw [hnew]
    exact h.priority _ hs.current_lt
  · rw [(hold k hlt).2, h.arrivalOrder k hlt]
  · rw [hnew]
    exact h.next

theorem handle (h : s.Numbered) (hs : s.Inv) (hi : s.Allowed i) : (s.handle i).1.Numbered := by
  cases i with
  | timer mem esp =>
    have heq : s.handle (.timer mem esp) = { s with mem }.scheduleTick esp := rfl
    rw [heq, (hs.withMem mem).scheduleTick_eq esp]
    exact h.keeps (((Keeps.withMem s mem).trans (.preempted _ esp)).trans (.schedule _))
  | syscall mem esp =>
    have hs' := hs.withMem mem
    have h' : ({ s with mem } : TaskManager).Numbered := h.keeps (.withMem s mem)
    have hcall : Interrupt.call (.syscall mem esp) = some (CPUState.load mem esp).syscall := rfl
    have heq : s.handle (.syscall mem esp) = { s with mem }.handleInterrupt esp := rfl
    rw [Allowed, hcall] at hi
    rw [heq, TaskManager.handleInterrupt]
    cases hsys : (CPUState.load mem esp).syscall <;> rw [hsys] at hi <;> dsimp only at hi ⊢
    case fork => exact h'.fork hs' hi
    case execve entrypoint =>
      rw [execve_eq]
      exact h'.keeps (.update rfl rfl rfl rfl rfl)
    case waitpid pid => exact h'.keeps (.waitpid _ pid esp)
    case exit => exact h'.keeps ((Keeps.exiting _).trans (.schedule _))
    all_goals exact h.keeps (.withMem s _)

end Numbered

/-- Tables are printable, with any task running. -/
theorem InvAt.printable {run : Option ℕ} (hs : s.InvAt run) (h : s.Numbered) : s.Printable := by
  have hle := hs.numTasks_le
  have hmax : maxNumTasks = 256 := rfl
  have hpid : ∀ i < s.numTasks, IsPrintable (s.tasks i).pid := fun i hi => by
    rw [hs.pid_eq i hi, IsPrintable]
    omega
  refine ⟨fun i hi => ⟨hpid i hi, ?_, ?_, ?_⟩, fun i hi => hpid i ((hs.queueOk.mem_iff i).1 hi).1, ?_⟩
  · have hge : -1 ≤ (s.tasks i).ppid := hs.table.ppid_ge i hi
    have hlt : (s.tasks i).ppid < i := hs.table.ppid_lt i hi
    rw [IsPrintable]
    omega
  · rw [h.priority i hi]
    exact ⟨by decide, by decide⟩
  · rw [h.arrivalOrder i hi, IsPrintable]
    omega
  · rw [hs.noCollatz.1]
    exact ⟨by decide, by decide⟩

theorem Inv.exiting (hs : s.Inv) (h0 : s.current ≠ 0) : s.exiting.InvAt none := by
  by_cases hw : ∃ p < s.numTasks, WaitsFor s.procs p s.current
  · obtain ⟨p, hp, hw⟩ := hw
    have hnone : (s.wokenParent p).collatzTask = none := by
      rw [TaskManager.wokenParent, addToReadyQueue_eq]
      exact hs.noCollatz.2
    rw [TaskManager.exiting, hs.wakeParent_of_waitsFor (hs.blocked_of_waitsFor hp hw).2 hw,
      releaseForCollatz_of_none hnone]
    exact hs.wokenParent h0 hp hw
  · push Not at hw
    have hnone : (s.modifyTask s.current fun t => { t with state := .terminated }).collatzTask = none :=
      hs.noCollatz.2
    rw [TaskManager.exiting, hs.wakeParent_of_not_waitsFor hw, releaseForCollatz_of_none hnone]
    exact hs.exited h0 hw

/-- The tables that are printed are printable. -/
theorem Inv.shown_printable (hs : s.Inv) (h : s.Numbered) (hi : s.Allowed i) (hmem : s' ∈ shown pt s i) :
    s'.Printable := by
  have hnext : (s.handle i).1.Printable := (hs.handle hi).2.toInvAt.printable (h.handle hs hi)
  cases pt with
  | printEverySwitch =>
    rw [shown] at hmem
    split_ifs at hmem
    · rwa [List.mem_singleton.1 hmem]
    · cases hmem
  | printEveryTimeInterrupt =>
    rw [shown] at hmem
    split_ifs at hmem
    · rwa [List.mem_singleton.1 hmem]
    · cases hmem
  | printOnlyTermination =>
    rw [shown] at hmem
    split_ifs at hmem with hcall
    · rw [List.mem_singleton.1 hmem]
      have h0 : s.current ≠ 0 := by
        rw [Allowed, hcall] at hi
        exact hi
      have hk := (Keeps.withMem s i.mem).trans (.exiting _)
      exact ((hs.withMem i.mem).exiting h0).printable (h.keeps hk)
    · cases hmem
  | doNotPrint => cases hmem

/-! ## Runs -/

/-- The tasks that are running are shown as such. -/
theorem Inv.running_snapshot (hs : s.Inv) : s.snapshot.running = [s.currentTask] := by
  have hfilter : (List.range s.numTasks).filter (fun i => (s.tasks i).state = .running) = [s.current] := by
    have heq : (List.range s.numTasks).filter (fun i => (s.tasks i).state = .running) =
        (List.range s.numTasks).filter (· = s.current) := by
      refine List.filter_congr fun i hi => ?_
      have hrun : (s.tasks i).state = .running ↔ some s.current = some i :=
        hs.table.running_iff i (List.mem_range.1 hi)
      rw [decide_eq_decide, hrun, Option.some.injEq]
      exact eq_comm
    rw [heq, List.filter_eq, List.count_eq_one_of_mem List.nodup_range (List.mem_range.2 hs.current_lt)]
    rfl
  have hpid : (s.tasks s.current).pid = s.currentTask :=
    hs.pid_current.trans (Int.toNat_of_nonneg hs.currentTask_nonneg)
  rw [Snapshot.running, snapshot, List.filter_map, List.map_map]
  change ((List.range s.numTasks).filter fun i => (s.tasks i).state = .running).map (fun i => (s.tasks i).pid) = _
  rw [hfilter, List.map_singleton, hpid]

/-- What has been printed in a run, the states whose tables these are, and the tasks that have run. -/
structure Log where
  text : List UInt8
  shown : List TaskManager
  ran : List ℤ

/-- The states that are shown at the start. -/
def firstShown : ProcessTablePrintType → TaskManager → List TaskManager
  | .printEverySwitch, s => [s]
  | .printEveryTimeInterrupt, s => [s]
  | .printOnlyTermination, _ => []
  | .doNotPrint, _ => []

/-- The log of a run, from the first tick on. -/
noncomputable def log (pt : ProcessTablePrintType) : Monitor TaskManager Interrupt Log where
  init s l := ∃ b : Boot, b.Allowed ∧ b.firstTick.1 = s ∧
    l = ⟨{ b.start with mem := b.mem }.scheduleTickText pt b.esp, firstShown pt s, [s.currentTask]⟩
  next l s i s' :=
    { text := l.text ++ s.handleText pt i
      shown := l.shown ++ TaskManager.shown pt s i
      ran := if s.currentTask ≠ s'.currentTask then l.ran ++ [s'.currentTask] else l.ran }

/-- The first tick prints the table, with the init process running. -/
theorem Boot.text_firstTick {b : Boot} (h : b.Allowed) :
    { b.start with mem := b.mem }.scheduleTickText pt b.esp = (firstShown pt b.firstTick.1).flatMap tableText := by
  obtain ⟨-, hnum, hcur, -⟩ := start_spec h
  have hnonneg := (firstTick_spec h).2.currentTask_nonneg
  have hpos : 0 < b.start.numTasks := hnum ▸ Nat.one_pos
  have hnone : ¬({ b.start with mem := b.mem } : TaskManager).currentTask ≥ 0 := by
    change ¬b.start.currentTask ≥ 0
    omega
  have hrequeue : ({ b.start with mem := b.mem } : TaskManager).requeueCurrent b.esp = { b.start with mem := b.mem } :=
    if_neg hnone
  rw [firstTick_eq h] at hnonneg
  rw [firstTick_eq h, (start_invAt h).scheduleTickText hpos, hrequeue, scheduleText]
  have hne : ({ b.start with mem := b.mem } : TaskManager).currentTask ≠
      ({ b.start with mem := b.mem } : TaskManager).schedule.1.currentTask := fun heq => hnone (heq ▸ hnonneg)
  cases pt with
  | printEverySwitch => rw [if_pos (.inr ⟨hne, rfl⟩), firstShown, List.flatMap_singleton]
  | printEveryTimeInterrupt => rw [if_pos (.inl rfl), firstShown, List.flatMap_singleton]
  | printOnlyTermination => exact if_neg (by simp)
  | doNotPrint => exact if_neg (by simp)

theorem Boot.numbered {b : Boot} (h : b.Allowed) : b.firstTick.1.Numbered := by
  have hstart : b.start.Numbered := by
    rw [start_eq h]
    have hself : ∀ k < 1, ({ b.raw.construct b.schedulerType b.lifeCycleType with mem := b.resetTask1.2 }.pushTask
        b.initTask.2 { b.initTask.1 with
          priority := .high, ppid := -1, pid := (0 : ℕ), arrivalOrder := 1 }).tasks k =
        { b.initTask.1 with priority := .high, ppid := -1, pid := (0 : ℕ), arrivalOrder := 1, state := .ready } := by
      intro k hk
      obtain rfl : k = 0 := by omega
      rw [pushTask_tasks]
      exact Function.update_self _ _ _
    refine ⟨rfl, fun k hk => ?_, fun k hk => ?_⟩
    · rw [hself k hk]
    · rw [hself k hk]
      obtain rfl : k = 0 := Nat.lt_one_iff.1 hk
      rfl
  rw [firstTick_eq h]
  exact hstart.keeps ((Keeps.withMem _ b.mem).trans (.schedule _))

theorem flatMap_tableText (l : List TaskManager) : l.flatMap tableText = (l.map snapshot).flatMap Snapshot.text :=
  (List.flatMap_map snapshot Snapshot.text l).symm

/-- The log is that of the states that it is about. -/
structure LogOk (pt : ProcessTablePrintType) (s : TaskManager) (l : Log) : Prop where
  inv : s.Inv
  numbered : s.Numbered
  text : l.text = (l.shown.map snapshot).flatMap Snapshot.text
  printable : ∀ s' ∈ l.shown, s'.Printable
  ran : pt = .printEverySwitch → (l.shown.map snapshot).flatMap Snapshot.running = l.ran

theorem logOk_of_reachable {p : TaskManager × Log} (h : (system.monitored (log pt)).Reachable p) :
    LogOk pt p.1 p.2 :=
  h.invariant (P := fun p => LogOk pt p.1 p.2)
    (fun p h => by
      obtain ⟨-, b, hb, hs, hl⟩ := h
      have hinv := (Boot.firstTick_spec hb).2
      rw [hl, ← hs]
      refine ⟨hinv, Boot.numbered hb, ?_, ?_, ?_⟩
      · rw [Boot.text_firstTick hb, flatMap_tableText]
      · have hprintable := hinv.toInvAt.printable (Boot.numbered hb)
        intro s' hs'
        cases pt with
        | printEverySwitch => rwa [List.mem_singleton.1 hs']
        | printEveryTimeInterrupt => rwa [List.mem_singleton.1 hs']
        | printOnlyTermination => cases hs'
        | doNotPrint => cases hs'
      · intro hpt
        rw [hpt]
        exact (List.flatMap_singleton ..).trans hinv.running_snapshot)
    fun p i p' _ hok hstep => by
      obtain ⟨⟨hi, hs⟩, hl⟩ := hstep
      obtain ⟨hinv, hnumbered, htext, hprintable, hran⟩ := hok
      have hinv' := (hinv.handle hi).2
      rw [hl, ← hs]
      refine ⟨hinv', hnumbered.handle hinv hi, ?_, fun s' hs' => ?_, fun hpt => ?_⟩
      · dsimp only [log]
        rw [htext, hinv.handleText hi, flatMap_tableText, List.map_append, List.flatMap_append]
      · rcases List.mem_append.1 hs' with hs' | hs'
        · exact hprintable s' hs'
        · exact hinv.shown_printable hnumbered hi hs'
      · dsimp only [log]
        rw [List.map_append, List.flatMap_append, hran hpt, hpt, TaskManager.shown]
        split_ifs
        · rw [List.map_singleton, List.flatMap_singleton, hinv'.running_snapshot]
        · rw [List.map_nil, List.flatMap_nil, List.append_nil]

/-- **The log reads back.** In every run the tables that have been printed are those of the states that the type of
    the printing is about, which `PrintProcessTable` prints as such. If it is about the switches, the tasks that
    are running in the tables are those that have run. -/
theorem readTables_log {l : Log} (h : (system.monitored (log pt)).Reachable (s, l)) :
    readTables l.text = l.shown.map snapshot ∧
      (∀ s' ∈ l.shown, ∀ raw c, s'.printProcessTable raw c = c.printf s'.tableText) ∧
      (pt = .printEverySwitch → (readTables l.text).flatMap Snapshot.running = l.ran) := by
  obtain ⟨-, -, htext, hprintable, hran⟩ := logOk_of_reachable h
  have hread : readTables l.text = l.shown.map snapshot := by
    rw [htext]
    exact readTables_flatMap _
  exact ⟨hread, fun s' hs' raw c => printProcessTable_eq (hprintable s' hs') raw c, fun hpt => hread ▸ hran hpt⟩

/-- The state after the first `Fork`, and a tick: the child runs. -/
def sampleSwitch : TaskManager := ((sampleState.handle (sampleCall 57 0)).1.handle (.timer (fun _ => 0) 12000)).1

/-- The `Exit` of the child. -/
def sampleExit : Interrupt := .syscall (Memory.store32 (fun _ => 0) 16000 8) 16000

theorem reachable_log_handle {l : Log} (h : (system.monitored (log pt)).Reachable (s, l)) (hi : s.Allowed i) :
    (system.monitored (log pt)).Reachable ((s.handle i).1, (log pt).next l s i (s.handle i).1) := by
  have hstep : (system.monitored (log pt)).step (s, l) i ((s.handle i).1, (log pt).next l s i (s.handle i).1) :=
    ⟨⟨hi, rfl⟩, rfl⟩
  exact h.step hstep

/-- The init process forks, the child runs, and exits. -/
theorem readTables_log_sampleExit : ∃ l, (system.monitored (log .printEverySwitch)).Reachable
      ((sampleSwitch.handle sampleExit).1, l) ∧
    readTables l.text = [⟨[⟨0, -1, .running, 0, 1⟩], [], -1⟩,
      ⟨[⟨0, -1, .ready, 0, 1⟩, ⟨1, 0, .running, 0, 2⟩], [0], -1⟩,
      ⟨[⟨0, -1, .running, 0, 1⟩, ⟨1, 0, .terminated, 0, 2⟩], [], -1⟩] ∧
    (readTables l.text).flatMap Snapshot.running = [0, 1, 0] := by
  have hreach : (system.monitored (log .printEverySwitch)).Reachable (sampleState,
      ⟨{ sampleBoot.start with mem := sampleBoot.mem }.scheduleTickText .printEverySwitch sampleBoot.esp, [sampleState],
        [sampleState.currentTask]⟩) :=
    .init ⟨⟨sampleBoot, sampleBoot_allowed, rfl⟩, sampleBoot, sampleBoot_allowed, rfl, rfl⟩
  have hexit : sampleSwitch.Allowed sampleExit := by
    have hcall : sampleExit.call = some .exit := by decide +kernel
    have hcurrent : sampleSwitch.current ≠ 0 := by decide +kernel
    rw [Allowed]
    rw [hcall]
    exact hcurrent
  have hdone := reachable_log_handle (reachable_log_handle (reachable_log_handle hreach sampleCall_fork_allowed)
    (i := .timer (fun _ => 0) 12000) trivial) hexit
  have hsame : ¬sampleState.currentTask ≠ (sampleState.handle (sampleCall 57 0)).1.currentTask := by decide +kernel
  have hfork : shown .printEverySwitch sampleState (sampleCall 57 0) = [] := by
    rw [shown, if_neg hsame]
  have hother : (sampleState.handle (sampleCall 57 0)).1.currentTask ≠
      ((sampleState.handle (sampleCall 57 0)).1.handle (.timer (fun _ => 0) 12000)).1.currentTask := by decide +kernel
  have hswitch : shown .printEverySwitch (sampleState.handle (sampleCall 57 0)).1 (.timer (fun _ => 0) 12000) =
      [sampleSwitch] := by
    rw [shown, if_pos hother]
    rfl
  have hinit : sampleSwitch.currentTask ≠ (sampleSwitch.handle sampleExit).1.currentTask := by decide +kernel
  have hback : shown .printEverySwitch sampleSwitch sampleExit = [(sampleSwitch.handle sampleExit).1] := by
    rw [shown, if_pos hinit]
  have hshown : (([sampleState] ++ shown .printEverySwitch sampleState (sampleCall 57 0)) ++
      shown .printEverySwitch (sampleState.handle (sampleCall 57 0)).1 (.timer (fun _ => 0) 12000)) ++
      shown .printEverySwitch sampleSwitch sampleExit =
        [sampleState, sampleSwitch, (sampleSwitch.handle sampleExit).1] := by
    rw [hfork, hswitch, hback]
    rfl
  have hread := (readTables_log hdone).1.trans (congrArg (List.map snapshot) hshown)
  have htables : [sampleState, sampleSwitch, (sampleSwitch.handle sampleExit).1].map snapshot =
      [⟨[⟨0, -1, .running, 0, 1⟩], [], -1⟩, ⟨[⟨0, -1, .ready, 0, 1⟩, ⟨1, 0, .running, 0, 2⟩], [0], -1⟩,
        ⟨[⟨0, -1, .running, 0, 1⟩, ⟨1, 0, .terminated, 0, 2⟩], [], -1⟩] := by decide +kernel
  refine ⟨_, hdone, hread.trans htables, ?_⟩
  rw [hread, htables]
  rfl

end TaskManager

end GtuOs

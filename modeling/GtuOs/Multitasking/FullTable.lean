import GtuOs.Multitasking.LastTask
import GtuOs.Multitasking.Programs

/-!
# Forks with a full table

`Fork` follows the null pointer that `AddTask` returns for a full table: it tests the pointer
once and uses it afterwards. Nor is there a test of the ready queue, which may be full before the
table, as a task can be in it twice: then the child is written behind it, where `queueLen` is.

The states are those of the runs of all interrupts and calls of
`SetIgnoreSchedule` in any lifecycle (`definedSystem`), as long as nothing undefined has
happened. What holds of them all is little (`Sane`), but enough for `Fork` to add exactly one child if there is room
in both (`forksCleanly_iff`).
-/

namespace GtuOs.TaskManager

variable {s s' : TaskManager} {t esp : ℕ} {i : Interrupt}

/-- `Fork` adds exactly one child of the running task. -/
structure AddsChild (s s' : TaskManager) (esp : ℕ) : Prop where
  numTasks : s'.numTasks = s.numTasks + 1
  queue : s'.queue.Perm (s.numTasks :: s.queue)
  pid : (s'.tasks s.numTasks).pid = s.numTasks
  ppid : (s'.tasks s.numTasks).ppid = (s.tasks s.current).pid
  state : (s'.tasks s.numTasks).state = .ready
  forkPid : (s'.tasks s.numTasks).forkPid = 0
  parent : s'.tasks s.current = { s.tasks s.current with cpustate := esp, forkPid := s.numTasks }
  others : ∀ k, k ≠ s.current → k ≠ s.numTasks → s'.tasks k = s.tasks k
  nullDeref : s'.nullDeref = false
  top_le : s'.readyQueue.top ≤ maxNumTasks

/-- `Fork` changes nothing but the frame of the running task, and reports a failure to it. -/
structure FailsCleanly (s s' : TaskManager) (esp : ℕ) : Prop where
  numTasks : s'.numTasks = s.numTasks
  queue : s'.queue = s.queue
  tasks : s'.tasks = Function.update s.tasks s.current { s.tasks s.current with cpustate := esp }
  reported : (CPUState.load s'.mem esp).ecx ≠ 0 ∧
    ∀ k < s.numTasks, (CPUState.load s'.mem esp).ecx ≠ .ofInt (s.tasks k).pid
  nullDeref : s'.nullDeref = false

/-- `Fork` adds a child, or fails with nothing changed. -/
def ForksCleanly (s : TaskManager) (esp : ℕ) : Prop :=
  s.AddsChild (s.fork esp) esp ∨ s.FailsCleanly (s.fork esp) esp

/-- No empty queue has been popped, no null pointer followed, and nothing written behind the queue. -/
structure Defined (s : TaskManager) : Prop where
  poppedEmpty : s.poppedEmpty = false
  nullDeref : s.nullDeref = false
  top_le : s.readyQueue.top ≤ maxNumTasks

/-- The runs of all events in any lifecycle, as long as they are defined. -/
def definedSystem : System TaskManager Event where
  init s := ∃ b : Boot, b.firstTick.1 = s ∧ 0 < b.start.numTasks
  step s e s' := s.perform e = s' ∧ s'.Defined

/-- What all handlers preserve, unless they pop an empty queue. -/
structure Sane (s : TaskManager) : Prop where
  pid_eq : ∀ k < s.numTasks, (s.tasks k).pid = k
  ppid_lt : ∀ k < s.numTasks, (s.tasks k).ppid.toNat < s.numTasks
  queueLen_nonneg : 0 ≤ s.queueLen
  queue_lt : ∀ k ∈ s.queue, k < s.numTasks
  current_lt : s.current < s.numTasks
  blocked_lt : ∀ b, s.blockedTaskForCollatz = some b → b < s.numTasks
  collatz_lt : s.interruptNumAfterCollatz ≠ -1 → ∀ c, s.collatzTask = some c → c < s.numTasks

/-- A full table. -/
theorem fork_full (hfull : maxNumTasks ≤ s.numTasks) : (s.fork esp).nullDeref = true := by
  have hfull' : (s.saved esp).numTasks ≥ maxNumTasks := hfull
  rw [fork_of_none (if_pos hfull')]

theorem not_forksCleanly_of_full (hfull : maxNumTasks ≤ s.numTasks) : ¬s.ForksCleanly esp := by
  have hnull : (s.fork esp).nullDeref = true := fork_full hfull
  rintro (hclean | hclean)
  · rw [hclean.nullDeref] at hnull
    cases hnull
  · rw [hclean.nullDeref] at hnull
    cases hnull

namespace Sane

/-! ## The parts of the handlers -/

/-- What matters of a state. -/
theorem congr (h : s.Sane) (hn : s'.numTasks = s.numTasks)
    (hpid : ∀ k, (s'.tasks k).pid = (s.tasks k).pid) (hppid : ∀ k, (s'.tasks k).ppid = (s.tasks k).ppid)
    (hlen : 0 ≤ s'.queueLen) (hq : ∀ k ∈ s'.queue, k < s.numTasks) (hcur : s'.current < s.numTasks)
    (hb : ∀ b, s'.blockedTaskForCollatz = some b → b < s.numTasks)
    (hc : s'.interruptNumAfterCollatz ≠ -1 → ∀ c, s'.collatzTask = some c → c < s.numTasks) : s'.Sane where
  pid_eq k hk := (hpid k).trans (h.pid_eq k (hn ▸ hk))
  ppid_lt k hk := by
    rw [hppid, hn]
    exact h.ppid_lt k (hn ▸ hk)
  queueLen_nonneg := hlen
  queue_lt := hn ▸ hq
  current_lt := hn ▸ hcur
  blocked_lt := hn ▸ hb
  collatz_lt := hn ▸ hc

theorem withMem (h : s.Sane) (mem : Memory) : { s with mem }.Sane :=
  h.congr rfl (fun _ => rfl) (fun _ => rfl) h.queueLen_nonneg h.queue_lt h.current_lt h.blocked_lt h.collatz_lt

theorem modifyTask (h : s.Sane) (t : ℕ) {f : Task → Task} (hpid : (f (s.tasks t)).pid = (s.tasks t).pid)
    (hppid : (f (s.tasks t)).ppid = (s.tasks t).ppid) : (s.modifyTask t f).Sane := by
  refine h.congr rfl (fun k => ?_) (fun k => ?_) h.queueLen_nonneg h.queue_lt h.current_lt h.blocked_lt
    h.collatz_lt <;> rw [modifyTask_tasks] <;> rcases eq_or_ne k t with rfl | hk
  · rw [Function.update_self, hpid]
  · rw [Function.update_of_ne hk]
  · rw [Function.update_self, hppid]
  · rw [Function.update_of_ne hk]

theorem addToReadyQueue (h : s.Sane) (ht : t < s.numTasks) : (s.addToReadyQueue t).Sane := by
  have heq := addToReadyQueue_eq s t
  have hlen := h.queueLen_nonneg
  refine h.congr (addToReadyQueue_numTasks s t) (fun k => ?_) (fun k => ?_) ?_ (fun k hk => ?_) ?_ ?_ ?_
  · rw [addToReadyQueue_tasks]
    rcases eq_or_ne k t with rfl | hk
    · rw [Function.update_self]
    · rw [Function.update_of_ne hk]
  · rw [addToReadyQueue_tasks]
    rcases eq_or_ne k t with rfl | hk
    · rw [Function.update_self]
    · rw [Function.update_of_ne hk]
  · rw [addToReadyQueue_queueLen]
    omega
  · rw [queue_addToReadyQueue hlen, (s.enqueue_perm t).mem_iff] at hk
    rcases List.mem_cons.1 hk with rfl | hk
    · exact ht
    · exact h.queue_lt k hk
  · rw [current, addToReadyQueue_currentTask]
    exact h.current_lt
  · rw [heq]
    exact h.blocked_lt
  · rw [heq]
    exact h.collatz_lt

theorem removeFromReadyQueue (h : s.Sane) (ht : t < s.numTasks) :
    (s.removeFromReadyQueue (s.tasks t).pid).Sane := by
  have heq := removeFromReadyQueue_eq s (s.tasks t).pid
  have hq : (s.removeFromReadyQueue (s.tasks t).pid).queue = s.queue.erase t := by
    rw [h.pid_eq t ht]
    exact queue_removeFromReadyQueue fun k hk => h.pid_eq k (h.queue_lt k hk)
  refine h.congr ?_ (fun k => ?_) (fun k => ?_) (queueLen_removeFromReadyQueue_nonneg h.queueLen_nonneg)
    (fun k hk => h.queue_lt k (List.mem_of_mem_erase (hq ▸ hk))) ?_ ?_ ?_
  · rw [heq]
  · rw [heq]
  · rw [heq]
  · rw [current, heq]
    exact h.current_lt
  · rw [heq]
    exact h.blocked_lt
  · rw [heq]
    exact h.collatz_lt

theorem reprioritize (h : s.Sane) (ht : t < s.numTasks) (p : Priority) : (s.reprioritize t p).Sane := by
  have hremove := h.removeFromReadyQueue ht
  have hmodify := hremove.modifyTask t (f := fun u => { u with priority := p }) rfl rfl
  refine hmodify.addToReadyQueue (lt_of_lt_of_eq ht ?_)
  show s.numTasks = (s.removeFromReadyQueue _).numTasks
  rw [removeFromReadyQueue_eq]

/-- Scheduling, unless the queue is empty. -/
theorem schedule (h : s.Sane) (hd : s.schedule.1.poppedEmpty = false) : s.schedule.1.Sane := by
  cases hq : s.queue with
  | nil =>
    -- The flag would be set by the pop.
    have hzero : s.queueLen.toNat = 0 := by rw [← length_queue, hq, List.length_nil]
    have hpop : s.schedule.1.poppedEmpty = (s.poppedEmpty || s.queueLen ≤ 0) := by
      rw [schedule_eq_runHead]
      rfl
    rw [hpop, decide_eq_true (by omega), Bool.or_true] at hd
    cases hd
  | cons t q =>
    -- The head of the queue is a task of the table.
    have ht : t < s.numTasks := h.queue_lt t (hq ▸ List.mem_cons_self)
    have heq := schedule_eq hq (h.pid_eq t ht)
    have hlen : 0 < s.queueLen.toNat := by rw [← length_queue, hq]; exact Nat.succ_pos _
    have htasks : s.schedule.1.tasks = Function.update s.tasks t { s.tasks t with state := .running } := by
      rw [heq]
    refine h.congr (by rw [heq]) (fun k => ?_) (fun k => ?_) ?_ (fun k hk => ?_) ?_ ?_ ?_
    · rw [htasks]
      rcases eq_or_ne k t with rfl | hk
      · rw [Function.update_self]
      · rw [Function.update_of_ne hk]
    · rw [htasks]
      rcases eq_or_ne k t with rfl | hk
      · rw [Function.update_self]
      · rw [Function.update_of_ne hk]
    · rw [heq]
      dsimp only
      omega
    · rw [queue_schedule hq] at hk
      exact h.queue_lt k (hq ▸ List.mem_cons_of_mem _ hk)
    · rw [heq]
      exact ht
    · rw [heq]
      exact h.blocked_lt
    · rw [heq]
      exact h.collatz_lt

/-! ## The handlers -/

theorem scheduleTick (h : s.Sane) (hd : (s.scheduleTick esp).1.Defined) : (s.scheduleTick esp).1.Sane := by
  -- The steps of the tick, one after the other.
  have hcount : s.countInterrupt.Sane := by
    rw [countInterrupt]
    split_ifs with hne
    · exact h.congr rfl (fun _ => rfl) (fun _ => rfl) h.queueLen_nonneg h.queue_lt h.current_lt h.blocked_lt
        fun _ => h.collatz_lt hne
    · exact h
  have hpromote : s.countInterrupt.promoteAtFifth.Sane := by
    rw [promoteAtFifth]
    split_ifs with h5
    · rw [promoteCollatz]
      split
      · exact hcount.congr rfl (fun _ => rfl) (fun _ => rfl) hcount.queueLen_nonneg hcount.queue_lt
          hcount.current_lt hcount.blocked_lt hcount.collatz_lt
      · next c hc =>
        exact hcount.reprioritize (hcount.collatz_lt (by rw [h5.2]; decide) c hc) .high
    · exact hcount
  have hunblock : s.countInterrupt.promoteAtFifth.unblockAtFifth.Sane := by
    rw [unblockAtFifth]
    split_ifs
    · rw [unblockForCollatz]
      split
      · exact hpromote
      · next b hb =>
        have hadd := hpromote.addToReadyQueue (hpromote.blocked_lt b hb)
        exact hadd.congr rfl (fun _ => rfl) (fun _ => rfl) hadd.queueLen_nonneg hadd.queue_lt
          hadd.current_lt (fun b hb => absurd hb (Option.some_ne_none b).symm) hadd.collatz_lt
    · exact hpromote
  have hrequeue : (s.countInterrupt.promoteAtFifth.unblockAtFifth.requeueCurrent esp).Sane := by
    rw [requeueCurrent]
    split_ifs
    · exact (hunblock.modifyTask _ (f := fun t => { t with cpustate := esp }) rfl rfl).addToReadyQueue
        hunblock.current_lt
    · exact hunblock
  rw [scheduleTick_eq] at hd ⊢
  split_ifs at hd ⊢
  · exact h
  · exact h
  · exact hrequeue.schedule hd.poppedEmpty

theorem waitpid (h : s.Sane) {pid : UInt32} (hd : (s.waitpid pid esp).1.Defined) :
    (s.waitpid pid esp).1.Sane := by
  have hsaved : (s.saved esp).Sane := h.modifyTask _ rfl rfl
  have hfail : ∀ mem, (({ s.saved esp with mem } : TaskManager).modifyTask s.current fun t =>
      { t with waitingChild := false }).Sane := fun mem => (hsaved.withMem mem).modifyTask _ rfl rfl
  have htake : ∀ t mem, ({ (s.saved esp).modifyTask t fun t => { t with parentTookInWait := true } with
      mem } : TaskManager).Sane := fun t mem => (hsaved.modifyTask t rfl rfl).withMem mem
  have hblock : ∀ w, ((s.saved esp).modifyTask s.current fun t =>
      { t with state := .blocked, waitingChild := true, waitingChildId := w }).Sane := fun w =>
    hsaved.modifyTask _ rfl rfl
  rw [TaskManager.waitpid] at hd ⊢
  dsimp only at hd ⊢
  by_cases hany : pid = -1
  · rw [if_pos hany] at hd ⊢
    split at hd
    · exact htake _ _
    · split_ifs at hd ⊢
      · exact hfail _
      · exact (hblock _).schedule hd.poppedEmpty
  · rw [if_neg hany] at hd ⊢
    split_ifs at hd ⊢
    · exact hfail _
    · exact hfail _
    · exact htake _ _
    · exact (hblock _).schedule hd.poppedEmpty

theorem exit (h : s.Sane) (hd : s.exit.1.Defined) : s.exit.1.Sane := by
  have hterm : (s.modifyTask s.current fun t => { t with state := .terminated }).Sane :=
    h.modifyTask _ rfl rfl
  have hwake : ∀ s : TaskManager, s.Sane → (s.wakeParent s.current).Sane := fun s h => by
    rw [wakeParent]
    dsimp only
    split_ifs
    · have h₁ := h.modifyTask s.current (f := fun t => { t with parentTookInWait := true }) rfl rfl
      have h₂ := h₁.modifyTask (s.tasks s.current).ppid.toNat
        (f := fun t => { t with waitingChild := false }) rfl rfl
      exact (h₂.addToReadyQueue (h.ppid_lt _ h.current_lt)).withMem _
    · exact h
    · exact h
  have hrelease : ∀ (s : TaskManager) (t : ℕ), s.Sane → (s.releaseForCollatz t).Sane := fun s t h => by
    rw [releaseForCollatz]
    split
    · next c b hc hb =>
      split_ifs
      · have hadd := h.addToReadyQueue (h.blocked_lt b hb)
        exact hadd.congr rfl (fun _ => rfl) (fun _ => rfl) hadd.queueLen_nonneg hadd.queue_lt
          hadd.current_lt hadd.blocked_lt fun _ c hc => absurd hc (Option.some_ne_none c).symm
      · exact h
    · exact h
  exact (hrelease _ _ (hwake _ hterm)).schedule hd.poppedEmpty

theorem blockForCollatz (h : s.Sane) (hd : (s.blockForCollatz esp).1.Defined) :
    (s.blockForCollatz esp).1.Sane := by
  have hblock := h.modifyTask s.current (f := fun t => { t with cpustate := esp, state := .blocked }) rfl rfl
  refine Sane.schedule ?_ hd.poppedEmpty
  refine hblock.congr rfl (fun _ => rfl) (fun _ => rfl) hblock.queueLen_nonneg hblock.queue_lt
    hblock.current_lt (fun b hb => ?_) hblock.collatz_lt
  obtain rfl := Option.some.inj hb
  exact h.current_lt

theorem setLastTaskPriority (h : s.Sane) (priority : UInt32) : (s.setLastTaskPriority priority).Sane := by
  have hpos : 0 < s.numTasks := lt_of_le_of_lt (Nat.zero_le _) h.current_lt
  rw [setLastTaskPriority_eq hpos]
  exact h.reprioritize (by omega) _

theorem collatzAdded (h : s.Sane) : s.collatzAdded.Sane := by
  rw [TaskManager.collatzAdded]
  split_ifs with hpos
  · refine h.congr rfl (fun _ => rfl) (fun _ => rfl) h.queueLen_nonneg h.queue_lt h.current_lt
      h.blocked_lt fun _ c hc => ?_
    obtain rfl := Option.some.inj hc
    omega
  · exact h

theorem execve (h : s.Sane) (entrypoint : UInt32) : (s.execve entrypoint).1.Sane := by
  have htask : ∀ k, ((s.execve entrypoint).1.tasks k).pid = (s.tasks k).pid ∧
      ((s.execve entrypoint).1.tasks k).ppid = (s.tasks k).ppid := fun k => by
    rw [TaskManager.execve, Task.reset]
    dsimp only
    rcases eq_or_ne k s.current with rfl | hk
    · rw [Function.update_self]
      exact ⟨rfl, rfl⟩
    · rw [Function.update_of_ne hk]
      exact ⟨rfl, rfl⟩
  exact h.congr rfl (fun k => (htask k).1) (fun k => (htask k).2) h.queueLen_nonneg h.queue_lt
    h.current_lt h.blocked_lt h.collatz_lt

/-! ## `Fork` -/

/-- With room in the table and in the queue. -/
theorem addsChild (h : s.Sane) (hd : s.Defined) (hroom : s.numTasks < maxNumTasks)
    (hlen : s.queueLen < maxNumTasks) : s.AddsChild (s.fork esp) esp := by
  have hne : s.current ≠ s.numTasks := h.current_lt.ne
  obtain ⟨htasks, -, hnum, -, -⟩ := fork_spec esp hroom hne
  obtain ⟨-, hqueue, hnull, -⟩ := fork_queue esp hroom hne h.queueLen_nonneg
  have hchild : (s.fork esp).tasks s.numTasks = s.forkChild esp := by
    rw [htasks, Function.update_self]
  refine ⟨hnum, hqueue, by rw [hchild]; rfl, by rw [hchild]; rfl, by rw [hchild]; rfl,
    by rw [hchild]; rfl, ?_, fun k hk hk' => ?_, hnull.trans hd.nullDeref, ?_⟩
  · rw [htasks, Function.update_of_ne hne, Function.update_self]
  · rw [htasks, Function.update_of_ne hk', Function.update_of_ne hk]
  · have hnonneg := h.queueLen_nonneg
    exact (top_fork esp hroom hne).trans_le (max_le hd.top_le (by omega))

theorem fork (h : s.Sane) (hroom : s.numTasks < maxNumTasks) : (s.fork esp).Sane := by
  have hne : s.current ≠ s.numTasks := h.current_lt.ne
  obtain ⟨htasks, -, hnum, hcur, -⟩ := fork_spec esp hroom hne
  obtain ⟨hlen, hqueue, -, -, hb, hc, hi⟩ := fork_queue esp hroom hne h.queueLen_nonneg
  have hnonneg := h.queueLen_nonneg
  have hcurrent := h.current_lt
  -- The pids and parents of the old tasks stay; the child is the next one.
  have htask : ∀ k < s.numTasks, ((s.fork esp).tasks k).pid = (s.tasks k).pid ∧
      ((s.fork esp).tasks k).ppid = (s.tasks k).ppid := fun k hk => by
    rw [htasks, Function.update_of_ne hk.ne]
    rcases eq_or_ne k s.current with rfl | hk'
    · rw [Function.update_self]
      exact ⟨rfl, rfl⟩
    · rw [Function.update_of_ne hk']
      exact ⟨rfl, rfl⟩
  have hchild : (s.fork esp).tasks s.numTasks = s.forkChild esp := by
    rw [htasks, Function.update_self]
  refine ⟨fun k hk => ?_, fun k hk => ?_, by omega, fun k hk => ?_, ?_, fun b hb' => ?_, fun hi' c hc' => ?_⟩
  · rw [hnum] at hk
    rcases Nat.lt_succ_iff_lt_or_eq.1 hk with hk | rfl
    · exact (htask k hk).1.trans (h.pid_eq k hk)
    · rw [hchild]
      rfl
  · rw [hnum] at hk ⊢
    rcases Nat.lt_succ_iff_lt_or_eq.1 hk with hk | rfl
    · rw [(htask k hk).2]
      exact Nat.lt_succ_of_lt (h.ppid_lt k hk)
    · have hppid : (s.forkChild esp).ppid = s.current := h.pid_eq s.current hcurrent
      rw [hchild, hppid, Int.toNat_natCast]
      omega
  · rw [hqueue.mem_iff] at hk
    rw [hnum]
    rcases List.mem_cons.1 hk with rfl | hk
    · exact Nat.lt_succ_self _
    · exact Nat.lt_succ_of_lt (h.queue_lt k hk)
  · rw [current, hcur, hnum]
    exact Nat.lt_succ_of_lt hcurrent
  · rw [hnum]
    exact Nat.lt_succ_of_lt (h.blocked_lt b (hb ▸ hb'))
  · rw [hnum]
    exact Nat.lt_succ_of_lt (h.collatz_lt (hi ▸ hi') c (hc ▸ hc'))

/-! ## Runs -/

/-- One interrupt. -/
theorem handle (h : s.Sane) (hd : (s.handle i).1.Defined) : (s.handle i).1.Sane := by
  cases i with
  | timer mem esp => exact (h.withMem mem).scheduleTick hd
  | syscall mem esp =>
    have hs := h.withMem mem
    have heq : s.handle (.syscall mem esp) = { s with mem }.handleInterrupt esp := rfl
    rw [heq] at hd ⊢
    rw [handleInterrupt] at hd ⊢
    dsimp only at hd ⊢
    cases hsys : (CPUState.load mem esp).syscall <;> rw [hsys] at hd <;> dsimp only at hd ⊢
    case fork =>
      rcases Nat.lt_or_ge s.numTasks maxNumTasks with hroom | hfull
      · exact hs.fork hroom
      · have hnull : (TaskManager.fork { s with mem } esp).nullDeref = true := fork_full hfull
        rw [hd.nullDeref] at hnull
        cases hnull
    case forkpid => exact hs.withMem _
    case execve entrypoint => exact hs.execve entrypoint
    case waitpid pid => exact hs.waitpid hd
    case exit => exact hs.exit hd
    case blockForCollatz => exact hs.blockForCollatz hd
    case setLastTaskPriority priority => exact hs.setLastTaskPriority priority
    case collatzAdded => exact hs.collatzAdded
    all_goals exact hs

/-- Booting. -/
theorem firstTick {b : Boot} (hpos : 0 < b.start.numTasks) : b.firstTick.1.Sane ∧ b.firstTick.1.Defined := by
  have hkind : ¬((b.lifeCycleType = .lifeCycleB3 ∨ b.lifeCycleType = .lifeCycleB4) ∧
      b.schedulerType = .roundRobin) := fun hkind => by
    have heq : b.start = b.raw.construct b.schedulerType b.lifeCycleType := if_pos hkind
    rw [heq] at hpos
    exact absurd hpos (Nat.lt_irrefl 0)
  have hstart := Boot.start_eq_of_not hkind
  have heq := hstart.trans (pushTask_eq _ _)
  have htasks : b.start.tasks 0 = { b.initTask.1 with
      priority := .high, ppid := -1, pid := (0 : ℕ), arrivalOrder := 1, state := .ready } := by
    rw [heq]
    exact Function.update_self 0 _ (b.raw.construct b.schedulerType b.lifeCycleType).tasks
  have hnum : b.start.numTasks = 1 := by rw [heq]; rfl
  have hlen : b.start.queueLen = 1 := by rw [heq]; rfl
  have hcur : b.start.currentTask = -1 := by rw [heq]; rfl
  have hqueue : b.start.queue.Perm [0] := by
    rw [hstart]
    exact pushTask_queue _ _ le_rfl
  have hzero : ∀ k < b.start.numTasks, k = 0 := fun k hk => by omega
  have hsane : b.start.Sane := by
    refine ⟨fun k hk => ?_, fun k hk => ?_, by omega, fun k hk => ?_, ?_, fun c hc => ?_, fun hne => ?_⟩
    · rw [hzero k hk, htasks]
    · rw [hzero k hk, htasks, hnum]
      exact Nat.one_pos
    · rw [hnum]
      exact Nat.lt_one_iff.2 (List.mem_singleton.1 (hqueue.mem_iff.1 hk))
    · rw [current, hcur, hnum]
      exact Nat.one_pos
    · rw [heq] at hc
      cases hc
    · rw [heq] at hne
      exact absurd rfl hne
  -- The first tick only schedules.
  have htick : b.firstTick = { b.start with mem := b.mem }.schedule := by
    have hpos' : ¬{ b.start with mem := b.mem }.numTasks ≤ 0 := by
      show ¬b.start.numTasks ≤ 0
      omega
    have hignore : ¬({ b.start with mem := b.mem }.lifeCycleType = .lifeCycleB4 ∧
        { b.start with mem := b.mem }.ignoreSchedule) := fun hi => by
      have hfalse : b.start.ignoreSchedule = true := hi.2
      rw [heq] at hfalse
      cases hfalse
    have hcount : { b.start with mem := b.mem }.interruptNumAfterCollatz = -1 := by
      show b.start.interruptNumAfterCollatz = -1
      rw [heq]
      rfl
    have hcounted : { b.start with mem := b.mem }.countInterrupt = { b.start with mem := b.mem } :=
      if_neg (not_not.2 hcount)
    have hrequeue : { b.start with mem := b.mem }.requeueCurrent b.esp = { b.start with mem := b.mem } :=
      if_neg (by show ¬b.start.currentTask ≥ 0; omega)
    have hfifth : ¬{ b.start with mem := b.mem }.AtFifth := fun h5 => by
      have h4 := h5.1
      rw [hcount] at h4
      exact absurd h4 (by decide)
    show { b.start with mem := b.mem }.scheduleTick b.esp = _
    rw [scheduleTick_eq, if_neg hpos', if_neg hignore, fifth_of_not hfifth, hcounted, hrequeue]
  have hdefined : b.firstTick.1.Defined := by
    have hlen' : ¬({ b.start with mem := b.mem }.queueLen ≤ 0) := by
      show ¬b.start.queueLen ≤ 0
      omega
    rw [htick, schedule_eq_runHead]
    refine ⟨?_, ?_, ?_⟩
    · show (b.start.poppedEmpty || { b.start with mem := b.mem }.queueLen ≤ 0) = false
      rw [decide_eq_false hlen', heq]
      rfl
    · show b.start.nullDeref = false
      rw [heq]
      rfl
    · have htop : b.start.readyQueue.top = 1 := by
        rw [hstart]
        exact top_pushTask _ _
      show (b.start.readyQueue.shiftDown 0 (b.start.queueLen - 1).toNat).top ≤ maxNumTasks
      rw [hlen]
      exact htop.trans_le (by decide)
  refine ⟨?_, hdefined⟩
  rw [htick] at hdefined ⊢
  exact (hsane.withMem b.mem).schedule hdefined.poppedEmpty

end Sane

/-- In every run. -/
theorem sane_of_reachable (h : definedSystem.Reachable s) : s.Sane ∧ s.Defined := by
  refine h.invariant (P := fun s => s.Sane ∧ s.Defined) (fun s h0 => ?_) fun s e s' _ hs he => ?_
  · obtain ⟨b, rfl, hpos⟩ := h0
    exact Sane.firstTick hpos
  · obtain ⟨rfl, hd⟩ := he
    refine ⟨?_, hd⟩
    cases e with
    | interrupt i => exact hs.1.handle hd
    | setIgnoreSchedule b =>
      exact hs.1.congr rfl (fun _ => rfl) (fun _ => rfl) hs.1.queueLen_nonneg hs.1.queue_lt
        hs.1.current_lt hs.1.blocked_lt hs.1.collatz_lt

/-- **Forks**: in every state of a run `Fork` adds exactly one child or fails cleanly, exactly if
    there is room in the table and in the ready queue. -/
theorem forksCleanly_iff (h : definedSystem.Reachable s) (esp : ℕ) :
    s.ForksCleanly esp ↔ s.numTasks < maxNumTasks ∧ s.queueLen < maxNumTasks := by
  obtain ⟨hsane, hd⟩ := sane_of_reachable h
  refine ⟨fun hclean => ?_, fun hroom => .inl (hsane.addsChild hd hroom.1 hroom.2)⟩
  have hroom : s.numTasks < maxNumTasks := by
    by_contra hfull
    exact not_forksCleanly_of_full (Nat.not_lt.1 hfull) hclean
  refine ⟨hroom, ?_⟩
  -- With room in the table it does not fail, but adds the child to the queue.
  obtain ⟨-, -, hnum, -⟩ := fork_spec esp hroom hsane.current_lt.ne
  have htop := top_fork esp hroom hsane.current_lt.ne
  rcases hclean with hclean | hclean
  · have hle := hclean.top_le
    omega
  · have hsame := hclean.numTasks
    omega

/-! ### Forks of the init process -/

/-- The state after `n` forks of the init process. -/
def forkedState : ℕ → TaskManager
  | 0 => sampleState
  | n + 1 => ((forkedState n).handle (callAt 12000 57 0)).1

theorem forkedState_spec {n : ℕ} (h : n < maxNumTasks) :
    definedSystem.Reachable (forkedState n) ∧ (forkedState n).numTasks = n + 1 ∧
      (forkedState n).queueLen = n := by
  induction n with
  | zero => exact ⟨.init ⟨sampleBoot, rfl, by decide +kernel⟩, by decide +kernel, by decide +kernel⟩
  | succ n ih =>
    obtain ⟨hreach, hnum, hlen⟩ := ih (by omega)
    have hcall : (callAt 12000 57 0).call = some .fork := by decide +kernel
    have hroom : (forkedState n).numTasks < maxNumTasks := by omega
    obtain ⟨hsane, hd⟩ := sane_of_reachable hreach
    have heq : forkedState (n + 1) = { forkedState n with mem := (callAt 12000 57 0).mem }.fork 12000 := by
      have hsys : (CPUState.load (callAt 12000 57 0).mem 12000).syscall = .fork := by decide +kernel
      show ({ forkedState n with mem := (callAt 12000 57 0).mem }.handleInterrupt 12000).1 = _
      rw [handleInterrupt, hsys]
    have hmem := hsane.withMem (callAt 12000 57 0).mem
    obtain ⟨hqueueLen, -, hnull, hpop, -⟩ := fork_queue 12000 (s := { forkedState n with
      mem := (callAt 12000 57 0).mem }) hroom hmem.current_lt.ne hmem.queueLen_nonneg
    have htop := top_fork 12000 (s := { forkedState n with
      mem := (callAt 12000 57 0).mem }) hroom hmem.current_lt.ne
    have hlen' : (forkedState n).queueLen.toNat + 1 ≤ maxNumTasks := by omega
    refine ⟨hreach.step (i := .interrupt (callAt 12000 57 0)) ⟨rfl, ?_⟩, ?_, ?_⟩
    · show (forkedState (n + 1)).Defined
      rw [heq]
      exact ⟨hpop.trans hd.poppedEmpty, hnull.trans hd.nullDeref, htop.trans_le (max_le hd.top_le hlen')⟩
    · have hafter := handle_numTasks (s := forkedState n) (i := callAt 12000 57 0) fun _ => hroom
      rw [if_pos hcall] at hafter
      exact hafter.trans (by rw [hnum])
    · rw [heq, hqueueLen]
      push_cast
      rw [← hlen]

/-- The first fork. -/
theorem forksCleanly_sampleState : sampleState.ForksCleanly 12000 :=
  (forksCleanly_iff (.init ⟨sampleBoot, rfl, by decide +kernel⟩) 12000).2 ⟨by decide +kernel, by decide +kernel⟩

/-- One fork too many. -/
theorem not_forksCleanly_forkedState :
    definedSystem.Reachable (forkedState 255) ∧ ¬(forkedState 255).ForksCleanly 12000 := by
  obtain ⟨hreach, hnum, -⟩ := forkedState_spec (n := 255) (by decide)
  exact ⟨hreach, not_forksCleanly_of_full (by rw [hnum]; decide)⟩

end GtuOs.TaskManager

import GtuOs.Multitasking.Safety
import Mathlib.Data.Prod.Lex

/-!
# Priority scheduling

The preemptive scheduler runs the best ready task: the one of least `rank`, the
priority and then the order of arrival. The insertion sort keeps the queue ordered
by rank (`Ranked`), which survives that `SetLastTaskPriority` changes the rank of
a task in the queue, as it takes the task out and inserts it again
(`reprioritize`).

`runs_best_ready`: in every run the queue is strictly ordered, and every
scheduling decision runs the best of all tasks ready at that moment.
-/

namespace GtuOs.TaskManager

variable {s s' : TaskManager} {i : Interrupt} {t : ℕ}

/-! ## Ranks -/

/-- The rank of a task, the best being the least: its priority, then its arrival. -/
def rank (s : TaskManager) (t : ℕ) : ℤ ×ₗ ℤ :=
  toLex ((s.tasks t).priority, (s.tasks t).arrivalOrder)

theorem rank_congr {k : ℕ} (hp : (s'.tasks k).priority = (s.tasks k).priority)
    (ha : (s'.tasks k).arrivalOrder = (s.tasks k).arrivalOrder) : s'.rank k = s.rank k := by
  rw [rank, rank, hp, ha]

theorem rank_of_tasks_eq {k : ℕ} (h : s'.tasks k = s.tasks k) : s'.rank k = s.rank k := by
  rw [rank, rank, h]

/-- The insertion sort compares ranks. -/
theorem goesBefore_iff {oth : ℕ} : s.goesBefore t oth = true ↔ s.rank t < s.rank oth := by
  simp [goesBefore, rank, Prod.Lex.toLex_lt_toLex]

/-- The queue is strictly ordered by rank. -/
def Ordered (s : TaskManager) : Prop := s.queue.Pairwise fun j k => s.rank j < s.rank k

/-- The running task is better than all ready ones. -/
def Best (s : TaskManager) : Prop :=
  ∀ k < s.numTasks, (s.tasks k).state = .ready → s.rank s.current < s.rank k

/-- The scheduler is preemptive, the queue is ordered, and the tasks are numbered as they
    arrive. -/
structure Ranked (s : TaskManager) : Prop where
  scheduler : s.schedulerType = .preemptivePriority
  ordered : s.Ordered
  arrival : ∀ k < s.numTasks, (s.tasks k).arrivalOrder = k + 1
  next : s.nextArrivalOrder = s.numTasks + 1

/-- Adding a task whose rank is not that of one in the queue. -/
theorem Ordered.addToReadyQueue (h : s.Ordered) (hsch : s.schedulerType = .preemptivePriority)
    (hlen : 0 ≤ s.queueLen) (hne : ∀ k ∈ s.queue, s.rank t ≠ s.rank k) :
    (s.addToReadyQueue t).Ordered := by
  have hrank : ∀ k, (s.addToReadyQueue t).rank k = s.rank k := fun k => by
    refine rank_congr ?_ ?_ <;> rw [addToReadyQueue_tasks] <;> rcases eq_or_ne k t with rfl | hk
    all_goals simp [*]
  rw [Ordered]
  rw [queue_addToReadyQueue hlen, enqueue, hsch]
  simp only [hrank]
  exact Buffer.insertBack_pairwise (s.goesBefore t) (r := fun j k => s.rank j < s.rank k)
    (fun _ _ _ => lt_trans) h (fun k _ => goesBefore_iff.1)
    fun k hk hn => (lt_or_gt_of_ne (hne k hk)).resolve_left fun hlt => hn (goesBefore_iff.2 hlt)

namespace Ranked

/-- What matters are the ranks of the tasks; tasks may be taken out of the queue. -/
theorem congr (h : s.Ranked) (hsch : s'.schedulerType = s.schedulerType)
    (hq : s'.queue.Sublist s.queue) (hn : s'.numTasks = s.numTasks)
    (hnext : s'.nextArrivalOrder = s.nextArrivalOrder)
    (hp : ∀ k, (s'.tasks k).priority = (s.tasks k).priority)
    (ha : ∀ k, (s'.tasks k).arrivalOrder = (s.tasks k).arrivalOrder) : s'.Ranked := by
  refine ⟨hsch.trans h.scheduler, ?_, fun k hk => ?_, ?_⟩
  · refine (h.ordered.sublist hq).imp fun {j k} hjk => ?_
    rwa [rank_congr (hp j) (ha j), rank_congr (hp k) (ha k)]
  · rw [ha k, h.arrival k (hn ▸ hk)]
  · rw [hnext, h.next, hn]

theorem rank_ne (h : s.Ranked) {j k : ℕ} (hj : j < s.numTasks) (hk : k < s.numTasks)
    (hne : j ≠ k) : s.rank j ≠ s.rank k := fun he => by
  have ha : (s.tasks j).arrivalOrder = (s.tasks k).arrivalOrder :=
    congrArg (fun r => (ofLex r).2) he
  rw [h.arrival j hj, h.arrival k hk] at ha
  omega

/-- The update of a task that keeps its rank. -/
theorem modifyTask (h : s.Ranked) (t : ℕ) {f : Task → Task}
    (hp : (f (s.tasks t)).priority = (s.tasks t).priority)
    (ha : (f (s.tasks t)).arrivalOrder = (s.tasks t).arrivalOrder) :
    (s.modifyTask t f).Ranked := by
  refine h.congr rfl (List.Sublist.refl _) rfl rfl (fun k => ?_) fun k => ?_
  all_goals
    rw [modifyTask_tasks]
    rcases eq_or_ne k t with rfl | hk
    · rwa [Function.update_self]
    · rw [Function.update_of_ne hk]

/-- The memory does not matter. -/
theorem withMem (h : s.Ranked) (mem : Memory) : { s with mem }.Ranked :=
  h.congr rfl (List.Sublist.refl _) rfl rfl (fun _ => rfl) fun _ => rfl

/-- A task that is not ready is made ready. -/
theorem addToReadyQueue (h : s.Ranked) {R : Set ℕ} (hq : s.QueueOk R)
    (hR : ∀ k ∈ R, k < s.numTasks) (ht : t < s.numTasks) (hst : t ∉ R) :
    (s.addToReadyQueue t).Ranked := by
  have heq := addToReadyQueue_eq s t
  refine ⟨?_, h.ordered.addToReadyQueue h.scheduler hq.nonneg fun k hk => ?_, fun k hk => ?_, ?_⟩
  · rw [heq]
    exact h.scheduler
  · have hk := (hq.mem_iff k).1 hk
    exact h.rank_ne ht (hR k hk) fun he => hst (he ▸ hk)
  · rw [addToReadyQueue_numTasks] at hk
    rw [addToReadyQueue_tasks, ← h.arrival k hk]
    rcases eq_or_ne k t with rfl | hkt
    · rw [Function.update_self]
    · rw [Function.update_of_ne hkt]
  · rw [addToReadyQueue_nextArrivalOrder, addToReadyQueue_numTasks, h.next]

/-- A new task, the last one to arrive. -/
theorem pushTask (h : s.Ranked) (hs : s.Base) (mem : Memory) {task : Task}
    (ha : task.arrivalOrder = s.nextArrivalOrder) : (s.pushTask mem task).Ranked := by
  let s₁ : TaskManager := { s with mem, tasks := Function.update s.tasks s.numTasks task }
  have hlt : ∀ k ∈ s₁.queue, k < s.numTasks := fun k hk => ((hs.queueOk.mem_iff k).1 hk).1
  have hself : s₁.tasks s.numTasks = task := Function.update_self _ _ _
  have hold : ∀ k < s.numTasks, s₁.tasks k = s.tasks k := fun k hk =>
    Function.update_of_ne hk.ne _ _
  have hord : s₁.Ordered := by
    refine h.ordered.imp_of_mem fun {j k} hj hk hjk => ?_
    rwa [rank_of_tasks_eq (hold j (hlt j hj)), rank_of_tasks_eq (hold k (hlt k hk))]
  -- No other task has arrived at the same time.
  have hadd : (s₁.addToReadyQueue s.numTasks).Ordered := by
    refine hord.addToReadyQueue h.scheduler hs.queueOk.nonneg fun k hk he => ?_
    have hk := hlt k hk
    have heq : (s₁.tasks s.numTasks).arrivalOrder = (s₁.tasks k).arrivalOrder :=
      congrArg (fun r => (ofLex r).2) he
    rw [hself, hold k hk, ha, h.next, h.arrival k hk] at heq
    omega
  have hsch : (s.pushTask mem task).schedulerType = s.schedulerType := by
    rw [TaskManager.pushTask, addToReadyQueue_eq]
  refine ⟨hsch.trans h.scheduler, hadd, fun k hk => ?_, ?_⟩
  · rw [pushTask_numTasks] at hk
    rw [pushTask_tasks]
    rcases eq_or_ne k s.numTasks with rfl | hkn
    · rw [Function.update_self]
      exact ha.trans h.next
    · rw [Function.update_of_ne hkn]
      exact h.arrival k (by omega)
  · have hnext : (s.pushTask mem task).nextArrivalOrder = s.nextArrivalOrder + 1 := rfl
    rw [hnext, pushTask_numTasks, h.next]
    rfl

/-- Scheduling takes the head out of the queue, which is the best task ready. -/
theorem schedule (h : s.Ranked) (hs : s.InvAt none) : s.schedule.1.Ranked ∧ s.schedule.1.Best := by
  obtain ⟨t, q, hq, ht, hst⟩ := hs.exists_head
  have hpid := hs.pid_eq t ht
  have heq := schedule_eq hq hpid
  have htasks : s.schedule.1.tasks = Function.update s.tasks t { s.tasks t with state := .running } := by
    rw [heq]
  have hnum : s.schedule.1.numTasks = s.numTasks := by rw [heq]
  have hcur : s.schedule.1.current = t := by rw [heq]; rfl
  have hp : ∀ k, (s.schedule.1.tasks k).priority = (s.tasks k).priority ∧
      (s.schedule.1.tasks k).arrivalOrder = (s.tasks k).arrivalOrder := fun k => by
    rw [htasks]
    rcases eq_or_ne k t with rfl | hk
    · rw [Function.update_self]
      exact ⟨rfl, rfl⟩
    · rw [Function.update_of_ne hk]
      exact ⟨rfl, rfl⟩
  constructor
  · refine h.congr ?_ ?_ hnum ?_ (fun k => (hp k).1) fun k => (hp k).2
    · rw [heq]
    · rw [queue_schedule_eq_tail]
      exact List.tail_sublist _
    · rw [heq]
  · intro k hk hready
    rw [hnum] at hk
    rw [hcur, rank_congr (hp t).1 (hp t).2, rank_congr (hp k).1 (hp k).2]
    -- A task ready now was in the queue, behind the head.
    have hkt : k ≠ t := fun he => by
      rw [he, htasks, Function.update_self] at hready
      cases hready
    rw [htasks, Function.update_of_ne hkt] at hready
    have hmem : k ∈ s.queue := (hs.queueOk.mem_iff k).2 ⟨hk, hready⟩
    have hord := h.ordered
    rw [Ordered] at hord
    rw [hq] at hmem hord
    exact (List.pairwise_cons.1 hord).1 k ((List.mem_cons.1 hmem).resolve_left hkt)

end Ranked

/-! ## Changing the priority of a task -/

/-- The common part of `SetLastTaskPriority` and of the 5th interrupt in lifecycle B4:
    the task `t` is taken out of the queue, gets a new priority, and is added again. -/
def reprioritize (s : TaskManager) (t : ℕ) (priority : Priority) : TaskManager :=
  ((s.removeFromReadyQueue (s.tasks t).pid).modifyTask t fun u =>
    { u with priority }).addToReadyQueue t

theorem setLastTaskPriority_eq (h : 0 < s.numTasks) (priority : UInt32) :
    s.setLastTaskPriority priority =
      s.reprioritize (s.numTasks - 1) priority.toInt32.toInt := if_pos h

theorem reprioritize_eq (s : TaskManager) (t : ℕ) (p : Priority) : s.reprioritize t p =
    { s with
      tasks := Function.update s.tasks t { s.tasks t with priority := p, state := .ready }
      readyQueue := (s.reprioritize t p).readyQueue
      queueLen := (s.reprioritize t p).queueLen } := by
  rw [reprioritize, modifyTask]
  rw [addToReadyQueue_eq, removeFromReadyQueue_eq]
  simp only [Function.update_self, Function.update_idem]

/-- The queue without the task `t`, which then gets a new priority. -/
theorem reprioritize_aux (hpid : ∀ k < s.numTasks, (s.tasks k).pid = k) (hq : s.QueueOk s.readyTasks)
    (ht : t < s.numTasks) (p : Priority) :
    ((s.removeFromReadyQueue (s.tasks t).pid).modifyTask t fun u =>
      { u with priority := p }).QueueOk (s.readyTasks \ {t}) := by
  rw [hpid t ht]
  exact (hq.remove fun k hk => hpid k hk.1).congr rfl rfl

theorem Base.reprioritize_queueOk (h : s.Base) (ht : t < s.numTasks)
    (hst : (s.tasks t).state = .ready) (p : Priority) :
    (s.reprioritize t p).QueueOk s.readyTasks := by
  have hadd := (reprioritize_aux h.pid_eq h.queueOk ht p).add (t := t) (fun hm => hm.2 rfl)
    (lt_of_lt_of_le ht h.numTasks_le)
  have hmem : t ∈ s.readyTasks := ⟨ht, hst⟩
  rwa [Set.insert_sdiff_singleton, Set.insert_eq_of_mem hmem] at hadd

/-- The queue after a task gets another priority: the others keep their order. -/
theorem Base.queue_reprioritize (h : s.Base) (hsch : s.schedulerType = .preemptivePriority)
    (ht : t < s.numTasks) (p : Priority) :
    ∃ before, (s.reprioritize t p).queue = Buffer.insertBack before t (s.queue.erase t) := by
  let s₁ := (s.removeFromReadyQueue (s.tasks t).pid).modifyTask t fun u => { u with priority := p }
  have hq₁ : s₁.queue = s.queue.erase t := by
    show (s.removeFromReadyQueue (s.tasks t).pid).queue = s.queue.erase t
    rw [h.pid_eq t ht]
    exact queue_removeFromReadyQueue fun k hk => h.pid_eq k ((h.queueOk.mem_iff k).1 hk).1
  have hsch₁ : s₁.schedulerType = .preemptivePriority := by
    dsimp only [s₁]
    rw [TaskManager.modifyTask, removeFromReadyQueue_eq]
    exact hsch
  refine ⟨s₁.goesBefore t, ?_⟩
  rw [← hq₁, TaskManager.reprioritize, queue_addToReadyQueue (reprioritize_aux h.pid_eq h.queueOk ht p).nonneg, enqueue, hsch₁]

/-- The priority of a ready task changes. -/
theorem InvAt.reprioritize {run : Option ℕ} (h : s.InvAt run) (ht : t < s.numTasks)
    (hst : (s.tasks t).state = .ready) (p : Priority) : (s.reprioritize t p).InvAt run := by
  have heq := reprioritize_eq s t p
  have htasks : (s.reprioritize t p).tasks =
      Function.update s.tasks t { s.tasks t with priority := p, state := .ready } := by rw [heq]
  have hnum : (s.reprioritize t p).numTasks = s.numTasks := by rw [heq]
  have hself : (s.reprioritize t p).tasks t = { s.tasks t with priority := p, state := .ready } := by
    rw [htasks, Function.update_self]
  have hne : ∀ k, k ≠ t → (s.reprioritize t p).tasks k = s.tasks k := fun k hk => by
    rw [htasks, Function.update_of_ne hk]
  have hR : (s.reprioritize t p).readyTasks = s.readyTasks := by
    ext k
    rw [mem_readyTasks, mem_readyTasks, hnum]
    rcases eq_or_ne k t with rfl | hk
    · rw [hself, hst]
    · rw [hne k hk]
  have hq := h.reprioritize_queueOk ht hst p
  rw [← hR] at hq
  refine ⟨h.of_update (u := { s.tasks t with priority := p, state := .ready }) ?_ ht.le
    (lt_of_lt_of_le ht h.numTasks_le) (h.pid_eq t ht) rfl hq, ?_⟩
  · rw [max_eq_left ht, heq]
  · rw [hnum, procs_eq_self htasks]
    · exact h.table
    · simp [Task.proc, hst]

theorem Inv.reprioritize (h : s.Inv) (ht : t < s.numTasks) (hst : (s.tasks t).state = .ready)
    (p : Priority) : (s.reprioritize t p).Inv := by
  have hcur : (s.reprioritize t p).currentTask = s.currentTask := by rw [reprioritize_eq]
  refine ⟨?_, hcur ▸ h.currentTask_nonneg⟩
  rw [current, hcur]
  exact h.toInvAt.reprioritize ht hst p

/-- The queue stays ordered when the priority of a ready task changes. -/
theorem Ranked.reprioritize (h : s.Ranked) (hs : s.Base) (ht : t < s.numTasks)
    (p : Priority) : (s.reprioritize t p).Ranked := by
  let s₁ := s.removeFromReadyQueue (s.tasks t).pid
  let s₂ := s₁.modifyTask t fun u => { u with priority := p }
  have heq₁ := removeFromReadyQueue_eq s (s.tasks t).pid
  have hq₁ : s₁.queue = s.queue.erase t := by
    have hpid := hs.pid_eq t ht
    show (s.removeFromReadyQueue (s.tasks t).pid).queue = s.queue.erase t
    rw [hpid]
    exact queue_removeFromReadyQueue fun k hk => hs.pid_eq k ((hs.queueOk.mem_iff k).1 hk).1
  have h₁ : s₁.Ranked := by
    refine h.congr ?_ (hq₁ ▸ List.erase_sublist) ?_ ?_ (fun k => ?_) fun k => ?_
    all_goals
      dsimp only [s₁]
      rw [heq₁]
  have hq₂ : s₂.QueueOk (s.readyTasks \ {t}) := reprioritize_aux hs.pid_eq hs.queueOk ht p
  -- The others keep their ranks, whereas the task itself is not in the queue here.
  have hne : ∀ k ∈ s₁.queue, s₂.rank k = s₁.rank k := fun k hk => by
    have hkt : k ≠ t := ((hq₂.mem_iff k).1 hk).2
    exact rank_of_tasks_eq (Function.update_of_ne hkt _ _)
  have ha : ∀ k, (s₂.tasks k).arrivalOrder = (s₁.tasks k).arrivalOrder := fun k => by
    rw [modifyTask_tasks]
    rcases eq_or_ne k t with rfl | hkt
    · rw [Function.update_self]
    · rw [Function.update_of_ne hkt]
  have h₂ : s₂.Ranked := by
    refine ⟨h₁.scheduler, ?_, fun k hk => (ha k).trans (h₁.arrival k hk), h₁.next⟩
    refine h₁.ordered.imp_of_mem fun {j k} hj hk hjk => ?_
    rwa [hne j hj, hne k hk]
  have hn : s₂.numTasks = s.numTasks := by
    dsimp only [s₂, s₁]
    rw [TaskManager.modifyTask, heq₁]
  refine h₂.addToReadyQueue hq₂ (fun k hk => ?_) (by rw [hn]; exact ht) fun hm => hm.2 rfl
  rw [hn]
  exact hk.1.1

/-! ## Runs -/

namespace Ranked

theorem scheduleTick (h : s.Ranked) (hs : s.Inv) (esp : ℕ) :
    (s.scheduleTick esp).1.Ranked ∧ (s.scheduleTick esp).1.Best := by
  rw [hs.scheduleTick_eq]
  refine schedule ?_ (hs.preempted esp)
  refine (h.modifyTask s.current rfl rfl).addToReadyQueue (R := s.readyTasks)
    (hs.queueOk.congr rfl rfl) (fun k hk => hk.1) hs.current_lt fun hm => ?_
  have hst := hm.2
  rw [hs.state_current] at hst
  cases hst

theorem waitpid (h : s.Ranked) (hs : s.Inv) (pid : UInt32) (esp : ℕ) :
    (s.waitpid pid esp).1.Ranked ∧
      (((s.waitpid pid esp).1.tasks s.current).state = .blocked → (s.waitpid pid esp).1.Best) := by
  have hres := hs.waitpid_result pid esp
  have hsaved : (s.saved esp).Ranked := h.modifyTask s.current rfl rfl
  have hrun : ((s.saved esp).tasks s.current).state = .running := by
    rw [saved_tasks_current]
    exact hs.state_current
  generalize s.waitpid pid esp = r at hres ⊢
  -- A child reaped and an error leave the task running; a call that blocks schedules.
  cases hres with
  | @reap k _ _ _ hterm _ =>
    refine ⟨(hsaved.modifyTask k rfl rfl).withMem _, fun hb => ?_⟩
    have hne : s.current ≠ k := fun he => by
      rw [← he, hs.state_current] at hterm
      cases hterm
    have hself : (s.reaped esp k).tasks s.current = (s.saved esp).tasks s.current :=
      Function.update_of_ne hne _ _
    rw [hself, hrun] at hb
    cases hb
  | refuse =>
    refine ⟨(hsaved.modifyTask s.current rfl rfl).withMem _, fun hb => ?_⟩
    have hself : ((s.refused esp).tasks s.current).state = ((s.saved esp).tasks s.current).state := by
      rw [refused, modifyTask_tasks, Function.update_self]
    rw [hself, hrun] at hb
    cases hb
  | block hw hlive hdead =>
    have hsched := schedule (hsaved.modifyTask s.current rfl rfl) (hs.blockedFor esp hw hlive hdead)
    exact ⟨hsched.1, fun _ => hsched.2⟩

theorem exit (h : s.Ranked) (hs : s.Inv) (h0 : s.current ≠ 0) :
    s.exit.1.Ranked ∧ s.exit.1.Best := by
  by_cases hw : ∃ p < s.numTasks, WaitsFor s.procs p s.current
  · obtain ⟨p, hp, hw⟩ := hw
    obtain ⟨hst, hne⟩ := hs.blocked_of_waitsFor hp hw
    rw [hs.exit_eq_of_waitsFor hp hw]
    refine schedule ?_ (hs.wokenParent h0 hp hw)
    have hmod := (h.modifyTask s.current (f := fun t =>
      { t with state := .terminated, parentTookInWait := true }) rfl rfl).modifyTask p
      (f := fun t => { t with waitingChild := false }) rfl rfl
    have hadd := hmod.addToReadyQueue (t := p) (R := s.readyTasks) (hs.queueOk.congr rfl rfl)
      (fun k hk => hk.1) hp fun hm => by
        have hready := hm.2
        rw [hst] at hready
        cases hready
    exact hadd.withMem _
  · push Not at hw
    rw [hs.exit_eq_of_not_waitsFor hw]
    exact schedule (h.modifyTask s.current rfl rfl) (hs.exited h0 hw)

theorem fork (h : s.Ranked) (hs : s.Inv) (esp : ℕ) (hroom : s.numTasks < maxNumTasks) :
    (s.fork esp).Ranked := by
  have hne : s.current ≠ s.numTasks := hs.current_lt.ne
  rw [fork_eq hroom hne, recordFork_eq hne]
  refine withMem (modifyTask (modifyTask (pushTask ?_ (hs.saved esp).toBase _ rfl) _ rfl rfl) _
    rfl rfl) _
  exact h.modifyTask s.current rfl rfl

theorem execve (h : s.Ranked) (entrypoint : UInt32) : (s.execve entrypoint).1.Ranked := by
  rw [execve_eq]
  exact (h.modifyTask s.current (f := fun t => (t.reset s.mem entrypoint).1) rfl rfl).withMem _

end Ranked

/-- The interrupts of runs in which `SetLastTaskPriority` is called too, while the last
    task is ready. -/
def PriorityAllowed (s : TaskManager) (i : Interrupt) : Prop :=
  match i.call with
  | some (.setLastTaskPriority _) => (s.tasks (s.numTasks - 1)).state = .ready
  | _ => s.Allowed i

/-- The runs with the preemptive scheduler. -/
def prioritySystem : System TaskManager Interrupt where
  init s := ∃ b : Boot, b.Allowed ∧ b.schedulerType = .preemptivePriority ∧ b.firstTick.1 = s
  step s i s' := s.PriorityAllowed i ∧ (s.handle i).1 = s'

/-- The handling of an interrupt makes a scheduling decision: that of a tick, of an
    `Exit`, or of a `Waitpid` that blocks. -/
def Decides (s : TaskManager) (i : Interrupt) : Prop :=
  match i.call with
  | none => True
  | some .exit => True
  | some (.waitpid _) => ((s.handle i).1.tasks s.current).state = .blocked
  | _ => False

/-- The tasks that a decision chooses from: those ready, the one that a tick preempts, and the parent that an `Exit`
    wakes up. -/
def Candidate (s : TaskManager) (i : Interrupt) (k : ℕ) : Prop :=
  (s.tasks k).state = .ready ∨ (i.call = none ∧ k = s.current) ∨
    (i.call = some .exit ∧ WaitsFor s.procs k s.current)

/-- A decision for the best ready task. -/
structure Chooses (s : TaskManager) (i : Interrupt) (s' : TaskManager) : Prop where
  /-- The task that runs is a candidate of the table. -/
  current_lt : s'.current < s.numTasks
  candidate : s.Candidate i s'.current
  running : (s'.tasks s'.current).state = .running
  /-- The other candidates are what is ready. -/
  ready_iff : ∀ k < s.numTasks, k ≠ s'.current → ((s'.tasks k).state = .ready ↔ s.Candidate i k)
  /-- The task that runs is better than those. -/
  best : s'.Best

theorem Ranked.handleInterrupt (h : s.Ranked) (hs : s.Inv) {esp : ℕ}
    (hi : s.PriorityAllowed (.syscall s.mem esp)) :
    (s.handleInterrupt esp).1.Inv ∧ (s.handleInterrupt esp).1.Ranked ∧
      (s.Decides (.syscall s.mem esp) → (s.handleInterrupt esp).1.Best) := by
  have hcall : Interrupt.call (.syscall s.mem esp) = some (CPUState.load s.mem esp).syscall := rfl
  have heq : s.handle (.syscall s.mem esp) = s.handleInterrupt esp := rfl
  have hinv : s.Allowed (.syscall s.mem esp) → (s.handleInterrupt esp).1.Inv := fun hi =>
    (hs.handleInterrupt hi).2
  rw [PriorityAllowed] at hi
  rw [Decides]
  rw [Allowed] at hi hinv
  rw [heq]
  rw [hcall] at hi hinv ⊢
  rw [TaskManager.handleInterrupt] at hinv ⊢
  cases hsys : (CPUState.load s.mem esp).syscall <;> rw [hsys] at hi hinv <;>
    dsimp only at hi hinv ⊢
  case printf => exact ⟨hs, h, False.elim⟩
  case fork => exact ⟨hinv hi, h.fork hs esp hi, False.elim⟩
  case forkpid => exact ⟨hinv trivial, h.withMem _, False.elim⟩
  case execve entrypoint => exact ⟨hinv trivial, h.execve entrypoint, False.elim⟩
  case waitpid pid => exact ⟨hinv trivial, h.waitpid hs pid esp⟩
  case exit => exact ⟨hinv hi, (h.exit hs hi).1, fun _ => (h.exit hs hi).2⟩
  case setLastTaskPriority priority =>
    have hpos : 0 < s.numTasks := lt_of_le_of_lt (Nat.zero_le _) hs.current_lt
    have hlast : s.numTasks - 1 < s.numTasks := Nat.sub_one_lt hpos.ne'
    rw [setLastTaskPriority_eq hpos]
    exact ⟨hs.reprioritize hlast hi _, h.reprioritize hs.toBase hlast _, False.elim⟩
  case other => exact ⟨hs, h, False.elim⟩

/-- **One interrupt** keeps the queue ordered, and decides for the best task. -/
theorem Ranked.handle (h : s.Ranked) (hs : s.Inv) (hi : s.PriorityAllowed i) :
    (s.handle i).1.Inv ∧ (s.handle i).1.Ranked ∧ (s.Decides i → (s.handle i).1.Best) := by
  cases i with
  | timer mem esp =>
    obtain ⟨hrank, hbest⟩ := (h.withMem mem).scheduleTick (hs.withMem mem) esp
    exact ⟨((hs.withMem mem).scheduleTick esp).2, hrank, fun _ => hbest⟩
  | syscall mem esp => exact (h.withMem mem).handleInterrupt (hs.withMem mem) hi

/-- A dispatch from a state in which exactly the candidates are ready. -/
theorem Dispatches.chooses {s₁ : TaskManager} {r : TaskManager × ℕ} (h : Dispatches s₁ r)
    (hn : s₁.numTasks = s.numTasks) (hready : ∀ k < s.numTasks, (s₁.tasks k).state = .ready ↔ s.Candidate i k)
    (hbest : r.1.Best) : Chooses s i r.1 := by
  obtain ⟨t, ht, hst, htasks, hcur, -⟩ := h
  rw [hn] at ht
  have hcurrent : r.1.current = t := by rw [current, hcur, Int.toNat_natCast]
  refine ⟨hcurrent ▸ ht, hcurrent ▸ (hready t ht).1 hst, ?_, fun k hk hne => ?_, hbest⟩
  · rw [hcurrent, htasks, Function.update_self]
  · rw [htasks, Function.update_of_ne (hcurrent ▸ hne)]
    exact hready k hk

/-- A decision that makes the best task run chooses it among the candidates. -/
theorem Inv.chooses (hs : s.Inv) {r : TaskManager × ℕ} (heff : Effect s i r)
    (hd : i.call = none ∨ i.call = some .exit ∨
      ∃ pid, i.call = some (.waitpid pid) ∧ (r.1.tasks s.current).state = .blocked)
    (hbest : r.1.Best) : Chooses s i r.1 := by
  have hrun := hs.state_current
  cases heff with
  | @tick mem esp _ hdisp =>
    refine hdisp.chooses rfl (fun k hk => ?_) hbest
    have hcall : Interrupt.call (.timer mem esp) = none := rfl
    rw [Candidate, hcall]
    rcases eq_or_ne k s.current with rfl | hne
    · simp
    · simp [hne]
  | skip hcall =>
    rcases hcall with ⟨str, hcall⟩ | hcall
    · simp [hcall] at hd
    · simp [hcall] at hd
  | forkpid hcall => simp [hcall] at hd
  | fork hcall => simp [hcall] at hd
  | execve hcall => simp [hcall] at hd
  | @reap _ _ k _ hcall _ _ _ hterm =>
    -- The running task still runs.
    have hne : s.current ≠ k := fun he => by
      rw [← he, hrun] at hterm
      cases hterm
    simp [hcall, hne, hrun] at hd
  | refuse hcall => simp [hcall, hrun] at hd
  | block hcall _ _ hdisp =>
    refine hdisp.chooses rfl (fun k hk => ?_) hbest
    rw [Candidate, hcall]
    rcases eq_or_ne k s.current with rfl | hne
    · simp [hrun]
    · simp [hne]
  | exit hcall hno hdisp =>
    refine hdisp.chooses rfl (fun k hk => ?_) hbest
    rw [Candidate, hcall]
    rcases eq_or_ne k s.current with rfl | hne
    · simp [hrun, hno s.current hk]
    · simp [hne, hno k hk]
  | @exitWake mem esp p _ hcall hp hst hw hdisp =>
    refine hdisp.chooses rfl (fun k hk => ?_) hbest
    rw [Candidate, hcall]
    rcases eq_or_ne k p with rfl | hkp
    · simp [hw]
    · -- There is one parent only.
      have hno : ¬WaitsFor s.procs k s.current := fun hk => hkp (Int.natCast_inj.1 (hk.1.symm.trans hw.1))
      rcases eq_or_ne k s.current with rfl | hne
      · simp [hkp, hrun, hno]
      · simp [hkp, hne, hno]

/-- The first tick, which runs the init process, is a decision too. -/
theorem Boot.firstTick_ranked {b : Boot} (hb : b.Allowed)
    (hsch : b.schedulerType = .preemptivePriority) :
    b.firstTick.1.Ranked ∧ b.firstTick.1.Best := by
  have hempty : { b.raw.construct b.schedulerType b.lifeCycleType with
      mem := b.resetTask1.2 }.Ranked :=
    ⟨hsch, List.Pairwise.nil, fun k hk => absurd hk (Nat.not_lt_zero k), rfl⟩
  have hstart : b.start.Ranked := by
    rw [Boot.start_eq hb]
    exact hempty.pushTask ((Boot.construct_base hb).withMem _) _ rfl
  rw [Boot.firstTick_eq hb]
  exact (hstart.withMem b.mem).schedule (Boot.start_invAt hb)

/-- It chooses the init process. -/
theorem Boot.firstTick_chooses {b : Boot} (hb : b.Allowed)
    (hsch : b.schedulerType = .preemptivePriority) :
    Chooses b.start (.timer b.mem b.esp) b.firstTick.1 := by
  obtain ⟨hinv, hnum, hcur, -⟩ := Boot.start_spec hb
  refine (Boot.firstTick_spec hb).1.chooses rfl (fun k hk => ?_) (Boot.firstTick_ranked hb hsch).2
  -- It is the only task, and ready.
  obtain ⟨r, hr, hready⟩ := hinv.table.exists_ready
  obtain rfl : k = r := by omega
  exact iff_of_true hready (.inl hready)

/-- The invariants hold in every run. -/
theorem ranked_of_reachable (h : prioritySystem.Reachable s) : s.Inv ∧ s.Ranked := by
  refine h.invariant (P := fun s => s.Inv ∧ s.Ranked) (fun s h0 => ?_) fun s i s' _ hs hi => ?_
  · obtain ⟨b, hb, hsch, rfl⟩ := h0
    exact ⟨(Boot.firstTick_spec hb).2, (Boot.firstTick_ranked hb hsch).1⟩
  · obtain ⟨hallow, rfl⟩ := hi
    obtain ⟨hinv, hrank, -⟩ := hs.2.handle hs.1 hallow
    exact ⟨hinv, hrank⟩

/-- **The best ready task runs.** In every state reached the queue is strictly ordered,
    and every scheduling decision, the first tick included, makes the best one run of the
    tasks ready, that a tick has preempted or an `Exit` woken up included. -/
theorem runs_best_ready :
    (∀ b : Boot, b.Allowed → b.schedulerType = .preemptivePriority →
      Chooses b.start (.timer b.mem b.esp) b.firstTick.1) ∧
      ∀ s, prioritySystem.Reachable s → s.Ordered ∧
        ∀ i, s.PriorityAllowed i → s.Decides i → Chooses s i (s.handle i).1 := by
  refine ⟨fun b hb hsch => Boot.firstTick_chooses hb hsch, fun s h => ?_⟩
  obtain ⟨hinv, hrank⟩ := ranked_of_reachable h
  refine ⟨hrank.ordered, fun i hi hd => ?_⟩
  have hallow : s.Allowed i ∧ (i.call = none ∨ i.call = some .exit ∨
      ∃ pid, i.call = some (.waitpid pid) ∧ ((s.handle i).1.tasks s.current).state = .blocked) := by
    rw [PriorityAllowed] at hi
    rw [Decides] at hd
    split at hi
    · next hcall => rw [hcall] at hd; exact hd.elim
    · refine ⟨hi, ?_⟩
      split at hd
      · next hcall => exact .inl hcall
      · next hcall => exact .inr (.inl hcall)
      · next pid hcall => exact .inr (.inr ⟨pid, hcall, hd⟩)
      · exact hd.elim
  exact hinv.chooses (hinv.handle hallow.1).1 hallow.2 ((hrank.handle hinv hi).2.2 hd)

/-- A start with the preemptive scheduler. -/
def priorityBoot : Boot := { sampleBoot with schedulerType := .preemptivePriority }

/-- A system call of its init process. -/
def priorityCall (eax ebx : UInt32) : Interrupt :=
  .syscall ((priorityBoot.firstTick.1.mem.store32 12004 ebx).store32 12000 eax) 12000

/-- The state after the first `Fork`, the child then getting the priority `Low`. -/
def priorityState : TaskManager :=
  ((priorityBoot.firstTick.1.handle (priorityCall 57 0)).1.handle (priorityCall 10 2)).1

theorem priorityState_reachable : prioritySystem.Reachable priorityState := by
  have hfork : (priorityCall 57 0).call = some .fork := by decide +kernel
  have hlow : (priorityCall 10 2).call = some (.setLastTaskPriority 2) := by decide +kernel
  refine .step (.step (.init ⟨priorityBoot, ⟨.inl rfl, rfl⟩, rfl, rfl⟩) ⟨?_, rfl⟩) ⟨?_, rfl⟩
  · have hroom : priorityBoot.firstTick.1.numTasks < maxNumTasks := by decide +kernel
    rw [PriorityAllowed, Allowed]
    rw [hfork]
    exact hroom
  · have hready : (((priorityBoot.firstTick.1.handle (priorityCall 57 0)).1.tasks
        ((priorityBoot.firstTick.1.handle (priorityCall 57 0)).1.numTasks - 1)).state) = .ready := by
      decide +kernel
    rw [PriorityAllowed]
    rw [hlow]
    exact hready

/-- At the next tick the init process runs again, though the child is ready. -/
theorem runs_best_ready_after_fork :
    Chooses priorityBoot.start (.timer priorityBoot.mem priorityBoot.esp) priorityBoot.firstTick.1 ∧
      priorityState.Ordered ∧
      (priorityState.handle (.timer (fun _ => 0) 12000)).1.current = 0 ∧
      ((priorityState.handle (.timer (fun _ => 0) 12000)).1.tasks 1).state = .ready ∧
      Chooses priorityState (.timer (fun _ => 0) 12000)
        (priorityState.handle (.timer (fun _ => 0) 12000)).1 := by
  obtain ⟨hord, hchoose⟩ := runs_best_ready.2 priorityState priorityState_reachable
  exact ⟨runs_best_ready.1 priorityBoot ⟨.inl rfl, rfl⟩ rfl, hord, by decide +kernel, by decide +kernel,
    hchoose _ trivial trivial⟩

end GtuOs.TaskManager

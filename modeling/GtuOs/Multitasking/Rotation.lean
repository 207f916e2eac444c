import GtuOs.Multitasking.Interrupts
import GtuOs.Multitasking.Reprioritizing
import Mathlib.Data.List.Rotate

/-!
# Round robin

With the round-robin scheduler a tick rotates the runnable tasks, the running one followed by
the ready queue (`Cycle.tick`), so that as many ticks as there are runnable tasks run each of
them once, in the order of the queue, and end where they have started (`rotates_once`).
-/

namespace GtuOs.TaskManager

variable {s s' : TaskManager} {r : List ℕ} {mem : Memory} {esp : ℕ} {ticks : List (Memory × ℕ)}

/-- The state after ticks, each of which finds some memory and frame. -/
def afterTicks (s : TaskManager) (ticks : List (Memory × ℕ)) : TaskManager :=
  ticks.foldl (fun s t => (s.handle (.timer t.1 t.2)).1) s

/-- The tasks that the ticks run. -/
def dispatched (s : TaskManager) : List (Memory × ℕ) → List ℕ
  | [] => []
  | t :: ticks =>
    (s.handle (.timer t.1 t.2)).1.current :: dispatched (s.handle (.timer t.1 t.2)).1 ticks

/-- The ticks run every runnable task once, in the order of the queue, and restore the state. -/
structure RotatesOnce (s : TaskManager) (ticks : List (Memory × ℕ)) : Prop where
  currentTask : (s.afterTicks ticks).currentTask = s.currentTask
  queue : (s.afterTicks ticks).queue = s.queue
  state : ∀ k, ((s.afterTicks ticks).tasks k).state = (s.tasks k).state
  dispatched : s.dispatched ticks = s.queue ++ [s.current]
  nodup : (s.queue ++ [s.current]).Nodup
  /-- After every tick, the current task is the only runnable one that is running. -/
  running : ∀ ticks', ticks' <+: ticks → ∀ k ∈ s.queue ++ [s.current],
    ((s.afterTicks ticks').tasks k).state = .running ↔ k = (s.afterTicks ticks').current

/-- The runnable tasks are `r`, the running one first. -/
structure Cycle (s : TaskManager) (r : List ℕ) : Prop where
  scheduler : s.schedulerType = .roundRobin
  lifeCycle : s.lifeCycleType ≠ .lifeCycleB3 ∧ s.lifeCycleType ≠ .lifeCycleB4
  numTasks_pos : 0 < s.numTasks
  currentTask_nonneg : 0 ≤ s.currentTask
  queueLen_nonneg : 0 ≤ s.queueLen
  cons_eq : s.current :: s.queue = r
  pid_eq : ∀ k ∈ r, (s.tasks k).pid = k
  state_eq : ∀ k ∈ r, (s.tasks k).state = if k = s.current then .running else .ready

namespace Cycle

/-- Only the count and the queue change before the scheduling. -/
theorem handle_eq (h : s.Cycle r) (mem : Memory) (esp : ℕ) : s.handle (.timer mem esp) =
    ({ s with mem }.countInterrupt.preempted esp).schedule := by
  have hlife : { s with mem }.countInterrupt.lifeCycleType = s.lifeCycleType := by
    rw [countInterrupt_eq]
  have hcur : { s with mem }.countInterrupt.currentTask ≥ 0 := by
    rw [countInterrupt_eq]
    exact h.currentTask_nonneg
  have hpos : ¬{ s with mem }.numTasks ≤ 0 := Nat.not_le.2 h.numTasks_pos
  show { s with mem }.scheduleTick esp = _
  rw [scheduleTick_eq, if_neg hpos, if_neg fun hi => h.lifeCycle.2 hi.1, fifth_of_not, requeueCurrent,
    if_pos hcur]
  rintro ⟨-, hb4 | hb3⟩
  · exact h.lifeCycle.2 hb4
  · exact h.lifeCycle.1 hb3.1

/-- One tick: the head of the queue runs, and the running task goes to the tail. -/
theorem tick (h : s.Cycle r) (mem : Memory) (esp : ℕ) :
    (s.handle (.timer mem esp)).1.Cycle (r.rotate 1) ∧
      ∀ k ∉ r, ((s.handle (.timer mem esp)).1.tasks k).state = (s.tasks k).state := by
  let s₁ := { s with mem }.countInterrupt
  let s₂ := s₁.modifyTask s₁.current fun t => { t with cpustate := esp }
  have heq₁ : s₁ = { s with mem, interruptNumAfterCollatz := s₁.interruptNumAfterCollatz } :=
    countInterrupt_eq { s with mem }
  have hcur₁ : s₁.current = s.current := by
    rw [heq₁]
    rfl
  -- The preempted task is ready, at the tail of the queue.
  have heq : s₁.preempted esp = { s₁ with
      tasks := Function.update s.tasks s.current
        { s.tasks s.current with cpustate := esp, state := .ready }
      readyQueue := (s₁.preempted esp).readyQueue
      queueLen := s₁.queueLen + 1 } := by
    have htasks : s₁.tasks = s.tasks := by rw [heq₁]
    rw [← hcur₁, ← htasks, ← preempted_tasks]
    exact (addToReadyQueue_eq s₂ s₁.current).trans (by rw [← addToReadyQueue_tasks]; rfl)
  have hqueue : (s₁.preempted esp).queue = s.queue ++ [s.current] := by
    have hlen : 0 ≤ s₂.queueLen := by
      show 0 ≤ s₁.queueLen
      rw [heq₁]
      exact h.queueLen_nonneg
    have hsch : s₂.schedulerType = .roundRobin := by
      show s₁.schedulerType = .roundRobin
      rw [heq₁]
      exact h.scheduler
    rw [preempted, queue_addToReadyQueue hlen, enqueue, hsch, hcur₁]
    show s₁.queue ++ [s.current] = _
    rw [heq₁]
    rfl
  have hpid : ∀ k ∈ r, ((s₁.preempted esp).tasks k).pid = k := by
    intro k hk
    rw [heq]
    show (Function.update s.tasks s.current _ k).pid = k
    rcases eq_or_ne k s.current with rfl | hne
    · rw [Function.update_self]
      exact h.pid_eq _ hk
    · rw [Function.update_of_ne hne]
      exact h.pid_eq k hk
  have hrotate : r.rotate 1 = s.queue ++ [s.current] := by
    rw [← h.cons_eq, List.rotate_cons_succ, List.rotate_zero]
  -- The queue is not empty then: its head is dispatched.
  obtain ⟨t, q, htq⟩ := List.exists_cons_of_ne_nil (l := s.queue ++ [s.current]) (by simp)
  rw [htq] at hqueue hrotate
  have ht : t ∈ r := List.mem_rotate.1 (hrotate ▸ List.mem_cons_self)
  have hsched := schedule_eq hqueue (hpid t ht)
  have hrest := queue_schedule hqueue
  rw [h.handle_eq, hrotate]
  generalize s₁.preempted esp = s₃ at heq hsched hrest hpid
  rw [hsched] at hrest ⊢
  have hstate : ∀ k, (Function.update s₃.tasks t { s₃.tasks t with state := .running } k).state =
      if k = t then .running else if k = s.current then .ready else (s.tasks k).state := by
    intro k
    have htasks : s₃.tasks = Function.update s.tasks s.current
        { s.tasks s.current with cpustate := esp, state := .ready } := by rw [heq]
    split_ifs with hkt hks
    · rw [hkt, Function.update_self]
    · rw [Function.update_of_ne hkt, htasks, hks, Function.update_self]
    · rw [Function.update_of_ne hkt, htasks, Function.update_of_ne hks]
  have hmem : ∀ k ∈ t :: q, k ∈ r := fun k hk => List.mem_rotate.1 (hrotate ▸ hk)
  -- The fields of the cycle, one after the other, and the tasks outside it.
  refine ⟨⟨?_, ?_, ?_, Int.natCast_nonneg t, ?_, ?_, ?_, ?_⟩, ?_⟩
  · show s₃.schedulerType = .roundRobin
    rw [heq, heq₁]
    exact h.scheduler
  · show s₃.lifeCycleType ≠ .lifeCycleB3 ∧ s₃.lifeCycleType ≠ .lifeCycleB4
    rw [heq, heq₁]
    exact h.lifeCycle
  · show 0 < s₃.numTasks
    rw [heq, heq₁]
    exact h.numTasks_pos
  · show 0 ≤ s₃.queueLen - 1
    have hlen : s₃.queueLen = s.queueLen + 1 := by rw [heq, heq₁]
    have := h.queueLen_nonneg
    omega
  · exact congrArg (t :: ·) hrest
  · intro k hk
    show (Function.update s₃.tasks t { s₃.tasks t with state := .running } k).pid = k
    rcases eq_or_ne k t with rfl | hne
    · rw [Function.update_self]
      exact hpid k ht
    · rw [Function.update_of_ne hne]
      exact hpid k (hmem k hk)
  · intro k hk
    refine (hstate k).trans ?_
    show _ = if k = t then State.running else .ready
    rw [h.state_eq k (hmem k hk)]
    split_ifs <;> rfl
  · intro k hk
    have hkt : k ≠ t := fun heq => hk (heq ▸ ht)
    have hks : k ≠ s.current := fun heq => hk (heq ▸ h.cons_eq ▸ List.mem_cons_self)
    exact (hstate k).trans ((if_neg hkt).trans (if_neg hks))

/-- Several ticks. -/
theorem run (h : s.Cycle r) (ticks : List (Memory × ℕ)) :
    (s.afterTicks ticks).Cycle (r.rotate ticks.length) ∧
      ∀ k ∉ r, ((s.afterTicks ticks).tasks k).state = (s.tasks k).state := by
  induction ticks generalizing s r with
  | nil => exact ⟨(List.rotate_zero r).symm ▸ h, fun k _ => rfl⟩
  | cons t ticks ih =>
    obtain ⟨hnext, hframe⟩ := h.tick t.1 t.2
    obtain ⟨hend, hrest⟩ := ih hnext
    rw [List.rotate_rotate, Nat.add_comm] at hend
    refine ⟨hend, fun k hk => ?_⟩
    exact (hrest k (mt List.mem_rotate.1 hk)).trans (hframe k hk)

/-- The tasks that run during the ticks are the next ones of the cycle. -/
theorem dispatched_eq (h : s.Cycle r) (hle : ticks.length ≤ r.length) :
    s.dispatched ticks = (r.rotate 1).take ticks.length := by
  induction ticks generalizing s r with
  | nil => rfl
  | cons t ticks ih =>
    have hnext := (h.tick t.1 t.2).1
    have hcons := hnext.cons_eq
    have hlen : ticks.length ≤ (s.handle (.timer t.1 t.2)).1.queue.length := by
      have := congrArg List.length hcons
      rw [List.length_cons, List.length_rotate] at this
      rw [List.length_cons] at hle
      omega
    rw [← hcons] at hnext ⊢
    rw [dispatched, ih hnext (hlen.trans (Nat.le_succ _)), List.length_cons, List.take_succ_cons,
      List.rotate_cons_succ, List.rotate_zero, List.take_append_of_le_length hlen]

end Cycle

/-- As many ticks as there are runnable tasks run each of them once. -/
theorem rotates_once (h : s.QueueInv) (hsch : s.schedulerType = .roundRobin)
    (hlife : s.lifeCycleType = .lifeCycleA ∨ s.lifeCycleType = .lifeCycleB1 ∨
      s.lifeCycleType = .lifeCycleB2)
    (hcur : 0 ≤ s.currentTask) (hlt : s.current < s.numTasks)
    (hrun : (s.tasks s.current).state = .running) (hlen : ticks.length = s.queue.length + 1) :
    s.RotatesOnce ticks := by
  have hready : ∀ k ∈ s.queue, k < s.numTasks ∧ (s.tasks k).state = .ready := fun k hk =>
    (h.queueOk.mem_iff k).1 hk
  have hne : ∀ k ∈ s.queue, k ≠ s.current := by
    rintro k hk rfl
    cases hrun.symm.trans (hready _ hk).2
  -- The running task and those of the queue are the cycle.
  have hcycle : s.Cycle (s.current :: s.queue) := by
    refine ⟨hsch, ?_, Nat.zero_lt_of_lt hlt, hcur, h.queueOk.nonneg, rfl, ?_, ?_⟩
    · rcases hlife with hl | hl | hl <;> rw [hl] <;> decide
    · rintro k (_ | ⟨_, hk⟩)
      · exact h.pid_eq _ hlt
      · exact h.pid_eq k (hready k hk).1
    · rintro k (_ | ⟨_, hk⟩)
      · rw [if_pos rfl, hrun]
      · rw [if_neg (hne k hk), (hready k hk).2]
  have hrotate : (s.current :: s.queue).rotate 1 = s.queue ++ [s.current] := by
    rw [List.rotate_cons_succ, List.rotate_zero]
  have hlen' : ticks.length = (s.current :: s.queue).length := hlen
  -- A whole turn of the cycle ends where it has begun.
  obtain ⟨hend, hframe⟩ := hcycle.run ticks
  rw [hlen', List.rotate_length] at hend
  obtain ⟨hcurrent, hqueue⟩ := List.cons.inj hend.cons_eq
  have hnodup : (s.current :: s.queue).Nodup :=
    List.nodup_cons.2 ⟨fun hk => hne _ hk rfl, h.queueOk.nodup⟩
  have hmem : ∀ k, k ∈ s.queue ++ [s.current] ↔ k ∈ s.current :: s.queue := fun k => by
    rw [← hrotate, List.mem_rotate]
  refine ⟨?_, hqueue, fun k => ?_, ?_, ?_, ?_⟩
  · have hnat : (s.afterTicks ticks).currentTask.toNat = s.currentTask.toNat := hcurrent
    have := hend.currentTask_nonneg
    omega
  · by_cases hk : k ∈ s.current :: s.queue
    · rw [hend.state_eq k hk, hcycle.state_eq k hk, hcurrent]
    · exact hframe k hk
  · rw [hcycle.dispatched_eq hlen'.le, hrotate, List.take_of_length_le]
    rw [List.length_append, hlen, List.length_singleton]
  · rw [← hrotate]
    exact List.nodup_rotate.2 hnodup
  · intro ticks' _ k hk
    have hstate := (hcycle.run ticks').1.state_eq k (List.mem_rotate.2 ((hmem k).1 hk))
    rw [hstate]
    split_ifs with heq
    · exact iff_of_true rfl heq
    · exact iff_of_false (by decide) heq

/-- After a fork the parent and the child take turns. -/
theorem rotates_once_sampleFork :
    (sampleState.handle (sampleCall 57 0)).1.RotatesOnce
      [(sampleState.mem, 12000), (sampleState.mem, 16000)] := by
  have hsch : (sampleState.handle (sampleCall 57 0)).1.schedulerType = .roundRobin := by
    decide +kernel
  have hlife : (sampleState.handle (sampleCall 57 0)).1.lifeCycleType = .lifeCycleA := by
    decide +kernel
  have hcur : (sampleState.handle (sampleCall 57 0)).1.currentTask = 0 := by decide +kernel
  have hnum : (sampleState.handle (sampleCall 57 0)).1.numTasks = 2 := by decide +kernel
  have hrun : ((sampleState.handle (sampleCall 57 0)).1.tasks 0).state = .running := by
    decide +kernel
  have hlen : (sampleState.handle (sampleCall 57 0)).1.queue.length = 1 := by decide +kernel
  have hinv : (sampleState.handle (sampleCall 57 0)).1.QueueInv :=
    .of_base (inv_of_reachable sampleFork_reachable).toBase fun h => by
      rw [hsch] at h
      cases h
  generalize (sampleState.handle (sampleCall 57 0)).1 = s at *
  have hzero : s.current = 0 := congrArg Int.toNat hcur
  refine rotates_once hinv hsch (.inl hlife) hcur.ge ?_ ?_ (congrArg Nat.succ hlen.symm)
  · rw [hzero, hnum]
    decide
  · rw [hzero]
    exact hrun

end GtuOs.TaskManager

import GtuOs.Lib.Fifo
import GtuOs.Multitasking.Rotation

/-!
# Taking turns

With the round-robin scheduler the ready queue is first in, first out, in every run: tasks that become ready
go to its tail, and each decision of the scheduler is for its head (`RoundRobin.handle`). As each timer tick is
a decision, no ready task is passed over: the task at the place `k` of the queue is the one that the decision
`k` is for, and so it runs after at most `k + 1` ticks, whatever the tasks do in between (`served_in_turn`).
-/

namespace GtuOs.TaskManager

variable {s s' : TaskManager} {i : Interrupt} {t : ℕ} {mem : Memory} {esp : ℕ}

/-- The interrupt is a timer tick. -/
def Interrupt.isTimer : Interrupt → Bool
  | timer _ _ => true
  | syscall _ _ => false

/-- A run, with the tasks that the decisions in it are for. -/
inductive Serves (s : TaskManager) : List Interrupt → List ℕ → TaskManager → Prop
  | refl : Serves s [] [] s
  | decides {s' s'' : TaskManager} {is : List Interrupt} {served : List ℕ} {i : Interrupt} : Serves s is served s' →
    system.step s' i s'' → s'.Decides i → Serves s (is ++ [i]) (served ++ [s''.current]) s''
  | goesOn {s' s'' : TaskManager} {is : List Interrupt} {served : List ℕ} {i : Interrupt} : Serves s is served s' →
    system.step s' i s'' → ¬s'.Decides i → Serves s (is ++ [i]) served s''

/-- The handling `r` of an interrupt in the state `s`, with the round-robin scheduler: the tasks `served` are taken
    from the head of the queue. -/
structure RoundRobin (s : TaskManager) (served : List ℕ) (s' : TaskManager) : Prop where
  scheduler : s'.schedulerType = s.schedulerType
  fifo : Fifo s.queue served s'.queue

namespace RoundRobin

/-- What changes neither the scheduler nor the queue. -/
theorem of_eq (hsch : s'.schedulerType = s.schedulerType) (hqueue : s'.readyQueue = s.readyQueue)
    (hlen : s'.queueLen = s.queueLen) : s.RoundRobin [] s' := by
  refine ⟨hsch, ?_⟩
  rw [queue, queue, hqueue, hlen]
  exact .refl _

/-- A decision, in a state to which the queue has come by additions. -/
theorem schedule (h : s.RoundRobin [] s') (hs' : s'.InvAt none) :
    s.RoundRobin [s'.schedule.1.current] s'.schedule.1 := by
  obtain ⟨t, q, hq, ht, -⟩ := hs'.exists_head
  have heq := schedule_eq hq (hs'.pid_eq t ht)
  have hcur : s'.schedule.1.current = t := by rw [heq]; rfl
  refine ⟨?_, ?_⟩
  · rw [← h.scheduler, heq]
  · rw [hcur, queue_schedule hq, ← List.nil_append [t]]
    exact h.fifo.trans (hq ▸ .serve t q)

/-- A task that becomes ready goes to the tail. -/
theorem addToReadyQueue (h : s.RoundRobin [] s') (hsch : s.schedulerType = .roundRobin) (hlen : 0 ≤ s'.queueLen) :
    s.RoundRobin [] (s'.addToReadyQueue t) := by
  refine ⟨by rw [addToReadyQueue_eq]; exact h.scheduler, ?_⟩
  rw [queue_addToReadyQueue hlen, enqueue, h.scheduler, hsch, ← List.append_nil []]
  exact h.fifo.trans (.add _ _)

theorem saved (s : TaskManager) (esp : ℕ) : s.RoundRobin [] (s.saved esp) := .of_eq rfl rfl rfl

theorem scheduleTick (hs : s.Inv) (hsch : s.schedulerType = .roundRobin) (esp : ℕ) :
    s.RoundRobin [(s.scheduleTick esp).1.current] (s.scheduleTick esp).1 := by
  rw [hs.scheduleTick_eq]
  exact ((saved s esp).addToReadyQueue hsch hs.queueOk.nonneg).schedule (hs.preempted esp)

theorem exit (hs : s.Inv) (hsch : s.schedulerType = .roundRobin) (h0 : s.current ≠ 0) :
    s.RoundRobin [s.exit.1.current] s.exit.1 := by
  by_cases hw : ∃ p < s.numTasks, WaitsFor s.procs p s.current
  · obtain ⟨p, hp, hw⟩ := hw
    rw [hs.exit_eq_of_waitsFor hp hw]
    let s₁ := (s.modifyTask s.current fun t => { t with state := .terminated, parentTookInWait := true }).modifyTask p
      fun t => { t with waitingChild := false }
    have hadd : s.RoundRobin [] (s₁.addToReadyQueue p) :=
      (of_eq rfl rfl rfl : s.RoundRobin [] s₁).addToReadyQueue hsch hs.queueOk.nonneg
    have hwoken : s.RoundRobin [] (s.wokenParent p) := ⟨hadd.scheduler, hadd.fifo⟩
    exact hwoken.schedule (hs.wokenParent h0 hp hw)
  · push Not at hw
    rw [hs.exit_eq_of_not_waitsFor hw]
    let s₁ := s.modifyTask s.current fun t => { t with state := .terminated }
    exact (of_eq rfl rfl rfl : s.RoundRobin [] s₁).schedule (hs.exited h0 hw)

theorem fork (hs : s.Inv) (hsch : s.schedulerType = .roundRobin) (esp : ℕ) (hroom : s.numTasks < maxNumTasks) :
    s.RoundRobin [] (s.fork esp) := by
  have hne : s.current ≠ s.numTasks := hs.current_lt.ne
  have hpush : ∀ (mem : Memory) (task : Task), s.RoundRobin [] ((s.saved esp).pushTask mem task) := by
    intro mem task
    let s₁ : TaskManager := { s.saved esp with mem, tasks := Function.update (s.saved esp).tasks s.numTasks task }
    have hadd : s.RoundRobin [] (s₁.addToReadyQueue s.numTasks) :=
      (of_eq rfl rfl rfl : s.RoundRobin [] s₁).addToReadyQueue hsch hs.queueOk.nonneg
    exact ⟨hadd.scheduler, hadd.fifo⟩
  rw [fork_eq hroom hne, recordFork_eq hne]
  exact ⟨(hpush _ _).scheduler, (hpush _ _).fifo⟩

/-- `Waitpid` decides if it blocks. -/
theorem waitpid (hs : s.Inv) (pid : UInt32) (esp : ℕ) :
    s.RoundRobin [] (s.waitpid pid esp).1 ∧ ((s.waitpid pid esp).1.tasks s.current).state ≠ .blocked ∨
      s.RoundRobin [(s.waitpid pid esp).1.current] (s.waitpid pid esp).1 ∧
        ((s.waitpid pid esp).1.tasks s.current).state = .blocked := by
  have hres := hs.waitpid_result pid esp
  have hrun : ((s.saved esp).tasks s.current).state = .running := by
    rw [saved_tasks_current]
    exact hs.state_current
  generalize s.waitpid pid esp = r at hres ⊢
  cases hres with
  | @reap k _ _ _ hterm _ =>
    refine .inl ⟨.of_eq rfl rfl rfl, ?_⟩
    have hne : s.current ≠ k := fun he => by
      rw [← he, hs.state_current] at hterm
      cases hterm
    have hself : (s.reaped esp k).tasks s.current = (s.saved esp).tasks s.current :=
      Function.update_of_ne hne _ _
    rw [hself, hrun]
    exact State.noConfusion
  | refuse =>
    refine .inl ⟨.of_eq rfl rfl rfl, ?_⟩
    have hself : ((s.refused esp).tasks s.current).state = ((s.saved esp).tasks s.current).state := by
      rw [refused, modifyTask_tasks, Function.update_self]
    rw [hself, hrun]
    exact State.noConfusion
  | @block w hw hlive hdead =>
    have hinv := hs.blockedFor esp hw hlive hdead
    exact .inr ⟨(of_eq rfl rfl rfl : s.RoundRobin [] (s.blockedFor esp w)).schedule hinv, Inv.state_blockedFor hinv⟩

/-- **One interrupt**: a decision is for the head of the queue, and otherwise nothing is taken from it. -/
theorem handle (hs : s.Inv) (hsch : s.schedulerType = .roundRobin) (hi : s.Allowed i) :
    s.Decides i ∧ s.RoundRobin [(s.handle i).1.current] (s.handle i).1 ∨
      ¬s.Decides i ∧ s.RoundRobin [] (s.handle i).1 := by
  cases i with
  | timer mem esp =>
    obtain ⟨hscheduler, hfifo⟩ := scheduleTick (hs.withMem mem) hsch esp
    exact .inl ⟨trivial, hscheduler, hfifo⟩
  | syscall mem esp =>
    have hs := hs.withMem mem
    have hcall : Interrupt.call (.syscall mem esp) = some (CPUState.load mem esp).syscall := rfl
    have heq : s.handle (.syscall mem esp) = { s with mem }.handleInterrupt esp := rfl
    rw [Allowed] at hi
    rw [Decides]
    rw [heq]
    rw [hcall] at hi ⊢
    rw [TaskManager.handleInterrupt]
    cases hsys : (CPUState.load mem esp).syscall <;> rw [hsys] at hi <;> dsimp only at hi ⊢
    case printf => exact .inr ⟨id, .of_eq rfl rfl rfl⟩
    case fork =>
      obtain ⟨hscheduler, hfifo⟩ := fork hs hsch esp hi
      exact .inr ⟨id, hscheduler, hfifo⟩
    case forkpid => exact .inr ⟨id, .of_eq rfl rfl rfl⟩
    case execve entrypoint =>
      rw [execve_eq]
      exact .inr ⟨id, .of_eq rfl rfl rfl⟩
    case waitpid pid =>
      rcases waitpid hs pid esp with ⟨⟨hscheduler, hfifo⟩, hst⟩ | ⟨⟨hscheduler, hfifo⟩, hst⟩
      · exact .inr ⟨hst, hscheduler, hfifo⟩
      · exact .inl ⟨hst, hscheduler, hfifo⟩
    case exit =>
      obtain ⟨hscheduler, hfifo⟩ := exit hs hsch hi
      exact .inl ⟨trivial, hscheduler, hfifo⟩
    case other => exact .inr ⟨id, .of_eq rfl rfl rfl⟩

end RoundRobin

/-- A run serves at each tick, and from the head of the queue. -/
theorem Serves.roundRobin {is : List Interrupt} {served : List ℕ} (h : system.Reachable s)
    (hsch : s.schedulerType = .roundRobin) (hserves : Serves s is served s') :
    system.Reachable s' ∧ s.RoundRobin served s' ∧ is.countP Interrupt.isTimer ≤ served.length := by
  induction hserves with
  | refl => exact ⟨h, .of_eq rfl rfl rfl, le_rfl⟩
  | @decides s' s'' is served i _ hstep hdecides ih =>
    obtain ⟨hreach, hround, hle⟩ := ih
    obtain ⟨hallowed, rfl⟩ := hstep
    have hhandle := RoundRobin.handle (inv_of_reachable hreach) (hround.scheduler.trans hsch) hallowed
    rcases hhandle with ⟨-, h'⟩ | ⟨hnot, -⟩
    · refine ⟨hreach.step ⟨hallowed, rfl⟩, ⟨h'.scheduler.trans hround.scheduler, hround.fifo.trans h'.fifo⟩, ?_⟩
      rw [List.countP_append, List.length_append, List.length_singleton]
      exact Nat.add_le_add hle List.countP_le_length
    · exact absurd hdecides hnot
  | @goesOn s' s'' is served i _ hstep hnot ih =>
    obtain ⟨hreach, hround, hle⟩ := ih
    obtain ⟨hallowed, rfl⟩ := hstep
    have hhandle := RoundRobin.handle (inv_of_reachable hreach) (hround.scheduler.trans hsch) hallowed
    rcases hhandle with ⟨hdecides, -⟩ | ⟨-, h'⟩
    · exact absurd hdecides hnot
    · refine ⟨hreach.step ⟨hallowed, rfl⟩, ⟨h'.scheduler.trans hround.scheduler, ?_⟩, ?_⟩
      · rw [← List.append_nil served]
        exact hround.fifo.trans h'.fifo
      · -- A tick would have been a decision.
        cases i with
        | timer mem esp => exact absurd trivial hnot
        | syscall mem esp =>
          rw [List.countP_append]
          exact hle

/-- **Nobody starves.** With the round-robin scheduler, in every run the tasks are served in the order in which they
    have become ready, and a task that is ready at some time is served after at most as many ticks as there are
    tasks: the decision for it is the next one but those for the tasks before it. -/
theorem served_in_turn {is : List Interrupt} {served : List ℕ} (h : system.Reachable s)
    (hsch : s.schedulerType = .roundRobin) (hserves : Serves s is served s') :
    Fifo s.queue served s'.queue ∧ ∀ t < s.numTasks, (s.tasks t).state = .ready →
      ∃ k < s.numTasks, s.queue[k]? = some t ∧ (k < is.countP Interrupt.isTimer → served[k]? = some t) := by
  obtain ⟨-, hround, hle⟩ := hserves.roundRobin h hsch
  have hqueue := (inv_of_reachable h).queueOk
  refine ⟨hround.fifo, fun t ht hready => ?_⟩
  obtain ⟨k, hk, hget⟩ := List.getElem_of_mem ((hqueue.mem_iff t).2 ⟨ht, hready⟩)
  have hsub : s.queue ⊆ List.range s.numTasks := fun j hj => List.mem_range.2 ((hqueue.mem_iff j).1 hj).1
  have hlen : s.queue.length ≤ s.numTasks := by
    simpa using (List.subperm_of_subset hqueue.nodup hsub).length_le
  have hplace : s.queue[k]? = some t := List.getElem?_eq_some_iff.2 ⟨hk, hget⟩
  exact ⟨k, lt_of_lt_of_le hk hlen, hplace, fun hticks =>
    (hround.fifo.getElem?_eq hk (lt_of_lt_of_le hticks hle)).trans hplace⟩

/-- After a fork, the next tick serves the child. -/
theorem served_in_turn_sampleFork :
    let s := (sampleState.handle (sampleCall 57 0)).1
    s.numTasks = 2 ∧ (s.tasks 1).state = .ready ∧
      ∀ t < s.numTasks, (s.tasks t).state = .ready → ∃ k < s.numTasks, s.queue[k]? = some t ∧
        (k < 1 → [(s.handle (.timer s.mem 12000)).1.current][k]? = some t) := by
  intro s
  have hsch : s.schedulerType = .roundRobin := by decide +kernel
  have hserves : Serves s [.timer s.mem 12000] [(s.handle (.timer s.mem 12000)).1.current]
      (s.handle (.timer s.mem 12000)).1 := .decides .refl ⟨trivial, rfl⟩ trivial
  exact ⟨by decide +kernel, by decide +kernel, (served_in_turn sampleFork_reachable hsch hserves).2⟩

end GtuOs.TaskManager

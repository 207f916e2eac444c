import GtuOs.Multitasking.Priority

/-!
# Changing the priority of the last task

`SetLastTaskPriority` takes the last task out of the ready queue, if it is there, and adds it
in any case, which makes it ready. So, in any state with a proper ready queue (`QueueInv`), it
changes a priority and nothing else (`OnlyReprioritizes`) exactly when the last task is ready
(`onlyReprioritizes_iff`).
-/

namespace GtuOs.TaskManager

variable {s s' : TaskManager} {t : ℕ} {p : Priority}

/-- The ready queue holds exactly the ready tasks, each once, in the order of the preemptive
    scheduler if this is the one. -/
structure QueueInv (s : TaskManager) : Prop where
  pid_eq : ∀ i < s.numTasks, (s.tasks i).pid = i
  numTasks_le : s.numTasks ≤ maxNumTasks
  queueOk : s.QueueOk s.readyTasks
  sorted : s.schedulerType = .preemptivePriority → s.queue.Pairwise fun j k => s.rank j ≤ s.rank k

/-- From `s` to `s'` the task `t` gets the priority `p`. Its place in the queue may change if it is
    ready, and nothing else does. -/
structure Reprioritizes (s s' : TaskManager) (t : ℕ) (p : Priority) : Prop where
  eq : ∃ readyQueue, s' =
    { s with readyQueue, tasks := Function.update s.tasks t { s.tasks t with priority := p } }
  mem_iff : ∀ k, k ∈ s'.queue ↔ k ∈ s.queue
  erase_eq : s'.queue.erase t = s.queue.erase t
  eq_of_not_ready : (s.tasks t).state ≠ .ready → s'.queue = s.queue
  queueInv : s'.QueueInv

/-- The last task, if there is one, gets the priority `p`. -/
def OnlyReprioritizes (s s' : TaskManager) (p : Priority) : Prop :=
  if s.numTasks = 0 then s' = s else s.Reprioritizes s' (s.numTasks - 1) p

namespace QueueInv

/-- The invariants of runs imply this one. -/
theorem of_base (h : s.Base) (hord : s.schedulerType = .preemptivePriority → s.Ordered) : s.QueueInv :=
  ⟨h.pid_eq, h.numTasks_le, h.queueOk, fun hsch => (hord hsch).imp le_of_lt⟩

theorem mem_queue (h : s.QueueInv) (ht : t < s.numTasks) : t ∈ s.queue ↔ (s.tasks t).state = .ready := by
  rw [h.queueOk.mem_iff, mem_readyTasks]
  exact and_iff_right ht

/-- The queue without the task. -/
theorem queue_taken (h : s.QueueInv) (ht : t < s.numTasks) :
    (s.removeFromReadyQueue (s.tasks t).pid).queue = s.queue.erase t := by
  rw [h.pid_eq t ht]
  exact queue_removeFromReadyQueue fun k hk => h.pid_eq k ((h.queueOk.mem_iff k).1 hk).1

/-- The queue with the task added again, wherever it goes. -/
theorem queue_reprioritize (h : s.QueueInv) (ht : t < s.numTasks) (p : Priority) :
    ∃ l₁ l₂, s.queue.erase t = l₁ ++ l₂ ∧ (s.reprioritize t p).queue = l₁ ++ t :: l₂ := by
  have hnonneg := (reprioritize_aux h.pid_eq h.queueOk ht p).nonneg
  obtain ⟨l₁, l₂, hq, henqueue⟩ := enqueue_split
    ((s.removeFromReadyQueue (s.tasks t).pid).modifyTask t fun u => { u with priority := p }) t
  refine ⟨l₁, l₂, (h.queue_taken ht).symm.trans hq, ?_⟩
  rw [reprioritize, queue_addToReadyQueue hnonneg, henqueue]

theorem mem_queue_reprioritize (h : s.QueueInv) (ht : t < s.numTasks) (p : Priority) :
    t ∈ (s.reprioritize t p).queue := by
  obtain ⟨l₁, l₂, -, hq⟩ := h.queue_reprioritize ht p
  rw [hq]
  exact List.mem_append_right _ List.mem_cons_self

/-- The insertion sort takes the new priority into account. -/
theorem sorted_reprioritize (h : s.QueueInv) (ht : t < s.numTasks) (p : Priority)
    (hsch : s.schedulerType = .preemptivePriority) :
    (s.reprioritize t p).queue.Pairwise fun j k => (s.reprioritize t p).rank j ≤ (s.reprioritize t p).rank k := by
  let s₁ := (s.removeFromReadyQueue (s.tasks t).pid).modifyTask t fun u => { u with priority := p }
  have hq₁ : s₁.queue = s.queue.erase t := h.queue_taken ht
  have hok : s₁.QueueOk (s.readyTasks \ {t}) := reprioritize_aux h.pid_eq h.queueOk ht p
  have htasks₁ : s₁.tasks = Function.update s.tasks t { s.tasks t with priority := p } := by
    show Function.update _ t _ = _
    rw [removeFromReadyQueue_eq]
  have hsch₁ : s₁.schedulerType = .preemptivePriority := by
    show (s.removeFromReadyQueue _).schedulerType = _
    rw [removeFromReadyQueue_eq]
    exact hsch
  -- The rank depends on the priority and the arrival, not on the state.
  have hrank : (s.reprioritize t p).rank = s₁.rank := by
    funext k
    refine rank_congr ?_ ?_ <;> rw [reprioritize, addToReadyQueue_tasks] <;>
      rcases eq_or_ne k t with rfl | hk
    · rw [Function.update_self]
    · rw [Function.update_of_ne hk]
    · rw [Function.update_self]
    · rw [Function.update_of_ne hk]
  have hsorted₁ : s₁.queue.Pairwise fun j k => s₁.rank j ≤ s₁.rank k := by
    rw [hq₁]
    refine ((h.sorted hsch).sublist List.erase_sublist).imp_of_mem fun {j k} hj hk hjk => ?_
    have hne : ∀ j ∈ s.queue.erase t, s₁.rank j = s.rank j := fun j hj => by
      refine rank_of_tasks_eq ?_
      rw [htasks₁, Function.update_of_ne (h.queueOk.nodup.mem_erase_iff.1 hj).1]
    rwa [hne j hj, hne k hk]
  rw [hrank, reprioritize, queue_addToReadyQueue hok.nonneg, enqueue, hsch₁]
  refine Buffer.insertBack_pairwise _ (r := fun j k => s₁.rank j ≤ s₁.rank k)
    (fun _ _ _ => le_trans) hsorted₁ (fun k _ hlt => ?_) fun k _ hnlt => ?_
  · exact (goesBefore_iff.1 hlt).le
  · exact not_lt.1 fun hlt => hnlt (goesBefore_iff.2 hlt)

/-- A ready task gets another priority, and nothing else happens. -/
theorem reprioritizes (h : s.QueueInv) (ht : t < s.numTasks) (hst : (s.tasks t).state = .ready)
    (p : Priority) : s.Reprioritizes (s.reprioritize t p) t p := by
  obtain ⟨l₁, l₂, herase, hq⟩ := h.queue_reprioritize ht p
  have hmem : t ∈ s.queue := (h.mem_queue ht).2 hst
  -- It is taken out of the queue and put in again.
  have hperm : (s.reprioritize t p).queue.Perm s.queue := by
    rw [hq]
    refine List.perm_middle.trans ?_
    rw [← herase]
    exact (List.perm_cons_erase hmem).symm
  have hok := (reprioritize_aux h.pid_eq h.queueOk ht p).add (t := t) (fun hm => hm.2 rfl)
    (lt_of_lt_of_le ht h.numTasks_le)
  have hlen : (s.reprioritize t p).queueLen = s.queueLen := by
    have hnonneg := h.queueOk.nonneg
    have hnonneg' : 0 ≤ (s.reprioritize t p).queueLen := hok.nonneg
    have hl := hperm.length_eq
    rw [length_queue, length_queue] at hl
    omega
  -- It was ready, so that nothing but its priority changes.
  have heq : s.reprioritize t p = { s with
      readyQueue := (s.reprioritize t p).readyQueue
      tasks := Function.update s.tasks t { s.tasks t with priority := p } } := by
    conv_lhs => rw [reprioritize_eq, hlen]
    rw [← hst]
  have htasks : (s.reprioritize t p).tasks =
      Function.update s.tasks t { s.tasks t with priority := p } := by rw [heq]
  have hnum : (s.reprioritize t p).numTasks = s.numTasks := by rw [heq]
  have hready : (s.reprioritize t p).readyTasks = s.readyTasks := by
    ext k
    rw [mem_readyTasks, mem_readyTasks, hnum, htasks]
    rcases eq_or_ne k t with rfl | hk
    · rw [Function.update_self]
    · rw [Function.update_of_ne hk]
  refine ⟨⟨_, heq⟩, fun k => hperm.mem_iff, ?_, fun hn => absurd hst hn, ⟨fun k hk => ?_, ?_, ?_, fun hsch => ?_⟩⟩
  · have hnot : t ∉ l₁ ++ l₂ := fun hm => (h.queueOk.nodup.mem_erase_iff.1 (herase ▸ hm)).1 rfl
    rw [hq, herase, List.erase_append_right _ fun hm => hnot (List.mem_append_left _ hm),
      List.erase_cons_head]
  · rw [hnum] at hk
    rw [htasks]
    rcases eq_or_ne k t with rfl | hne
    · rw [Function.update_self]
      exact h.pid_eq k hk
    · rw [Function.update_of_ne hne]
      exact h.pid_eq k hk
  · rw [hnum]
    exact h.numTasks_le
  · have hmem' : t ∈ s.readyTasks := ⟨ht, hst⟩
    rw [hready]
    rwa [Set.insert_sdiff_singleton, Set.insert_eq_of_mem hmem'] at hok
  · refine h.sorted_reprioritize ht p ?_
    rw [heq] at hsch
    exact hsch

/-- A task that is not ready comes into the queue all the same. -/
theorem ready_of_reprioritizes (h : s.QueueInv) (ht : t < s.numTasks)
    (hr : s.Reprioritizes (s.reprioritize t p) t p) : (s.tasks t).state = .ready :=
  (h.mem_queue ht).1 ((hr.mem_iff t).1 (h.mem_queue_reprioritize ht p))

/-- **`SetLastTaskPriority`** changes a priority and nothing else exactly when the last task is
    ready, if there is a task at all. -/
theorem onlyReprioritizes_iff (h : s.QueueInv) (priority : UInt32) :
    s.OnlyReprioritizes (s.setLastTaskPriority priority) priority.toInt32.toInt ↔
      s.numTasks = 0 ∨ (s.tasks (s.numTasks - 1)).state = .ready := by
  rw [OnlyReprioritizes]
  rcases Nat.eq_zero_or_pos s.numTasks with hzero | hpos
  · rw [if_pos hzero]
    refine iff_of_true (if_neg ?_) (.inl hzero)
    omega
  · have hlt : s.numTasks - 1 < s.numTasks := by omega
    rw [if_neg hpos.ne', setLastTaskPriority_eq hpos, or_iff_right hpos.ne']
    exact ⟨h.ready_of_reprioritizes hlt, fun hst => h.reprioritizes hlt hst _⟩

end QueueInv

/-! ## Two calls -/

/-- After a fork the last task is ready. -/
theorem onlyReprioritizes_priorityState :
    priorityState.OnlyReprioritizes (priorityState.setLastTaskPriority 0) 0 := by
  obtain ⟨hinv, hrank⟩ := ranked_of_reachable priorityState_reachable
  have hqueue : priorityState.QueueInv := .of_base hinv.toBase fun _ => hrank.ordered
  exact (hqueue.onlyReprioritizes_iff 0).2 (.inr (by decide +kernel))

/-- Before any fork the last task is the running one. -/
theorem not_onlyReprioritizes : priorityBoot.firstTick.1.QueueInv ∧
    ¬priorityBoot.firstTick.1.OnlyReprioritizes (priorityBoot.firstTick.1.setLastTaskPriority 2) 2 := by
  have hreach : prioritySystem.Reachable priorityBoot.firstTick.1 :=
    .init ⟨priorityBoot, ⟨.inl rfl, rfl⟩, rfl, rfl⟩
  obtain ⟨hinv, hrank⟩ := ranked_of_reachable hreach
  have hnum : priorityBoot.firstTick.1.numTasks = 1 := by decide +kernel
  have hrun : (priorityBoot.firstTick.1.tasks 0).state = .running := by decide +kernel
  have hafter : ((priorityBoot.firstTick.1.setLastTaskPriority 2).tasks 0).state = .ready := by
    decide +kernel
  refine ⟨.of_base hinv.toBase fun _ => hrank.ordered, fun h => ?_⟩
  rw [OnlyReprioritizes, hnum] at h
  obtain ⟨⟨readyQueue, heq⟩, -⟩ := h
  rw [heq] at hafter
  dsimp only at hafter
  rw [Function.update_self, hrun] at hafter
  cases hafter

end GtuOs.TaskManager

import GtuOs.Multitasking.TaskManager
import Mathlib.Data.Finset.Card
import Mathlib.Data.Set.Insert

/-!
# The ready queue

The ready queue as a list (`queue`), and what the operations do to it, to the
tasks and to the rest of the state: adding a task inserts it (`enqueue`) and
makes it ready; scheduling pops the head and makes it running.

`QueueOk s R` says that the queue holds exactly the tasks of `R`, each once,
and that no index out of the array was ever written.
-/

namespace GtuOs.TaskManager

variable {s : TaskManager} {t : ℕ}

/-- The tasks in the ready queue, in order. -/
def queue (s : TaskManager) : List ℕ := s.readyQueue.toList s.queueLen.toNat

@[simp] theorem length_queue (s : TaskManager) : s.queue.length = s.queueLen.toNat := by
  simp [queue]

/-- The queue after adding the task `t`. -/
def enqueue (s : TaskManager) (t : ℕ) : List ℕ :=
  match s.schedulerType with
  | .roundRobin => s.queue ++ [t]
  | .preemptivePriority => Buffer.insertBack (s.goesBefore t) t s.queue

theorem enqueue_perm (s : TaskManager) (t : ℕ) : (s.enqueue t).Perm (t :: s.queue) := by
  rw [enqueue]
  cases s.schedulerType with
  | roundRobin => exact List.perm_append_comm
  | preemptivePriority => exact Buffer.insertBack_perm _ _ _

/-- The other tasks keep their order. -/
theorem enqueue_split (s : TaskManager) (t : ℕ) :
    ∃ l₁ l₂, s.queue = l₁ ++ l₂ ∧ s.enqueue t = l₁ ++ t :: l₂ := by
  rw [enqueue]
  cases s.schedulerType with
  | roundRobin => exact ⟨s.queue, [], (List.append_nil _).symm, rfl⟩
  | preemptivePriority => exact ⟨_, _, List.rdropWhile_append_rtakeWhile.symm, rfl⟩

@[simp] theorem modifyTask_tasks (s : TaskManager) (i : ℕ) (f : Task → Task) :
    (s.modifyTask i f).tasks = Function.update s.tasks i (f (s.tasks i)) := rfl

/-! ## Adding a task -/

/-- Adding a task sets its state and changes nothing else but the queue. -/
theorem addToReadyQueue_eq (s : TaskManager) (t : ℕ) : s.addToReadyQueue t =
    { s with
      tasks := Function.update s.tasks t { s.tasks t with state := .ready }
      readyQueue := (s.addToReadyQueue t).readyQueue
      queueLen := s.queueLen + 1 } := by
  rw [addToReadyQueue, addToReadyQueueRoundRobin, addToReadyQueuePreemptivePriority, modifyTask]
  cases s.schedulerType <;> rfl

@[simp] theorem addToReadyQueue_tasks (s : TaskManager) (t : ℕ) : (s.addToReadyQueue t).tasks =
    Function.update s.tasks t { s.tasks t with state := .ready } := by rw [addToReadyQueue_eq]
@[simp] theorem addToReadyQueue_mem (s : TaskManager) (t : ℕ) :
    (s.addToReadyQueue t).mem = s.mem := by rw [addToReadyQueue_eq]
@[simp] theorem addToReadyQueue_numTasks (s : TaskManager) (t : ℕ) :
    (s.addToReadyQueue t).numTasks = s.numTasks := by rw [addToReadyQueue_eq]
@[simp] theorem addToReadyQueue_currentTask (s : TaskManager) (t : ℕ) :
    (s.addToReadyQueue t).currentTask = s.currentTask := by rw [addToReadyQueue_eq]
@[simp] theorem addToReadyQueue_nextArrivalOrder (s : TaskManager) (t : ℕ) :
    (s.addToReadyQueue t).nextArrivalOrder = s.nextArrivalOrder := by rw [addToReadyQueue_eq]
@[simp] theorem addToReadyQueue_base (s : TaskManager) (t : ℕ) :
    (s.addToReadyQueue t).base = s.base := by rw [addToReadyQueue_eq]
@[simp] theorem addToReadyQueue_queueLen (s : TaskManager) (t : ℕ) :
    (s.addToReadyQueue t).queueLen = s.queueLen + 1 := by rw [addToReadyQueue_eq]

/-- The order of the insertion only depends on priorities and arrival orders. -/
theorem goesBefore_modifyTask (s : TaskManager) (t : ℕ) {f : Task → Task}
    (hp : (f (s.tasks t)).priority = (s.tasks t).priority)
    (ha : (f (s.tasks t)).arrivalOrder = (s.tasks t).arrivalOrder) :
    (s.modifyTask t f).goesBefore = s.goesBefore := by
  have hprio : ∀ i, ((s.modifyTask t f).tasks i).priority = (s.tasks i).priority := fun i => by
    rcases eq_or_ne i t with rfl | hne
    · rw [modifyTask_tasks, Function.update_self, hp]
    · rw [modifyTask_tasks, Function.update_of_ne hne]
  have hord : ∀ i, ((s.modifyTask t f).tasks i).arrivalOrder = (s.tasks i).arrivalOrder := fun i => by
    rcases eq_or_ne i t with rfl | hne
    · rw [modifyTask_tasks, Function.update_self, ha]
    · rw [modifyTask_tasks, Function.update_of_ne hne]
  funext i j
  simp only [goesBefore, hprio, hord]

/-- `AddToReadyQueue` writes the queue as one of its two variants does. -/
theorem addToReadyQueue_of_roundRobin (h : s.schedulerType = .roundRobin) :
    (s.addToReadyQueue t).readyQueue = s.readyQueue.set s.queueLen.toNat t := by
  simp only [addToReadyQueue, modifyTask, h, addToReadyQueueRoundRobin]

theorem addToReadyQueue_of_preemptivePriority (h : s.schedulerType = .preemptivePriority) :
    (s.addToReadyQueue t).readyQueue =
      (((s.readyQueue.set s.queueLen.toNat t).openSlot (s.goesBefore t) s.queueLen.toNat).1.set
        ((s.readyQueue.set s.queueLen.toNat t).openSlot (s.goesBefore t) s.queueLen.toNat).2 t) := by
  rw [← goesBefore_modifyTask s t (f := fun u => { u with state := .ready }) rfl rfl]
  simp only [addToReadyQueue, modifyTask, h, addToReadyQueuePreemptivePriority]

theorem queue_addToReadyQueue (h : 0 ≤ s.queueLen) : (s.addToReadyQueue t).queue = s.enqueue t := by
  have hlen : (s.queueLen + 1).toNat = s.queueLen.toNat + 1 := by omega
  rw [queue, enqueue]
  rw [addToReadyQueue_queueLen, hlen]
  cases hsch : s.schedulerType with
  | roundRobin =>
    rw [addToReadyQueue_of_roundRobin hsch]
    exact Buffer.toList_set_end _ _ _
  | preemptivePriority =>
    rw [addToReadyQueue_of_preemptivePriority hsch, Buffer.toList_set_openSlot]
    congr 1
    exact Buffer.toList_congr fun i hi => by rw [Buffer.get_set, if_neg (Nat.ne_of_lt hi)]

/-- Adding a task commutes with the update of another one that keeps its rank. -/
theorem addToReadyQueue_modifyTask {i : ℕ} (hne : i ≠ t) {f : Task → Task}
    (hp : (f (s.tasks i)).priority = (s.tasks i).priority)
    (ha : (f (s.tasks i)).arrivalOrder = (s.tasks i).arrivalOrder) :
    (s.modifyTask i f).addToReadyQueue t = (s.addToReadyQueue t).modifyTask i f := by
  have hq : ((s.modifyTask i f).addToReadyQueue t).readyQueue = (s.addToReadyQueue t).readyQueue := by
    cases hsch : s.schedulerType with
    | roundRobin =>
      rw [addToReadyQueue_of_roundRobin hsch]
      exact addToReadyQueue_of_roundRobin (s := s.modifyTask i f) hsch
    | preemptivePriority =>
      rw [addToReadyQueue_of_preemptivePriority hsch,
        addToReadyQueue_of_preemptivePriority (s := s.modifyTask i f) hsch,
        goesBefore_modifyTask s i hp ha]
      rfl
  rw [addToReadyQueue_eq, hq, addToReadyQueue_eq s t]
  simp only [modifyTask]
  rw [Function.update_of_ne hne.symm, Function.update_of_ne hne, Function.update_comm hne]

/-- The last index written is the end of the queue. -/
theorem top_addToReadyQueue (s : TaskManager) (t : ℕ) :
    (s.addToReadyQueue t).readyQueue.top = max s.readyQueue.top (s.queueLen.toNat + 1) := by
  cases hsch : s.schedulerType with
  | roundRobin => rw [addToReadyQueue_of_roundRobin hsch, Buffer.top_set]
  | preemptivePriority =>
    have hset : (s.readyQueue.set s.queueLen.toNat t).top = max s.readyQueue.top (s.queueLen.toNat + 1) :=
      Buffer.top_set ..
    have hslot := (Buffer.openSlot_spec (s.goesBefore t)
      (s.readyQueue.set s.queueLen.toNat t) s.queueLen.toNat).1
    have hle := Buffer.le_top_openSlot (s.goesBefore t) (s.readyQueue.set s.queueLen.toNat t) s.queueLen.toNat
    have htop := Buffer.top_openSlot_le (s.goesBefore t) (n := s.queueLen.toNat) hset.le (by omega)
    rw [addToReadyQueue_of_preemptivePriority hsch, Buffer.top_set]
    omega

/-! ## Removing a task -/

/-- Removing a task changes nothing but the queue. -/
theorem removeFromReadyQueue_eq (s : TaskManager) (pid : ℤ) : s.removeFromReadyQueue pid =
    { s with
      readyQueue := (s.removeFromReadyQueue pid).readyQueue
      queueLen := (s.removeFromReadyQueue pid).queueLen } := by
  rw [removeFromReadyQueue]
  split <;> rfl

/-- Removing the task `t` erases it from the queue, the pids being the indices. -/
theorem queue_removeFromReadyQueue (hpid : ∀ i ∈ s.queue, (s.tasks i).pid = i) :
    (s.removeFromReadyQueue t).queue = s.queue.erase t := by
  have hp : ∀ i ∈ s.readyQueue.toList s.queueLen.toNat,
      decide ((s.tasks i).pid = t) = true ↔ i = t := fun i hi => by
    rw [decide_eq_true_iff, hpid i hi]
    exact Int.natCast_inj
  refine Eq.trans ?_ (Buffer.toList_find hp)
  rw [removeFromReadyQueue, queue]
  cases s.readyQueue.find (fun i => decide ((s.tasks i).pid = t)) 0 s.queueLen.toNat with
  | none => rfl
  | some k =>
    have hlen : (s.queueLen - 1).toNat = s.queueLen.toNat - 1 := by omega
    have hgap : (s.queueLen - 1 - k).toNat = s.queueLen.toNat - 1 - k := by omega
    dsimp only
    rw [hlen, hgap]

/-- No index is written by a removal that was not written before. -/
theorem top_removeFromReadyQueue_le {pid : ℤ} {m : ℕ} (h : s.readyQueue.top ≤ m)
    (hm : s.queueLen.toNat ≤ m) : (s.removeFromReadyQueue pid).readyQueue.top ≤ m := by
  have hspec := Buffer.find_spec (fun i => decide ((s.tasks i).pid = pid)) s.readyQueue 0
    s.queueLen.toNat
  rw [removeFromReadyQueue]
  cases hf : s.readyQueue.find (fun i => decide ((s.tasks i).pid = pid)) 0 s.queueLen.toNat with
  | none => exact h
  | some k =>
    rw [hf] at hspec
    have hk := hspec.2.1
    exact Buffer.top_shiftDown_le h (by omega)

theorem queueLen_removeFromReadyQueue_nonneg {pid : ℤ} (h : 0 ≤ s.queueLen) :
    0 ≤ (s.removeFromReadyQueue pid).queueLen := by
  have hspec := Buffer.find_spec (fun i => decide ((s.tasks i).pid = pid)) s.readyQueue 0
    s.queueLen.toNat
  rw [removeFromReadyQueue]
  cases hf : s.readyQueue.find (fun i => decide ((s.tasks i).pid = pid)) 0 s.queueLen.toNat with
  | none => exact h
  | some k =>
    rw [hf] at hspec
    have hk := hspec.2.1
    dsimp only
    omega

/-! ## Scheduling -/

/-- Both schedulers run the head of the queue. -/
theorem schedule_eq_runHead (s : TaskManager) : s.schedule = s.runHead := by
  rw [schedule, roundRobinSchedule, preemptivePrioritySchedule]
  cases s.schedulerType <;> rfl

/-- Scheduling takes the head out of the queue, whatever it is. -/
theorem queue_schedule_eq_tail (s : TaskManager) : s.schedule.1.queue = s.queue.tail := by
  have hq : s.schedule.1.queue =
      (s.readyQueue.shiftDown 0 (s.queueLen - 1).toNat).toList (s.queueLen - 1).toNat := by
    rw [schedule_eq_runHead]
    rfl
  rw [hq, Buffer.toList_shiftDown_zero]
  rw [queue]
  rcases le_or_gt s.queueLen 0 with hle | hpos
  · have h0 : s.queueLen.toNat = 0 := by omega
    have h1 : (s.queueLen - 1).toNat = 0 := by omega
    rw [h0, h1]
    rfl
  · have hlen : (s.queueLen - 1).toNat + 1 = s.queueLen.toNat := by omega
    rw [hlen]

/-- Scheduling runs the head of the queue, and hands back its frame. -/
theorem schedule_eq {q : List ℕ} (hq : s.queue = t :: q) (hpid : (s.tasks t).pid = t) :
    s.schedule =
      ({ s with
          tasks := Function.update s.tasks t { s.tasks t with state := .running }
          currentTask := t
          readyQueue := s.readyQueue.shiftDown 0 (s.queueLen.toNat - 1)
          queueLen := s.queueLen - 1 },
        (s.tasks t).cpustate) := by
  have hpos : 0 < s.queueLen.toNat := by rw [← length_queue, hq]; simp
  have hhead : s.readyQueue.get 0 = t := by
    obtain ⟨n, hn⟩ := Nat.exists_eq_succ_of_ne_zero hpos.ne'
    have := Buffer.toList_head s.readyQueue n
    rw [← Nat.succ_eq_add_one, ← hn] at this
    exact (List.cons.inj (this.symm.trans hq)).1
  have hn : (s.queueLen - 1).toNat = s.queueLen.toNat - 1 := by omega
  rw [schedule_eq_runHead]
  have hflag : (s.poppedEmpty || decide (s.queueLen ≤ 0)) = s.poppedEmpty := by
    rw [decide_eq_false (by omega), Bool.or_false]
  simp only [runHead, popFromReadyQueue, modifyTask, current, hhead, hn, Function.update_self, hpid,
    Int.toNat_natCast, hflag]

/-- Scheduling commutes with the update of a task that has nothing to do with it. -/
theorem schedule_modifyTask {i : ℕ} {f : Task → Task}
    (hst : ∀ t : Task, f { t with state := .running } = { f t with state := .running })
    (hpid : ∀ t : Task, (f t).pid = t.pid) (hcpu : ∀ t : Task, (f t).cpustate = t.cpustate) :
    (s.modifyTask i f).schedule = (s.schedule.1.modifyTask i f, s.schedule.2) := by
  let head := s.readyQueue.get 0
  let s₁ := s.popFromReadyQueue.1.modifyTask head fun t => { t with state := .running }
  have hf : ∀ j, ((s₁.modifyTask i f).tasks j).pid = (s₁.tasks j).pid ∧
      ((s₁.modifyTask i f).tasks j).cpustate = (s₁.tasks j).cpustate := fun j => by
    rw [modifyTask_tasks]
    rcases eq_or_ne j i with rfl | hne
    · rw [Function.update_self]
      exact ⟨hpid _, hcpu _⟩
    · rw [Function.update_of_ne hne]
      exact ⟨rfl, rfl⟩
  -- The two updates commute, also where they are of the same task.
  have htasks : Function.update (Function.update s.tasks i (f (s.tasks i))) head
      { Function.update s.tasks i (f (s.tasks i)) head with state := .running } =
      Function.update s₁.tasks i (f (s₁.tasks i)) := by
    show _ = Function.update (Function.update s.tasks head _) i (f (Function.update s.tasks head _ i))
    rcases eq_or_ne i head with rfl | hne
    · rw [Function.update_self, Function.update_self, Function.update_idem, Function.update_idem, hst]
      rfl
    · rw [Function.update_of_ne hne.symm, Function.update_of_ne hne, Function.update_comm hne]
      rfl
  have hcomm : (s.modifyTask i f).popFromReadyQueue.1.modifyTask head
      (fun t => { t with state := .running }) = s₁.modifyTask i f :=
    congrArg (fun tasks => { s₁ with tasks }) htasks
  have hrun : ∀ s₂ : TaskManager, s₂.schedule =
      let s₃ := s₂.popFromReadyQueue.1.modifyTask (s₂.readyQueue.get 0) fun t =>
        { t with state := .running }
      ({ s₃ with currentTask := (s₃.tasks (s₂.readyQueue.get 0)).pid },
        (s₃.tasks (s₃.tasks (s₂.readyQueue.get 0)).pid.toNat).cpustate) := fun s₂ => by
    rw [schedule_eq_runHead]
    rfl
  rw [hrun, hrun]
  dsimp only
  rw [show (s.modifyTask i f).readyQueue.get 0 = head from rfl, hcomm, (hf _).1, (hf _).2]
  rfl

theorem queue_schedule {q : List ℕ} (hq : s.queue = t :: q) : s.schedule.1.queue = q := by
  rw [queue_schedule_eq_tail, hq, List.tail_cons]

/-! ## The tasks in the queue -/

/-- The queue holds exactly the tasks of `R`, each once, and was always within
    bounds. -/
structure QueueOk (s : TaskManager) (R : Set ℕ) : Prop where
  nonneg : 0 ≤ s.queueLen
  nodup : s.queue.Nodup
  mem_iff : ∀ i, i ∈ s.queue ↔ i ∈ R
  lt : ∀ i ∈ R, i < maxNumTasks
  top_le : s.readyQueue.top ≤ maxNumTasks

namespace QueueOk

variable {R : Set ℕ}

/-- Only the buffer and the length of the queue matter. -/
theorem congr {s' : TaskManager} (h : s.QueueOk R) (hb : s'.readyQueue = s.readyQueue)
    (hl : s'.queueLen = s.queueLen) : s'.QueueOk R := by
  have hq : s'.queue = s.queue := by simp only [queue]; rw [hb, hl]
  exact ⟨hl ▸ h.nonneg, hq ▸ h.nodup, hq ▸ h.mem_iff, h.lt, hb ▸ h.top_le⟩

/-- There are no more tasks in the queue than in the table. -/
theorem queueLen_le (h : s.QueueOk R) : s.queueLen.toNat ≤ maxNumTasks := by
  have hsub : s.queue.toFinset ⊆ Finset.range maxNumTasks := fun i hi =>
    Finset.mem_range.2 (h.lt i ((h.mem_iff i).1 (List.mem_toFinset.1 hi)))
  have hcard := Finset.card_le_card hsub
  rwa [List.toFinset_card_of_nodup h.nodup, Finset.card_range, length_queue] at hcard

/-- A task that is not in the queue can be added to it within bounds. -/
theorem add (h : s.QueueOk R) (ht : t ∉ R) (hlt : t < maxNumTasks) :
    (s.addToReadyQueue t).QueueOk (insert t R) := by
  have hperm := s.enqueue_perm t
  have hnodup : (t :: s.queue).Nodup :=
    List.nodup_cons.2 ⟨fun hm => ht ((h.mem_iff t).1 hm), h.nodup⟩
  have hlen : s.queueLen.toNat < maxNumTasks := by
    have hsub : (t :: s.queue).toFinset ⊆ Finset.range maxNumTasks := fun i hi => by
      rw [List.mem_toFinset, List.mem_cons] at hi
      rcases hi with rfl | hi
      · exact Finset.mem_range.2 hlt
      · exact Finset.mem_range.2 (h.lt i ((h.mem_iff i).1 hi))
    have hcard := Finset.card_le_card hsub
    rw [List.toFinset_card_of_nodup hnodup, Finset.card_range, List.length_cons, length_queue] at hcard
    omega
  refine ⟨?_, ?_, fun i => ?_, fun i hi => ?_, (top_addToReadyQueue s t).trans_le (max_le h.top_le hlen)⟩
  · rw [addToReadyQueue_queueLen]
    have := h.nonneg
    omega
  · rw [queue_addToReadyQueue h.nonneg]
    exact hperm.nodup_iff.2 hnodup
  · rw [queue_addToReadyQueue h.nonneg, hperm.mem_iff, List.mem_cons, Set.mem_insert_iff, h.mem_iff]
  · rcases hi with rfl | hi
    · exact hlt
    · exact h.lt i hi

/-- A task is taken out of the queue. -/
theorem remove (h : s.QueueOk R) (hpid : ∀ i ∈ R, (s.tasks i).pid = i) :
    (s.removeFromReadyQueue t).QueueOk (R \ {t}) := by
  have hq : (s.removeFromReadyQueue t).queue = s.queue.erase t :=
    queue_removeFromReadyQueue fun i hi => hpid i ((h.mem_iff i).1 hi)
  refine ⟨queueLen_removeFromReadyQueue_nonneg h.nonneg, ?_, fun i => ?_, fun i hi => h.lt i hi.1,
    top_removeFromReadyQueue_le h.top_le h.queueLen_le⟩
  · rw [hq]
    exact h.nodup.erase t
  · rw [hq, h.nodup.mem_erase_iff, h.mem_iff, Set.mem_sdiff, Set.mem_singleton_iff]
    exact and_comm

/-- Scheduling takes the head out of the queue. -/
theorem schedule (h : s.QueueOk R) {q : List ℕ} (hq : s.queue = t :: q)
    (hpid : (s.tasks t).pid = t) : s.schedule.1.QueueOk (R \ {t}) := by
  have hnd := h.nodup
  rw [hq, List.nodup_cons] at hnd
  have hpos : 0 < s.queueLen.toNat := by rw [← length_queue, hq]; simp
  refine ⟨?_, ?_, fun i => ?_, fun i hi => h.lt i hi.1, ?_⟩
  · rw [schedule_eq hq hpid]
    dsimp only
    omega
  · rw [queue_schedule hq]
    exact hnd.2
  · rw [queue_schedule hq, Set.mem_sdiff, ← h.mem_iff, hq, List.mem_cons, Set.mem_singleton_iff]
    constructor
    · intro hi
      exact ⟨.inr hi, fun hit => hnd.1 (hit ▸ hi)⟩
    · rintro ⟨rfl | hi, hne⟩
      · exact absurd rfl hne
      · exact hi
  · rw [schedule_eq hq hpid]
    have := h.queueLen_le
    exact Buffer.top_shiftDown_le h.top_le (by omega)

end QueueOk

end GtuOs.TaskManager

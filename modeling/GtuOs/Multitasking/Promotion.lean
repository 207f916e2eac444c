import GtuOs.Multitasking.Programs

/-!
# The promotion of lifecycle B4

The 5th interrupt after `CollatzAdded` gives the collatz task the priority `High`. It
takes the task out of the ready queue, if it is there, and adds it in any case
(`promoting_eq`). So the tick is a change of priority followed by the scheduling of any
other tick (`RaisesOnly`) exactly when the task is ready: when it is running, or has
terminated, it is queued all the same (`raisesOnly_iff_ready`).
-/

namespace GtuOs.TaskManager

variable {s : TaskManager} {n : ℕ} {e : Event} {mem : Memory} {esp : ℕ}

/-- The next tick is the one that gives the collatz task the priority `High`. -/
structure Promotes (s : TaskManager) : Prop where
  lifeCycle : s.lifeCycleType = .lifeCycleB4
  notIgnored : s.ignoreSchedule = false
  fifth : s.interruptNumAfterCollatz = 4

/-- The tick from `s` to `s'` changes only the priority of the collatz task `c` and its
    position in the queue, and schedules as any other tick. -/
structure RaisesOnly (s : TaskManager) (mem : Memory) (esp : ℕ) (s' : TaskManager) : Prop where
  raised : ∃ c readyQueue, s.collatzTask = some c ∧
    let s₁ := { s with
      mem, readyQueue, interruptNumAfterCollatz := 5
      tasks := Function.update s.tasks c { s.tasks c with priority := .high } }
    s₁.queue.Perm s.queue ∧ s₁.queue.erase c = s.queue.erase c ∧
      s' = (s₁.requeueCurrent esp).schedule.1
  /-- No task is in the queue twice. -/
  nodup : s'.queue.Nodup
  /-- Exactly one task is running. -/
  running : ∃ k < s'.numTasks, ∀ j < s'.numTasks, (s'.tasks j).state = .running ↔ j = k
  /-- A terminated task stays terminated. -/
  terminated : ∀ k < s.numTasks, (s.tasks k).state = .terminated →
    (s'.tasks k).state = .terminated

/-! ## The tick of the promotion -/

/-- The tick of the promotion, in any state. -/
theorem promoting_eq (h : s.Promotes) (hpos : 0 < s.numTasks) {c : ℕ} (hc : s.collatzTask = some c)
    (mem : Memory) (esp : ℕ) : s.handle (.timer mem esp) =
      (({ s with mem, interruptNumAfterCollatz := 5 }.reprioritize c .high).requeueCurrent
        esp).schedule := by
  have hticks : s.handle (.timer mem esp) = { s with mem }.scheduleTick esp := rfl
  have hn : ¬s.numTasks ≤ 0 := by omega
  have hcount : { s with mem }.countInterrupt = { s with mem, interruptNumAfterCollatz := 5 } := by
    have hne : s.interruptNumAfterCollatz ≠ -1 := by rw [h.fifth]; decide
    rw [countInterrupt, if_pos hne, h.fifth]
    rfl
  have hpromote : { s with mem, interruptNumAfterCollatz := 5 }.promoteAtFifth =
      { s with mem, interruptNumAfterCollatz := 5 }.reprioritize c .high := by
    rw [promoteAtFifth, if_pos ⟨h.lifeCycle, rfl⟩, promoteCollatz, hc]
    rfl
  have hunblock : ({ s with mem, interruptNumAfterCollatz := 5 }.reprioritize c .high).unblockAtFifth =
      { s with mem, interruptNumAfterCollatz := 5 }.reprioritize c .high := by
    refine if_neg fun hb => ?_
    have hlife := hb.1
    rw [reprioritize_eq] at hlife
    exact absurd (h.lifeCycle.symm.trans hlife) (by decide)
  rw [hticks, scheduleTick_eq, if_neg hn, if_neg fun hi => ?_, hcount, hpromote, hunblock]
  rw [h.notIgnored] at hi
  cases hi.2

/-- A tick puts a task in the queue, and takes one out. -/
theorem length_queue_requeue (hlen : 0 ≤ s.queueLen) (hcur : s.currentTask ≥ 0) (esp : ℕ) :
    (s.requeueCurrent esp).schedule.1.queue.length = s.queue.length := by
  let s₁ := s.modifyTask s.current fun t => { t with cpustate := esp }
  have hq : (s₁.addToReadyQueue s.current).queue = s₁.enqueue s.current := queue_addToReadyQueue hlen
  rw [queue_schedule_eq_tail, requeueCurrent, if_pos hcur, List.length_tail]
  show (s₁.addToReadyQueue s.current).queue.length - 1 = s.queue.length
  rw [hq, (s₁.enqueue_perm s.current).length_eq]
  rfl

/-! ## Runs until the promotion -/

/-- What the mode is before the promotion, with `k` tasks, of which the collatz task is
    the first child. -/
structure ModeB4 (m : Mode) (n k : ℕ) : Prop where
  lifeCycle : m.lifeCycleType = .lifeCycleB4
  notBlocked : m.blockedTaskForCollatz = none
  collatz : m.interruptNumAfterCollatz ≠ -1 → m.collatzTask = some 1 ∧ 1 < k ∧ 4 < n
  /-- While the init process prepares its children, ticks are ignored. -/
  ignored : 0 < n → n < initB4.length → m.ignoreSchedule = true

/-- The invariant of runs in lifecycle B4, as long as the collatz task is ready when it
    is promoted. -/
structure InvB4 (s : TaskManager) (n : ℕ) : Prop where
  primed : s.Primed
  mode : ModeB4 s.mode n s.numTasks
  prepares : n ≤ initB4.length → s.Prepares 1 (1 + forkCount initB4 n)

/-- The `n`-th action of `initB4` is one of the preparation, the first child being the
    collatz task. -/
def ActionB4 (n : ℕ) : Action → Prop
  | .call c => Preparatory 1 (1 + forkCount initB4 n) c ∧ 0 < n ∧ n + 1 < initB4.length ∧
      (c = .collatzAdded → n = 4)
  | .setIgnoreSchedule b => n + 1 < initB4.length → b = true

instance (n : ℕ) : DecidablePred (ActionB4 n)
  | .call c => inferInstanceAs (Decidable (Preparatory 1 (1 + forkCount initB4 n) c ∧ 0 < n ∧
      n + 1 < initB4.length ∧ (c = .collatzAdded → n = 4)))
  | .setIgnoreSchedule b => inferInstanceAs (Decidable (n + 1 < initB4.length → b = true))

theorem initB4_action : ∀ (n : ℕ) (h : n < initB4.length), ActionB4 n initB4[n] := by decide +kernel

theorem actionB4_of_getElem? {a : Action} (h : initB4[n]? = some a) : ActionB4 n a := by
  obtain ⟨hn, rfl⟩ := List.getElem?_eq_some_iff.1 h
  exact initB4_action n hn

namespace InvB4

theorem numTasks_pos (h : InvB4 s n) : 0 < s.numTasks :=
  lt_of_le_of_lt (Nat.zero_le _) h.primed.inv.current_lt

theorem quiet (h : InvB4 s n) : s.Quiet := .inr h.mode.notBlocked

/-- The first tick. -/
theorem boot {b : Boot} (hlife : b.lifeCycleType = .lifeCycleB4)
    (hsch : b.schedulerType = .preemptivePriority) : InvB4 b.firstTick.1 0 := by
  obtain ⟨hprimed, hmode, hcur, hnum⟩ := Primed.boot hsch
  refine ⟨hprimed, ?_, fun _ => ⟨hprimed, hcur, fun k hk hkn => ?_, hnum⟩⟩
  · rw [hmode]
    exact ⟨hlife, rfl, fun h => absurd rfl h, fun h => absurd h (Nat.lt_irrefl 0)⟩
  · rw [hnum] at hkn
    omega

/-- `SetIgnoreSchedule`, by the init process. -/
theorem setIgnoreSchedule (h : InvB4 s n) {b : Bool}
    (hf : Follows initB4 s n (.setIgnoreSchedule b)) :
    InvB4 (s.setIgnoreSchedule b) (advance s n (.setIgnoreSchedule b)) := by
  by_cases hcur : s.current = 0
  · have hadv : advance s n (.setIgnoreSchedule b) = n + 1 := if_pos ⟨hcur, rfl⟩
    rcases hf.action_init rfl hcur with hf | ⟨-, hf⟩
    · have hn : n < initB4.length := (List.getElem?_eq_some_iff.1 hf).1
      have hscript : ActionB4 n (.setIgnoreSchedule b) := actionB4_of_getElem? hf
      have hfork : forkCount initB4 (n + 1) = forkCount initB4 n := by
        rw [forkCount_succ, hf]
        rfl
      rw [hadv]
      refine ⟨h.primed.congr rfl, ⟨h.mode.lifeCycle, h.mode.notBlocked, fun hc => ?_, fun _ => hscript⟩,
        fun _ => ?_⟩
      · obtain ⟨hct, hk, hn⟩ := h.mode.collatz hc
        exact ⟨hct, hk, by omega⟩
      · rw [hfork]
        exact (h.prepares hn.le).congr rfl
    · cases hf
  · exact (hf.action_child rfl hcur).elim

/-- A system call. -/
theorem syscall (h : InvB4 s n) (hf : Follows initB4 s n (.interrupt (.syscall mem esp))) :
    InvB4 (s.handle (.syscall mem esp)).1 (advance s n (.interrupt (.syscall mem esp))) := by
  obtain ⟨c, hcall⟩ : ∃ c, Interrupt.call (.syscall mem esp) = some c := ⟨_, rfl⟩
  by_cases hn : n < initB4.length
  · -- The init process goes on preparing.
    have hprep := h.prepares hn.le
    have hcur := hprep.current
    have hadv : advance s n (.interrupt (.syscall mem esp)) = n + 1 := if_pos ⟨hcur, rfl⟩
    have hact := Event.action_of_call hcall
    replace hf : initB4[n]? = some (.call c) :=
      (hf.action_init hact hcur).resolve_right fun h => absurd hn (Nat.not_lt.2 h.1)
    obtain ⟨hpre, hn0, hn1, hadded⟩ : ActionB4 n (.call c) := actionB4_of_getElem? hf
    obtain ⟨hprep', hmode⟩ := hprep.call Nat.one_pos hcall hpre h.quiet
    have hfork := forkCount_succ_call 1 hf
    have hnum : s.numTasks ≤ (s.handle (.syscall mem esp)).1.numTasks := by
      rw [hprep'.numTasks, hprep.numTasks]
      split_ifs <;> omega
    rw [hadv]
    refine ⟨hprep'.primed, ?_, fun _ => hfork ▸ hprep'⟩
    rw [hmode, modeAfter]
    -- Two tasks are there when the collatz task is remembered: it is the last one.
    by_cases hc : c = .collatzAdded
    · rw [if_pos hc]
      have hn4 := hadded hc
      have htwo : s.numTasks = 2 := by
        rw [hprep.numTasks, hn4]
        decide
      refine ⟨h.mode.lifeCycle, h.mode.notBlocked, fun _ => ⟨?_, ?_, by omega⟩, fun _ _ =>
        h.mode.ignored hn0 (by omega)⟩
      · dsimp only
        rw [htwo]
      · omega
    · rw [if_neg hc]
      refine ⟨h.mode.lifeCycle, h.mode.notBlocked, fun hc => ?_, fun _ _ =>
        h.mode.ignored hn0 (by omega)⟩
      obtain ⟨hct, hk, hn⟩ := h.mode.collatz hc
      exact ⟨hct, by omega, by omega⟩
  · have hallow := hf.allowed fun _ => Nat.not_lt.1 hn
    have hnum := handle_numTasks (s := s) (i := .syscall mem esp) fun hfork => by
      rw [Allowed] at hallow
      rwa [hfork] at hallow
    obtain ⟨hprimed, hmode⟩ := h.primed.late hf (fun _ => Nat.not_lt.1 hn) (by rw [hcall]; simp) h.quiet
    have hadv : n ≤ advance s n (.interrupt (.syscall mem esp)) := by
      rw [advance]
      split_ifs <;> omega
    have hle : s.numTasks ≤ (s.handle (.syscall mem esp)).1.numTasks := by
      rw [hnum]
      split_ifs <;> omega
    refine ⟨hprimed, ?_, fun hle => ?_⟩
    · rw [hmode]
      refine ⟨h.mode.lifeCycle, h.mode.notBlocked, fun hc => ?_, fun _ hlt => by omega⟩
      obtain ⟨hct, hk, hn⟩ := h.mode.collatz hc
      exact ⟨hct, by omega, by omega⟩
    · -- All has been prepared, and the init process is running.
      have hcur := (h.prepares (by omega)).current
      have : advance s n (.interrupt (.syscall mem esp)) = n + 1 := if_pos ⟨hcur, rfl⟩
      omega

theorem mode_countInterrupt (h : InvB4 s n) : ModeB4 s.countInterrupt.mode n s.numTasks := by
  rw [countInterrupt]
  split_ifs with hc
  · exact ⟨h.mode.lifeCycle, h.mode.notBlocked, fun _ => h.mode.collatz hc, h.mode.ignored⟩
  · exact h.mode

/-- When the collatz task is promoted, the init process has prepared all its children. -/
theorem of_promotes (h : InvB4 s n) (hp : s.Promotes) :
    s.collatzTask = some 1 ∧ 1 < s.numTasks ∧ initB4.length ≤ n := by
  obtain ⟨hct, hk, hn⟩ := h.mode.collatz (by
    show s.interruptNumAfterCollatz ≠ -1
    rw [hp.fifth]
    decide)
  refine ⟨hct, hk, Nat.not_lt.1 fun hlt => ?_⟩
  have hignored : s.ignoreSchedule = true := h.mode.ignored (by omega) hlt
  rw [hp.notIgnored] at hignored
  cases hignored

/-- The state in which the collatz task, which is ready, has been promoted. -/
theorem promoted (h : InvB4 s n) (hp : s.Promotes) (hst : (s.tasks 1).state = .ready)
    (mem : Memory) :
    InvB4 ({ s with mem, interruptNumAfterCollatz := 5 }.reprioritize 1 .high) n := by
  obtain ⟨hct, hk, hn⟩ := h.of_promotes hp
  have hprimed : { s with mem, interruptNumAfterCollatz := 5 }.Primed :=
    (h.primed.withMem mem).congr rfl
  refine ⟨hprimed.reprioritize Nat.one_pos hk hst (by decide), ?_, fun hle => ?_⟩
  · rw [reprioritize_eq]
    exact ⟨h.mode.lifeCycle, h.mode.notBlocked, fun _ => ⟨hct, hk, by
      have : initB4.length = 15 := rfl
      omega⟩, h.mode.ignored⟩
  · have hprep : { s with mem, interruptNumAfterCollatz := 5 }.Prepares 1 (1 + forkCount initB4 n) :=
      ((h.prepares hle).withMem mem).congr rfl
    exact hprep.reprioritize Nat.one_pos ((h.prepares hle).numTasks ▸ hk) hst (by decide)

/-- A tick, as long as it does not promote a collatz task that is not ready. -/
theorem tick (h : InvB4 s n) (hready : s.Promotes → (s.tasks 1).state = .ready) (mem : Memory)
    (esp : ℕ) : InvB4 (s.handle (.timer mem esp)).1 n := by
  have hnum := handle_numTasks (s := s) (i := .timer mem esp) fun h => by cases h
  rw [if_neg (by intro h; cases h)] at hnum
  by_cases hig : s.ignoreSchedule = true
  · have heq : (s.handle (.timer mem esp)).1 = { s with mem } := by
      have hn : ¬s.numTasks ≤ 0 := Nat.not_le.2 h.numTasks_pos
      show ({ s with mem }.scheduleTick esp).1 = { s with mem }
      rw [scheduleTick_eq, if_neg hn, if_pos ⟨h.mode.lifeCycle, hig⟩]
    rw [heq]
    exact ⟨h.primed.withMem mem, h.mode, fun hle => (h.prepares hle).withMem mem⟩
  · by_cases hp : s.Promotes
    · -- An ordinary tick, the collatz task having been promoted.
      have h₁ := h.promoted hp (hready hp) mem
      rw [promoting_eq hp h.numTasks_pos (h.of_promotes hp).1] at hnum ⊢
      obtain ⟨hplain, hmode⟩ := requeue_handle h₁.primed.inv esp
      refine ⟨h₁.primed.handle (i := .timer _ esp) trivial hplain, ?_, fun hle =>
        (h₁.prepares hle).tick _ esp hplain⟩
      have hmode₁ := h₁.mode
      rw [reprioritize_numTasks] at hmode₁
      rw [hmode, hnum]
      exact hmode₁
    · have hno : ¬s.AtFifth := fun hf =>
        hp ⟨h.mode.lifeCycle, Bool.eq_false_iff.2 hig, hf.1⟩
      obtain ⟨hplain, hmode⟩ := tick_plain h.primed.inv mem esp (fun hi => hig hi.2) hno
      refine ⟨h.primed.handle (i := .timer mem esp) trivial hplain, ?_, fun hle =>
        (h.prepares hle).tick mem esp hplain⟩
      rw [hmode, hnum]
      exact h.mode_countInterrupt

/-- **One event**, as long as it does not promote a collatz task that is not ready. -/
theorem step (h : InvB4 s n) (hf : Follows initB4 s n e)
    (hready : e.action = none → s.Promotes → (s.tasks 1).state = .ready) :
    InvB4 (s.perform e) (advance s n e) := by
  cases e with
  | setIgnoreSchedule b => exact h.setIgnoreSchedule hf
  | interrupt i =>
    cases i with
    | timer mem esp =>
      have hadv : advance s n (.interrupt (.timer mem esp)) = n := if_neg fun h => by cases h.2
      rw [hadv]
      exact h.tick (hready rfl) mem esp
    | syscall mem esp => exact h.syscall hf

/-! ## The promotion -/

/-- The queue when the collatz task has been promoted: the other tasks keep their order. -/
theorem queue_promoted (h : InvB4 s n) (hk : 1 < s.numTasks) (mem : Memory) :
    ∃ before, ({ s with mem, interruptNumAfterCollatz := 5 }.reprioritize 1 .high).queue =
      Buffer.insertBack before 1 (s.queue.erase 1) := by
  obtain ⟨before, hq⟩ := (h.primed.inv.withMem mem).toBase.queue_reprioritize (t := 1)
    h.primed.ranked.scheduler hk .high
  have hplain : ({ s.plain with mem } : TaskManager).reprioritize 1 .high =
      ({ s with mem, interruptNumAfterCollatz := 5 }.reprioritize 1 .high).plain :=
    reprioritize_withMode { s with mem, interruptNumAfterCollatz := 5 } .plain 1 .high
  rw [hplain] at hq
  exact ⟨before, hq⟩

/-- A ready collatz task is raised, and nothing else happens. -/
theorem raisesOnly (h : InvB4 s n) (hp : s.Promotes) (hst : (s.tasks 1).state = .ready)
    (mem : Memory) (esp : ℕ) : s.RaisesOnly mem esp (s.handle (.timer mem esp)).1 := by
  obtain ⟨hct, hk, -⟩ := h.of_promotes hp
  have heq := promoting_eq hp h.numTasks_pos hct mem esp
  let s₀ : TaskManager := { s with mem, interruptNumAfterCollatz := 5 }
  have h₁ : InvB4 (s₀.reprioritize 1 .high) n := h.promoted hp hst mem
  -- The queue, without the collatz task and with it.
  have hmem : 1 ∈ s.queue := (h.primed.inv.queueOk.mem_iff 1).2 ⟨hk, hst⟩
  have hnodup : s.queue.Nodup := h.primed.inv.queueOk.nodup
  obtain ⟨before, hq⟩ := h.queue_promoted hk mem
  have hperm : (s₀.reprioritize 1 .high).queue.Perm s.queue := by
    rw [hq]
    exact (Buffer.insertBack_perm before 1 _).trans (List.perm_cons_erase hmem).symm
  have hlen : (s₀.reprioritize 1 .high).queueLen = s.queueLen := by
    have hnonneg := h₁.primed.inv.queueOk.nonneg
    have hnonneg' := h.primed.inv.queueOk.nonneg
    have hl := hperm.length_eq
    rw [length_queue, length_queue] at hl
    show (s₀.reprioritize 1 .high).plain.queueLen = s.plain.queueLen
    have hl' : (s₀.reprioritize 1 .high).plain.queueLen.toNat = s.plain.queueLen.toNat := hl
    omega
  have hraised : s₀.reprioritize 1 .high = { s₀ with
      readyQueue := (s₀.reprioritize 1 .high).readyQueue
      tasks := Function.update s.tasks 1 { s.tasks 1 with priority := .high } } := by
    conv_lhs => rw [reprioritize_eq, hlen]
    rw [← hst]
  obtain ⟨hplain, -⟩ := requeue_handle h₁.primed.inv esp
  have hinv := (h.tick (fun _ => hst) mem esp).primed.inv
  have hcons := hinv.consistent
  refine ⟨⟨1, (s₀.reprioritize 1 .high).readyQueue, hct, ?_⟩, hcons.ready.1,
    ⟨_, hinv.current_lt, fun j hj => ?_⟩, fun k hk hterm => ?_⟩
  · rw [hraised] at hperm hq
    refine ⟨hperm, ?_, ?_⟩
    · refine Eq.trans ?_ (Buffer.insertBack_erase before (x := 1) (l := s.queue.erase 1) ?_)
      · exact congrArg (List.erase · 1) hq
      · exact fun hm => (hnodup.mem_erase_iff.1 hm).1 rfl
    · rw [heq]
      exact congrArg (fun s : TaskManager => (s.requeueCurrent esp).schedule.1) hraised
  · have hrun := hcons.running.2.2 j hj
    have hcur := Int.toNat_of_nonneg hinv.currentTask_nonneg
    refine Iff.trans hrun ?_
    rw [← hcur]
    exact Int.natCast_inj
  · have heff := (h₁.primed.inv.handle (i := .timer (s₀.reprioritize 1 .high).mem esp) trivial).1
    have hne : k ≠ 1 := fun he => by
      rw [he, hst] at hterm
      cases hterm
    have hk₁ : k < (s₀.reprioritize 1 .high).plain.numTasks := by
      show k < (s₀.reprioritize 1 .high).numTasks
      rwa [reprioritize_numTasks]
    have hterm₁ : ((s₀.reprioritize 1 .high).plain.tasks k).state = .terminated := by
      show ((s₀.reprioritize 1 .high).tasks k).state = .terminated
      rw [hraised]
      dsimp only
      rw [Function.update_of_ne hne]
      exact hterm
    have hafter := heff.state_of_terminated h₁.primed.inv hk₁ hterm₁
    rw [← hplain] at hafter
    rw [heq]
    exact hafter

/-- A collatz task that is not ready is queued all the same. -/
theorem ready_of_raisesOnly (h : InvB4 s n) (hp : s.Promotes)
    (hr : s.RaisesOnly mem esp (s.handle (.timer mem esp)).1) : (s.tasks 1).state = .ready := by
  by_contra hst
  obtain ⟨hct, hk, -⟩ := h.of_promotes hp
  obtain ⟨c, readyQueue, -, hperm, -, heq⟩ := hr.raised
  rw [promoting_eq hp h.numTasks_pos hct] at heq
  let s₀ : TaskManager := { s with mem, interruptNumAfterCollatz := 5 }
  have hbase : s₀.plain.Base := (h.primed.inv.withMem mem).toBase
  have hnotMem : 1 ∉ s.queue := fun hm => hst ((h.primed.inv.queueOk.mem_iff 1).1 hm).2
  obtain ⟨before, hq⟩ := h.queue_promoted hk mem
  -- The queue gets longer, which no other tick does.
  have hlonger : (s₀.reprioritize 1 .high).queue.length = s.queue.length + 1 := by
    rw [hq, (Buffer.insertBack_perm before 1 _).length_eq, List.erase_of_not_mem hnotMem,
      List.length_cons]
  have hlen : 0 ≤ (s₀.reprioritize 1 .high).queueLen := by
    have hnonneg := (reprioritize_aux (t := 1) hbase.pid_eq hbase.queueOk hk .high).nonneg
    show 0 ≤ ((s₀.reprioritize 1 .high).withMode .plain).queueLen
    rw [← reprioritize_withMode, reprioritize, addToReadyQueue_queueLen]
    exact Int.le_add_one hnonneg
  have hcur : (s₀.reprioritize 1 .high).currentTask ≥ 0 := by
    rw [reprioritize_eq]
    exact h.primed.inv.currentTask_nonneg
  have hafter := length_queue_requeue hlen hcur esp
  rw [hlonger] at hafter
  have hbefore := length_queue_requeue (s := { s with
      mem, readyQueue, interruptNumAfterCollatz := 5
      tasks := Function.update s.tasks c { s.tasks c with priority := .high } })
    h.primed.inv.queueOk.nonneg h.primed.inv.currentTask_nonneg esp
  rw [← heq, hperm.length_eq] at hbefore
  have : s.queue.length = s.queue.length + 1 := hbefore.symm.trans hafter
  omega

end InvB4

/-! ## Runs -/

/-- After the promotion, the init process having prepared its children. -/
def AfterB4 (s : TaskManager) (n : ℕ) : Prop :=
  5 ≤ s.interruptNumAfterCollatz ∧ initB4.length ≤ n

/-- The 5th interrupt comes only once. -/
theorem AfterB4.step (h : AfterB4 s n) (hf : Follows initB4 s n e) :
    AfterB4 (s.perform e) (advance s n e) := by
  have hadv : n ≤ advance s n e := by
    rw [advance]
    split_ifs <;> omega
  refine ⟨?_, h.2.trans hadv⟩
  have hnum := h.1
  cases e with
  | setIgnoreSchedule b => exact h.1
  | interrupt i =>
    cases i with
    | timer mem esp =>
      have hticks : s.perform (.interrupt (.timer mem esp)) = ({ s with mem }.scheduleTick esp).1 := rfl
      -- The count has passed 4, and never comes back.
      have hno : ¬{ s with mem }.AtFifth := fun hf => by
        have hfour : s.interruptNumAfterCollatz = 4 := hf.1
        omega
      rw [hticks, scheduleTick_eq, fifth_of_not hno]
      split_ifs
      · exact h.1
      · exact h.1
      · refine le_of_le_of_eq ?_ (congrArg Mode.interruptNumAfterCollatz
          ((schedule_mode _).trans (requeueCurrent_mode _ esp))).symm
        show 5 ≤ { s with mem }.countInterrupt.interruptNumAfterCollatz
        rw [countInterrupt]
        split_ifs
        · dsimp only
          omega
        · exact h.1
    | syscall mem esp =>
      obtain ⟨c, hcall⟩ : ∃ c, Interrupt.call (.syscall mem esp) = some c := ⟨_, rfl⟩
      have heq : s.perform (.interrupt (.syscall mem esp)) = (s.handle (.syscall mem esp)).1 := rfl
      rw [heq, handle_of_call hcall]
      -- The calls that are left do not touch the count.
      rcases hf.late (fun _ => h.2) hcall with ⟨-, rfl⟩ | ⟨-, hc⟩
      · exact le_of_le_of_eq h.1 (congrArg Mode.interruptNumAfterCollatz
          (waitpid_mode { s with mem } (-1) esp)).symm
      · cases c with
        | exit => exact le_of_le_of_eq h.1 (exit_interruptNum { s with mem }).symm
        | printf | forkpid | execve | other => exact h.1
        | _ => exact hc.elim

/-- The collatz task is ready when the tick promotes it. -/
def PromotesReady (p : TaskManager × ℕ) (e : Event) : Prop :=
  e.action = none → p.1.Promotes → ∃ c, p.1.collatzTask = some c ∧ (p.1.tasks c).state = .ready

/-- The invariant holds in every run until the promotion. -/
theorem invB4_or_after {p : TaskManager × ℕ}
    (h : (programSystem .lifeCycleB4 initB4).Reachable p) : InvB4 p.1 p.2 ∨ AfterB4 p.1 p.2 := by
  refine h.invariant (P := fun p => InvB4 p.1 p.2 ∨ AfterB4 p.1 p.2) (fun p h0 => ?_)
    fun p e p' _ hp hs => ?_
  · obtain ⟨b, hlife, hsch, rfl⟩ := h0
    exact .inl (.boot hlife hsch)
  · obtain ⟨hf, rfl⟩ := hs
    rcases hp with hp | hp
    · by_cases hpro : e.action = none ∧ p.1.Promotes
      · -- The tick counts the 5th interrupt.
        obtain ⟨hact, hpr⟩ := hpro
        obtain ⟨hct, -, hn⟩ := hp.of_promotes hpr
        have hadv : advance p.1 p.2 e = p.2 := if_neg fun h => by rw [hact] at h; cases h.2
        refine .inr ⟨?_, hn.trans_eq hadv.symm⟩
        cases e with
        | setIgnoreSchedule b => cases hact
        | interrupt i =>
          cases i with
          | syscall mem esp => cases hact
          | timer mem esp =>
            have heq : p.1.perform (.interrupt (.timer mem esp)) =
                (p.1.handle (.timer mem esp)).1 := rfl
            dsimp only
            rw [heq, promoting_eq hpr hp.numTasks_pos hct]
            refine le_of_le_of_eq ?_ (congrArg Mode.interruptNumAfterCollatz
              ((schedule_mode _).trans (requeueCurrent_mode _ esp))).symm
            rw [reprioritize_eq]
            exact le_refl 5
      · exact .inl (hp.step hf fun he hpr => absurd ⟨he, hpr⟩ hpro)
    · exact .inr (hp.step hf)

/-- **The promotion.** In every run the tick that promotes the collatz task changes only
    its priority and its position in the queue exactly when the task is ready; in runs in
    which it is, all states are consistent. -/
theorem raisesOnly_iff_ready (p : TaskManager × ℕ) :
    ((programSystem .lifeCycleB4 initB4).Reachable p → ∀ mem esp, p.1.Promotes →
      (p.1.RaisesOnly mem esp (p.1.handle (.timer mem esp)).1 ↔
        ∃ c, p.1.collatzTask = some c ∧ (p.1.tasks c).state = .ready)) ∧
    (((programSystem .lifeCycleB4 initB4).restrict PromotesReady).Reachable p →
      p.1.Consistent) := by
  refine ⟨fun hreach mem esp hp => ?_, fun hreach => ?_⟩
  · have hinv : InvB4 p.1 p.2 := (invB4_or_after hreach).resolve_right fun h => by
      have hfive := h.1
      rw [hp.fifth] at hfive
      exact absurd hfive (by decide)
    refine ⟨fun hr => ⟨1, (hinv.of_promotes hp).1, hinv.ready_of_raisesOnly hp hr⟩, ?_⟩
    rintro ⟨c, hct, hst⟩
    obtain rfl : c = 1 := Option.some_inj.1 (hct.symm.trans (hinv.of_promotes hp).1)
    exact hinv.raisesOnly hp hst mem esp
  · have hinv : InvB4 p.1 p.2 := by
      refine hreach.invariant (P := fun p => InvB4 p.1 p.2) (fun p h0 => ?_)
        fun p e p' _ hp hs => ?_
      · obtain ⟨b, hlife, hsch, rfl⟩ := h0
        exact .boot hlife hsch
      · obtain ⟨hready, hf, rfl⟩ := hs
        refine hp.step hf fun hact hpr => ?_
        obtain ⟨c, hct, hst⟩ := hready hact hpr
        obtain rfl : c = 1 := Option.some_inj.1 (hct.symm.trans (hp.of_promotes hpr).1)
        exact hst
    have hcons := hinv.primed.inv.consistent
    exact ⟨hcons.running, hcons.ready, hcons.blocked, hcons.pid, hcons.bounds⟩

/-- The events of `initB4`. -/
def eventsB4 : List Event :=
  [.setIgnoreSchedule true] ++ forkEvents 2 ++ [callEvent 11 0] ++ forkEvents 1 ++ forkEvents 1 ++
    forkEvents 1 ++ [.setIgnoreSchedule false]

/-- The start. -/
def startB4 : TaskManager × ℕ := ((programBoot .lifeCycleB4).firstTick.1, 0)

/-- Four ticks, the init process running. -/
def readyB4 : TaskManager × ℕ :=
  performAll startB4 (eventsB4 ++ List.replicate 4 tickEvent)

theorem readyB4_spec : (programSystem .lifeCycleB4 initB4).Reachable readyB4 ∧ readyB4.1.Promotes ∧
    readyB4.1.collatzTask = some 1 ∧ (readyB4.1.tasks 1).state = .ready := by
  have hleads : leadsTo initB4 (fun s => decide ((s.lifeCycleType = .lifeCycleB4 ∧
      s.ignoreSchedule = false ∧ s.interruptNumAfterCollatz = 4) ∧ s.collatzTask = some 1 ∧ (s.tasks 1).state = .ready))
      (programBoot .lifeCycleB4).firstTick.1 0 (eventsB4 ++ List.replicate 4 tickEvent) = true := by
    decide +kernel
  obtain ⟨hall, hP⟩ := followsAll_of_leadsTo hleads
  obtain ⟨⟨hlife, hig, hnum⟩, hready⟩ := of_decide_eq_true hP
  rw [readyB4, startB4]
  exact ⟨reachable_performAll (programBoot_reachable _ _) hall, ⟨hlife, hig, hnum⟩, hready⟩

/-- Without ticks, nothing is promoted. -/
theorem reachable_promotesReady {p : TaskManager × ℕ}
    (h : ((programSystem .lifeCycleB4 initB4).restrict PromotesReady).Reachable p) {es : List Event}
    (hes : FollowsAll initB4 p es) (hcalls : ∀ e ∈ es, e.action ≠ none) :
    ((programSystem .lifeCycleB4 initB4).restrict PromotesReady).Reachable (performAll p es) := by
  induction es generalizing p with
  | nil => exact h
  | cons e es ih =>
    obtain ⟨he, hcalls⟩ := List.forall_mem_cons.1 hcalls
    exact ih (h.step ⟨fun hnone => absurd hnone he, hes.1, rfl⟩) hes.2 hcalls

/-- The init process has made all its calls. -/
def calledB4 : TaskManager × ℕ := performAll startB4 eventsB4

theorem calledB4_spec : ((programSystem .lifeCycleB4 initB4).restrict PromotesReady).Reachable calledB4 ∧
    calledB4.1.numTasks = 5 := by
  have hleads : leadsTo initB4 (fun s => decide (s.numTasks = 5)) (programBoot .lifeCycleB4).firstTick.1 0 eventsB4 =
      true := by
    decide +kernel
  obtain ⟨hall, hP⟩ := followsAll_of_leadsTo hleads
  have hstart : ((programSystem .lifeCycleB4 initB4).restrict PromotesReady).Reachable startB4 :=
    .init ⟨programBoot .lifeCycleB4, rfl, rfl, rfl⟩
  exact ⟨reachable_promotesReady hstart hall (by decide +kernel), of_decide_eq_true hP⟩

/-- The collatz task is raised at the fifth tick; the five tasks are consistent before the first. -/
theorem raisesOnly_iff_ready_readyB4 :
    readyB4.1.RaisesOnly (fun _ => 0) 12000 (readyB4.1.handle (.timer (fun _ => 0) 12000)).1 ∧
      calledB4.1.numTasks = 5 ∧ calledB4.1.Consistent := by
  obtain ⟨hreach, hpro, hready⟩ := readyB4_spec
  obtain ⟨hcalled, hnum⟩ := calledB4_spec
  refine ⟨((raisesOnly_iff_ready readyB4).1 hreach _ _ hpro).2 ⟨1, hready⟩, hnum, ?_⟩
  exact (raisesOnly_iff_ready calledB4).2 hcalled

/-- All children exit before the ticks. -/
def lateB4 : TaskManager × ℕ :=
  performAll startB4 (eventsB4 ++ (List.replicate 4 [callEvent 7 (-1), callEvent 8 0]).flatten ++
    List.replicate 4 tickEvent)

theorem lateB4_spec : (programSystem .lifeCycleB4 initB4).Reachable lateB4 ∧ lateB4.1.Promotes ∧
    1 < lateB4.1.numTasks ∧ (lateB4.1.tasks 1).state = .terminated ∧
    ((lateB4.1.handle (.timer (fun _ => 0) 12000)).1.tasks 1).state = .ready := by
  have hleads : leadsTo initB4 (fun s => decide (s.lifeCycleType = .lifeCycleB4 ∧
      s.ignoreSchedule = false ∧ s.interruptNumAfterCollatz = 4 ∧ 1 < s.numTasks ∧
      (s.tasks 1).state = .terminated ∧
      ((s.handle (.timer (fun _ => 0) 12000)).1.tasks 1).state = .ready))
      (programBoot .lifeCycleB4).firstTick.1 0
      (eventsB4 ++ (List.replicate 4 [callEvent 7 (-1), callEvent 8 0]).flatten ++
        List.replicate 4 tickEvent) = true := by
    decide +kernel
  obtain ⟨hall, hP⟩ := followsAll_of_leadsTo hleads
  obtain ⟨hlife, hig, hnum, hone, hterm, hready⟩ := of_decide_eq_true hP
  rw [lateB4, startB4]
  exact ⟨reachable_performAll (programBoot_reachable _ _) hall, ⟨hlife, hig, hnum⟩, hone, hterm, hready⟩

/-- The promotion may make a task ready again that has terminated. -/
theorem not_raisesOnly : ¬∀ p, (programSystem .lifeCycleB4 initB4).Reachable p →
    ∀ mem esp, p.1.Promotes → p.1.RaisesOnly mem esp (p.1.handle (.timer mem esp)).1 := by
  obtain ⟨hreach, hpro, hone, hterm, hready⟩ := lateB4_spec
  intro h
  have hstay := (h lateB4 hreach (fun _ => 0) 12000 hpro).terminated 1 hone hterm
  rw [hready] at hstay
  cases hstay

end GtuOs.TaskManager

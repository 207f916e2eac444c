import GtuOs.Lib.Eager
import GtuOs.Multitasking.Modes

/-!
# The programs of lifecycles B3 and B4

The init routines of these lifecycles make a fixed sequence of calls (`initB3`,
`initB4`), and then wait for their children, which execute programs that only exit.
The runs interleave them with timer ticks in any way (`programSystem`).

The init process has the best rank (`Primed`): while it does not block, it is the one
dispatched by every tick, and its children stay ready (`Primed.tick`).
-/

namespace GtuOs.TaskManager

/-- What a program does: a system call, or a call of `SetIgnoreSchedule`, which is
    not one. -/
inductive Action
  | call (c : Syscall)
  | setIgnoreSchedule (ignoreSchedule : Bool)
  deriving DecidableEq

/-- `sysfork`, the test of `sysforkpid`, and `syssetlasttaskpriority`. -/
def forkWith (priority : UInt32) : List Action :=
  [.call .fork, .call .forkpid, .call (.setLastTaskPriority priority)]

/-- `initB3`, until it waits for its children. -/
def initB3 : List Action :=
  forkWith 2 ++ [.call .collatzAdded, .call .blockForCollatz] ++
    forkWith 2 ++ forkWith 2 ++ forkWith 2

/-- `initB4`, until it waits for its children. -/
def initB4 : List Action :=
  [.setIgnoreSchedule true] ++ forkWith 2 ++ [.call .collatzAdded] ++
    forkWith 1 ++ forkWith 1 ++ forkWith 1 ++ [.setIgnoreSchedule false]

/-- What a child does: it tests `sysforkpid`, and executes a program, which exits. -/
def ChildAction : Action → Prop
  | .call .forkpid => True
  | .call (.execve _) => True
  | .call .exit => True
  | .call (.printf _) => True
  | .call .other => True
  | _ => False

/-- What happens in a run. -/
inductive Event
  | interrupt (i : Interrupt)
  | setIgnoreSchedule (ignoreSchedule : Bool)

/-- What the running program does in an event, unless it is a tick. -/
def Event.action : Event → Option Action
  | interrupt i => i.call.map .call
  | setIgnoreSchedule ignoreSchedule => some (.setIgnoreSchedule ignoreSchedule)

/-- The state after an event. -/
def perform (s : TaskManager) : Event → TaskManager
  | .interrupt i => (s.handle i).1
  | .setIgnoreSchedule ignoreSchedule => s.setIgnoreSchedule ignoreSchedule

/-- The event is a tick, or the running process follows its program, of which the init
    process has performed `n` actions: in the end it waits for its children. -/
def Follows (init : List Action) (s : TaskManager) (n : ℕ) (e : Event) : Prop :=
  match e.action with
  | none => True
  | some a =>
    if s.current = 0 then
      init[n]? = some a ∨ init.length ≤ n ∧ a = .call (.waitpid (-1))
    else ChildAction a

/-- The number of actions the init process has performed after an event. -/
def advance (s : TaskManager) (n : ℕ) (e : Event) : ℕ :=
  if s.current = 0 ∧ e.action.isSome then n + 1 else n

/-- The runs of an init routine with the preemptive scheduler. -/
def programSystem (lifeCycleType : LifeCycleType) (init : List Action) :
    System (TaskManager × ℕ) Event where
  init p := ∃ b : Boot, b.lifeCycleType = lifeCycleType ∧
    b.schedulerType = .preemptivePriority ∧ p = (b.firstTick.1, 0)
  step p e p' := Follows init p.1 p.2 e ∧ p' = (p.1.perform e, advance p.1 p.2 e)

/-- The number of forks of the first `n` actions. -/
def forkCount (init : List Action) (n : ℕ) : ℕ := (init.take n).count (.call .fork)

theorem forkCount_succ (init : List Action) (n : ℕ) :
    forkCount init (n + 1) = forkCount init n + if init[n]? = some (.call .fork) then 1 else 0 := by
  rw [forkCount, forkCount, List.take_add_one, List.count_append]
  cases init[n]? with
  | none => rfl
  | some a => simp [List.count_singleton]

theorem forkCount_succ_call {init : List Action} {n : ℕ} {c : Syscall} (k : ℕ) (hget : init[n]? = some (.call c)) :
    k + forkCount init (n + 1) = if c = .fork then k + forkCount init n + 1 else k + forkCount init n := by
  rw [forkCount_succ, hget]
  by_cases hc : c = .fork <;> simp [hc]
  omega

theorem Event.action_of_call {i : Interrupt} {c : Syscall} (hcall : i.call = some c) :
    (Event.interrupt i).action = some (.call c) :=
  congrArg (Option.map Action.call) hcall

/-- What the init process does. -/
theorem Follows.action_init {init : List Action} {s : TaskManager} {n : ℕ} {e : Event} {a : Action}
    (h : Follows init s n e) (hact : e.action = some a) (hcur : s.current = 0) :
    init[n]? = some a ∨ init.length ≤ n ∧ a = .call (.waitpid (-1)) := by
  rw [Follows, hact] at h
  exact (if_pos hcur).mp h

/-- What another process does. -/
theorem Follows.action_child {init : List Action} {s : TaskManager} {n : ℕ} {e : Event} {a : Action}
    (h : Follows init s n e) (hact : e.action = some a) (hcur : s.current ≠ 0) : ChildAction a := by
  rw [Follows, hact] at h
  exact (if_neg hcur).mp h

/-- What a process does, the init process having prepared its children. -/
theorem Follows.late {init : List Action} {s : TaskManager} {n : ℕ} {i : Interrupt} {c : Syscall}
    (h : Follows init s n (.interrupt i)) (hn : s.current = 0 → init.length ≤ n)
    (hcall : i.call = some c) :
    s.current = 0 ∧ c = .waitpid (-1) ∨ s.current ≠ 0 ∧ ChildAction (.call c) := by
  have hact := Event.action_of_call hcall
  by_cases hcur : s.current = 0
  · rcases h.action_init hact hcur with h | ⟨-, h⟩
    · have hnone := List.getElem?_eq_none (hn hcur)
      rw [h] at hnone
      cases hnone
    · exact .inl ⟨hcur, Action.call.inj h⟩
  · exact .inr ⟨hcur, h.action_child hact hcur⟩

/-- These are system calls of lifecycle A. -/
theorem Follows.allowed {init : List Action} {s : TaskManager} {n : ℕ} {i : Interrupt}
    (h : Follows init s n (.interrupt i)) (hn : s.current = 0 → init.length ≤ n) : s.Allowed i := by
  rw [Allowed]
  cases hcall : i.call with
  | none => trivial
  | some c =>
    rcases h.late hn hcall with ⟨-, rfl⟩ | ⟨hcur, hc⟩
    · trivial
    · cases c <;> trivial

/-! ## Given runs -/

instance : DecidablePred ChildAction
  | .call (.printf _) => .isTrue trivial
  | .call .forkpid => .isTrue trivial
  | .call (.execve _) => .isTrue trivial
  | .call .exit => .isTrue trivial
  | .call .other => .isTrue trivial
  | .call .fork => .isFalse id
  | .call (.waitpid _) => .isFalse id
  | .call .blockForCollatz => .isFalse id
  | .call (.setLastTaskPriority _) => .isFalse id
  | .call .collatzAdded => .isFalse id
  | .setIgnoreSchedule _ => .isFalse id

instance (init : List Action) (s : TaskManager) (n : ℕ) (e : Event) :
    Decidable (Follows init s n e) :=
  match h : e.action with
  | none => .isTrue (by unfold Follows; rw [h]; trivial)
  | some a =>
    decidable_of_iff (if s.current = 0 then
        init[n]? = some a ∨ init.length ≤ n ∧ a = .call (.waitpid (-1)) else ChildAction a)
      (by unfold Follows; rw [h])

/-- The events follow the programs, one after the other. -/
def FollowsAll (init : List Action) (p : TaskManager × ℕ) : List Event → Prop
  | [] => True
  | e :: es => Follows init p.1 p.2 e ∧ FollowsAll init (p.1.perform e, advance p.1 p.2 e) es

/-- The state after events. -/
def performAll (p : TaskManager × ℕ) (es : List Event) : TaskManager × ℕ :=
  es.foldl (fun p e => (p.1.perform e, advance p.1 p.2 e)) p

theorem reachable_performAll {lifeCycleType : LifeCycleType} {init : List Action}
    {p : TaskManager × ℕ} (h : (programSystem lifeCycleType init).Reachable p) {es : List Event}
    (hes : FollowsAll init p es) :
    (programSystem lifeCycleType init).Reachable (performAll p es) := by
  induction es generalizing p with
  | nil => exact h
  | cons e es ih => exact ih (h.step ⟨hes.1, rfl⟩) hes.2

open Eager

/-- `f t`, the fields scheduling depends on being evaluated first. -/
def withTask {β : Type} (t : Task) (f : Task → β) : β :=
  withInt t.pid fun pid => withInt t.ppid fun ppid => withInt t.priority fun priority =>
    withInt t.arrivalOrder fun arrivalOrder => withBool t.waitingChild fun waitingChild =>
      withBool t.parentTookInWait fun parentTookInWait =>
        let f := fun state => f { t with
          pid, ppid, priority, arrivalOrder, waitingChild, parentTookInWait, state }
        match t.state with
        | .ready => f .ready
        | .running => f .running
        | .blocked => f .blocked
        | .terminated => f .terminated

/-- `f s`, the first five tasks and the queue being evaluated first. -/
def withState {β : Type} (s : TaskManager) (f : TaskManager → β) : β :=
  withInt s.currentTask fun currentTask => withNat s.numTasks fun numTasks =>
    withInt s.nextArrivalOrder fun nextArrivalOrder =>
      withInt s.interruptNumAfterCollatz fun interruptNumAfterCollatz =>
        withInt s.queueLen fun queueLen =>
          withFirst withNat s.readyQueue.get 6 fun get => withFirst withTask s.tasks 5 fun tasks =>
            f { s with
              currentTask, numTasks, nextArrivalOrder, interruptNumAfterCollatz, queueLen, tasks
              readyQueue := ⟨get, s.readyQueue.top⟩ }

theorem withTask_eq {β : Type} (t : Task) (f : Task → β) : withTask t f = f t := by
  simp only [withTask, withInt_eq, withBool_eq]
  cases h : t.state <;> simp [← h]

theorem withState_eq {β : Type} (s : TaskManager) (f : TaskManager → β) : withState s f = f s := by
  simp only [withState, withInt_eq, withNat_eq, withFirst_eq withNat_eq, withFirst_eq withTask_eq]

/-- Whether the events follow the programs, to a state with the property `P`. -/
def leadsTo (init : List Action) (P : TaskManager → Bool) : TaskManager → ℕ → List Event → Bool
  | s, _, [] => withState s P
  | s, n, e :: es => withState s fun s => decide (Follows init s n e) &&
      withNat (advance s n e) fun n => leadsTo init P (s.perform e) n es

theorem followsAll_of_leadsTo {init : List Action} {P : TaskManager → Bool} {s : TaskManager} {n : ℕ}
    {es : List Event} (h : leadsTo init P s n es = true) :
    FollowsAll init (s, n) es ∧ P (performAll (s, n) es).1 = true := by
  induction es generalizing s n with
  | nil =>
    rw [leadsTo, withState_eq] at h
    exact ⟨trivial, h⟩
  | cons e es ih =>
    rw [leadsTo, withState_eq, withNat_eq, Bool.and_eq_true, decide_eq_true_iff] at h
    obtain ⟨hall, hP⟩ := ih h.2
    exact ⟨⟨h.1, hall⟩, hP⟩

/-- An event in which the running process makes a system call. -/
def callEvent (eax ebx : UInt32) : Event :=
  .interrupt (.syscall (Memory.store32 (Memory.store32 (fun _ => 0) 12004 ebx) 12000 eax) 12000)

/-- A timer tick. -/
def tickEvent : Event := .interrupt (.timer (fun _ => 0) 12000)

/-- `sysfork`, the test of `sysforkpid`, and `syssetlasttaskpriority`. -/
def forkEvents (priority : UInt32) : List Event :=
  [callEvent 57 0, callEvent 58 0, callEvent 10 priority]

/-- A start in the given lifecycle. -/
def programBoot (lifeCycleType : LifeCycleType) : Boot :=
  { sampleBoot with schedulerType := .preemptivePriority, lifeCycleType }

theorem programBoot_reachable (lifeCycleType : LifeCycleType) (init : List Action) :
    (programSystem lifeCycleType init).Reachable ((programBoot lifeCycleType).firstTick.1, 0) :=
  .init ⟨programBoot lifeCycleType, rfl, rfl, rfl⟩

/-! ## Booting -/

namespace Boot

/-- The same start in lifecycle A. -/
def plain (b : Boot) : Boot :=
  { b with raw := { b.raw with collatzTask := none }, lifeCycleType := .lifeCycleA }

theorem plain_allowed (b : Boot) : b.plain.Allowed := ⟨.inl rfl, rfl⟩

/-- The mode in which the task manager starts. -/
def mode (b : Boot) : Mode := ⟨b.lifeCycleType, -1, b.raw.collatzTask, none, false⟩

variable {b : Boot}

theorem start_plain (hsch : b.schedulerType = .preemptivePriority) :
    b.start = b.plain.start.withMode b.mode := by
  have hkind : ¬((b.lifeCycleType = .lifeCycleB3 ∨ b.lifeCycleType = .lifeCycleB4) ∧
      b.schedulerType = .roundRobin) := by simp [hsch]
  have hroom : { b.raw.construct b.schedulerType b.lifeCycleType with
      mem := b.resetTask1.2 }.numTasks < maxNumTasks := show 0 < maxNumTasks by decide
  have heq : b.start =
      if (b.lifeCycleType = .lifeCycleB3 ∨ b.lifeCycleType = .lifeCycleB4) ∧
          b.schedulerType = .roundRobin then
        b.raw.construct b.schedulerType b.lifeCycleType
      else ({ b.raw.construct b.schedulerType b.lifeCycleType with
        mem := b.resetTask1.2 }.addTask b.resetTask1.1 .high (-1)).1 := rfl
  rw [heq, if_neg hkind, addTask_eq _ _ _ hroom, Boot.start_eq b.plain_allowed]
  exact pushTask_withMode { b.plain.raw.construct b.plain.schedulerType b.plain.lifeCycleType with
    mem := b.plain.resetTask1.2 } b.mode _ _

/-- The first tick. -/
theorem firstTick_plain (hsch : b.schedulerType = .preemptivePriority) :
    b.firstTick.1 = b.plain.firstTick.1.withMode b.mode := by
  obtain ⟨hinv, hnum, hcur, -⟩ := start_spec b.plain_allowed
  have hstart := start_plain hsch
  have hticks : b.firstTick = { b.start with mem := b.mem }.scheduleTick b.esp := rfl
  have hn : ¬{ b.start with mem := b.mem }.numTasks ≤ 0 := by
    rw [hstart]
    show ¬b.plain.start.numTasks ≤ 0
    omega
  have hcur' : ¬b.plain.start.currentTask ≥ 0 := by omega
  rw [hticks, scheduleTick_eq, if_neg hn, firstTick_eq b.plain_allowed, hstart]
  rw [if_neg (fun h => by cases h.2)]
  have hquiet : (({ b.plain.start.withMode b.mode with
      mem := b.mem }).countInterrupt.promoteAtFifth.unblockAtFifth.requeueCurrent b.esp) =
      { b.plain.start with mem := b.mem }.withMode b.mode := by
    have hcount : ({ b.plain.start.withMode b.mode with mem := b.mem }).countInterrupt =
        { b.plain.start with mem := b.mem }.withMode b.mode := rfl
    have hno : ∀ l : LifeCycleType, ¬(({ b.plain.start with mem := b.mem }.withMode b.mode).lifeCycleType = l ∧
        ({ b.plain.start with mem := b.mem }.withMode b.mode).interruptNumAfterCollatz = 5) :=
      fun l h => absurd h.2 (by show ¬(-1 : ℤ) = 5; decide)
    rw [hcount, promoteAtFifth, if_neg (hno _), unblockAtFifth, if_neg (hno _)]
    exact if_neg hcur'
  rw [hquiet, schedule_withMode]
  rfl

end Boot

/-! ## System calls, one by one -/

variable {s : TaskManager} {i : Interrupt}

/-- What the dispatch does with a system call. -/
theorem handle_of_call {c : Syscall} : i.call = some c → (s.handle i).1 =
      match c with
      | .printf _ => { s with mem := i.mem }
      | .fork => { s with mem := i.mem }.fork i.esp
      | .forkpid => { s with
          mem := CPUState.setEax i.mem i.esp (.ofInt (s.tasks s.current).forkPid) }
      | .execve entrypoint => ({ s with mem := i.mem }.execve entrypoint).1
      | .waitpid pid => ({ s with mem := i.mem }.waitpid pid i.esp).1
      | .exit => { s with mem := i.mem }.exit.1
      | .blockForCollatz => ({ s with mem := i.mem }.blockForCollatz i.esp).1
      | .setLastTaskPriority priority => { s with mem := i.mem }.setLastTaskPriority priority
      | .collatzAdded => { s with mem := i.mem }.collatzAdded
      | .other => { s with mem := i.mem } := by
  intro hcall
  cases i with
  | timer mem esp => cases hcall
  | syscall mem esp =>
    have hsys : (CPUState.load mem esp).syscall = c := Option.some_inj.1 hcall
    simp only [handle, handleInterrupt, hsys]
    cases c <;> rfl

/-! ## The init process has the best rank -/

/-- The invariants, in lifecycle A, of the scheduler; the init process has the priority
    `High`, and no process a higher one. -/
structure Primed (s : TaskManager) : Prop where
  inv : s.plain.Inv
  ranked : s.plain.Ranked
  high : (s.tasks 0).priority = 0
  nonneg : ∀ k < s.numTasks, 0 ≤ (s.tasks k).priority

namespace Primed

/-- The init process alone, after the first tick. -/
theorem boot {b : Boot} (hsch : b.schedulerType = .preemptivePriority) :
    b.firstTick.1.Primed ∧ b.firstTick.1.mode = b.mode ∧ b.firstTick.1.current = 0 ∧
      b.firstTick.1.numTasks = 1 := by
  have hallow := b.plain_allowed
  have heq := Boot.firstTick_plain hsch
  -- With the lifecycle set back, this is a boot of the other lifecycles.
  have hplain : b.firstTick.1.plain = b.plain.firstTick.1 := by
    rw [heq, plain_withMode]
    exact (Boot.firstTick_plain (b := b.plain) hsch).symm
  have ht : b.firstTick.1.tasks = b.plain.firstTick.1.tasks := by rw [heq]; rfl
  have hn : b.firstTick.1.numTasks = b.plain.firstTick.1.numTasks := by rw [heq]; rfl
  have hc : b.firstTick.1.current = b.plain.firstTick.1.current := by rw [heq]; rfl
  obtain ⟨hd, hinv⟩ := Boot.firstTick_spec hallow
  have hnum : b.plain.firstTick.1.numTasks = 1 :=
    hd.numTasks_eq.trans (Boot.start_spec hallow).2.1
  have hone : 0 < b.plain.firstTick.1.numTasks := by omega
  have hcur : b.plain.firstTick.1.current = 0 := (Boot.firstTick_single hallow hone).symm
  have hstart : (b.plain.start.tasks 0).priority = 0 := by
    have hzero : (b.plain.raw.construct b.plain.schedulerType b.plain.lifeCycleType).numTasks = 0 :=
      rfl
    rw [Boot.start_eq hallow, pushTask_tasks]
    dsimp only
    rw [hzero, Function.update_self]
    rfl
  have hhigh : (b.plain.firstTick.1.tasks 0).priority = 0 := by
    rcases hd.tasks_eq 0 with h | ⟨-, h⟩ <;> rw [h] <;> exact hstart
  refine ⟨⟨hplain ▸ hinv, hplain ▸ (Boot.firstTick_ranked hallow hsch).1, ht ▸ hhigh,
    fun k hk => ?_⟩, by rw [heq]; rfl, hc.trans hcur, hn.trans hnum⟩
  obtain rfl : k = 0 := by omega
  rw [ht, hhigh]

/-- The init process is better than its children. -/
theorem rank_lt (h : s.Primed) {k : ℕ} (h0 : 0 < k) (hk : k < s.numTasks) :
    s.plain.rank 0 < s.plain.rank k := by
  have h0' := h.ranked.arrival 0 (h0.trans hk)
  have hk' := h.ranked.arrival k hk
  have hp := h.nonneg k hk
  rw [rank, rank, Prod.Lex.toLex_lt_toLex, h0', hk']
  have hhigh : (s.plain.tasks 0).priority = 0 := h.high
  rw [hhigh]
  rcases hp.lt_or_eq with hlt | heq
  · exact .inl hlt
  · refine .inr ⟨heq, ?_⟩
    dsimp only
    omega

/-- What matters is the state in lifecycle A. -/
theorem congr {s' : TaskManager} (h : s.Primed) (hp : s'.plain = s.plain) : s'.Primed := by
  have ht : s'.tasks = s.tasks := show s'.plain.tasks = s.plain.tasks by rw [hp]
  have hn : s'.numTasks = s.numTasks := show s'.plain.numTasks = s.plain.numTasks by rw [hp]
  refine ⟨hp ▸ h.inv, hp ▸ h.ranked, ht ▸ h.high, ?_⟩
  rw [ht, hn]
  exact h.nonneg

/-- The memory does not matter. -/
theorem withMem (h : s.Primed) (mem : Memory) : { s with mem }.Primed :=
  ⟨h.inv.withMem mem, h.ranked.withMem mem, h.high, h.nonneg⟩

/-- An interrupt handled as in lifecycle A. -/
theorem handle {s' : TaskManager} (h : s.Primed) (hi : s.Allowed i)
    (hs' : s'.plain = (s.plain.handle i).1) : s'.Primed := by
  have hi' : s.PriorityAllowed i := by
    rw [PriorityAllowed]
    split
    · next hc =>
      rw [Allowed] at hi
      rw [hc] at hi
      exact hi.elim
    · exact hi
  have heff := (h.inv.handle hi).1
  obtain ⟨hinv, hrank, -⟩ := h.ranked.handle h.inv hi'
  generalize s.plain.handle i = r at hs' heff hinv hrank
  have ht : s'.tasks = r.1.tasks := show s'.plain.tasks = r.1.tasks by rw [hs']
  have hn : s'.numTasks = r.1.numTasks := show s'.plain.numTasks = r.1.numTasks by rw [hs']
  have hold : ∀ k < s.numTasks, (s'.tasks k).priority = (s.tasks k).priority := fun k hk => by
    rw [ht]
    exact heff.field_eq (s := s.plain) hk (fun _ _ _ _ _ _ => rfl) fun _ _ _ _ => rfl
  have hpos : 0 < s.numTasks := lt_of_le_of_lt (Nat.zero_le _) h.inv.current_lt
  refine ⟨hs' ▸ hinv, hs' ▸ hrank, (hold 0 hpos).trans h.high, fun k hk => ?_⟩
  -- Priorities do not change.
  rcases Nat.lt_or_ge k s.numTasks with hlt | hge
  · rw [hold k hlt]
    exact h.nonneg k hlt
  · -- A new task has the priority of its parent.
    rw [ht]
    rw [hn] at hk
    cases heff with
    | @fork _ esp _ _ _ htasks _ hnum =>
      have hnum' : _ = s.numTasks + 1 := hnum
      have hkn : k = s.plain.numTasks := by
        show k = s.numTasks
        dsimp only at hk
        omega
      dsimp only
      rw [htasks, hkn, Function.update_self]
      exact h.nonneg _ h.inv.current_lt
    | skip | forkpid | execve | reap | refuse => exact absurd hk (Nat.not_lt.2 hge)
    | tick hd | block _ _ _ hd | exit _ _ hd | exitWake _ _ _ _ hd =>
      rw [hd.numTasks_eq] at hk
      exact absurd hk (Nat.not_lt.2 hge)

/-- The init process runs, unless it is blocked, if the best task does. -/
theorem current_eq_zero (h : s.Primed) (hbest : s.plain.Best)
    (hst : (s.tasks 0).state = .ready ∨ (s.tasks 0).state = .running) : s.current = 0 := by
  have hpos : 0 < s.numTasks := lt_of_le_of_lt (Nat.zero_le _) h.inv.current_lt
  by_contra hne
  rcases hst with hready | hrun
  · exact lt_asymm (hbest 0 hpos hready) (h.rank_lt (Nat.pos_of_ne_zero hne) h.inv.current_lt)
  · exact hne (Option.some_inj.1 ((h.inv.table.running_iff 0 hpos).1 hrun))

/-- A tick dispatches the init process again. -/
theorem tick_init (h : s.Primed) (hcur : s.current = 0) (mem : Memory) (esp : ℕ) :
    ({ s.plain with mem }.scheduleTick esp).1.current = 0 ∧
      ({ s.plain with mem }.scheduleTick esp).1.tasks =
        Function.update s.tasks 0 { s.tasks 0 with cpustate := esp } := by
  obtain ⟨heff, hinv⟩ := h.inv.handle (i := .timer mem esp) trivial
  have hticks : s.plain.handle (.timer mem esp) = { s.plain with mem }.scheduleTick esp := rfl
  rw [hticks] at heff hinv
  have hbest := ((h.ranked.withMem mem).scheduleTick (h.inv.withMem mem) esp).2
  have hpos : 0 < s.numTasks := lt_of_le_of_lt (Nat.zero_le _) h.inv.current_lt
  have hrun : (s.tasks 0).state = .running := by
    have := h.inv.state_current
    rw [show s.plain.current = 0 from hcur] at this
    exact this
  have hrank : ∀ k < s.numTasks,
      ({ s.plain with mem }.scheduleTick esp).1.rank k = s.plain.rank k := fun k hk =>
    rank_congr (heff.field_eq hk (fun _ _ _ _ _ _ => rfl) fun _ _ _ _ => rfl)
      (heff.field_eq hk (fun _ _ _ _ _ _ => rfl) fun _ _ _ _ => rfl)
  generalize { s.plain with mem }.scheduleTick esp = r at heff hinv hbest hrank ⊢
  cases heff with
  | tick hd =>
    have hnum : r.1.numTasks = s.numTasks := hd.numTasks_eq
    obtain ⟨t, ht, hst, htasks, hcur', -⟩ := hd
    have hcurrent : r.1.current = t := by rw [current, hcur', Int.toNat_natCast]
    dsimp only at htasks hst
    rw [show s.plain.current = 0 from hcur] at htasks hst
    have ht0 : t = 0 := by
      by_contra hne
      -- The task dispatched would be better than the init process.
      have hne' : (0 : ℕ) ≠ t := fun he => hne he.symm
      have hready : (r.1.tasks 0).state = .ready := by
        rw [htasks, Function.update_of_ne hne', Function.update_self]
      have hlt := hbest 0 (by omega) hready
      rw [hcurrent, hrank t ht, hrank 0 hpos] at hlt
      exact lt_asymm hlt (h.rank_lt (Nat.pos_of_ne_zero hne) ht)
    subst ht0
    refine ⟨hcurrent, ?_⟩
    rw [htasks, Function.update_self, Function.update_idem]
    congr 1
    show ({ s.tasks 0 with cpustate := esp, state := .running } : Task) = _
    rw [← hrun]

/-- A ready child gets another priority. -/
theorem reprioritize (h : s.Primed) {t : ℕ} (h0 : 0 < t) (ht : t < s.numTasks)
    (hst : (s.tasks t).state = .ready) {p : Priority} (hp : 0 ≤ p) :
    (s.reprioritize t p).Primed := by
  have hplain : (s.reprioritize t p).plain = s.plain.reprioritize t p :=
    (reprioritize_withMode s .plain t p).symm
  have htasks : (s.reprioritize t p).tasks =
      Function.update s.tasks t { s.tasks t with priority := p, state := .ready } := by
    rw [reprioritize_eq]
  refine ⟨hplain ▸ h.inv.reprioritize ht hst p, hplain ▸ h.ranked.reprioritize h.inv.toBase ht p,
    ?_, fun k hk => ?_⟩
  · rw [htasks, Function.update_of_ne h0.ne]
    exact h.high
  · rw [reprioritize_numTasks] at hk
    rw [htasks]
    rcases eq_or_ne k t with rfl | hkt
    · rw [Function.update_self]
      exact hp
    · rw [Function.update_of_ne hkt]
      exact h.nonneg k hk

end Primed

/-! ## Preparing -/

/-- The init process goes on preparing, with `n` tasks in the table. -/
structure Prepares (s : TaskManager) (lo n : ℕ) : Prop where
  primed : s.Primed
  current : s.current = 0
  /-- Its children from `lo` on are ready. -/
  ready : ∀ k, lo ≤ k → k < s.numTasks → (s.tasks k).state = .ready ∧ (s.tasks k).ppid = 0
  numTasks : s.numTasks = n

namespace Prepares

variable {s' : TaskManager} {lo n : ℕ}

/-- What matters is the state in lifecycle A. -/
theorem congr (h : s.Prepares lo n) (hp : s'.plain = s.plain) : s'.Prepares lo n := by
  have ht : s'.tasks = s.tasks := show s'.plain.tasks = s.plain.tasks by rw [hp]
  have hn : s'.numTasks = s.numTasks := show s'.plain.numTasks = s.plain.numTasks by rw [hp]
  have hc : s'.current = s.current := show s'.plain.current = s.plain.current by rw [hp]
  exact ⟨h.primed.congr hp, hc.trans h.current, ht ▸ hn ▸ h.ready, hn.trans h.numTasks⟩

/-- The memory does not matter. -/
theorem withMem (h : s.Prepares lo n) (mem : Memory) : { s with mem }.Prepares lo n :=
  ⟨h.primed.withMem mem, h.current, h.ready, h.numTasks⟩

/-- `Fork`: the new child is ready. -/
theorem fork (h : s.Prepares lo n) (hcall : i.call = some .fork) (hroom : n < maxNumTasks)
    (hs' : s'.plain = (s.plain.handle i).1) : s'.Prepares lo (n + 1) := by
  have hallow : s.plain.Allowed i := by
    rw [Allowed]
    rw [hcall]
    exact h.numTasks ▸ hroom
  have hheq : (s.plain.handle i).1 = { s.plain with mem := i.mem }.fork i.esp := handle_of_call hcall
  obtain ⟨htasks, -, hnum, hcur, -⟩ :=
    (h.primed.inv.withMem i.mem).fork i.esp (h.numTasks ▸ hroom : s.numTasks < maxNumTasks)
  rw [← hheq, ← hs'] at htasks hnum hcur
  have hn : s'.numTasks = n + 1 := hnum.trans (congrArg (· + 1) h.numTasks)
  refine ⟨h.primed.handle hallow hs', ?_, fun k hlo hk => ?_, hn⟩
  · exact (congrArg Int.toNat hcur).trans h.current
  · have ht : s'.tasks = Function.update (Function.update s.tasks s.current
        { s.tasks s.current with cpustate := i.esp, forkPid := s.numTasks }) s.numTasks
        (s.plain.forkChild i.esp) := htasks
    have hpos : 0 < s.numTasks := lt_of_le_of_lt (Nat.zero_le _) h.primed.inv.current_lt
    rw [ht]
    -- The child has the init process as its parent.
    rcases eq_or_ne k s.numTasks with rfl | hkn
    · rw [Function.update_self]
      have hpid : (s.tasks s.current).pid = s.current := h.primed.inv.pid_current
      rw [h.current] at hpid
      refine ⟨rfl, ?_⟩
      show (s.tasks s.current).pid = 0
      rw [h.current, hpid]
      rfl
    · rw [Function.update_of_ne hkn]
      have hk' : k < s.numTasks := by
        have hnum' := h.numTasks
        omega
      rcases eq_or_ne k s.current with rfl | hkc
      · rw [Function.update_self]
        exact h.ready _ hlo hk'
      · rw [Function.update_of_ne hkc]
        exact h.ready k hlo hk'

/-- Ticks. -/
theorem tick (h : s.Prepares lo n) (mem : Memory) (esp : ℕ)
    (hs' : s'.plain = (s.plain.handle (.timer mem esp)).1) : s'.Prepares lo n := by
  obtain ⟨hcur, htasks⟩ := h.primed.tick_init h.current mem esp
  have hticks : s.plain.handle (.timer mem esp) = { s.plain with mem }.scheduleTick esp := rfl
  have hnum : ({ s.plain with mem }.scheduleTick esp).1.numTasks = s.numTasks :=
    scheduleTick_numTasks _ _
  rw [hticks] at hs'
  rw [← hs'] at hcur htasks hnum
  have ht : s'.tasks = Function.update s.tasks 0 { s.tasks 0 with cpustate := esp } := htasks
  have hn : s'.numTasks = s.numTasks := hnum
  refine ⟨h.primed.handle (i := .timer mem esp) trivial hs', hcur, fun k hlo hk => ?_,
    hn.trans h.numTasks⟩
  rw [ht]
  rcases eq_or_ne k 0 with rfl | hk0
  · rw [Function.update_self]
    exact h.ready 0 hlo (hn ▸ hk)
  · rw [Function.update_of_ne hk0]
    exact h.ready k hlo (hn ▸ hk)

/-- A ready child gets another priority. -/
theorem reprioritize (h : s.Prepares lo n) {t : ℕ} (h0 : 0 < t) (ht : t < n)
    (hst : (s.tasks t).state = .ready) {p : Priority} (hp : 0 ≤ p) :
    (s.reprioritize t p).Prepares lo n := by
  have htasks : (s.reprioritize t p).tasks =
      Function.update s.tasks t { s.tasks t with priority := p, state := .ready } := by
    rw [reprioritize_eq]
  have hn := h.numTasks
  refine ⟨h.primed.reprioritize h0 (hn ▸ ht) hst hp, ?_, fun k hlo hk => ?_, ?_⟩
  · rw [reprioritize_eq]
    exact h.current
  · rw [reprioritize_numTasks] at hk
    rw [htasks]
    rcases eq_or_ne k t with rfl | hne
    · rw [Function.update_self]
      exact ⟨rfl, (h.ready k hlo hk).2⟩
    · rw [Function.update_of_ne hne]
      exact h.ready k hlo hk
  · rw [reprioritize_numTasks]
    exact hn

/-- `SetLastTaskPriority`, of a child that is ready. -/
theorem setLastTaskPriority (h : s.Prepares lo n) (hlo : 0 < lo) (hn : lo < n) {priority : UInt32}
    (hp : 0 ≤ priority.toInt32.toInt) : (s.setLastTaskPriority priority).Prepares lo n := by
  have hnum := h.numTasks
  rw [setLastTaskPriority_eq (by omega)]
  exact h.reprioritize (by omega) (by omega) (h.ready (s.numTasks - 1) (by omega) (by omega)).1 hp

end Prepares

/-- The calls with which the init process prepares its children, those from `lo` on
    being ready, with `n` tasks in the table. -/
def Preparatory (lo n : ℕ) : Syscall → Prop
  | .fork => n < maxNumTasks
  | .forkpid => True
  | .setLastTaskPriority priority => lo < n ∧ 0 ≤ priority.toInt32.toInt
  | .collatzAdded => True
  | _ => False

instance (lo n : ℕ) : DecidablePred (Preparatory lo n)
  | .fork => inferInstanceAs (Decidable (n < maxNumTasks))
  | .forkpid => .isTrue trivial
  | .setLastTaskPriority priority =>
    inferInstanceAs (Decidable (lo < n ∧ 0 ≤ priority.toInt32.toInt))
  | .collatzAdded => .isTrue trivial
  | .printf _ => .isFalse id
  | .execve _ => .isFalse id
  | .waitpid _ => .isFalse id
  | .exit => .isFalse id
  | .blockForCollatz => .isFalse id
  | .other => .isFalse id

/-- The mode after a system call. -/
def modeAfter (s : TaskManager) (c : Syscall) : Mode :=
  if c = .collatzAdded then
    { s.mode with collatzTask := some (s.numTasks - 1), interruptNumAfterCollatz := 0 }
  else s.mode

/-- **One call** of the preparation. -/
theorem Prepares.call {lo n : ℕ} {c : Syscall} (h : s.Prepares lo n) (hlo : 0 < lo)
    (hcall : i.call = some c) (hc : Preparatory lo n c) (hquiet : s.Quiet) :
    (s.handle i).1.Prepares lo (if c = .fork then n + 1 else n) ∧
      (s.handle i).1.mode = s.modeAfter c := by
  have heq := handle_of_call (s := s) hcall
  cases c with
  | fork =>
    have hallow : s.plain.PriorityAllowed i := by
      rw [PriorityAllowed, Allowed]
      rw [hcall]
      exact h.numTasks ▸ hc
    obtain ⟨hplain, hmode⟩ := syscall_plain h.primed.inv hallow (by rw [hcall]; simp) hquiet
    exact ⟨h.fork hcall hc hplain, hmode⟩
  | forkpid =>
    rw [heq]
    exact ⟨h.withMem _, rfl⟩
  | setLastTaskPriority priority =>
    rw [heq]
    refine ⟨(h.withMem i.mem).setLastTaskPriority hlo hc.1 hc.2, ?_⟩
    have hpos : 0 < s.numTasks := by
      rw [h.numTasks]
      exact hlo.trans hc.1
    dsimp only
    rw [setLastTaskPriority_eq (s := { s with mem := i.mem }) hpos, reprioritize_eq]
    rfl
  | collatzAdded =>
    have hpos : 0 < s.numTasks := lt_of_le_of_lt (Nat.zero_le _) h.primed.inv.current_lt
    rw [heq]
    dsimp only
    rw [collatzAdded, if_pos hpos]
    exact ⟨(h.withMem i.mem).congr rfl, rfl⟩
  | printf | execve | waitpid | exit | blockForCollatz | other => exact hc.elim

/-- **One call**, the init process having prepared its children. -/
theorem Primed.late {init : List Action} {n : ℕ} (h : s.Primed)
    (hf : Follows init s n (.interrupt i)) (hn : s.current = 0 → init.length ≤ n)
    (hcall : i.call ≠ none) (hquiet : s.Quiet) :
    (s.handle i).1.Primed ∧ (s.handle i).1.mode = s.mode := by
  have hallow := hf.allowed hn
  have hprio : s.plain.PriorityAllowed i := by
    rw [PriorityAllowed]
    split
    · next hset =>
      rw [Allowed] at hallow
      rw [hset] at hallow
      exact hallow.elim
    · exact hallow
  obtain ⟨hplain, hmode⟩ := syscall_plain h.inv hprio hcall hquiet
  exact ⟨h.handle hallow hplain, hmode⟩

end GtuOs.TaskManager

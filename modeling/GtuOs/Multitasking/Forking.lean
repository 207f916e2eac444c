import GtuOs.Multitasking.Protocol

/-!
# The results of `Fork`

A monitor records what system call 58 is to return to every process: the pid of its
last child, or `0` to a child that has not forked itself (`ForkLog`). It also records
all pids ever used.

`fork_results`: whatever the other processes do in between, system call 58 returns
the result recorded; and `Fork` adds one ready task, whose pid was never used,
leaving the tasks other than the parent alone.
-/

namespace GtuOs.TaskManager

variable {s s' : TaskManager} {i : Interrupt} {r : TaskManager × ℕ} {k : ℕ}

/-- The pids in use. -/
def pids (s : TaskManager) : Set ℤ := {p | ∃ k < s.numTasks, (s.tasks k).pid = p}

/-- What the forks of a run have to do with system call 58. -/
structure ForkLog where
  /-- The result every process is to get from it, if it has forked or was forked. -/
  result : ℕ → Option ℤ
  /-- The pids used so far. -/
  pids : Set ℤ

/-- The log when the init process starts. -/
def ForkLog.start (s : TaskManager) : ForkLog where
  result _ := none
  pids := s.pids

/-- The log after an interrupt: a `Fork` changes the results of parent and child. -/
def ForkLog.next (w : ForkLog) (s : TaskManager) (i : Interrupt) (s' : TaskManager) : ForkLog where
  result :=
    match i.call with
    | some .fork =>
      Function.update (Function.update w.result s.current (some (s'.tasks s.numTasks).pid))
        s.numTasks (some 0)
    | _ => w.result
  pids := w.pids ∪ s'.pids

theorem ForkLog.result_next_of_ne {w : ForkLog} (hcall : i.call ≠ some .fork) :
    (w.next s i s').result = w.result := by
  rw [next]
  split
  · next hc => exact absurd hc hcall
  · rfl

/-- The monitor of `Fork`. -/
def forks : Monitor TaskManager Interrupt ForkLog where
  init s w := w = ForkLog.start s
  next := ForkLog.next

/-- The log agrees with the fork pids of the tasks. -/
structure ForkInv (s : TaskManager) (w : ForkLog) : Prop where
  result : ∀ t v, w.result t = some v → t < s.numTasks ∧ (s.tasks t).forkPid = v
  pids : w.pids = s.pids

/-- What `Fork` leads to: the new task is `s.numTasks`. -/
structure Forked (s : TaskManager) (i : Interrupt) (s' : TaskManager) (w : ForkLog) : Prop where
  numTasks : s'.numTasks = s.numTasks + 1
  ppid : (s'.tasks s.numTasks).ppid = (s.tasks s.current).pid
  priority : (s'.tasks s.numTasks).priority = (s.tasks s.current).priority
  fresh : (s'.tasks s.numTasks).pid ∉ w.pids
  ready : (s'.tasks s.numTasks).state = .ready
  forkPid : (s'.tasks s.numTasks).forkPid = 0
  queued : s'.queue.count s.numTasks = 1
  /-- The parent, which goes on running, has its frame saved and the pid recorded. -/
  parent : s'.tasks s.current = { s.tasks s.current with
    cpustate := i.esp, forkPid := (s'.tasks s.numTasks).pid }
  others : ∀ k, k ≠ s.current → k ≠ s.numTasks → s'.tasks k = s.tasks k
  /-- The stacks of the others are left alone too, when the frame is on that of the parent. -/
  otherStacks : s.OnStack s.current i.esp → ∀ k < s.numTasks, k ≠ s.current →
    ∀ d < maxStackSize, s'.mem ((s.tasks k).stack + d) = i.mem ((s.tasks k).stack + d)

/-! ## One interrupt -/

/-- The pids in use are those of the table. -/
theorem Inv.mem_pids (hs : s.Inv) {p : ℤ} : p ∈ s.pids ↔ ∃ k < s.numTasks, (k : ℤ) = p := by
  refine exists_congr fun k => and_congr_right fun hk => ?_
  rw [hs.pid_eq k hk]

namespace ForkInv

variable {w : ForkLog}

/-- System call 58 returns the result recorded. -/
theorem forkpid (h : ForkInv s w) (hs : s.Inv) (hi : s.Allowed i) (hcall : i.call = some .forkpid)
    {v : ℤ} (hv : w.result s.current = some v) :
    (s.handle i).2 = i.esp ∧ (CPUState.load (s.handle i).1.mem i.esp).eax = .ofInt v := by
  obtain ⟨heff, -⟩ := hs.handle hi
  generalize s.handle i = r at heff ⊢
  have hno : ∀ c, i.call = some c → c = .forkpid := fun c hc => by
    rw [hcall, Option.some_inj] at hc
    exact hc.symm
  cases heff with
  | tick => cases hcall
  | skip hc => rcases hc with ⟨_, hc⟩ | hc <;> cases hno _ hc
  | @forkpid mem esp =>
    refine ⟨rfl, ?_⟩
    show (CPUState.load (CPUState.setEax mem esp _) esp).eax = _
    rw [CPUState.load_setEax, (h.result _ _ hv).2]
  | fork hc | execve hc | reap hc | refuse hc | block hc | exit hc | exitWake hc =>
    cases hno _ hc

/-- `Fork` adds a task, and changes no other but its parent. -/
theorem fork (h : ForkInv s w) (hs : s.Inv) (hi : s.Allowed i) (hcall : i.call = some .fork) :
    Forked s i (s.handle i).1 w := by
  obtain ⟨heff, hinv⟩ := hs.handle hi
  generalize s.handle i = r at heff hinv ⊢
  -- The other effects are those of other calls.
  have hno : ∀ c, i.call = some c → c = .fork := fun c hc => by
    rw [hcall, Option.some_inj] at hc
    exact hc.symm
  cases heff with
  | tick => cases hcall
  | skip hc => rcases hc with ⟨_, hc⟩ | hc <;> cases hno _ hc
  | @fork mem esp s' _ hroom htasks hmem hnum _ _ =>
    have hchild : s'.tasks s.numTasks = s.forkChild esp := by
      rw [htasks, Function.update_self]
    have hne : s.current ≠ s.numTasks := hs.current_lt.ne
    have hlt : s.numTasks < s'.numTasks := by omega
    have hmem_queue : s.numTasks ∈ s'.queue :=
      (hinv.queueOk.mem_iff _).2 ⟨hlt, by rw [hchild]; rfl⟩
    refine ⟨hnum, ?_, ?_, ?_, ?_, ?_, ?_, ?_, fun k hk hkn => ?_, fun hon k hk hkc => ?_⟩
    all_goals dsimp only
    · rw [hchild]
      rfl
    · rw [hchild]
      rfl
    · rw [hchild, h.pids, hs.mem_pids]
      rintro ⟨k, hk, he⟩
      have hkn : k = s.numTasks := Int.natCast_inj.1 he
      omega
    · rw [hchild]
      rfl
    · rw [hchild]
      rfl
    · exact List.count_eq_one_of_mem hinv.queueOk.nodup hmem_queue
    · rw [hchild, htasks, Function.update_of_ne hne, Function.update_self]
      rfl
    · rw [htasks, Function.update_of_ne hkn, Function.update_of_ne hk]
    · rw [hmem]
      exact (forkMem_spec hs mem hon).2.2 k hk hkc
  | forkpid hc | execve hc | reap hc | refuse hc | block hc | exit hc | exitWake hc =>
    cases hno _ hc

/-- The log goes on agreeing with the tasks. -/
theorem handle (h : ForkInv s w) (hs : s.Inv) (hi : s.Allowed i) :
    ForkInv (s.handle i).1 (w.next s i (s.handle i).1) := by
  obtain ⟨heff, hinv⟩ := hs.handle hi
  have hle := heff.numTasks_le
  have hpids : s.pids ⊆ (s.handle i).1.pids := fun p hp => by
    obtain ⟨k, hk, he⟩ := hs.mem_pids.1 hp
    exact hinv.mem_pids.2 ⟨k, lt_of_lt_of_le hk hle, he⟩
  refine ⟨fun t v hv => ?_, ?_⟩
  · by_cases hcall : i.call = some .fork
    · have hf := h.fork hs hi hcall
      have hnum := hf.numTasks
      have hcur := hs.current_lt
      simp only [ForkLog.next, hcall] at hv
      rcases eq_or_ne t s.numTasks with rfl | htn
      · rw [Function.update_self, Option.some_inj] at hv
        exact ⟨by omega, hv ▸ hf.forkPid⟩
      · rw [Function.update_of_ne htn] at hv
        rcases eq_or_ne t s.current with rfl | htc
        · rw [Function.update_self, Option.some_inj] at hv
          exact ⟨by omega, by rw [hf.parent, hv]⟩
        · rw [Function.update_of_ne htc] at hv
          obtain ⟨ht, hpid⟩ := h.result t v hv
          exact ⟨by omega, by rw [hf.others t htc htn, hpid]⟩
    · have hold : w.result t = some v := by
        rwa [ForkLog.result_next_of_ne hcall] at hv
      obtain ⟨ht, hpid⟩ := h.result t v hold
      exact ⟨lt_of_lt_of_le ht hle, (heff.forkPid_eq ht fun hc => absurd hc hcall).trans hpid⟩
  · show w.pids ∪ (s.handle i).1.pids = (s.handle i).1.pids
    rw [h.pids, Set.union_eq_self_of_subset_left hpids]

end ForkInv

/-! ## Runs -/

theorem forkInv_of_reachable {p : TaskManager × ForkLog}
    (h : (system.monitored forks).Reachable p) : ForkInv p.1 p.2 := by
  refine h.invariant (P := fun p => ForkInv p.1 p.2) (fun p h0 => ?_) fun p i p' hp hw hi => ?_
  · rw [h0.2]
    exact ⟨nofun, rfl⟩
  · obtain ⟨⟨hallow, hs⟩, hw'⟩ := hi
    rw [hw', ← hs]
    exact hw.handle (inv_of_reachable hp.of_monitored) hallow

/-- **The results of `Fork`**, in every run: system call 58 returns the pid of the last
    child to a parent, and `0` to a child that has not forked; a child is new, and no
    other task changes. -/
theorem fork_results {p : TaskManager × ForkLog} (h : (system.monitored forks).Reachable p) :
    (∀ i, p.1.Allowed i → i.call = some .forkpid → ∀ v, p.2.result p.1.current = some v →
      (p.1.handle i).2 = i.esp ∧ (CPUState.load (p.1.handle i).1.mem i.esp).eax = .ofInt v) ∧
    ∀ i, p.1.Allowed i → i.call = some .fork → Forked p.1 i (p.1.handle i).1 p.2 := by
  have hw := forkInv_of_reachable h
  have hs := inv_of_reachable h.of_monitored
  exact ⟨fun i hi hcall v hv => hw.forkpid hs hi hcall hv, fun i hi hcall => hw.fork hs hi hcall⟩

/-- The state after the first `Fork` of the init process, with the log. -/
def forkedSample : TaskManager × ForkLog :=
  ((sampleState.handle (sampleCall 57 0)).1,
    (ForkLog.start sampleState).next sampleState (sampleCall 57 0)
      (sampleState.handle (sampleCall 57 0)).1)

theorem forkedSample_reachable : (system.monitored forks).Reachable forkedSample :=
  System.Reachable.step (s := (sampleState, ForkLog.start sampleState)) (i := sampleCall 57 0)
    (.init ⟨sampleState_init, rfl⟩) ⟨⟨sampleCall_fork_allowed, rfl⟩, rfl⟩

/-- System call 58 of the init process then, and another `Fork`. -/
theorem fork_results_init :
    (CPUState.load (forkedSample.1.handle (sampleCall 58 0)).1.mem 12000).eax = 1 ∧
      Forked forkedSample.1 (sampleCall 57 0) (forkedSample.1.handle (sampleCall 57 0)).1
        forkedSample.2 := by
  have h58 : (sampleCall 58 0).call = some .forkpid := by decide +kernel
  have h57 : (sampleCall 57 0).call = some .fork := by decide +kernel
  have hroom : forkedSample.1.numTasks < maxNumTasks := by decide +kernel
  have hresult : forkedSample.2.result forkedSample.1.current = some 1 := by
    have hcur : forkedSample.1.current = 0 := by decide +kernel
    have hpid : ((sampleState.handle (sampleCall 57 0)).1.tasks sampleState.numTasks).pid = 1 := by
      decide +kernel
    have hcur₀ : sampleState.current = 0 := by decide +kernel
    have hnum₀ : sampleState.numTasks = 1 := by decide +kernel
    rw [hcur]
    rw [forkedSample, ForkLog.next]
    dsimp only
    rw [h57]
    dsimp only
    rw [hpid, hcur₀, hnum₀]
    rfl
  have hall : ∀ c, (sampleCall c 0).call = some .fork ∨ (sampleCall c 0).call = some .forkpid →
      forkedSample.1.Allowed (sampleCall c 0) := fun c hc => by
    rw [Allowed]
    rcases hc with hc | hc <;> rw [hc]
    · exact hroom
    · trivial
  obtain ⟨hforkpid, hfork⟩ := fork_results forkedSample_reachable
  exact ⟨(hforkpid _ (hall 58 (.inr h58)) h58 1 hresult).2, hfork _ (hall 57 (.inl h57)) h57⟩

end GtuOs.TaskManager

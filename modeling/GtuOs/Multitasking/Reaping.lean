import GtuOs.Multitasking.Frames

/-!
# The waiting protocol

A monitor records the `Waitpid` calls: those outstanding, and the results
delivered (`WaitLog`). A call returns when its caller is not blocked (any more),
with the result in the `eax` of the saved frame of the caller.

`waitpid_protocol`: the pid of a terminated task is delivered at most once, and
to its parent only; `-1` is delivered exactly when there is no child to wait for
that has not been reaped; a blocked caller is made ready by the exit of a child
it asked for only, and finds its pid in `eax` when it resumes.
-/

namespace GtuOs.TaskManager

variable {s : TaskManager} {i : Interrupt} {r : TaskManager × ℕ} {k t : ℕ}

/-- A result delivered: the caller, the argument of `Waitpid`, and the result. -/
structure Delivery where
  caller : ℕ
  arg : UInt32
  result : UInt32

/-- The calls of `Waitpid` in a run. -/
structure WaitLog where
  /-- The argument of the call of every task waiting for its result. -/
  asked : ℕ → Option UInt32
  /-- The results delivered, the last one first. -/
  log : List Delivery
  /-- The result every task will find in `eax` when it resumes. -/
  owed : ℕ → Option UInt32

namespace WaitLog

/-- The outstanding calls, with that of the interrupt. -/
def asks (w : WaitLog) (s : TaskManager) (i : Interrupt) : ℕ → Option UInt32 :=
  match i.call with
  | some (.waitpid pid) => Function.update w.asked s.current (some pid)
  | _ => w.asked

/-- The result delivered to the task `t` when the handler has reached the state `s'`, if
    any: it has an outstanding call, and is not blocked. -/
def result (w : WaitLog) (s : TaskManager) (i : Interrupt) (s' : TaskManager) (t : ℕ) :
    Option Delivery :=
  match w.asks s i t with
  | none => none
  | some arg =>
    if (s'.tasks t).state = .blocked then none
    else some ⟨t, arg, (CPUState.load s'.mem (s'.tasks t).cpustate).eax⟩

/-- The results delivered by an interrupt. -/
def delivered (w : WaitLog) (s : TaskManager) (i : Interrupt) (s' : TaskManager) : List Delivery :=
  (List.range s'.numTasks).filterMap (w.result s i s')

/-- The results owed, once those of the interrupt are delivered. -/
def owes (w : WaitLog) (s : TaskManager) (i : Interrupt) (s' : TaskManager) (t : ℕ) :
    Option UInt32 :=
  match w.result s i s' t with
  | none => w.owed t
  | some d => some d.result

/-- The log after an interrupt. -/
def next (w : WaitLog) (s : TaskManager) (i : Interrupt) (s' : TaskManager) : WaitLog where
  asked t := if (w.result s i s' t).isSome then none else w.asks s i t
  log := w.delivered s i s' ++ w.log
  owed := Function.update (w.owes s i s') s'.current none

/-- The pid of the task `k` has been delivered. -/
def Reaped (w : WaitLog) (k : ℕ) : Prop := ∃ d ∈ w.log, d.result = .ofInt k

end WaitLog

/-- The monitor of `Waitpid`. -/
def waits : Monitor TaskManager Interrupt WaitLog where
  init _ w := w = ⟨fun _ => none, [], fun _ => none⟩
  next := WaitLog.next

/-! ## The deliveries of an interrupt -/

theorem toNat_ofInt_pid (hk : k < maxNumTasks) : (UInt32.ofInt k).toNat = k := by
  have hlt : k < 2 ^ 32 := hk.trans (by decide)
  have hmod : ((k : ℤ) % 2 ^ 32).toNat = k := by omega
  rw [UInt32.ofInt, hmod]
  exact UInt32.toNat_ofNat_of_lt' hlt

/-- Pids are different as results, and none is `-1`. -/
theorem ofInt_pid_inj {j k : ℕ} (hj : j < maxNumTasks) (hk : k < maxNumTasks)
    (h : UInt32.ofInt j = UInt32.ofInt k) : j = k := by
  rw [← toNat_ofInt_pid hj, h, toNat_ofInt_pid hk]

theorem ofInt_pid_ne (hk : k < maxNumTasks) : UInt32.ofInt k ≠ -1 := fun h => by
  have := congrArg UInt32.toNat h
  rw [toNat_ofInt_pid hk] at this
  exact absurd (this ▸ hk) (by decide)

variable {w : WaitLog} {d : Delivery}

namespace WaitLog

theorem delivered_eq_nil {s' : TaskManager} (h : ∀ t < s'.numTasks, w.result s i s' t = none) :
    w.delivered s i s' = [] :=
  List.filterMap_eq_nil_iff.2 fun t ht => h t (List.mem_range.1 ht)

/-- When one task gets a result, it is the only delivery. -/
theorem delivered_eq_singleton {s' : TaskManager} (ht : t < s'.numTasks)
    (h : w.result s i s' t = some d) (hne : ∀ t' < s'.numTasks, t' ≠ t → w.result s i s' t' = none) :
    w.delivered s i s' = [d] := by
  have key : ∀ n, t < n → (∀ t' < n, t' ≠ t → w.result s i s' t' = none) →
      (List.range n).filterMap (w.result s i s') = [d] := by
    intro n
    induction n with
    | zero => exact fun hn => absurd hn (Nat.not_lt_zero t)
    | succ n ih =>
      intro hn hnone
      rw [List.range_succ, List.filterMap_append]
      rcases eq_or_ne t n with rfl | htn
      · have hnil : (List.range t).filterMap (w.result s i s') = [] :=
          List.filterMap_eq_nil_iff.2 fun t' ht' => by
            rw [List.mem_range] at ht'
            exact hnone t' (by omega) ht'.ne
        simp [hnil, h]
      · rw [ih (by omega) fun t' ht' => hnone t' (by omega)]
        simp [hnone n (Nat.lt_succ_self n) htn.symm]
  exact key _ ht hne

theorem asks_of_waitpid {pid : UInt32} (h : i.call = some (.waitpid pid)) :
    w.asks s i = Function.update w.asked s.current (some pid) := by
  rw [asks]
  rw [h]

theorem asks_of_not_waitpid (h : ¬∃ pid, i.call = some (.waitpid pid)) : w.asks s i = w.asked := by
  rw [asks]
  split
  · next pid hcall => exact absurd ⟨pid, hcall⟩ h
  · rfl

/-- No call returns when no task with an outstanding one is made ready. -/
theorem result_eq_none {s' : TaskManager}
    (h : w.asks s i t ≠ none → (s'.tasks t).state = .blocked) : w.result s i s' t = none := by
  rw [result]
  cases ha : w.asks s i t with
  | none => rfl
  | some arg => exact if_pos (h (by simp [ha]))

theorem result_eq_some {s' : TaskManager} {arg : UInt32} (h : w.asks s i t = some arg)
    (hst : (s'.tasks t).state ≠ .blocked) :
    w.result s i s' t =
      some ⟨t, arg, (CPUState.load s'.mem (s'.tasks t).cpustate).eax⟩ := by
  rw [result]
  rw [h]
  exact if_neg hst

end WaitLog

/-! ## The invariant -/

/-- The log agrees with the tasks: the calls outstanding are those of the blocked
    tasks, and the tasks reaped those whose pids have been delivered. -/
structure WaitInv (s : TaskManager) (w : WaitLog) : Prop where
  asked_iff : ∀ t, w.asked t ≠ none ↔ t < s.numTasks ∧ (s.tasks t).state = .blocked
  waiting : ∀ t arg, w.asked t = some arg →
    (s.tasks t).proc.waiting = some (if arg = -1 then -1 else (arg.toNat : ℤ))
  reaped_iff : ∀ k < s.numTasks, (s.tasks k).parentTookInWait = true ↔ w.Reaped k
  sound : ∀ d ∈ w.log, d.result ≠ -1 → ∃ k < s.numTasks, d.result = .ofInt k ∧
    (s.tasks k).state = .terminated ∧ (s.tasks k).ppid = d.caller
  nodup : ((w.log.filter (·.result ≠ -1)).map (·.result)).Nodup

/-- Only the caller of `Waitpid` gets blocked. -/
theorem Effect.of_blocked (h : Effect s i r) (hs : s.Inv) (ht : t < r.1.numTasks)
    (hst : (r.1.tasks t).state = .blocked) :
    t < s.numTasks ∧ (s.tasks t).state = .blocked ∨
      t = s.current ∧ ∃ pid, i.call = some (.waitpid pid) := by
  -- A dispatch blocks nobody, and neither does an update to another state.
  have hd : ∀ {s₁ : TaskManager}, Dispatches s₁ r →
      t < s₁.numTasks ∧ (s₁.tasks t).state = .blocked := fun hd => by
    refine ⟨hd.numTasks_eq ▸ ht, ?_⟩
    rcases hd.tasks_eq t with h | ⟨-, h⟩ <;> rw [h] at hst
    · exact hst
    · cases hst
  have hupdate : ∀ (f : ℕ → Task) (j : ℕ) (u : Task), u.state ≠ .blocked →
      (Function.update f j u t).state = .blocked → t ≠ j ∧ (f t).state = .blocked := fun f j u hu hb => by
    rcases eq_or_ne t j with rfl | hne
    · rw [Function.update_self] at hb
      exact absurd hb hu
    · rw [Function.update_of_ne hne] at hb
      exact ⟨hne, hb⟩
  have hrun := hs.state_current
  cases h with
  | tick h =>
    obtain ⟨ht, hb⟩ := hd h
    exact .inl ⟨ht, (hupdate _ _ _ (by simp) hb).2⟩
  | skip | forkpid => exact .inl ⟨ht, hst⟩
  | fork _ _ htasks _ hnum =>
    dsimp only at hst ht
    rw [htasks] at hst
    obtain ⟨hne, hb⟩ := hupdate _ _ _ (by simp [forkChild]) hst
    exact .inl ⟨by omega, (hupdate _ _ _ (by simp [hrun]) hb).2⟩
  | execve => exact .inl ⟨ht, (hupdate _ _ _ (by simp [Task.reset, hrun]) hst).2⟩
  | reap _ _ _ _ hterm _ =>
    have hb := (hupdate _ _ _ (by simp [hterm]) hst).2
    exact .inl ⟨ht, (hupdate _ _ _ (by simp [hrun]) hb).2⟩
  | refuse => exact .inl ⟨ht, (hupdate _ _ _ (by simp [hrun]) hst).2⟩
  | @block _ _ pid _ hcall _ _ h =>
    obtain ⟨ht, hb⟩ := hd h
    rcases eq_or_ne t s.current with rfl | hne
    · exact .inr ⟨rfl, pid, hcall⟩
    · dsimp only at hb
      rw [Function.update_of_ne hne] at hb
      exact .inl ⟨ht, hb⟩
  | exit _ _ h =>
    obtain ⟨ht, hb⟩ := hd h
    exact .inl ⟨ht, (hupdate _ _ _ (by simp) hb).2⟩
  | exitWake _ _ _ _ h =>
    obtain ⟨ht, hb⟩ := hd h
    have hb := (hupdate _ _ _ (by simp) hb).2
    exact .inl ⟨ht, (hupdate _ _ _ (by simp) hb).2⟩

/-- A task that `Waitpid` has blocked waits for what it asked for. -/
theorem Effect.waiting_of_blocked (h : Effect s i r) (hs : s.Inv) {pid : UInt32}
    (hcall : i.call = some (.waitpid pid)) (hst : (r.1.tasks s.current).state = .blocked) :
    (r.1.tasks s.current).proc.waiting = some (if pid = -1 then -1 else (pid.toNat : ℤ)) := by
  have hrun := hs.state_current
  cases h with
  | tick => cases hcall
  | skip h =>
    simp [hrun] at hst
  | forkpid h =>
    simp [hrun] at hst
  | fork h =>
    rw [hcall] at h
    cases h
  | execve h =>
    rw [hcall] at h
    cases h
  | @reap _ _ c _ _ _ _ _ hterm _ =>
    have hne : s.current ≠ c := fun he => by
      rw [← he, hrun] at hterm
      cases hterm
    simp [Function.update_of_ne hne, hrun] at hst
  | refuse =>
    simp [hrun] at hst
  | block h _ _ hd =>
    rw [hcall, Option.some_inj] at h
    cases h
    rw [hd.tasks_of_ne] <;> simp [Task.proc]
  | exit h =>
    rw [hcall] at h
    cases h
  | exitWake h =>
    rw [hcall] at h
    cases h

namespace WaitInv

/-- The outstanding calls are those of the blocked tasks, and that of the interrupt. -/
theorem asks_cases (h : WaitInv s w) {arg : UInt32} (ha : w.asks s i t = some arg) :
    w.asked t = some arg ∧ t < s.numTasks ∧ (s.tasks t).state = .blocked ∨
      t = s.current ∧ i.call = some (.waitpid arg) := by
  have hasked : w.asked t = some arg → t < s.numTasks ∧ (s.tasks t).state = .blocked := fun he =>
    (h.asked_iff t).1 (by simp [he])
  by_cases hcall : ∃ pid, i.call = some (.waitpid pid)
  · obtain ⟨pid, hcall⟩ := hcall
    rw [WaitLog.asks_of_waitpid hcall] at ha
    rcases eq_or_ne t s.current with rfl | hne
    · rw [Function.update_self, Option.some_inj] at ha
      exact .inr ⟨rfl, ha ▸ hcall⟩
    · rw [Function.update_of_ne hne] at ha
      exact .inl ⟨ha, hasked ha⟩
  · rw [WaitLog.asks_of_not_waitpid hcall] at ha
    exact .inl ⟨ha, hasked ha⟩

theorem asks_ne_none (h : WaitInv s w) (ht : t < s.numTasks) (hst : (s.tasks t).state = .blocked)
    (hne : t ≠ s.current) : w.asks s i t ≠ none := by
  have hasked := (h.asked_iff t).2 ⟨ht, hst⟩
  by_cases hcall : ∃ pid, i.call = some (.waitpid pid)
  · obtain ⟨pid, hcall⟩ := hcall
    rwa [WaitLog.asks_of_waitpid hcall, Function.update_of_ne hne]
  · rwa [WaitLog.asks_of_not_waitpid hcall]

/-- A result is delivered to the caller of `Waitpid`, or to a task woken up. -/
theorem result_cases (h : WaitInv s w) (hs : s.Inv) (heff : Effect s i r)
    (hr : w.result s i r.1 t = some d) :
    (t = s.current ∧ ∃ pid, i.call = some (.waitpid pid)) ∨ Woken s i r t := by
  rw [WaitLog.result] at hr
  cases ha : w.asks s i t with
  | none => simp [ha] at hr
  | some arg =>
    rw [ha] at hr
    rcases h.asks_cases ha with ⟨-, hlt, hst⟩ | ⟨rfl, hcall⟩
    · rcases heff.state_of_blocked hs hlt hst with hb | hw
      · simp [hb.1] at hr
      · exact .inr hw
    · exact .inl ⟨rfl, arg, hcall⟩

/-- One interrupt, given what it has delivered. -/
theorem step (h : WaitInv s w) (hs : s.Inv) (hs' : r.1.Inv) (heff : Effect s i r)
    (hone : (w.delivered s i r.1).length ≤ 1)
    (hreap : ∀ k < r.1.numTasks, (r.1.tasks k).parentTookInWait = true ↔
      k < s.numTasks ∧ (s.tasks k).parentTookInWait = true ∨
        ∃ d ∈ w.delivered s i r.1, d.result = .ofInt k)
    (hsound : ∀ d ∈ w.delivered s i r.1, d.result ≠ -1 → ∃ k < s.numTasks, d.result = .ofInt k ∧
      (r.1.tasks k).state = .terminated ∧ (s.tasks k).ppid = d.caller ∧
      (s.tasks k).parentTookInWait = false) :
    WaitInv r.1 (w.next s i r.1) := by
  have hle := heff.numTasks_le
  have hasks : ∀ t arg, (w.next s i r.1).asked t = some arg ↔
      w.asks s i t = some arg ∧ (r.1.tasks t).state = .blocked := fun t arg => by
    unfold WaitLog.next WaitLog.result
    dsimp only
    cases ha : w.asks s i t with
    | none => simp
    | some arg' => by_cases hb : (r.1.tasks t).state = .blocked <;> simp [hb]
  have hmem : ∀ k, (w.next s i r.1).Reaped k ↔
      w.Reaped k ∨ ∃ d ∈ w.delivered s i r.1, d.result = .ofInt k := fun k => by
    rw [WaitLog.Reaped, WaitLog.next]
    simp only [List.mem_append]
    constructor
    · rintro ⟨d, hd | hd, hr⟩
      · exact .inr ⟨d, hd, hr⟩
      · exact .inl ⟨d, hd, hr⟩
    · rintro (⟨d, hd, hr⟩ | ⟨d, hd, hr⟩)
      · exact ⟨d, .inr hd, hr⟩
      · exact ⟨d, .inl hd, hr⟩
  -- Only pids of tasks have been delivered.
  have hlt : ∀ k, k < maxNumTasks → w.Reaped k → k < s.numTasks := fun k hk ⟨d, hd, hr⟩ => by
    obtain ⟨j, hj, hj', -⟩ := h.sound d hd (hr ▸ ofInt_pid_ne hk)
    exact ofInt_pid_inj (lt_of_lt_of_le hj hs.numTasks_le) hk (hj'.symm.trans hr) ▸ hj
  refine ⟨fun t => ?_, fun t arg ha => ?_, fun k hk => ?_, fun d hd hne => ?_, ?_⟩
  · constructor
    · intro hne
      obtain ⟨arg, ha⟩ := Option.ne_none_iff_exists'.1 hne
      obtain ⟨ha, hb⟩ := (hasks t arg).1 ha
      refine ⟨?_, hb⟩
      rcases h.asks_cases ha with ⟨-, hlt, -⟩ | ⟨rfl, -⟩
      · omega
      · exact lt_of_lt_of_le hs.current_lt hle
    · rintro ⟨ht, hb⟩
      have hne : w.asks s i t ≠ none := by
        rcases heff.of_blocked hs ht hb with ⟨hlt, hst⟩ | ⟨rfl, pid, hcall⟩
        · have hne : t ≠ s.current := fun he => by
            rw [he, hs.state_current] at hst
            cases hst
          exact h.asks_ne_none hlt hst hne
        · simp [WaitLog.asks_of_waitpid hcall]
      obtain ⟨arg, ha⟩ := Option.ne_none_iff_exists'.1 hne
      simp [(hasks t arg).2 ⟨ha, hb⟩]
  · obtain ⟨ha, hb⟩ := (hasks t arg).1 ha
    rcases h.asks_cases ha with ⟨ha, hlt, hst⟩ | ⟨rfl, hcall⟩
    · rcases heff.state_of_blocked hs hlt hst with ⟨-, hw⟩ | hw
      · rw [hw]
        exact h.waiting t arg ha
      · exact absurd hb hw.state.1
    · exact heff.waiting_of_blocked hs hcall hb
  · rw [hreap k hk, hmem]
    refine or_congr_left ⟨fun ⟨hk, ht⟩ => (h.reaped_iff k hk).1 ht, fun hr => ?_⟩
    have hkn := hlt k (lt_of_lt_of_le hk hs'.numTasks_le) hr
    exact ⟨hkn, (h.reaped_iff k hkn).2 hr⟩
  · rcases List.mem_append.1 hd with hd | hd
    · obtain ⟨k, hk, hr, hst, hpp, -⟩ := hsound d hd hne
      exact ⟨k, lt_of_lt_of_le hk hle, hr, hst, (heff.ppid_eq hk).trans hpp⟩
    · obtain ⟨k, hk, hr, hst, hpp⟩ := h.sound d hd hne
      exact ⟨k, lt_of_lt_of_le hk hle, hr, heff.state_of_terminated hs hk hst,
        (heff.ppid_eq hk).trans hpp⟩
  · have hlog : (w.next s i r.1).log = w.delivered s i r.1 ++ w.log := rfl
    rw [hlog]
    match hnew : w.delivered s i r.1, hone with
    | [], _ => exact h.nodup
    | [d], _ =>
      by_cases hd : d.result = -1
      · simpa [hd] using h.nodup
      · rw [List.singleton_append, List.filter_cons_of_pos (by simpa using hd), List.map_cons, List.nodup_cons]
        refine ⟨fun hm => ?_, h.nodup⟩
        obtain ⟨d', hd', hdd⟩ := List.mem_map.1 hm
        obtain ⟨k, hk, hr, -, -, htook⟩ := hsound d (by simp [hnew]) hd
        have := (h.reaped_iff k hk).2 ⟨d', (List.mem_filter.1 hd').1, hdd.trans hr⟩
        rw [htook] at this
        cases this

end WaitInv

/-! ## The steps -/

/-- What an interrupt delivers. -/
inductive Outcome (s : TaskManager) (w : WaitLog) (i : Interrupt) (r : TaskManager × ℕ) : Prop
  /-- Nothing. -/
  | quiet : (∀ t, w.result s i r.1 t = none) →
      (∀ k < r.1.numTasks, (r.1.tasks k).parentTookInWait = true ↔
        k < s.numTasks ∧ (s.tasks k).parentTookInWait = true) →
      (∀ pid, i.call = some (.waitpid pid) → ∃ k < s.numTasks, Asks pid k ∧
        (s.tasks k).ppid = s.current ∧ (s.tasks k).parentTookInWait = false) → Outcome s w i r
  /-- The pid of a terminated child, to the running task. -/
  | reap {pid : UInt32} {c : ℕ} : i.call = some (.waitpid pid) →
      w.delivered s i r.1 = [⟨s.current, pid, .ofInt c⟩] → c < s.numTasks → Asks pid c →
      (s.tasks c).ppid = s.current → (s.tasks c).state = .terminated →
      (s.tasks c).parentTookInWait = false →
      (∀ k < r.1.numTasks, (r.1.tasks k).parentTookInWait = true ↔
        k < s.numTasks ∧ (s.tasks k).parentTookInWait = true ∨ k = c) → Outcome s w i r
  /-- `-1`, to the running task. -/
  | refuse {pid : UInt32} : i.call = some (.waitpid pid) →
      w.delivered s i r.1 = [⟨s.current, pid, -1⟩] →
      (∀ k < s.numTasks, Asks pid k → (s.tasks k).ppid = s.current →
        (s.tasks k).parentTookInWait = true) →
      (∀ k < r.1.numTasks, (r.1.tasks k).parentTookInWait = true ↔
        k < s.numTasks ∧ (s.tasks k).parentTookInWait = true) → Outcome s w i r
  /-- The pid of the task exiting, to its parent. -/
  | wake {p : ℕ} {pid : UInt32} : i.call = some .exit → Woken s i r p → w.asked p = some pid →
      w.delivered s i r.1 = [⟨p, pid, .ofInt s.current⟩] → Asks pid s.current →
      (r.1.tasks s.current).state = .terminated →
      (∀ k < r.1.numTasks, (r.1.tasks k).parentTookInWait = true ↔
        k < s.numTasks ∧ (s.tasks k).parentTookInWait = true ∨ k = s.current) → Outcome s w i r

/-- The mark of a task reaped after an update. -/
theorem took_update (f : ℕ → Task) (j k : ℕ) (u : Task)
    (h : u.parentTookInWait = (f j).parentTookInWait) :
    (Function.update f j u k).parentTookInWait = (f k).parentTookInWait := by
  rcases eq_or_ne k j with rfl | hne
  · rw [Function.update_self, h]
  · rw [Function.update_of_ne hne]

theorem Dispatches.took_eq (h : Dispatches s r) (k : ℕ) :
    (r.1.tasks k).parentTookInWait = (s.tasks k).parentTookInWait := by
  rcases h.tasks_eq k with h | ⟨-, h⟩ <;> rw [h]

namespace WaitInv

/-- Nothing is delivered when nobody is woken up, and no `Waitpid` returns at once. -/
theorem result_eq_none (h : WaitInv s w) (hs : s.Inv) (heff : Effect s i r)
    (hcall : ∀ pid, i.call = some (.waitpid pid) → (r.1.tasks s.current).state = .blocked)
    (hw : ∀ t < s.numTasks, ¬Woken s i r t) (t : ℕ) : w.result s i r.1 t = none := by
  refine WaitLog.result_eq_none fun hne => ?_
  obtain ⟨arg, ha⟩ := Option.ne_none_iff_exists'.1 hne
  rcases h.asks_cases ha with ⟨-, hlt, hst⟩ | ⟨rfl, hc⟩
  · rcases heff.state_of_blocked hs hlt hst with hb | hwk
    · exact hb.1
    · exact absurd hwk (hw t hlt)
  · exact hcall arg hc

/-- When a `Waitpid` returns at once, its result is the only delivery. -/
theorem delivered_of_return (h : WaitInv s w) (hs : s.Inv) (heff : Effect s i r) {pid : UInt32}
    (hcall : i.call = some (.waitpid pid)) (hst : (r.1.tasks s.current).state ≠ .blocked) :
    w.delivered s i r.1 =
      [⟨s.current, pid, (CPUState.load r.1.mem (r.1.tasks s.current).cpustate).eax⟩] := by
  have hlt := lt_of_lt_of_le hs.current_lt heff.numTasks_le
  have hasks : w.asks s i s.current = some pid := by
    rw [WaitLog.asks_of_waitpid hcall, Function.update_self]
  refine WaitLog.delivered_eq_singleton hlt (WaitLog.result_eq_some hasks hst) fun t ht hne => ?_
  cases hr : w.result s i r.1 t with
  | none => rfl
  | some d =>
    rcases h.result_cases hs heff hr with ⟨he, -⟩ | hw
    · exact absurd he hne
    · have := hw.call
      rw [hcall] at this
      cases this

/-- A blocked task has asked for the children it waits for. -/
theorem asked_of_waitsFor (h : WaitInv s w) (ht : t < s.numTasks) (hst : (s.tasks t).state = .blocked)
    (hw : WaitsFor s.procs t k) : ∃ pid, w.asked t = some pid ∧ Asks pid k := by
  obtain ⟨pid, hasked⟩ := Option.ne_none_iff_exists'.1 ((h.asked_iff t).2 ⟨ht, hst⟩)
  have hwait : (s.procs t).waiting = some (if pid = -1 then -1 else (pid.toNat : ℤ)) :=
    h.waiting t pid hasked
  refine ⟨pid, hasked, ?_⟩
  have hw2 := hw.2
  rw [hwait] at hw2
  by_cases hpid : pid = -1
  · exact .inl hpid
  · simp only [hpid, if_false, Option.some_inj] at hw2
    refine .inr ?_
    omega

/-- The effects of an interrupt, as to `Waitpid`. -/
theorem outcome (h : WaitInv s w) (hs : s.Inv) (hs' : r.1.Inv) (heff : Effect s i r) :
    Outcome s w i r := by
  have hrun := hs.state_current
  have hcur := hs.current_lt
  -- Marks only change for the tasks of the table.
  have hmark : (∀ k < s.numTasks, (r.1.tasks k).parentTookInWait = (s.tasks k).parentTookInWait) →
      (∀ k, s.numTasks ≤ k → (r.1.tasks k).parentTookInWait = false) →
      ∀ k < r.1.numTasks, (r.1.tasks k).parentTookInWait = true ↔
        k < s.numTasks ∧ (s.tasks k).parentTookInWait = true := fun hold hnew k _ => by
    by_cases hk : k < s.numTasks
    · rw [hold k hk]
      exact ⟨fun h => ⟨hk, h⟩, fun h => h.2⟩
    · rw [hnew k (by omega)]
      exact iff_of_false (by decide) fun h => hk h.1
  have hfresh : ∀ k, s.numTasks ≤ k → (s.tasks k).parentTookInWait = false := fun k hk =>
    (hs.fresh k hk).2
  have hall : (∀ k, (r.1.tasks k).parentTookInWait = (s.tasks k).parentTookInWait) →
      ∀ k < r.1.numTasks, (r.1.tasks k).parentTookInWait = true ↔
        k < s.numTasks ∧ (s.tasks k).parentTookInWait = true := fun hall =>
    hmark (fun k _ => hall k) fun k hk => (hall k).trans (hfresh k hk)
  -- A system call that is neither `Waitpid` nor `Exit` delivers nothing.
  have hquiet : Effect s i r → (∀ pid, i.call ≠ some (.waitpid pid)) → i.call ≠ some .exit →
      (∀ k < r.1.numTasks, (r.1.tasks k).parentTookInWait = true ↔
        k < s.numTasks ∧ (s.tasks k).parentTookInWait = true) → Outcome s w i r :=
    fun heff hwait hexit hmark =>
      .quiet (h.result_eq_none hs heff (fun pid hc => absurd hc (hwait pid))
        fun t _ hw => hexit hw.call) hmark fun pid hc => absurd hc (hwait pid)
  cases heff with
  | tick hd =>
    exact hquiet (.tick hd) (by simp [Interrupt.call]) (by simp [Interrupt.call])
      (hall fun k => (hd.took_eq k).trans (took_update _ _ _ _ rfl))
  | skip hcall =>
    refine hquiet (.skip hcall) ?_ ?_ (hall fun k => rfl)
    all_goals rcases hcall with ⟨_, hcall⟩ | hcall <;> simp [hcall]
  | forkpid hcall =>
    exact hquiet (.forkpid hcall) (by simp [hcall]) (by simp [hcall]) (hall fun k => rfl)
  | fork hcall hroom htasks hmem hnum hcur' hbase =>
    have hnew := hfresh _ le_rfl
    refine hquiet (.fork hcall hroom htasks hmem hnum hcur' hbase) (by simp [hcall])
      (by simp [hcall]) (hall fun k => ?_)
    dsimp only
    rw [htasks]
    exact (took_update _ _ _ _ (by simp [forkChild, Function.update_of_ne hcur.ne'])).trans
      (took_update _ _ _ _ rfl)
  | execve hcall =>
    exact hquiet (.execve hcall) (by simp [hcall]) (by simp [hcall])
      (hall fun k => took_update _ _ _ _ rfl)
  | @reap mem esp c pid hcall hk hask hpp hst htook =>
    have hne : s.current ≠ c := fun he => by
      rw [← he, hrun] at hst
      cases hst
    have hdel := h.delivered_of_return hs (.reap hcall hk hask hpp hst htook) hcall
      (by simp [Function.update_of_ne hne, hrun])
    refine .reap hcall (hdel.trans ?_) hk hask hpp hst htook fun k hk' => ?_
    · simp [Function.update_of_ne hne, CPUState.load_setEax]
    · dsimp only
      rcases eq_or_ne k c with rfl | hkc
      · simp
      · have hk'' : k < s.numTasks := hk'
        rw [Function.update_of_ne hkc,
          took_update s.tasks s.current k { s.tasks s.current with cpustate := esp } rfl]
        simp [hkc, hk'']
  | @refuse mem esp pid hcall hno =>
    have hdel := h.delivered_of_return hs (.refuse hcall hno) hcall (by simp [hrun])
    refine .refuse hcall (hdel.trans ?_) hno (hall fun k => took_update _ _ _ _ rfl)
    simp [CPUState.load_setEax]
  | @block mem esp pid _ hcall hlive hdead hd =>
    have hblocked : (r.1.tasks s.current).state = .blocked := by
      rw [hd.tasks_of_ne] <;> simp
    refine .quiet (h.result_eq_none hs (.block hcall hlive hdead hd) (fun _ _ => hblocked)
      fun t _ hw => ?_) (hall fun k => (hd.took_eq k).trans (took_update _ _ _ _ rfl))
      fun pid' hc => ?_
    · have := hw.call
      rw [hcall] at this
      cases this
    · rw [hcall, Option.some_inj] at hc
      cases hc
      obtain ⟨k, hk, hask, hpp, hst⟩ := hlive
      refine ⟨k, hk, hask, hpp, ?_⟩
      exact hs.table.reaped_eq_false hk hst
  | exit hcall hno hd =>
    refine .quiet (h.result_eq_none hs (.exit hcall hno hd) (fun pid hc => ?_)
      fun t ht hw => hno t ht hw.waits)
      (hall fun k => (hd.took_eq k).trans (took_update _ _ _ _ rfl)) fun pid hc => ?_
    all_goals
      rw [hcall] at hc
      cases hc
  | @exitWake mem esp p _ hcall hp hst hw hd =>
    have heff := Effect.exitWake hcall hp hst hw hd
    have hne : p ≠ s.current := fun he => by
      rw [he, hrun] at hst
      cases hst
    have hwoken : Woken s (.syscall mem esp) r p := by
      rcases heff.state_of_blocked hs hp hst with ⟨hb, -⟩ | hw
      · rcases hd.tasks_eq p with ht | ⟨-, ht⟩ <;> simp [ht] at hb
      · exact hw
    obtain ⟨pid, hasked, hask⟩ := h.asked_of_waitsFor hp hst hw
    have hasks : w.asks s (.syscall mem esp) p = some pid := by
      rw [WaitLog.asks_of_not_waitpid (by simp [hcall]), hasked]
    have hlt : p < r.1.numTasks := lt_of_lt_of_le hp heff.numTasks_le
    refine .wake hcall hwoken hasked ?_ hask ?_ fun k hk => ?_
    · rw [WaitLog.delivered_eq_singleton hlt (WaitLog.result_eq_some hasks hwoken.state.1)
        fun t ht htp => ?_]
      · rw [hwoken.cpustate, hwoken.mem, CPUState.load_setEax]
      · cases hr : w.result s (.syscall mem esp) r.1 t with
        | none => rfl
        | some d =>
          rcases h.result_cases hs heff hr with ⟨-, pid', hc⟩ | hwt
          · rw [hcall] at hc
            cases hc
          · exact absurd (Int.ofNat_inj.1 (hwt.waits.1.symm.trans hw.1)) htp
    · rw [hd.tasks_of_ne] <;> simp [Function.update_of_ne hne.symm]
    · have hkn : k < s.numTasks := hd.numTasks_eq ▸ hk
      rw [hd.took_eq k]
      dsimp only
      rcases eq_or_ne k p with rfl | hkp
      · simp [hkn, hne]
      · rw [Function.update_of_ne hkp]
        rcases eq_or_ne k s.current with rfl | hkc
        · simp
        · simp [hkn, hkc]

/-- The invariant is preserved by interrupts. -/
theorem handle (h : WaitInv s w) (hs : s.Inv) (hs' : r.1.Inv) (heff : Effect s i r) :
    WaitInv r.1 (w.next s i r.1) := by
  -- Nothing is delivered, or one result: a pid, which is marked with it, or -1.
  cases h.outcome hs hs' heff with
  | quiet hnone hmark _ =>
    have hnil := WaitLog.delivered_eq_nil fun t (_ : t < r.1.numTasks) => hnone t
    refine h.step hs hs' heff ?_ (fun k hk => ?_) ?_
    all_goals rw [hnil]
    · exact Nat.zero_le 1
    · simpa using hmark k hk
    · simp
  | @reap pid c hcall hdel hc hask hpp hst htook hmark =>
    refine h.step hs hs' heff ?_ (fun k hk => ?_) fun d hd _ => ?_
    · rw [hdel]
      exact le_rfl
    · rw [hdel, hmark k hk]
      refine or_congr_right ⟨fun he => ⟨_, List.mem_singleton_self _, by rw [he]⟩, ?_⟩
      rintro ⟨d, hd, hr⟩
      rw [List.mem_singleton.1 hd] at hr
      exact (ofInt_pid_inj (lt_of_lt_of_le hc hs.numTasks_le)
        (lt_of_lt_of_le hk hs'.numTasks_le) hr).symm
    · rw [hdel, List.mem_singleton] at hd
      rw [hd]
      exact ⟨c, hc, rfl, heff.state_of_terminated hs hc hst, hpp, htook⟩
  | refuse hcall hdel hno hmark =>
    refine h.step hs hs' heff ?_ (fun k hk => ?_) fun d hd hne => ?_
    · rw [hdel]
      exact le_rfl
    · rw [hdel, hmark k hk]
      refine (or_iff_left ?_).symm
      rintro ⟨d, hd, hr⟩
      rw [List.mem_singleton.1 hd] at hr
      exact ofInt_pid_ne (lt_of_lt_of_le hk hs'.numTasks_le) hr.symm
    · rw [hdel, List.mem_singleton] at hd
      rw [hd] at hne
      exact absurd rfl hne
  | wake hcall hw hasked hdel hask hterm hmark =>
    have hcur := hs.current_lt
    refine h.step hs hs' heff ?_ (fun k hk => ?_) fun d hd _ => ?_
    · rw [hdel]
      exact le_rfl
    · rw [hdel, hmark k hk]
      refine or_congr_right ⟨fun he => ⟨_, List.mem_singleton_self _, by rw [he]⟩, ?_⟩
      rintro ⟨d, hd, hr⟩
      rw [List.mem_singleton.1 hd] at hr
      exact (ofInt_pid_inj (lt_of_lt_of_le hcur hs.numTasks_le)
        (lt_of_lt_of_le hk hs'.numTasks_le) hr).symm
    · rw [hdel, List.mem_singleton] at hd
      rw [hd]
      refine ⟨s.current, hcur, rfl, hterm, hw.waits.1, ?_⟩
      exact hs.table.reaped_eq_false hcur (by simp [procs, Task.proc, hs.state_current])

/-- `-1` is delivered exactly when there is no child to wait for. -/
theorem refused_iff (h : WaitInv s w) (hs : s.Inv) (hs' : r.1.Inv) (heff : Effect s i r) (c : ℕ)
    (pid : UInt32) :
    ⟨c, pid, -1⟩ ∈ w.delivered s i r.1 ↔ i.call = some (.waitpid pid) ∧ c = s.current ∧
      ∀ k < s.numTasks, Asks pid k → (s.tasks k).ppid = c → w.Reaped k := by
  cases h.outcome hs hs' heff with
  | quiet hnone _ hlive =>
    rw [WaitLog.delivered_eq_nil fun t _ => hnone t]
    refine iff_of_false List.not_mem_nil fun ⟨hcall, hc, hall⟩ => ?_
    -- The call blocks for a child that has not been reaped.
    obtain ⟨k, hk, hask, hpp, htook⟩ := hlive pid hcall
    have := (h.reaped_iff k hk).2 (hall k hk hask (hc ▸ hpp))
    rw [htook] at this
    cases this
  | @reap pid' k hcall hdel hk hask hpp hst htook _ =>
    rw [hdel, List.mem_singleton]
    -- A pid is not -1, and the child was there to be reaped.
    refine iff_of_false (fun he => ?_) fun ⟨hcall', hc, hall⟩ => ?_
    · exact ofInt_pid_ne (lt_of_lt_of_le hk hs.numTasks_le) (congrArg Delivery.result he).symm
    · rw [hcall, Option.some_inj] at hcall'
      cases hcall'
      have := (h.reaped_iff k hk).2 (hall k hk hask (hc ▸ hpp))
      rw [htook] at this
      cases this
  | @refuse pid' hcall hdel hno _ =>
    rw [hdel, List.mem_singleton]
    constructor
    · intro he
      cases he
      exact ⟨hcall, rfl, fun k hk hask hpp => (h.reaped_iff k hk).1 (hno k hk hask hpp)⟩
    · rintro ⟨hcall', rfl, -⟩
      rw [hcall, Option.some_inj] at hcall'
      cases hcall'
      rfl
  | wake hcall _ _ hdel =>
    rw [hdel, List.mem_singleton]
    refine iff_of_false (fun he => ?_) fun ⟨hcall', _⟩ => ?_
    · exact ofInt_pid_ne (lt_of_lt_of_le hs.current_lt hs.numTasks_le)
        (congrArg Delivery.result he).symm
    · rw [hcall] at hcall'
      cases hcall'

end WaitInv

/-! ## Runs -/

/-- The invariant holds in every run. -/
theorem waitInv_of_reachable {p : TaskManager × WaitLog}
    (h : (system.monitored waits).Reachable p) : WaitInv p.1 p.2 := by
  refine h.invariant (P := fun p => WaitInv p.1 p.2) (fun p h0 => ?_) fun p i p' hp hinv hi => ?_
  · obtain ⟨⟨b, hb, hs⟩, hw⟩ := h0
    have hcur : p.1.Inv := hs ▸ (b.firstTick_spec hb).2
    have hzero : ∀ k < p.1.numTasks, (p.1.tasks k).state = .running := fun k hk => by
      rw [← hs] at hk
      rw [b.firstTick_single hb hk, hs]
      exact hcur.state_current
    rw [hw]
    refine ⟨fun t => iff_of_false (by simp) fun h => ?_, by simp, fun k hk => ?_, by simp, List.nodup_nil⟩
    · obtain ⟨ht, hst⟩ := h
      rw [hzero t ht] at hst
      cases hst
    · have htook : (p.1.tasks k).parentTookInWait = false :=
        hcur.table.reaped_eq_false hk (by simp [procs, Task.proc, hzero k hk])
      rw [htook]
      refine iff_of_false (by decide) fun h => ?_
      obtain ⟨d, hd, -⟩ := h
      exact absurd hd List.not_mem_nil
  · obtain ⟨⟨hallow, hs⟩, hw⟩ := hi
    obtain ⟨heff, hs'⟩ := (inv_of_reachable hp.of_monitored).handle hallow
    rw [hw, ← hs]
    exact hinv.handle (inv_of_reachable hp.of_monitored) hs' heff

end GtuOs.TaskManager

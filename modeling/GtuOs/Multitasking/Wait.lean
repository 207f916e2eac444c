import GtuOs.Multitasking.Fork

/-!
# The effect of `Waitpid` and `Exit`

`Inv.waitpid` and `Inv.exit` relate the two halves of the waiting protocol to
their effects, and `Inv.handle` puts the effects of all interrupts together.
-/

namespace GtuOs.TaskManager

variable {s : TaskManager} {mem : Memory} {esp : ℕ}

/-! ## The loop of `Waitpid(-1)` -/

/-- The child found is a terminated one that was not taken yet. -/
theorem searchChild_some {ppid : ℤ} {i c k n : ℕ} (h : (s.searchChild ppid i c n).1 = some k) :
    k < i + n ∧ (s.tasks k).ppid = ppid ∧ (s.tasks k).state = .terminated ∧
      (s.tasks k).parentTookInWait = false := by
  induction n generalizing i c with
  | zero => simp [searchChild] at h
  | succ n ih =>
    rw [searchChild] at h
    split_ifs at h with hchild hterm
    · obtain rfl : i = k := by simpa using h
      exact ⟨by omega, hchild.2, hterm, by simpa using hchild.1⟩
    · obtain ⟨hk, hrest⟩ := ih h
      exact ⟨by omega, hrest⟩
    · obtain ⟨hk, hrest⟩ := ih h
      exact ⟨by omega, hrest⟩

/-- When no child is found, those not taken yet are alive, and the count tells
    whether there are any. -/
theorem searchChild_none {ppid : ℤ} {i c n : ℕ} (h : (s.searchChild ppid i c n).1 = none) :
    (∀ k, i ≤ k → k < i + n → (s.tasks k).ppid = ppid → (s.tasks k).state = .terminated →
        (s.tasks k).parentTookInWait = true) ∧
      ((s.searchChild ppid i c n).2 = c ↔
        ∀ k, i ≤ k → k < i + n → (s.tasks k).ppid = ppid → (s.tasks k).parentTookInWait = true) ∧
      c ≤ (s.searchChild ppid i c n).2 := by
  -- The loop counts the children that have not been taken, and stops at a terminated one.
  induction n generalizing i c with
  | zero => exact ⟨by omega, by simpa [searchChild] using by omega, le_rfl⟩
  | succ n ih =>
    rw [searchChild] at h ⊢
    split_ifs at h ⊢ with hchild hterm
    · obtain ⟨hdead, hcount, hle⟩ := ih h
      refine ⟨fun k hik hk hpp hst => ?_, ⟨fun heq => ?_, fun hall => ?_⟩, by omega⟩
      · rcases Nat.eq_or_lt_of_le hik with rfl | hik
        · exact absurd hst hterm
        · exact hdead k hik (by omega) hpp hst
      · omega
      · exact absurd (hall i le_rfl (by omega) hchild.2) hchild.1
    · obtain ⟨hdead, hcount, hle⟩ := ih h
      have htook : (s.tasks i).ppid = ppid → (s.tasks i).parentTookInWait = true := fun hpp =>
        by_contra fun htook => hchild ⟨htook, hpp⟩
      refine ⟨fun k hik hk hpp hst => ?_, hcount.trans ⟨fun hall k hik hk hpp => ?_, fun hall k hik hk => ?_⟩, hle⟩
      · rcases Nat.eq_or_lt_of_le hik with rfl | hik
        · exact htook hpp
        · exact hdead k hik (by omega) hpp hst
      · rcases Nat.eq_or_lt_of_le hik with rfl | hik
        · exact htook hpp
        · exact hall k hik (by omega) hpp
      · exact hall k (by omega) (by omega)

/-! ## Waiting -/

theorem ofInt_toNat (n : UInt32) : UInt32.ofInt (n.toNat : ℤ) = n := by
  have hlt := n.toNat_lt
  have hmod : ((n.toNat : ℤ) % 2 ^ 32).toNat = n.toNat := by omega
  rw [UInt32.ofInt, hmod]
  exact UInt32.ofNat_toNat

/-- The state after the running task has reaped the child `k`. -/
def reaped (s : TaskManager) (esp k : ℕ) : TaskManager :=
  { (s.saved esp).modifyTask k fun t => { t with parentTookInWait := true } with
    mem := CPUState.setEax s.mem esp (.ofInt k) }

/-- The state after the running task was refused to wait. -/
def refused (s : TaskManager) (esp : ℕ) : TaskManager :=
  { (s.saved esp).modifyTask s.current fun t => { t with waitingChild := false } with
    mem := CPUState.setEax s.mem esp (-1) }

/-- The state in which the running task is blocked, waiting for `w`. -/
def blockedFor (s : TaskManager) (esp : ℕ) (w : ℤ) : TaskManager :=
  (s.saved esp).modifyTask s.current fun t =>
    { t with state := .blocked, waitingChild := true, waitingChildId := w }

/-- `Waitpid(-1)`, case by case. -/
theorem waitpid_any_eq (s : TaskManager) (esp : ℕ) : s.waitpid (-1) esp =
    match (s.saved esp).searchChild ((s.saved esp).tasks s.current).pid 0 0 s.numTasks with
    | (some child, _) =>
      ({ (s.saved esp).modifyTask child fun t => { t with parentTookInWait := true } with
          mem := CPUState.setEax s.mem esp
            (.ofInt (((s.saved esp).modifyTask child
              fun t => { t with parentTookInWait := true }).tasks child).pid) }, esp)
    | (none, childNum) =>
      if childNum = 0 then (s.refused esp, esp) else (s.blockedFor esp (-1)).schedule := by
  rw [waitpid, if_pos rfl]
  rfl

/-- `Waitpid(pid)`, case by case. -/
theorem waitpid_one_eq {pid : UInt32} (hne : pid ≠ -1) : s.waitpid pid esp =
    if pid.toNat ≥ s.numTasks then (s.refused esp, esp)
    else if ((s.saved esp).tasks pid.toNat).parentTookInWait ∨
        ((s.saved esp).tasks pid.toNat).ppid ≠ ((s.saved esp).tasks s.current).pid then
      (s.refused esp, esp)
    else if ((s.saved esp).tasks pid.toNat).state = .terminated then
      ({ (s.saved esp).modifyTask pid.toNat fun t => { t with parentTookInWait := true } with
          mem := CPUState.setEax s.mem esp pid }, esp)
    else (s.blockedFor esp pid.toNat).schedule := by
  rw [waitpid, if_neg hne]
  rfl

/-- What `Waitpid` does. -/
inductive WaitpidResult (s : TaskManager) (pid : UInt32) (esp : ℕ) : TaskManager × ℕ → Prop
  | reap {k : ℕ} : k < s.numTasks → Asks pid k → (s.tasks k).ppid = s.current →
      (s.tasks k).state = .terminated → (s.tasks k).parentTookInWait = false →
      WaitpidResult s pid esp (s.reaped esp k, esp)
  | refuse : (∀ k < s.numTasks, Asks pid k → (s.tasks k).ppid = s.current →
        (s.tasks k).parentTookInWait = true) → WaitpidResult s pid esp (s.refused esp, esp)
  | block {w : ℤ} : w = (if pid = -1 then -1 else (pid.toNat : ℤ)) →
      (∃ k < s.numTasks, Asks pid k ∧ (s.tasks k).ppid = s.current ∧
        (s.tasks k).state ≠ .terminated) →
      (∀ k < s.numTasks, Asks pid k → (s.tasks k).ppid = s.current →
        (s.tasks k).state = .terminated → (s.tasks k).parentTookInWait = true) →
      WaitpidResult s pid esp (s.blockedFor esp w).schedule

namespace Inv

/-- The running task reaps a terminated child. -/
theorem reap (h : s.Inv) {k : ℕ} {pid : UInt32}
    (hcall : Interrupt.call (.syscall s.mem esp) = some (.waitpid pid)) (hk : k < s.numTasks)
    (hask : Asks pid k) (hpp : (s.tasks k).ppid = s.current) (hst : (s.tasks k).state = .terminated)
    (htook : (s.tasks k).parentTookInWait = false) :
    Effect s (.syscall s.mem esp) (s.reaped esp k, esp) ∧ (s.reaped esp k).Inv := by
  have hne : k ≠ s.current := fun he => by
    rw [he, h.state_current] at hst
    cases hst
  have hself := saved_tasks_of_ne hne esp
  have hproc : (s.saved esp).procs k = s.procs k := congrArg Task.proc hself
  have htasks : ((s.saved esp).modifyTask k fun t => { t with parentTookInWait := true }).tasks =
      Function.update (s.saved esp).tasks k { s.tasks k with parentTookInWait := true } := by
    rw [modifyTask_tasks, hself]
  have htable := (h.saved esp).table.reap hk ((congrArg Proc.state hproc).trans hst)
  rw [hproc] at htable
  constructor
  · have heff := Effect.reap hcall hk hask hpp hst htook
    rwa [show Function.update s.tasks s.current { s.tasks s.current with cpustate := esp } =
      (s.saved esp).tasks from rfl, ← htasks] at heff
  · refine withMem ⟨⟨(h.saved esp).toBase.modifyTask hk rfl rfl Iff.rfl, ?_⟩, h.currentTask_nonneg⟩ _
    rw [procs_eq_update htasks]
    exact htable

/-- The running task is refused to wait. -/
theorem refuse (h : s.Inv) {pid : UInt32}
    (hcall : Interrupt.call (.syscall s.mem esp) = some (.waitpid pid))
    (hno : ∀ k < s.numTasks, Asks pid k → (s.tasks k).ppid = s.current →
      (s.tasks k).parentTookInWait = true) :
    Effect s (.syscall s.mem esp) (s.refused esp, esp) ∧ (s.refused esp).Inv := by
  have htasks : ((s.saved esp).modifyTask s.current fun t => { t with waitingChild := false }).tasks =
      Function.update s.tasks s.current
        { s.tasks s.current with cpustate := esp, waitingChild := false } := by
    rw [modifyTask_tasks, saved_tasks_current]
    exact Function.update_idem _ _ _
  constructor
  · have heff := Effect.refuse hcall hno
    rwa [← htasks] at heff
  · refine withMem ((h.saved esp).modifyCurrent (s := s.saved esp) rfl rfl ?_) _
    have hw := (h.saved esp).waitingChild_current
    simp [Task.proc, hw]

theorem blockedFor_tasks (s : TaskManager) (esp : ℕ) (w : ℤ) : (s.blockedFor esp w).tasks =
    Function.update s.tasks s.current { s.tasks s.current with
      cpustate := esp, state := .blocked, waitingChild := true, waitingChildId := w } := by
  rw [TaskManager.blockedFor, modifyTask_tasks, saved_tasks_current]
  exact Function.update_idem _ _ _

/-- The running task blocks, waiting for `w`. -/
theorem blockedFor (h : s.Inv) (esp : ℕ) {pid : UInt32} {w : ℤ}
    (hw : w = if pid = -1 then -1 else (pid.toNat : ℤ))
    (hlive : ∃ k < s.numTasks, Asks pid k ∧ (s.tasks k).ppid = s.current ∧
      (s.tasks k).state ≠ .terminated)
    (hdead : ∀ k < s.numTasks, Asks pid k → (s.tasks k).ppid = s.current →
      (s.tasks k).state = .terminated → (s.tasks k).parentTookInWait = true) :
    (s.blockedFor esp w).InvAt none := by
  have hiff : ∀ k : ℕ, (w = -1 ∨ w = k) ↔ Asks pid k := fun k => by
    rw [hw, Asks]
    split_ifs with hp
    · simp [hp]
    · simp only [hp, false_or]
      omega
  refine ⟨(h.saved esp).toBase.modifyTask h.current_lt rfl rfl ?_, ?_⟩
  · rw [saved_tasks_current]
    simp [h.state_current]
  · rw [procs_eq_update (blockedFor_tasks s esp w)]
    refine h.table.block (w := w) ?_ fun c hc hpp hask => ?_
    · obtain ⟨k, hk, hask, hpp, hst⟩ := hlive
      exact ⟨k, hk, hpp, (hiff k).2 hask, hst⟩
    · exact hdead c hc ((hiff c).1 hask) hpp

/-- The fields of a task that saving the frame of the running task keeps. -/
theorem saved_fields (s : TaskManager) (esp k : ℕ) :
    ((s.saved esp).tasks k).ppid = (s.tasks k).ppid ∧
      ((s.saved esp).tasks k).state = (s.tasks k).state ∧
      ((s.saved esp).tasks k).parentTookInWait = (s.tasks k).parentTookInWait := by
  rcases eq_or_ne k s.current with rfl | hi
  · simp [saved_tasks_current]
  · simp [saved_tasks_of_ne hi]

/-- `Waitpid(-1)`. -/
theorem waitpid_any (h : s.Inv) : WaitpidResult s (-1) esp (s.waitpid (-1) esp) := by
  have hpid : ((s.saved esp).tasks s.current).pid = s.current := (h.saved esp).pid_current
  have hf := saved_fields s esp
  rw [waitpid_any_eq, hpid]
  rcases hk : (s.saved esp).searchChild s.current 0 0 s.numTasks with ⟨_ | k, childNum⟩
  · obtain ⟨hdead, hcount, -⟩ := searchChild_none (congrArg Prod.fst hk)
    rw [hk] at hcount
    simp only [hf] at hdead hcount
    dsimp only
    -- No child has been counted, or one that is alive.
    split_ifs with hzero
    · refine .refuse fun k hk _ => ?_
      exact hcount.1 hzero k (Nat.zero_le k) (by omega)
    · refine .block (by simp) ?_ fun k hk _ => hdead k (Nat.zero_le k) (by omega)
      rw [hcount] at hzero
      push Not at hzero
      obtain ⟨k, -, hk, hpp, htook⟩ := hzero
      exact ⟨k, by omega, .inl rfl, hpp, fun hst => htook (hdead k (Nat.zero_le k) hk hpp hst)⟩
  · obtain ⟨hlt, hpp, hst, htook⟩ := searchChild_some (congrArg Prod.fst hk)
    simp only [hf] at hpp hst htook
    dsimp only
    rw [Nat.zero_add] at hlt
    have hkpid : (((s.saved esp).modifyTask k fun t => { t with parentTookInWait := true }).tasks k).pid =
        k := by
      rw [modifyTask_tasks, Function.update_self]
      exact (h.saved esp).pid_eq k hlt
    rw [hkpid]
    exact .reap hlt (.inl rfl) hpp hst htook

/-- `Waitpid(pid)`, for one child. -/
theorem waitpid_one (h : s.Inv) {pid : UInt32} (hne : pid ≠ -1) :
    WaitpidResult s pid esp (s.waitpid pid esp) := by
  have hpid : ((s.saved esp).tasks s.current).pid = s.current := (h.saved esp).pid_current
  have hask : ∀ k, Asks pid k → k = pid.toNat := fun k hk => (hk.resolve_left hne).symm
  have hf := saved_fields s esp pid.toNat
  rw [waitpid_one_eq hne, hpid, hf.1, hf.2.1, hf.2.2]
  split_ifs with hge hno hst
  · refine .refuse fun k hk hak => ?_
    rw [hask k hak] at hk
    omega
  · refine .refuse fun k hk hak hpp => ?_
    rw [hask k hak] at hpp ⊢
    exact hno.resolve_right fun hn => hn hpp
  · push Not at hno
    have hreap : WaitpidResult s pid esp (s.reaped esp pid.toNat, esp) :=
      .reap (Nat.not_le.1 hge) (.inr rfl) hno.2 hst (by simpa using hno.1)
    rwa [reaped, ofInt_toNat] at hreap
  · push Not at hno
    refine .block (by rw [if_neg hne]) ⟨_, Nat.not_le.1 hge, .inr rfl, hno.2, hst⟩ ?_
    intro k _ hak _ hterm
    rw [hask k hak] at hterm
    exact absurd hterm hst

theorem waitpid_result (h : s.Inv) (pid : UInt32) (esp : ℕ) :
    WaitpidResult s pid esp (s.waitpid pid esp) := by
  by_cases hpid : pid = -1
  · subst hpid
    exact h.waitpid_any
  · exact h.waitpid_one hpid

/-- `Waitpid`. -/
theorem waitpid (h : s.Inv) {pid : UInt32}
    (hcall : Interrupt.call (.syscall s.mem esp) = some (.waitpid pid)) :
    Effect s (.syscall s.mem esp) (s.waitpid pid esp) ∧ (s.waitpid pid esp).1.Inv := by
  have hres := h.waitpid_result pid esp
  generalize s.waitpid pid esp = r at hres ⊢
  cases hres with
  | reap hk hask hpp hst htook => exact h.reap hcall hk hask hpp hst htook
  | refuse hno => exact h.refuse hcall hno
  | block hw hlive hdead =>
    obtain ⟨hd, hinv⟩ := (h.blockedFor esp hw hlive hdead).schedule
    refine ⟨.block hcall hlive hdead ?_, hinv⟩
    rw [← hw]
    exact hd.congr (blockedFor_tasks s esp _).symm rfl rfl rfl

/-- A task that has blocked is not the one that is dispatched. -/
theorem state_blockedFor {w : ℤ} (h : (s.blockedFor esp w).InvAt none) :
    ((s.blockedFor esp w).schedule.1.tasks s.current).state = .blocked := by
  obtain ⟨t, ht, hst, htasks, -⟩ := h.schedule.1
  have hself : (s.blockedFor esp w).tasks s.current = _ := Function.update_self _ _ _
  have hne : s.current ≠ t := fun he => by
    rw [← he, hself] at hst
    cases hst
  rw [htasks, Function.update_of_ne hne, hself]

end Inv

/-! ## Exiting -/

/-- `collatzTask` being null, nothing is done for it. -/
theorem releaseForCollatz_of_none (h : s.collatzTask = none) (i : ℕ) :
    s.releaseForCollatz i = s := by
  rw [releaseForCollatz, h]

/-- `wakeParent` for a task with the parent `p`. -/
theorem wakeParent_eq {i p : ℕ} (h : (s.tasks i).ppid = p) (hne : p ≠ i) :
    s.wakeParent i =
      if (s.tasks p).waitingChild ∧
          ((s.tasks p).waitingChildId = -1 ∨ (s.tasks p).waitingChildId = (s.tasks i).pid) then
        { ((s.modifyTask i fun t => { t with parentTookInWait := true }).modifyTask p fun t =>
            { t with waitingChild := false }).addToReadyQueue p with
          mem := CPUState.setEax s.mem (s.tasks p).cpustate (.ofInt (s.tasks i).pid) }
      else s := by
  have hpos : (p : ℤ) ≠ -1 := by omega
  rw [wakeParent]
  rw [h, if_pos hpos]
  dsimp only [Int.toNat_natCast]
  simp only [addToReadyQueue_tasks, addToReadyQueue_mem, modifyTask_tasks, Function.update_self,
    Function.update_of_ne hne, Function.update_of_ne hne.symm]
  rfl

/-- The state after `Exit` has woken up the parent `p`. -/
def wokenParent (s : TaskManager) (p : ℕ) : TaskManager :=
  { ((s.modifyTask s.current fun t =>
      { t with state := .terminated, parentTookInWait := true }).modifyTask p fun t =>
      { t with waitingChild := false }).addToReadyQueue p with
    mem := CPUState.setEax s.mem (s.tasks p).cpustate (.ofInt s.current) }

namespace Inv

/-- The running task has exited, its parent not waiting for it. -/
theorem exited (h : s.Inv) (h0 : s.current ≠ 0)
    (hno : ∀ p < s.numTasks, ¬WaitsFor s.procs p s.current) :
    (s.modifyTask s.current fun t => { t with state := .terminated }).InvAt none := by
  refine ⟨h.toBase.modifyTask h.current_lt rfl rfl ?_, ?_⟩
  · simp [h.state_current]
  · rw [procs_eq_update (modifyTask_tasks _ _ _)]
    exact h.table.terminate h0 hno (s.tasks s.current).parentTookInWait

/-- A task waiting for the running one is blocked, and another one. -/
theorem blocked_of_waitsFor (h : s.Inv) {p : ℕ} (hp : p < s.numTasks)
    (hw : WaitsFor s.procs p s.current) : (s.tasks p).state = .blocked ∧ p ≠ s.current := by
  have hst : (s.tasks p).state = .blocked := by
    refine (h.table.blocked_iff p hp).2 fun hn => ?_
    rw [WaitsFor, hn] at hw
    simp at hw
  refine ⟨hst, fun he => ?_⟩
  rw [he, h.state_current] at hst
  cases hst

theorem wokenParent_tasks {p : ℕ} (hne : p ≠ s.current) : (s.wokenParent p).tasks =
    Function.update (Function.update s.tasks s.current
      { s.tasks s.current with state := .terminated, parentTookInWait := true }) p
      { s.tasks p with waitingChild := false, state := .ready } := by
  rw [TaskManager.wokenParent]
  dsimp only
  rw [addToReadyQueue_tasks, modifyTask_tasks, modifyTask_tasks, Function.update_self,
    Function.update_of_ne hne, Function.update_idem]

theorem wokenParent_numTasks (s : TaskManager) (p : ℕ) :
    (s.wokenParent p).numTasks = s.numTasks := by
  rw [TaskManager.wokenParent]
  dsimp only
  rw [addToReadyQueue_numTasks]
  rfl

theorem wokenParent_base (s : TaskManager) (p : ℕ) : (s.wokenParent p).base = s.base := by
  rw [TaskManager.wokenParent]
  dsimp only
  rw [addToReadyQueue_base]
  rfl

/-- The running task has exited, its parent `p` being woken up. -/
theorem wokenParent (h : s.Inv) (h0 : s.current ≠ 0) {p : ℕ} (hp : p < s.numTasks)
    (hw : WaitsFor s.procs p s.current) : (s.wokenParent p).InvAt none := by
  obtain ⟨hst, hne⟩ := h.blocked_of_waitsFor hp hw
  let s₁ := s.modifyTask s.current fun t => { t with state := .terminated, parentTookInWait := true }
  have hself₁ : s₁.tasks p = s.tasks p := Function.update_of_ne hne _ _
  let s₂ := s₁.modifyTask p fun t => { t with waitingChild := false }
  have hself₂ : s₂.tasks p = { s.tasks p with waitingChild := false } := by
    rw [modifyTask_tasks, Function.update_self, hself₁]
  have hn := wokenParent_numTasks s p
  constructor
  · have hb₁ : s₁.Base := h.toBase.modifyTask h.current_lt rfl rfl (by simp [h.state_current])
    have hb₂ : s₂.Base := hb₁.modifyTask hp rfl rfl Iff.rfl
    refine (hb₂.addToReadyQueue hp ?_).withMem _
    rw [hself₂]
    simp [hst]
  -- In the table the parent is woken up first, and the child ends then.
  · have hprocs : (s.wokenParent p).procs = Function.update (Function.update s.procs p
        { s.procs p with state := .ready, waiting := none }) s.current
        { s.procs s.current with state := .terminated, reaped := true } := by
      have h₁ : s₁.procs = Function.update s.procs s.current
          { s.procs s.current with state := .terminated, reaped := true } :=
        procs_eq_update (modifyTask_tasks _ _ _)
      rw [procs_eq_update (s := s₁) (wokenParent_tasks hne), h₁, Function.update_comm hne.symm]
      rfl
    have hwake := h.table.wake hp hst
    have hself : Function.update s.procs p { s.procs p with state := .ready, waiting := none } s.current =
        s.procs s.current := Function.update_of_ne hne.symm _ _
    have hterm := hwake.terminate h0 (fun i hi hwi => ?_) true
    · rw [hself] at hterm
      rw [hprocs, hn]
      exact hterm
    · obtain ⟨hpi, hwi⟩ := hwi
      rw [hself] at hpi
      have hip : i = p := by
        have := hpi.symm.trans hw.1
        omega
      rw [hip, Function.update_self] at hwi
      simp at hwi

/-- The parent of an exiting task is woken up if it is waiting for it. -/
theorem wakeParent_of_waitsFor (h : s.Inv) {p : ℕ} (hne : p ≠ s.current)
    (hw : WaitsFor s.procs p s.current) :
    (s.modifyTask s.current fun t => { t with state := .terminated }).wakeParent s.current =
      s.wokenParent p := by
  obtain ⟨hpp, hwait⟩ := hw
  have hppid : (s.tasks s.current).ppid = p := hpp
  have hpid := h.pid_current
  have hcond : (s.tasks p).waitingChild = true ∧ ((s.tasks p).waitingChildId = -1 ∨
      (s.tasks p).waitingChildId = s.current) := by
    cases hwc : (s.tasks p).waitingChild with
    | false => simp [procs, Task.proc, hwc] at hwait
    | true => simpa [procs, Task.proc, hwc] using hwait
  have hself : (s.modifyTask s.current fun t => { t with state := .terminated }).tasks s.current =
      { s.tasks s.current with state := .terminated } := Function.update_self _ _ _
  have hself_p : (s.modifyTask s.current fun t => { t with state := .terminated }).tasks p =
      s.tasks p := Function.update_of_ne hne _ _
  rw [wakeParent_eq (p := p) (by rw [hself, hppid]) hne, hself_p, hself, hpid, if_pos hcond]
  simp only [modifyTask, Function.update_self, Function.update_idem]
  rfl

/-- The parent of an exiting task is left alone if it is not waiting for it. -/
theorem wakeParent_of_not_waitsFor (h : s.Inv)
    (hno : ∀ p < s.numTasks, ¬WaitsFor s.procs p s.current) :
    (s.modifyTask s.current fun t => { t with state := .terminated }).wakeParent s.current =
      s.modifyTask s.current fun t => { t with state := .terminated } := by
  have hge := h.table.ppid_ge _ h.current_lt
  have hlt := h.table.ppid_lt _ h.current_lt
  have hself : (s.modifyTask s.current fun t => { t with state := .terminated }).tasks s.current =
      { s.tasks s.current with state := .terminated } := Function.update_self _ _ _
  rcases eq_or_ne (s.tasks s.current).ppid (-1) with hroot | hroot
  · rw [wakeParent, hself]
    exact if_neg (not_not.2 hroot)
  · obtain ⟨p, hp⟩ := Int.eq_ofNat_of_zero_le (show 0 ≤ (s.tasks s.current).ppid by
      have : -1 ≤ (s.tasks s.current).ppid := hge
      omega)
    have hpc : p < s.current := by
      have : (s.tasks s.current).ppid < s.current := hlt
      omega
    have hself_p : (s.modifyTask s.current fun t => { t with state := .terminated }).tasks p =
        s.tasks p := Function.update_of_ne hpc.ne _ _
    rw [wakeParent_eq (p := p) (by rw [hself, hp]) hpc.ne, hself_p, hself, h.pid_current]
    refine if_neg fun hcond => hno p (hpc.trans h.current_lt) ⟨hp, ?_⟩
    simp only [procs, Task.proc, hcond.1, if_true]
    exact hcond.2.imp (congrArg some) (congrArg some)

/-- `Exit`, when the parent `p` is waiting. -/
theorem exit_eq_of_waitsFor (h : s.Inv) {p : ℕ} (hp : p < s.numTasks)
    (hw : WaitsFor s.procs p s.current) : s.exit = (s.wokenParent p).schedule := by
  have heq : s.exit = (((s.modifyTask s.current fun t =>
    { t with state := .terminated }).wakeParent s.current).releaseForCollatz s.current).schedule := rfl
  have hnone : (s.wokenParent p).collatzTask = none := by
    rw [TaskManager.wokenParent, addToReadyQueue_eq]
    exact h.noCollatz.2
  rw [heq, h.wakeParent_of_waitsFor (h.blocked_of_waitsFor hp hw).2 hw,
    releaseForCollatz_of_none hnone]

/-- `Exit`, when the parent is not waiting. -/
theorem exit_eq_of_not_waitsFor (h : s.Inv) (hno : ∀ p < s.numTasks, ¬WaitsFor s.procs p s.current) :
    s.exit = (s.modifyTask s.current fun t => { t with state := .terminated }).schedule := by
  have heq : s.exit = (((s.modifyTask s.current fun t =>
    { t with state := .terminated }).wakeParent s.current).releaseForCollatz s.current).schedule := rfl
  have hnone : (s.modifyTask s.current fun t => { t with state := .terminated }).collatzTask = none :=
    h.noCollatz.2
  rw [heq, h.wakeParent_of_not_waitsFor hno, releaseForCollatz_of_none hnone]

/-- `Exit`. -/
theorem exit (h : s.Inv) (hcall : Interrupt.call (.syscall s.mem esp) = some .exit)
    (h0 : s.current ≠ 0) :
    Effect s (.syscall s.mem esp) s.exit ∧ s.exit.1.Inv := by
  by_cases hw : ∃ p < s.numTasks, WaitsFor s.procs p s.current
  · obtain ⟨p, hp, hw⟩ := hw
    obtain ⟨hst, hne⟩ := h.blocked_of_waitsFor hp hw
    obtain ⟨hd, hinv⟩ := (h.wokenParent h0 hp hw).schedule
    rw [h.exit_eq_of_waitsFor hp hw]
    exact ⟨.exitWake hcall hp hst hw (hd.congr (wokenParent_tasks hne).symm rfl
      (wokenParent_numTasks s p).symm (wokenParent_base s p).symm), hinv⟩
  · push Not at hw
    obtain ⟨hd, hinv⟩ := (h.exited h0 hw).schedule
    rw [h.exit_eq_of_not_waitsFor hw]
    exact ⟨.exit hcall hw hd, hinv⟩

/-- The handling of system calls. -/
theorem handleInterrupt (h : s.Inv) (hi : s.Allowed (.syscall s.mem esp)) :
    Effect s (.syscall s.mem esp) (s.handleInterrupt esp) ∧ (s.handleInterrupt esp).1.Inv := by
  have hcall : Interrupt.call (.syscall s.mem esp) = some (CPUState.load s.mem esp).syscall := rfl
  rw [Allowed] at hi
  rw [TaskManager.handleInterrupt]
  rw [hcall] at hi
  cases hsys : (CPUState.load s.mem esp).syscall <;> rw [hsys] at hi hcall <;> dsimp only at hi ⊢
  case printf str => exact ⟨.skip (.inl ⟨str, hcall⟩), h⟩
  case fork =>
    obtain ⟨htasks, hmem, hnum, hcur, hbase, hinv⟩ := h.fork esp hi
    exact ⟨.fork hcall hi htasks hmem hnum hcur hbase, hinv⟩
  case forkpid => exact ⟨.forkpid hcall, h.withMem _⟩
  case execve entrypoint =>
    refine ⟨?_, h.execve entrypoint⟩
    rw [execve_eq]
    exact .execve hcall
  case waitpid pid => exact h.waitpid hcall
  case exit => exact h.exit hcall hi
  case other => exact ⟨.skip (.inr hcall), h⟩

/-- **Every interrupt has an effect, and preserves the invariant.** -/
theorem handle (h : s.Inv) {i : Interrupt} (hi : s.Allowed i) :
    Effect s i (s.handle i) ∧ (s.handle i).1.Inv := by
  cases i with
  | timer mem esp =>
    obtain ⟨heff, hinv⟩ := (h.withMem mem).scheduleTick esp
    exact ⟨heff.withMem, hinv⟩
  | syscall mem esp =>
    obtain ⟨heff, hinv⟩ := (h.withMem mem).handleInterrupt hi
    exact ⟨heff.withMem, hinv⟩

end Inv

end GtuOs.TaskManager

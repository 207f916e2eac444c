import GtuOs.Multitasking.Safety

/-!
# Context switches

A monitor records the frame every task was last suspended with (`Frames`): that
of its last tick or system call, the fresh one of its `Execve` or of the initial
`Reset`, or for a forked child the copy of its parent's. It changes in two cases
only: `Fork` writes `ecx` in the frames of parent and child, and the exit of a
child writes `eax` in that of the parent it wakes up.

`resumes_suspended`: when every interrupt arrives on the running task's own
stack, and the running task leaves the other stacks alone (`OwnStack`), the frame
handed back by the handler is on the stack of the task resumed, and is the one
recorded.
-/

namespace GtuOs.TaskManager

/-! ## Stacks -/

variable {s : TaskManager} {i : Interrupt} {r : TaskManager × ℕ} {j k : ℕ} {a : ℕ}

/-- The frame at `a` is in the stack array of the task `j`. -/
def OnStack (s : TaskManager) (j a : ℕ) : Prop :=
  (s.tasks j).stack ≤ a ∧ a + CPUState.sizeof ≤ (s.tasks j).stack + maxStackSize

/-- The interrupt arrives on the stack of the running task, which has left the other
    stacks alone. -/
def OwnStack (s : TaskManager) (i : Interrupt) : Prop :=
  s.OnStack s.current i.esp ∧
    ∀ j < s.numTasks, j ≠ s.current →
      ∀ k < maxStackSize, i.mem ((s.tasks j).stack + k) = s.mem ((s.tasks j).stack + k)

/-- The stacks of two tasks are disjoint. -/
theorem Base.stack_disjoint (h : s.Base) (hjk : j ≠ k) :
    (s.tasks j).stack + maxStackSize ≤ (s.tasks k).stack ∨
      (s.tasks k).stack + maxStackSize ≤ (s.tasks j).stack := by
  rw [h.stack_eq, h.stack_eq]
  simp only [Task.sizeof, maxStackSize]
  omega

/-- What happens out of the stack of a task does not change its frames. -/
theorem load_eq_of_onStack {m m' : Memory} (ha : s.OnStack j a)
    (h : ∀ k < maxStackSize, m' ((s.tasks j).stack + k) = m ((s.tasks j).stack + k)) :
    CPUState.load m' a = CPUState.load m a := by
  obtain ⟨hlo, hhi⟩ := ha
  refine CPUState.load_congr fun k hk => ?_
  have := h (a + k - (s.tasks j).stack) (by omega)
  rwa [Nat.add_sub_cancel' (by omega)] at this

/-! ## The frames recorded -/

/-- A frame: its address, and the registers saved there. -/
structure Frame where
  addr : ℕ
  cpu : CPUState

/-- The frame every task was last suspended with. -/
abbrev Frames := ℕ → Frame

/-- The record of the running task, and of the child it forks: the frame of the
    interrupt, with the registers a system call returning at once has written. -/
def Frames.own (f : Frames) (s : TaskManager) (i : Interrupt) (s' : TaskManager) : Frames :=
  let cpu := CPUState.load i.mem i.esp
  match i.call with
  | some .fork =>
    Function.update
      (Function.update f s.current ⟨i.esp, { cpu with ecx := .ofInt s.numTasks }⟩) s.numTasks
      ⟨(s.tasks s.numTasks).stack + (i.esp - (s.tasks s.current).stack), { cpu with ecx := 0 }⟩
  | some .forkpid =>
    Function.update f s.current ⟨i.esp, { cpu with eax := .ofInt (s.tasks s.current).forkPid }⟩
  | some (.execve entrypoint) =>
    let addr := (s.tasks s.current).stack + maxStackSize - CPUState.sizeof
    Function.update f s.current
      ⟨addr, Task.freshCpuState (CPUState.load i.mem addr) entrypoint⟩
  | some (.waitpid _) =>
    Function.update f s.current
      ⟨i.esp, if (s'.tasks s.current).state = .blocked then cpu
        else { cpu with eax := (CPUState.load s'.mem i.esp).eax }⟩
  | some .exit => f
  | _ => Function.update f s.current ⟨i.esp, cpu⟩

/-- The record after an interrupt: a parent that is not blocked any more finds the pid
    of the task that has exited in `eax`. -/
def Frames.next (f : Frames) (s : TaskManager) (i : Interrupt) (s' : TaskManager) : Frames :=
  fun t =>
    if t < s.numTasks ∧ (s.tasks t).state = .blocked ∧ (s'.tasks t).state ≠ .blocked then
      ⟨(f t).addr, { (f t).cpu with eax := .ofInt s.current }⟩
    else f.own s i s' t

/-- The record at the first tick: the frame of the initial `Reset`. -/
def Frames.boot (b : Boot) : Frames := fun _ =>
  ⟨b.raw.base + maxStackSize - CPUState.sizeof,
    Task.freshCpuState
      (CPUState.load b.raw.mem (b.task1.stack + maxStackSize - CPUState.sizeof)) b.init⟩

/-- The local `task1` is out of the task array, and the stack of the init process is
    left alone until the first tick. -/
def Boot.OwnStack (b : Boot) : Prop :=
  (b.task1.stack + maxStackSize ≤ b.raw.base ∨ b.raw.base + maxStackSize ≤ b.task1.stack) ∧
    ∀ k < maxStackSize, b.mem (b.raw.base + k) = b.start.mem (b.raw.base + k)

/-- The monitor recording frames. -/
def frames : Monitor TaskManager Interrupt Frames where
  init s f := ∃ b : Boot, b.Allowed ∧ b.OwnStack ∧ s = b.firstTick.1 ∧ f = Frames.boot b
  next := Frames.next

/-- The task `t` of the state is suspended with the frame recorded. -/
def Suspended (s : TaskManager) (f : Frames) (t : ℕ) : Prop :=
  (s.tasks t).cpustate = (f t).addr ∧ s.OnStack t (f t).addr ∧
    CPUState.load s.mem (f t).addr = (f t).cpu

/-- The handler hands back the frame recorded for the task it resumes, which is on the
    stack of this task. -/
def Resumes (f : Frames) (r : TaskManager × ℕ) : Prop :=
  r.2 = (f r.1.current).addr ∧ r.1.OnStack r.1.current r.2 ∧
    CPUState.load r.1.mem r.2 = (f r.1.current).cpu

/-- The frames of all tasks but the running one are recorded. -/
def Recorded (s : TaskManager) (f : Frames) : Prop :=
  ∀ t < s.numTasks, t ≠ s.current → (s.tasks t).state ≠ .terminated → s.Suspended f t

/-- Dispatching resumes a suspended task, and keeps the others suspended. -/
theorem Dispatches.resumes {f : Frames} (h : Dispatches s r)
    (hf : ∀ t < s.numTasks, (s.tasks t).state ≠ .terminated → s.Suspended f t) :
    Resumes f r ∧ r.1.Recorded f := by
  have hkeep : ∀ k, ((r.1.tasks k).state ≠ .terminated → (s.tasks k).state ≠ .terminated) ∧
      (r.1.tasks k).cpustate = (s.tasks k).cpustate ∧ (r.1.tasks k).stack = (s.tasks k).stack :=
    fun k => by
      rcases h.tasks_eq k with hk | ⟨hst, hk⟩
      · simp [hk]
      · simp [hk, hst]
  have hmem := h.mem_eq
  have hnum := h.numTasks_eq
  obtain ⟨t, ht, hst, -, hcur, -, -, -, hr⟩ := h
  have hsusp : ∀ k < s.numTasks, (s.tasks k).state ≠ .terminated → r.1.Suspended f k := fun k hk hs => by
    obtain ⟨hc, ho, hl⟩ := hf k hk hs
    refine ⟨(hkeep k).2.1.trans hc, ?_, by rw [hmem]; exact hl⟩
    rw [OnStack, (hkeep k).2.2]
    exact ho
  have hcurrent : r.1.current = t := by rw [current, hcur, Int.toNat_natCast]
  refine ⟨?_, fun k hk _ hs => hsusp k (hnum ▸ hk) ((hkeep k).1 hs)⟩
  obtain ⟨hc, ho, hl⟩ := hsusp t ht (by simp [hst])
  rw [Resumes, hcurrent, hr, ← (hkeep t).2.1, hc]
  exact ⟨rfl, ho, hl⟩

/-! ## The steps -/

variable {f f' : Frames} {t : ℕ}

/-- A frame on the stack of a task is out of the stacks of the others. -/
theorem OnStack.not_mem (ha : s.OnStack j a) (h : s.Base) (hjk : j ≠ k) {d : ℕ}
    (hd : d < maxStackSize) :
    (s.tasks k).stack + d < a ∨ a + CPUState.sizeof ≤ (s.tasks k).stack + d := by
  have := h.stack_disjoint hjk
  obtain ⟨hlo, hhi⟩ := ha
  omega

/-- A task stays suspended when its stack is left alone. -/
theorem Suspended.congr {s' : TaskManager} (h : s.Suspended f t)
    (hc : (s'.tasks t).cpustate = (s.tasks t).cpustate)
    (hst : (s'.tasks t).stack = (s.tasks t).stack) (hf : f' t = f t)
    (hm : ∀ k < maxStackSize, s'.mem ((s.tasks t).stack + k) = s.mem ((s.tasks t).stack + k)) :
    s'.Suspended f' t := by
  obtain ⟨haddr, ho, hl⟩ := h
  rw [Suspended, hf, hc, OnStack, hst]
  exact ⟨haddr, ho, (load_eq_of_onStack ho hm).trans hl⟩

/-- Without a wake-up, only the running task (and its new child) change frames. -/
theorem Effect.next_eq (h : Effect s i r) (hs : s.Inv) (hw : ∀ t < s.numTasks, ¬Woken s i r t) :
    f.next s i r.1 = f.own s i r.1 := by
  funext t
  refine if_neg fun ⟨ht, hb, hnb⟩ => ?_
  rcases h.state_of_blocked hs ht hb with hi | hw'
  · exact hnb hi.1
  · exact hw t ht hw'

theorem Effect.next_eq_of_call (h : Effect s i r) (hs : s.Inv) (hcall : i.call ≠ some .exit) :
    f.next s i r.1 = f.own s i r.1 :=
  h.next_eq hs fun _ _ hw => hcall hw.call

section Steps

variable {mem : Memory} {esp : ℕ}

/-- A task that is not running stays suspended until the kernel is entered, and after
    when the kernel leaves its stack alone. -/
theorem Recorded.suspended {s' : TaskManager} (hf : s.Recorded f) (ho : s.OwnStack i)
    (ht : t < s.numTasks) (hne : t ≠ s.current) (hst : (s.tasks t).state ≠ .terminated)
    (htask : s'.tasks t = s.tasks t) (hf' : f' t = f t)
    (hm : ∀ k < maxStackSize, s'.mem ((s.tasks t).stack + k) = i.mem ((s.tasks t).stack + k)) :
    s'.Suspended f' t :=
  (hf t ht hne hst).congr (by rw [htask]) (by rw [htask]) hf' fun k hk =>
    (hm k hk).trans (ho.2 t ht hne k hk)

/-- A timer tick. -/
theorem tick_resumes (hs : s.Inv) (hf : s.Recorded f) (ho : s.OwnStack (.timer mem esp))
    (hd : Dispatches { s with
      mem, tasks := Function.update s.tasks s.current
        { s.tasks s.current with cpustate := esp, state := .ready } } r) :
    Resumes (f.next s (.timer mem esp) r.1) r ∧ r.1.Recorded (f.next s (.timer mem esp) r.1) := by
  rw [(Effect.tick hd).next_eq_of_call hs nofun]
  refine hd.resumes fun t ht hst => ?_
  rcases eq_or_ne t s.current with rfl | hne
  · simp only [Suspended, OnStack, Function.update_self, Frames.own, Interrupt.call]
    exact ⟨rfl, ho.1, rfl⟩
  · have htask := Function.update_of_ne hne { s.tasks s.current with
      cpustate := esp, state := .ready } s.tasks
    dsimp only at hst
    rw [htask] at hst
    exact hf.suspended ho ht hne hst htask (Function.update_of_ne hne _ _) fun _ _ => rfl

/-- A `Waitpid` that blocks. -/
theorem block_resumes {pid : UInt32} {w : ℤ} (hs : s.Inv) (hf : s.Recorded f)
    (ho : s.OwnStack (.syscall mem esp))
    (hcall : Interrupt.call (.syscall mem esp) = some (.waitpid pid))
    (heff : Effect s (.syscall mem esp) r)
    (hd : Dispatches { s with
      mem, tasks := Function.update s.tasks s.current
        { s.tasks s.current with
          cpustate := esp, state := .blocked, waitingChild := true, waitingChildId := w } } r) :
    Resumes (f.next s (.syscall mem esp) r.1) r ∧
      r.1.Recorded (f.next s (.syscall mem esp) r.1) := by
  have hblocked : (r.1.tasks s.current).state = .blocked := by
    rw [hd.tasks_of_ne] <;> simp
  have hown : f.own s (.syscall mem esp) r.1 =
      Function.update f s.current ⟨esp, CPUState.load mem esp⟩ := by
    simp only [Frames.own, hcall, hblocked, if_true]
    rfl
  rw [heff.next_eq_of_call hs (by simp [hcall]), hown]
  refine hd.resumes fun t ht hst => ?_
  rcases eq_or_ne t s.current with rfl | hne
  · simp only [Suspended, OnStack, Function.update_self]
    exact ⟨trivial, ho.1, trivial⟩
  · have htask := Function.update_of_ne hne { s.tasks s.current with
      cpustate := esp, state := .blocked, waitingChild := true, waitingChildId := w } s.tasks
    dsimp only at hst
    rw [htask] at hst
    exact hf.suspended ho ht hne hst htask (Function.update_of_ne hne _ _) fun _ _ => rfl

/-- An exit that wakes up nobody. -/
theorem exit_resumes (hs : s.Inv) (hf : s.Recorded f) (ho : s.OwnStack (.syscall mem esp))
    (hcall : Interrupt.call (.syscall mem esp) = some .exit)
    (hno : ∀ p < s.numTasks, ¬WaitsFor s.procs p s.current)
    (hd : Dispatches { s with
      mem, tasks := Function.update s.tasks s.current
        { s.tasks s.current with state := .terminated } } r) :
    Resumes (f.next s (.syscall mem esp) r.1) r ∧
      r.1.Recorded (f.next s (.syscall mem esp) r.1) := by
  have hown : f.own s (.syscall mem esp) r.1 = f := by simp only [Frames.own, hcall]
  rw [(Effect.exit hcall hno hd).next_eq hs fun t ht hw => hno t ht hw.waits, hown]
  refine hd.resumes fun t ht hst => ?_
  rcases eq_or_ne t s.current with rfl | hne
  · simp at hst
  · have htask := Function.update_of_ne hne { s.tasks s.current with state := .terminated } s.tasks
    dsimp only at hst
    rw [htask] at hst
    exact hf.suspended ho ht hne hst htask rfl fun _ _ => rfl

/-- An exit that wakes up the parent. -/
theorem exitWake_resumes {p : ℕ} (hs : s.Inv) (hf : s.Recorded f)
    (ho : s.OwnStack (.syscall mem esp))
    (hcall : Interrupt.call (.syscall mem esp) = some .exit) (hp : p < s.numTasks)
    (hst : (s.tasks p).state = .blocked) (hw : WaitsFor s.procs p s.current)
    (hd : Dispatches { s with
      mem := CPUState.setEax mem (s.tasks p).cpustate (.ofInt s.current)
      tasks := Function.update (Function.update s.tasks s.current
        { s.tasks s.current with state := .terminated, parentTookInWait := true }) p
        { s.tasks p with waitingChild := false, state := .ready } } r) :
    Resumes (f.next s (.syscall mem esp) r.1) r ∧
      r.1.Recorded (f.next s (.syscall mem esp) r.1) := by
  have heff := Effect.exitWake hcall hp hst hw hd
  have hne : p ≠ s.current := fun he => by
    rw [he, hs.state_current] at hst
    cases hst
  have hawake : (r.1.tasks p).state ≠ .blocked := by
    rcases hd.tasks_eq p with ht | ⟨-, ht⟩ <;> simp [ht]
  -- The parent gets the pid of the child as its result, in `eax` of its frame.
  have hnext_p : f.next s (.syscall mem esp) r.1 p =
      ⟨(f p).addr, { (f p).cpu with eax := .ofInt s.current }⟩ := if_pos ⟨hp, hst, hawake⟩
  -- No other task is woken up, so that no other frame changes.
  have hnext : ∀ t < s.numTasks, t ≠ p → f.next s (.syscall mem esp) r.1 t = f t := fun t ht htp => by
    refine (if_neg ?_).trans (by simp only [Frames.own, hcall])
    rintro ⟨-, hb, hnb⟩
    rcases heff.state_of_blocked hs ht hb with hi | hw'
    · exact hnb hi.1
    · exact htp (Int.ofNat_inj.1 (hw'.waits.1.symm.trans hw.1))
  obtain ⟨haddr, hon, hload⟩ := hf p hp hne (by simp [hst])
  have hstack : ∀ k < maxStackSize, mem ((s.tasks p).stack + k) = s.mem ((s.tasks p).stack + k) :=
    ho.2 p hp hne
  refine hd.resumes fun t ht hst' => ?_
  rcases eq_or_ne t p with rfl | htp
  · rw [Suspended, hnext_p]
    simp only [OnStack, Function.update_self]
    refine ⟨haddr, hon, ?_⟩
    rw [haddr, CPUState.load_setEax, load_eq_of_onStack hon hstack, hload]
  · rcases eq_or_ne t s.current with rfl | htc
    · simp [Function.update_of_ne htp] at hst'
    · have htask : Function.update (Function.update s.tasks s.current
          { s.tasks s.current with state := .terminated, parentTookInWait := true }) p
          { s.tasks p with waitingChild := false, state := .ready } t = s.tasks t :=
        (Function.update_of_ne htp _ _).trans (Function.update_of_ne htc _ _)
      dsimp only at hst'
      rw [htask] at hst'
      refine hf.suspended ho ht htc hst' htask (hnext t ht htp) fun k hk => ?_
      rw [haddr]
      exact CPUState.setEax_of_not_mem (hon.not_mem hs.toBase htp.symm hk)

/-- A system call that returns at once, with the frame at `addr`, having written the
    stack of the running task only. -/
theorem return_resumes (s' : TaskManager) {addr : ℕ} (hf : s.Recorded f) (ho : s.OwnStack i)
    (haddr : s.OnStack s.current addr) (hcur : s'.currentTask = s.currentTask)
    (hnum : s'.numTasks = s.numTasks)
    (hstack : (s'.tasks s.current).stack = (s.tasks s.current).stack)
    (htasks : ∀ t < s.numTasks, t ≠ s.current → (s'.tasks t).state ≠ .terminated →
      s'.tasks t = s.tasks t)
    (hmem : ∀ t < s.numTasks, t ≠ s.current →
      ∀ k < maxStackSize, s'.mem ((s.tasks t).stack + k) = i.mem ((s.tasks t).stack + k)) :
    Resumes (Function.update f s.current ⟨addr, CPUState.load s'.mem addr⟩) (s', addr) ∧
      s'.Recorded (Function.update f s.current ⟨addr, CPUState.load s'.mem addr⟩) := by
  have hcurrent : s'.current = s.current := congrArg Int.toNat hcur
  refine ⟨?_, fun t ht hne hst => ?_⟩
  · simp only [Resumes, hcurrent, OnStack, Function.update_self, hstack]
    exact ⟨trivial, haddr, trivial⟩
  · rw [hnum] at ht
    rw [hcurrent] at hne
    have htask := htasks t ht hne hst
    rw [htask] at hst
    exact hf.suspended ho ht hne hst htask (Function.update_of_ne hne _ _) (hmem t ht hne)

/-- A `Waitpid` that returns at once. -/
theorem waitpid_resumes {s' : TaskManager} {pid v : UInt32} (hf : s.Recorded f)
    (ho : s.OwnStack (.syscall mem esp)) (hs : s.Inv)
    (hcall : Interrupt.call (.syscall mem esp) = some (.waitpid pid))
    (hst : (s'.tasks s.current).state ≠ .blocked)
    (hstack : (s'.tasks s.current).stack = (s.tasks s.current).stack)
    (hmem : s'.mem = CPUState.setEax mem esp v) (hcur : s'.currentTask = s.currentTask)
    (hnum : s'.numTasks = s.numTasks)
    (htasks : ∀ t < s.numTasks, t ≠ s.current → (s'.tasks t).state ≠ .terminated →
      s'.tasks t = s.tasks t) :
    Resumes (f.own s (.syscall mem esp) s') (s', esp) ∧
      s'.Recorded (f.own s (.syscall mem esp) s') := by
  have hon : s.OnStack s.current esp := ho.1
  have hown : f.own s (.syscall mem esp) s' =
      Function.update f s.current ⟨esp, CPUState.load s'.mem esp⟩ := by
    simp only [Frames.own, hcall, hst, if_false]
    dsimp only [Interrupt.mem, Interrupt.esp]
    rw [hmem, CPUState.load_setEax]
  rw [hown]
  refine return_resumes s' hf ho hon hcur hnum hstack htasks fun t ht hne k hk => ?_
  rw [hmem]
  exact CPUState.setEax_of_not_mem (hon.not_mem hs.toBase hne.symm hk)

/-- The frame of the child is at the same place of its stack. -/
theorem OnStack.forkChild (hon : s.OnStack s.current esp) :
    s.OnStack s.numTasks (s.forkChild esp).cpustate := by
  obtain ⟨hlo, hhi⟩ := hon
  constructor <;> simp only [TaskManager.forkChild] <;> omega

/-- What `Fork` does to the two frames, when that of the parent is on its stack. -/
theorem forkMem_frames (mem : Memory) (hon : s.OnStack s.current esp)
    (hdisj : (s.tasks s.current).stack + maxStackSize ≤ (s.tasks s.numTasks).stack ∨
      (s.tasks s.numTasks).stack + maxStackSize ≤ (s.tasks s.current).stack) :
    CPUState.load (s.forkMem mem esp) esp = { CPUState.load mem esp with ecx := .ofInt s.numTasks } ∧
      CPUState.load (s.forkMem mem esp) (s.forkChild esp).cpustate =
        { CPUState.load mem esp with ecx := 0 } := by
  have hon' := hon.forkChild
  have hcopy := Memory.copyLoop_eq_move (m := mem) hdisj.symm
  rw [forkMem]
  dsimp only
  rw [hcopy]
  generalize (s.forkChild esp).cpustate = addr at *
  obtain ⟨hlo, hhi⟩ := hon
  obtain ⟨hlo', hhi'⟩ := hon'
  -- The two copies, of which the first only touches the stack of the child.
  have hmove : ∀ x, x < (s.tasks s.numTasks).stack ∨ (s.tasks s.numTasks).stack + maxStackSize ≤ x →
      mem.move (s.tasks s.numTasks).stack (s.tasks s.current).stack maxStackSize x = mem x :=
    fun x hx => Memory.store_of_not_mem hx
  generalize mem.move (s.tasks s.numTasks).stack (s.tasks s.current).stack maxStackSize = m₁ at *
  have hmove' : ∀ x, x < addr ∨ addr + CPUState.sizeof ≤ x → m₁.move addr esp CPUState.sizeof x = m₁ x :=
    fun x hx => Memory.store_of_not_mem hx
  have hframe : CPUState.load (m₁.move addr esp CPUState.sizeof) addr = CPUState.load mem esp :=
    CPUState.load_congr fun k hk => (Memory.store_add hk).trans (hmove _ (by omega))
  have hframe' : CPUState.load (m₁.move addr esp CPUState.sizeof) esp = CPUState.load mem esp :=
    CPUState.load_congr fun k hk => (hmove' _ (by omega)).trans (hmove _ (by omega))
  constructor
  · rw [CPUState.load_setEcx_of_disjoint (by omega), CPUState.load_setEcx, hframe']
  · rw [CPUState.load_setEcx, CPUState.load_setEcx_of_disjoint (by omega), hframe]

/-- What `Fork` does to the memory, when the frame `esp` is on the stack of the parent. -/
theorem forkMem_spec (hs : s.Inv) (mem : Memory) (hon : s.OnStack s.current esp) :
    CPUState.load (s.forkMem mem esp) esp = { CPUState.load mem esp with ecx := .ofInt s.numTasks } ∧
      CPUState.load (s.forkMem mem esp) (s.forkChild esp).cpustate =
        { CPUState.load mem esp with ecx := 0 } ∧
      ∀ t < s.numTasks, t ≠ s.current → ∀ k < maxStackSize,
        s.forkMem mem esp ((s.tasks t).stack + k) = mem ((s.tasks t).stack + k) := by
  have hdisj := hs.stack_disjoint hs.current_lt.ne
  obtain ⟨hparent, hchild⟩ := forkMem_frames mem hon hdisj
  refine ⟨hparent, hchild, fun t ht htc k hk => ?_⟩
  have hcur := hs.stack_disjoint htc
  have hnew := hs.stack_disjoint ht.ne
  obtain ⟨hlo, hhi⟩ := hon
  obtain ⟨hlo', hhi'⟩ := OnStack.forkChild (s := s) ⟨hlo, hhi⟩
  rw [forkMem]
  rw [CPUState.setEcx_of_not_mem (by omega), CPUState.setEcx_of_not_mem (by omega),
    Memory.copyLoop_eq_move hdisj.symm]
  exact (Memory.store_of_not_mem (by omega)).trans (Memory.store_of_not_mem (by omega))

/-- `Fork`. -/
theorem fork_resumes {s' : TaskManager} (hs : s.Inv) (hf : s.Recorded f)
    (ho : s.OwnStack (.syscall mem esp))
    (hcall : Interrupt.call (.syscall mem esp) = some .fork)
    (htasks : s'.tasks = Function.update (Function.update s.tasks s.current
        { s.tasks s.current with cpustate := esp, forkPid := s.numTasks })
        s.numTasks (s.forkChild esp))
    (hmem : s'.mem = s.forkMem mem esp) (hnum : s'.numTasks = s.numTasks + 1)
    (hcur : s'.currentTask = s.currentTask) :
    Resumes (f.own s (.syscall mem esp) s') (s', esp) ∧
      s'.Recorded (f.own s (.syscall mem esp) s') := by
  have hne : s.current ≠ s.numTasks := hs.current_lt.ne
  have hcurrent : s'.current = s.current := congrArg Int.toNat hcur
  have hon : s.OnStack s.current esp := ho.1
  -- Two frames are recorded: that of the parent, and its copy for the child.
  have hown : f.own s (.syscall mem esp) s' = Function.update
      (Function.update f s.current ⟨esp, { CPUState.load mem esp with ecx := .ofInt s.numTasks }⟩)
      s.numTasks ⟨(s.tasks s.numTasks).stack + (esp - (s.tasks s.current).stack),
        { CPUState.load mem esp with ecx := 0 }⟩ := by
    simp only [Frames.own, hcall]
    rfl
  have haddr : (s.forkChild esp).cpustate =
      (s.tasks s.numTasks).stack + (esp - (s.tasks s.current).stack) := by
    have := hon.1
    simp only [forkChild]
    omega
  obtain ⟨hparent, hchild, hothers⟩ := forkMem_spec hs mem hon
  rw [← hmem] at hparent hchild hothers
  rw [hown, ← haddr]
  refine ⟨?_, fun t ht htc hst => ?_⟩
  · simp only [Resumes, hcurrent, OnStack, htasks, Function.update_of_ne hne, Function.update_self]
    exact ⟨trivial, hon, hparent⟩
  -- Of the suspended tasks, only the child is new.
  · rw [hcurrent] at htc
    rcases eq_or_ne t s.numTasks with rfl | htn
    · simp only [Suspended, OnStack, htasks, Function.update_self]
      refine ⟨trivial, ?_, hchild⟩
      obtain ⟨hlo, hhi⟩ := hon
      rw [haddr]
      simp only [forkChild]
      constructor <;> omega
    · have htask : s'.tasks t = s.tasks t := by
        rw [htasks, Function.update_of_ne htn, Function.update_of_ne htc]
      rw [htask] at hst
      have htl : t < s.numTasks := by omega
      exact hf.suspended ho htl htc hst htask
        ((Function.update_of_ne htn _ _).trans (Function.update_of_ne htc _ _)) (hothers t htl htc)

end Steps

/-- **One interrupt**: if it arrives on the stack of the running task, the handler hands
    back the frame recorded for the task it resumes. -/
theorem Inv.resumes (hs : s.Inv) (hf : s.Recorded f) (hi : s.Allowed i) (ho : s.OwnStack i) :
    Resumes (f.next s i (s.handle i).1) (s.handle i) ∧
      (s.handle i).1.Recorded (f.next s i (s.handle i).1) := by
  have hc := hs.current_lt
  have heff := (hs.handle hi).1
  generalize s.handle i = r at heff
  -- A result is stored in the frame of the running task, apart from the other stacks.
  have hset : ∀ (mem : Memory) (v : UInt32), s.OnStack s.current i.esp →
      ∀ t < s.numTasks, t ≠ s.current → ∀ k < maxStackSize,
        CPUState.setEax mem i.esp v ((s.tasks t).stack + k) = mem ((s.tasks t).stack + k) :=
    fun mem v hon t _ hne k hk => CPUState.setEax_of_not_mem (hon.not_mem hs.toBase hne.symm hk)
  cases heff with
  | tick hd => exact tick_resumes hs hf ho hd
  | @skip mem esp hcall =>
    have hown : f.own s (.syscall mem esp) { s with mem } =
        Function.update f s.current ⟨esp, CPUState.load mem esp⟩ := by
      rcases hcall with ⟨str, hcall⟩ | hcall <;> simp only [Frames.own, hcall] <;> rfl
    rw [(Effect.skip hcall).next_eq_of_call hs (by rcases hcall with ⟨_, hcall⟩ | hcall <;> simp [hcall]),
      hown]
    exact return_resumes { s with mem } hf ho ho.1 rfl rfl rfl (fun _ _ _ _ => rfl)
      fun _ _ _ _ _ => rfl
  | @forkpid mem esp hcall =>
    have hown := (CPUState.load_setEax (m := mem) (a := esp) (.ofInt (s.tasks s.current).forkPid))
    rw [(Effect.forkpid hcall).next_eq_of_call hs (by simp [hcall])]
    simp only [Frames.own, hcall]
    dsimp only [Interrupt.mem, Interrupt.esp]
    rw [← hown]
    exact return_resumes { s with
      mem := CPUState.setEax mem esp (.ofInt (s.tasks s.current).forkPid) } hf ho ho.1 rfl rfl rfl
      (fun _ _ _ _ => rfl) (hset mem _ ho.1)
  | fork hcall hroom htasks hmem hnum hcur hbase =>
    rw [(Effect.fork hcall hroom htasks hmem hnum hcur hbase).next_eq_of_call hs (by simp [hcall])]
    exact fork_resumes hs hf ho hcall htasks hmem hnum hcur
  | @execve mem esp entrypoint hcall =>
    have haddr : s.OnStack s.current ((s.tasks s.current).reset mem entrypoint).1.cpustate :=
      ⟨by simp only [Task.reset, maxStackSize, CPUState.sizeof]; omega,
        by simp only [Task.reset, maxStackSize, CPUState.sizeof]; omega⟩
    have hown : f.own s (.syscall mem esp)
        { s with
          mem := ((s.tasks s.current).reset mem entrypoint).2
          tasks := Function.update s.tasks s.current
            ((s.tasks s.current).reset mem entrypoint).1 } =
        Function.update f s.current ⟨((s.tasks s.current).reset mem entrypoint).1.cpustate,
          CPUState.load ((s.tasks s.current).reset mem entrypoint).2
            ((s.tasks s.current).reset mem entrypoint).1.cpustate⟩ := by
      rw [Task.load_reset, Task.reset_cpustate]
      simp only [Frames.own, hcall]
      rfl
    rw [(Effect.execve hcall).next_eq_of_call hs (by simp [hcall]), hown]
    have hmem : ∀ t < s.numTasks, t ≠ s.current → ∀ k < maxStackSize,
        ((s.tasks s.current).reset mem entrypoint).2 ((s.tasks t).stack + k) =
          mem ((s.tasks t).stack + k) := fun t _ hne k hk =>
      Task.reset_of_not_mem (haddr.not_mem hs.toBase hne.symm hk)
    have hstack : ((s.tasks s.current).reset mem entrypoint).1.stack = (s.tasks s.current).stack := rfl
    generalize ((s.tasks s.current).reset mem entrypoint).1 = task at *
    generalize ((s.tasks s.current).reset mem entrypoint).2 = mem' at *
    refine return_resumes { s with
      mem := mem', tasks := Function.update s.tasks s.current task } hf ho haddr rfl rfl ?_
      (fun t ht hne _ => Function.update_of_ne hne _ _) hmem
    dsimp only
    rw [Function.update_self, hstack]
  | @reap mem esp c pid hcall hk hask hpp hst htook =>
    have hne : s.current ≠ c := fun he => by
      rw [← he, hs.state_current] at hst
      cases hst
    rw [(Effect.reap hcall hk hask hpp hst htook).next_eq_of_call hs (by simp [hcall])]
    refine waitpid_resumes hf ho hs hcall ?_ ?_ rfl rfl rfl fun t ht htc hterm => ?_
    · simp [Function.update_of_ne hne, hs.state_current]
    · simp [Function.update_of_ne hne]
    · have htk : t ≠ c := fun he => by simp [he, hst] at hterm
      exact (Function.update_of_ne htk _ _).trans (Function.update_of_ne htc _ _)
  | @refuse mem esp pid hcall hno =>
    rw [(Effect.refuse hcall hno).next_eq_of_call hs (by simp [hcall])]
    refine waitpid_resumes hf ho hs hcall ?_ ?_ rfl rfl rfl fun t ht htc hterm => ?_
    · simp [hs.state_current]
    · simp
    · exact Function.update_of_ne htc _ _
  | block hcall hlive hdead hd =>
    exact block_resumes hs hf ho hcall (.block hcall hlive hdead hd) hd
  | exit hcall hno hd => exact exit_resumes hs hf ho hcall hno hd
  | exitWake hcall hp hst hw hd => exact exitWake_resumes hs hf ho hcall hp hst hw hd

/-! ## Runs -/

/-- The first tick resumes the init process with the frame of the initial `Reset`. -/
theorem Boot.resumes {b : Boot} (h : b.Allowed) (ho : b.OwnStack) :
    Resumes (Frames.boot b) b.firstTick ∧ b.firstTick.1.Recorded (Frames.boot b) := by
  obtain ⟨hinv, hnum, -, hmem, hbase, hcpu⟩ := b.start_spec h
  obtain ⟨hdisj, hown⟩ := ho
  have hstack : (b.start.tasks 0).stack = b.raw.base := by
    rw [hinv.stack_eq, hbase, Nat.zero_mul, Nat.add_zero]
  have haddr : (b.start.tasks 0).cpustate = b.raw.base + maxStackSize - CPUState.sizeof := by
    rw [hcpu]
    simp only [initTask, Task.copy, Task.construct, resetTask1, Task.reset, CPUState.sizeof,
      maxStackSize]
    omega
  have hon : b.start.OnStack 0 (b.raw.base + maxStackSize - CPUState.sizeof) := by
    rw [OnStack, hstack]
    simp only [CPUState.sizeof, maxStackSize]
    omega
  -- The frame of `Reset` is copied from `task1` into the table, and is there at the first tick.
  have hload : CPUState.load b.mem (b.raw.base + maxStackSize - CPUState.sizeof) =
      Task.freshCpuState
        (CPUState.load b.raw.mem (b.task1.stack + maxStackSize - CPUState.sizeof)) b.init := by
    have hreset := Task.load_reset b.task1.construct b.raw.mem b.init
    have hcopy : b.start.mem = b.resetTask1.2.move b.raw.base b.task1.stack maxStackSize := by
      rw [hmem, ← Memory.copyLoop_eq_move hdisj.symm]
      simp only [initTask, Task.copy, Task.construct, Nat.zero_mul, Nat.add_zero]
      rfl
    have hkeep : CPUState.load b.mem (b.raw.base + maxStackSize - CPUState.sizeof) =
        CPUState.load b.start.mem (b.raw.base + maxStackSize - CPUState.sizeof) :=
      load_eq_of_onStack hon fun k hk => by
        rw [hstack]
        exact hown k hk
    rw [hkeep, hcopy]
    refine Eq.trans (CPUState.load_congr fun k hk => ?_) hreset
    have hoff : CPUState.sizeof ≤ maxStackSize := by decide
    rw [Task.reset_cpustate,
      show b.raw.base + maxStackSize - CPUState.sizeof + k =
        b.raw.base + (maxStackSize - CPUState.sizeof + k) by omega,
      show b.task1.construct.stack + maxStackSize - CPUState.sizeof + k =
        b.task1.stack + (maxStackSize - CPUState.sizeof + k) by
          simp only [Task.construct]
          omega]
    exact Memory.store_add (by omega)
  refine (firstTick_spec h).1.resumes fun t ht _ => ?_
  -- The init process is the only task.
  obtain rfl : t = 0 := by
    have : t < b.start.numTasks := ht
    omega
  exact ⟨haddr, hon, hload⟩

/-- **Context switches are correct.** In every run in which interrupts arrive on the
    stack of the running task, and no task writes the stack of another, the handler
    always hands back the frame recorded for the task it resumes, on the stack of
    this task. -/
theorem resumes_suspended :
    (∀ b : Boot, b.Allowed → b.OwnStack → Resumes (Frames.boot b) b.firstTick) ∧
      ∀ p : TaskManager × Frames, ((system.restrict OwnStack).monitored frames).Reachable p →
        ∀ i, p.1.Allowed i → p.1.OwnStack i →
          Resumes (p.2.next p.1 i (p.1.handle i).1) (p.1.handle i) := by
  refine ⟨fun b hb ho => (b.resumes hb ho).1, fun p hp i hi ho => ?_⟩
  have hinv : ∀ q, ((system.restrict OwnStack).monitored frames).Reachable q → q.1.Inv := fun q hq =>
    inv_of_reachable hq.of_monitored.of_restrict
  have hrec : p.1.Recorded p.2 := by
    refine hp.invariant (P := fun p => p.1.Recorded p.2) (fun q h0 => ?_) fun q j q' hq hrec hj => ?_
    · obtain ⟨-, b, hb, ho, hs, hf⟩ := h0
      rw [hs, hf]
      exact (b.resumes hb ho).2
    · obtain ⟨⟨ho, hi, hs⟩, hf⟩ := hj
      rw [hf, ← hs]
      exact ((hinv q hq).resumes hrec hi ho).2
  exact ((hinv p hp).resumes hrec hi ho).1

theorem sampleBoot_ownStack : sampleBoot.OwnStack := ⟨.inl (by decide), fun _ _ => rfl⟩

theorem sampleCall_ownStack (eax ebx : UInt32) : sampleState.OwnStack (sampleCall eax ebx) := by
  have hon : sampleState.OnStack sampleState.current 12000 := by
    rw [OnStack]
    decide +kernel
  refine ⟨hon, fun j hj hne => ?_⟩
  have hnum : sampleState.numTasks = 1 := by decide +kernel
  have hcur : sampleState.current = 0 := by decide +kernel
  omega

/-- The first tick and the first `Fork`, for one. -/
theorem resumes_init_and_fork :
    Resumes (Frames.boot sampleBoot) sampleBoot.firstTick ∧
      Resumes ((Frames.boot sampleBoot).next sampleState (sampleCall 57 0)
        (sampleState.handle (sampleCall 57 0)).1) (sampleState.handle (sampleCall 57 0)) :=
  ⟨resumes_suspended.1 sampleBoot sampleBoot_allowed sampleBoot_ownStack,
    resumes_suspended.2 (sampleState, Frames.boot sampleBoot)
      (.init ⟨⟨sampleBoot, sampleBoot_allowed, rfl⟩,
        ⟨sampleBoot, sampleBoot_allowed, sampleBoot_ownStack, rfl, rfl⟩⟩)
      (sampleCall 57 0) sampleCall_fork_allowed (sampleCall_ownStack 57 0)⟩

end GtuOs.TaskManager

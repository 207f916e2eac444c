import GtuOs.Multitasking.Reaping

/-!
# The waiting protocol, over runs

The result a task is owed stays in the `eax` of its frame until it resumes
(`Owed`), as the tasks leave the stacks of the others alone. With the log of
deliveries, this makes `waitpid_protocol`.
-/

namespace GtuOs.TaskManager

variable {s : TaskManager} {i : Interrupt} {r : TaskManager × ℕ} {t : ℕ} {w : WaitLog} {f : Frames}

/-- The frame handed back by a scheduling decision is that of the task dispatched. -/
theorem Dispatches.handed_back (h : Dispatches s r) :
    r.2 = (r.1.tasks r.1.current).cpustate := by
  obtain ⟨t, -, -, htasks, hcur, -, -, -, hr⟩ := h
  have hcurrent : r.1.current = t := by rw [current, hcur, Int.toNat_natCast]
  rw [hcurrent, htasks, Function.update_self, hr]

/-- `Waitpid` and `Exit` hand back the frame saved for the task resumed. -/
theorem Effect.handed_back (h : Effect s i r) (hs : s.Inv)
    (hcall : (∃ pid, i.call = some (.waitpid pid)) ∨ i.call = some .exit) :
    r.2 = (r.1.tasks r.1.current).cpustate := by
  have hno : ∀ c, i.call = some c → (∃ pid, c = .waitpid pid) ∨ c = .exit := fun c hc => by
    rcases hcall with ⟨pid, h⟩ | h <;> rw [h, Option.some_inj] at hc
    · exact .inl ⟨pid, hc.symm⟩
    · exact .inr hc.symm
  cases h with
  | tick => rcases hcall with ⟨_, h⟩ | h <;> cases h
  | skip h => rcases h with ⟨_, h⟩ | h <;> rcases hno _ h with ⟨_, h⟩ | h <;> cases h
  | forkpid h => rcases hno _ h with ⟨_, h⟩ | h <;> cases h
  | fork h => rcases hno _ h with ⟨_, h⟩ | h <;> cases h
  | execve h => rcases hno _ h with ⟨_, h⟩ | h <;> cases h
  | @reap _ esp c _ _ _ _ _ hterm =>
    have hne : s.current ≠ c := fun he => by
      rw [← he, hs.state_current] at hterm
      cases hterm
    show esp = (Function.update (Function.update s.tasks s.current _) c _ s.current).cpustate
    rw [Function.update_of_ne hne, Function.update_self]
  | @refuse _ esp =>
    show esp = (Function.update s.tasks s.current _ s.current).cpustate
    rw [Function.update_self]
  | block _ _ _ h => exact h.handed_back
  | exit _ _ h => exact h.handed_back
  | exitWake _ _ _ _ h => exact h.handed_back

/-- The results owed are in the frames of ready tasks. -/
def Owed (s : TaskManager) (w : WaitLog) (f : Frames) : Prop :=
  ∀ t v, w.owed t = some v →
    t < s.numTasks ∧ (s.tasks t).state = .ready ∧ (f t).cpu.eax = v

/-- A result owed before an interrupt is in the frame after it too. -/
theorem Owed.next (h : Owed s w f) (hs : s.Inv) {s' : TaskManager} {v : UInt32}
    (hv : w.owed t = some v) : (f.next s i s' t).cpu.eax = v := by
  obtain ⟨ht, hst, hv⟩ := h t v hv
  have hne : t ≠ s.current := fun he => by
    rw [he, hs.state_current] at hst
    cases hst
  have hown : f.own s i s' t = f t := by
    rw [Frames.own]
    rcases i.call with _ | c
    · exact Function.update_of_ne hne _ _
    · cases c
      case fork => exact (Function.update_of_ne ht.ne _ _).trans (Function.update_of_ne hne _ _)
      case exit => rfl
      all_goals exact Function.update_of_ne hne _ _
  rw [Frames.next, if_neg (by rw [hst]; simp), hown, hv]

/-- A `Waitpid` blocks the running task or lets it run. -/
theorem Effect.state_of_waitpid (h : Effect s i r) (hs : s.Inv) {pid : UInt32}
    (hcall : i.call = some (.waitpid pid)) : (r.1.tasks s.current).state ≠ .terminated := by
  have hrun := hs.state_current
  cases h with
  | tick => cases hcall
  | skip | forkpid =>
    dsimp only
    rw [hrun]
    decide
  | fork h | execve h | exit h | exitWake h =>
    rw [hcall] at h
    cases h
  | @reap _ _ c _ _ _ _ _ hterm _ =>
    have hne : s.current ≠ c := fun he => by
      rw [← he, hrun] at hterm
      cases hterm
    simp [Function.update_of_ne hne, hrun]
  | refuse => simp [hrun]
  | block _ _ _ hd =>
    rw [hd.tasks_of_ne] <;> simp

/-- The results of an interrupt are in the saved frames of their callers, which are not
    blocked nor terminated. -/
theorem WaitInv.result_spec (h : WaitInv s w) (hs : s.Inv) (heff : Effect s i r) {d : Delivery}
    (hr : w.result s i r.1 t = some d) :
    d.result = (CPUState.load r.1.mem (r.1.tasks t).cpustate).eax ∧ t < s.numTasks ∧
      (r.1.tasks t).state ≠ .blocked ∧ (r.1.tasks t).state ≠ .terminated ∧
      ((∃ pid, i.call = some (.waitpid pid)) ∨ i.call = some .exit) := by
  have hcases := h.result_cases hs heff hr
  have hres : d.result = (CPUState.load r.1.mem (r.1.tasks t).cpustate).eax ∧
      (r.1.tasks t).state ≠ .blocked := by
    rw [WaitLog.result] at hr
    cases ha : w.asks s i t with
    | none => simp [ha] at hr
    | some arg =>
      rw [ha] at hr
      by_cases hb : (r.1.tasks t).state = .blocked
      · simp [hb] at hr
      · simp only [hb, if_false, Option.some_inj] at hr
        exact ⟨hr ▸ rfl, hb⟩
  rcases hcases with ⟨rfl, pid, hcall⟩ | hw
  · exact ⟨hres.1, hs.current_lt, hres.2, heff.state_of_waitpid hs hcall, .inl ⟨pid, hcall⟩⟩
  · refine ⟨hres.1, ?_, hw.state.1, hw.state.2, .inr hw.call⟩
    have hlt := hs.table.ppid_lt _ hs.current_lt
    have hpp := hw.waits.1
    have hcur := hs.current_lt
    omega

/-- **One interrupt**, on the stack of the running task: the task resumed finds the
    result it is owed in `eax`. -/
theorem Owed.handle (h : Owed s w f) (hw : WaitInv s w) (hs : s.Inv) (hs' : r.1.Inv)
    (heff : Effect s i r) (hres : Resumes (f.next s i r.1) r)
    (hrec : r.1.Recorded (f.next s i r.1)) :
    (∀ v, w.owes s i r.1 r.1.current = some v → (CPUState.load r.1.mem r.2).eax = v) ∧
      Owed r.1 (w.next s i r.1) (f.next s i r.1) := by
  obtain ⟨haddr, -, hload⟩ := hres
  -- What is owed is owed from before, or delivered just now.
  refine ⟨fun v hv => ?_, fun t v hv => ?_⟩
  · rw [WaitLog.owes] at hv
    cases hr : w.result s i r.1 r.1.current with
    | none =>
      rw [hr] at hv
      rw [hload]
      exact h.next hs hv
    | some d =>
      rw [hr, Option.some_inj] at hv
      obtain ⟨hd, -, -, -, hcall⟩ := hw.result_spec hs heff hr
      rw [heff.handed_back hs hcall, ← hd, hv]
  · have hne : t ≠ r.1.current := fun he => by
      simp [WaitLog.next, he] at hv
    have hv' : w.owes s i r.1 t = some v := by
      simpa [WaitLog.next, Function.update_of_ne hne] using hv
    rw [WaitLog.owes] at hv'
    cases hr : w.result s i r.1 t with
    | none =>
      rw [hr] at hv'
      obtain ⟨ht, hst, -⟩ := h t v hv'
      have ht' := lt_of_lt_of_le ht heff.numTasks_le
      refine ⟨ht', (heff.state_of_ready hs ht hst).resolve_right fun hrun => ?_, h.next hs hv'⟩
      exact hne (Option.some_inj.1 ((hs'.table.running_iff t ht').1 hrun)).symm
    | some d =>
      rw [hr, Option.some_inj] at hv'
      obtain ⟨hd, ht, hnb, hnt, -⟩ := hw.result_spec hs heff hr
      have ht' := lt_of_lt_of_le ht heff.numTasks_le
      obtain ⟨hc, -, hl⟩ := hrec t ht' hne hnt
      refine ⟨ht', ?_, ?_⟩
      · cases hst : (r.1.tasks t).state with
        | ready => rfl
        | running => exact absurd (Option.some_inj.1 ((hs'.table.running_iff t ht').1 hst)).symm hne
        | blocked => exact absurd hst hnb
        | terminated => exact absurd hst hnt
      · rw [← hv', hd, hc, hl]

/-! ## Runs -/

/-- The waiting protocol in the state `s`, `w` being the calls so far. -/
structure Protocol (s : TaskManager) (w : WaitLog) : Prop where
  /-- No pid is delivered twice. -/
  once : ((w.log.filter (·.result ≠ -1)).map (·.result)).Nodup
  /-- A pid delivered is that of a terminated child of the caller. -/
  parent : ∀ d ∈ w.log, d.result ≠ -1 → ∃ k < s.numTasks, d.result = .ofInt k ∧
    (s.tasks k).state = .terminated ∧ (s.tasks k).ppid = d.caller
  /-- `-1` is delivered exactly when the caller has no child it asks for that is not
      reaped. -/
  refused : ∀ i, s.Allowed i → ∀ c pid, ⟨c, pid, -1⟩ ∈ w.delivered s i (s.handle i).1 ↔
    i.call = some (.waitpid pid) ∧ c = s.current ∧
      ∀ k < s.numTasks, Asks pid k → (s.tasks k).ppid = c → w.Reaped k
  /-- A blocked caller is made ready by the exit of a child it has asked for, whose pid
      is then in the `eax` of its frame. -/
  woken : ∀ i, s.Allowed i → ∀ t < s.numTasks, (s.tasks t).state = .blocked →
    ((s.handle i).1.tasks t).state ≠ .blocked →
      i.call = some .exit ∧ (s.tasks s.current).ppid = t ∧
      (∃ pid, w.asked t = some pid ∧ Asks pid s.current) ∧
      (CPUState.load (s.handle i).1.mem ((s.handle i).1.tasks t).cpustate).eax = .ofInt s.current

theorem WaitInv.protocol (h : WaitInv s w) (hs : s.Inv) : Protocol s w := by
  refine ⟨h.nodup, h.sound, fun i hi c pid => ?_, fun i hi t ht hst hst' => ?_⟩
  · obtain ⟨heff, hs'⟩ := hs.handle hi
    exact h.refused_iff hs hs' heff c pid
  · obtain ⟨heff, -⟩ := hs.handle hi
    rcases heff.state_of_blocked hs ht hst with hb | hw
    · exact absurd hb.1 hst'
    · refine ⟨hw.call, hw.waits.1, h.asked_of_waitsFor ht hst hw.waits, ?_⟩
      rw [hw.cpustate, hw.mem, CPUState.load_setEax]

/-- The results owed are in frames, in the runs in which interrupts arrive on the stack
    of the running task. -/
theorem owed_of_reachable {p : TaskManager × WaitLog}
    (h : ((system.restrict OwnStack).monitored waits).Reachable p) :
    ∃ f, p.1.Recorded f ∧ Owed p.1 p.2 f := by
  refine h.invariant (P := fun p => ∃ f, p.1.Recorded f ∧ Owed p.1 p.2 f) (fun p h0 => ?_)
    fun p i p' hp hf hi => ?_
  · obtain ⟨⟨b, hb, hs⟩, hw⟩ := h0
    refine ⟨Frames.boot b, fun t ht hne => ?_, fun t v hv => ?_⟩
    · rw [← hs] at ht hne
      exact absurd (b.firstTick_single hb ht) hne
    · rw [hw] at hv
      cases hv
  · obtain ⟨f, hrec, howed⟩ := hf
    obtain ⟨⟨ho, hallow, hs⟩, hw⟩ := hi
    have hinv := inv_of_reachable hp.of_monitored.of_restrict
    obtain ⟨heff, hinv'⟩ := hinv.handle hallow
    obtain ⟨hres, hrec'⟩ := hinv.resumes hrec hallow ho
    have hwait := waitInv_of_reachable hp.of_restrict_monitored
    rw [hw, ← hs]
    exact ⟨_, hrec', (howed.handle hwait hinv hinv' heff hres hrec').2⟩

/-- **Exactly-once reaping.** In every run the protocol holds; and when interrupts arrive
    on the stack of the running task, and no task writes the stack of another, a task
    that resumes finds the result it is owed in the `eax` of its frame. -/
theorem waitpid_protocol :
    (∀ p : TaskManager × WaitLog, (system.monitored waits).Reachable p → Protocol p.1 p.2) ∧
      ∀ p : TaskManager × WaitLog, ((system.restrict OwnStack).monitored waits).Reachable p →
        ∀ i, p.1.Allowed i → p.1.OwnStack i →
          ∀ v, p.2.owes p.1 i (p.1.handle i).1 (p.1.handle i).1.current = some v →
            (CPUState.load (p.1.handle i).1.mem (p.1.handle i).2).eax = v := by
  refine ⟨fun p hp => (waitInv_of_reachable hp).protocol (inv_of_reachable hp.of_monitored),
    fun p hp i hi ho => ?_⟩
  obtain ⟨f, hrec, howed⟩ := owed_of_reachable hp
  have hw := waitInv_of_reachable hp.of_restrict_monitored
  have hs := inv_of_reachable hp.of_monitored.of_restrict
  obtain ⟨heff, hs'⟩ := hs.handle hi
  obtain ⟨hres, hrec'⟩ := hs.resumes hrec hi ho
  exact (howed.handle hw hs hs' heff hres hrec').1

/-- No call yet. -/
def WaitLog.empty : WaitLog := ⟨fun _ => none, [], fun _ => none⟩

theorem sampleCall_waitpid_owes :
    WaitLog.empty.owes sampleState (sampleCall 7 5) (sampleState.handle (sampleCall 7 5)).1
      (sampleState.handle (sampleCall 7 5)).1.current = some (-1) := by
  have hcur : (sampleState.handle (sampleCall 7 5)).1.current = 0 := by decide +kernel
  rw [hcur]
  decide +kernel

theorem sampleState_init : system.init sampleState := ⟨sampleBoot, sampleBoot_allowed, rfl⟩

theorem sampleFork_waits : (system.monitored waits).Reachable
    ((sampleState.handle (sampleCall 57 0)).1, WaitLog.empty.next sampleState (sampleCall 57 0)
      (sampleState.handle (sampleCall 57 0)).1) :=
  System.Reachable.step (s := (sampleState, WaitLog.empty)) (i := sampleCall 57 0)
    (.init ⟨sampleState_init, rfl⟩) ⟨⟨sampleCall_fork_allowed, rfl⟩, rfl⟩

/-- After the first `Fork`; and a `Waitpid` of the init process, without children. -/
theorem waitpid_protocol_init :
    Protocol (sampleState.handle (sampleCall 57 0)).1
        (WaitLog.empty.next sampleState (sampleCall 57 0)
          (sampleState.handle (sampleCall 57 0)).1) ∧
      (CPUState.load (sampleState.handle (sampleCall 7 5)).1.mem
        (sampleState.handle (sampleCall 7 5)).2).eax = -1 :=
  ⟨waitpid_protocol.1 _ sampleFork_waits,
    waitpid_protocol.2 (sampleState, WaitLog.empty) (.init ⟨sampleState_init, rfl⟩) (sampleCall 7 5)
      sampleCall_waitpid_allowed (sampleCall_ownStack 7 5) (-1) sampleCall_waitpid_owes⟩

end GtuOs.TaskManager

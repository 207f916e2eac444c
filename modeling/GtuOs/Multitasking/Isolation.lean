import GtuOs.Multitasking.Frames

/-!
# The stack of a forked child

`Fork` copies the stack of the parent byte by byte, and its registers. An address of the parent's
stack in them stays one: the saved `ebp`, and the frame addresses of the callers it leads to, are
not moved to the stack of the child. So the child has a stack of its own (`IsolatesStack`) exactly
when the saved `ebp` does not point into the stack (`isolatesStack_iff`).
-/

namespace GtuOs.TaskManager

variable {s : TaskManager} {esp l a : ℕ}

/-- The address `a` is in the stack array of the running task. -/
def InStack (s : TaskManager) (a : ℕ) : Prop :=
  (s.tasks s.current).stack ≤ a ∧ a < (s.tasks s.current).stack + maxStackSize

instance (s : TaskManager) (a : ℕ) : Decidable (s.InStack a) :=
  inferInstanceAs (Decidable (_ ∧ _))

/-- The address in the stack of the child that corresponds to one in that of the parent. -/
def moved (s : TaskManager) (a : ℕ) : ℕ :=
  a - (s.tasks s.current).stack + (s.tasks s.numTasks).stack

/-- The word at `l` is the saved frame address `a`: the saved `ebp` of the frame `esp`, or the
    one saved where such an address points into the stack. -/
inductive SavedFrame (s : TaskManager) (esp : ℕ) : ℕ → ℕ → Prop
  | ebp : SavedFrame s esp (esp + 24) (s.mem.load32 (esp + 24)).toNat
  | caller {l a : ℕ} : SavedFrame s esp l a → s.InStack a →
      SavedFrame s esp a (s.mem.load32 a).toNat

/-- The child that a `Fork` with the frame `esp` creates runs on its own copy of the stack. -/
structure IsolatesStack (s : TaskManager) (esp : ℕ) : Prop where
  cpustate : ((s.fork esp).tasks s.numTasks).cpustate = s.moved esp
  /-- The registers, `ebp` being one of the frame addresses. -/
  registers : CPUState.load (s.fork esp).mem (s.moved esp) =
    { CPUState.load s.mem esp with
      ecx := 0
      ebp := (CPUState.load (s.fork esp).mem (s.moved esp)).ebp }
  /-- The bytes of the stack, those of `ecx` and of the frame addresses apart. -/
  copy : ∀ x, s.InStack x → (x < esp + 8 ∨ esp + 12 ≤ x) →
    (∀ l a, s.SavedFrame esp l a → x < l ∨ l + 4 ≤ x) →
    (s.fork esp).mem (s.moved x) = s.mem x
  /-- The frame addresses. -/
  frames : ∀ l a, s.SavedFrame esp l a → ((s.fork esp).mem.load32 (s.moved l)).toNat =
    if s.InStack a then s.moved a else a

theorem forkChild_cpustate (hon : s.OnStack s.current esp) :
    (s.forkChild esp).cpustate = s.moved esp := by
  obtain ⟨hlo, -⟩ := hon
  simp only [forkChild, moved]
  omega

/-- The bytes of the child's stack. -/
theorem forkMem_moved (hon : s.OnStack s.current esp)
    (hdisj : (s.tasks s.current).stack + maxStackSize ≤ (s.tasks s.numTasks).stack ∨
      (s.tasks s.numTasks).stack + maxStackSize ≤ (s.tasks s.current).stack)
    {x : ℕ} (hx : s.InStack x) (hecx : x < esp + 8 ∨ esp + 12 ≤ x) :
    s.forkMem s.mem esp (s.moved x) = s.mem x := by
  have hcpu := forkChild_cpustate hon
  have hsize : CPUState.sizeof = 52 := rfl
  obtain ⟨hlo, hhi⟩ := hon
  obtain ⟨hxlo, hxhi⟩ := hx
  simp only [forkMem, CPUState.setEcx]
  rw [Memory.copyLoop_eq_move hdisj.symm, hcpu]
  simp only [moved]
  generalize (s.tasks s.current).stack = parent at *
  generalize (s.tasks s.numTasks).stack = child at *
  rw [Memory.store32_of_not_mem (by omega), Memory.store32_of_not_mem (by omega)]
  have hcopy : ∀ y, parent ≤ y → y < parent + maxStackSize →
      s.mem.move child parent maxStackSize (y - parent + child) = s.mem y := fun y hy hy' => by
    rw [Memory.move, Memory.store_of_mem ⟨by omega, by omega⟩, Nat.add_sub_cancel,
      Nat.add_sub_cancel' hy]
  -- The bytes of the frame are copied twice.
  by_cases hframe : esp ≤ x ∧ x < esp + CPUState.sizeof
  · have hoff : esp + (x - parent + child - (esp - parent + child)) = x := by omega
    rw [Memory.move, Memory.store_of_mem ⟨by omega, by omega⟩, hoff]
    exact Memory.store_of_not_mem (by omega)
  · rw [Memory.move, Memory.store_of_not_mem (by omega)]
    exact hcopy x hxlo hxhi

/-- **The stack of a child** is isolated exactly when the saved `ebp` does not point into that of
    the parent. -/
theorem isolatesStack_iff (hstack : ∀ i, (s.tasks i).stack = s.base + i * Task.sizeof)
    (hcur : s.current < s.numTasks) (hroom : s.numTasks < maxNumTasks)
    (hon : s.OnStack s.current esp) :
    s.IsolatesStack esp ↔ ¬s.InStack (s.mem.load32 (esp + 24)).toNat := by
  have hdisj : (s.tasks s.current).stack + maxStackSize ≤ (s.tasks s.numTasks).stack ∨
      (s.tasks s.numTasks).stack + maxStackSize ≤ (s.tasks s.current).stack := by
    rw [hstack, hstack]
    simp only [Task.sizeof, maxStackSize]
    omega
  have hcpu := forkChild_cpustate hon
  obtain ⟨htasks, hmem, -⟩ := fork_spec esp hroom hcur.ne
  obtain ⟨-, hload⟩ := forkMem_frames s.mem hon hdisj
  rw [hcpu] at hload
  -- The saved `ebp` of the child is that of the parent.
  have hebp : (s.fork esp).mem.load32 (s.moved (esp + 24)) = s.mem.load32 (esp + 24) := by
    have hmoved : s.moved (esp + 24) = s.moved esp + 24 := by
      have := hon.1
      simp only [moved]
      omega
    rw [hmem, hmoved]
    exact (congrArg CPUState.ebp hload :)
  constructor
  · rintro h hin
    have hframe := h.frames _ _ .ebp
    rw [hebp, if_pos hin] at hframe
    obtain ⟨hlo, -⟩ := hin
    simp only [moved, maxStackSize] at hframe hdisj
    omega
  · intro hout
    have hsaved : ∀ l a, s.SavedFrame esp l a →
        l = esp + 24 ∧ a = (s.mem.load32 (esp + 24)).toNat := by
      intro l a h
      induction h with
      | ebp => exact ⟨rfl, rfl⟩
      | caller _ hin ih => exact absurd (ih.2 ▸ hin) hout
    refine ⟨?_, ?_, fun x hx hecx _ => ?_, fun l a h => ?_⟩
    · rw [htasks, Function.update_self, hcpu]
    · rw [hmem, hload]
    · rw [hmem]
      exact forkMem_moved hon hdisj hx hecx
    · obtain ⟨rfl, rfl⟩ := hsaved l a h
      rw [hebp, if_neg hout]

/-! ## Two forks -/

/-- The init process calls `Fork` itself. -/
theorem isolatesStack_sampleState : sampleState.IsolatesStack 12000 := by
  have hstack := (inv_of_reachable sampleState_reachable).stack_eq
  refine (isolatesStack_iff hstack (by decide +kernel) (by decide +kernel) ?_).2 (by decide +kernel)
  rw [OnStack]
  decide +kernel

/-- The init process calls `Fork` in a function, whose frame is further up on the stack. -/
def calledState : TaskManager :=
  { sampleState with mem := sampleState.mem.store32 12024 12100 }

theorem not_isolatesStack_calledState : system.Reachable sampleState ∧
    ¬calledState.IsolatesStack 12000 := by
  have hstack := (inv_of_reachable sampleState_reachable).stack_eq
  refine ⟨sampleState_reachable, fun h => ?_⟩
  refine (isolatesStack_iff (s := calledState) hstack (by decide +kernel) (by decide +kernel) ?_).1
    h (by decide +kernel)
  rw [OnStack]
  decide +kernel

end GtuOs.TaskManager

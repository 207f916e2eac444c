import GtuOs.Lib.Memory
import Mathlib.Data.Int.Notation

/-!
# Tasks

`multitasking.h` and the `Task` class of `multitasking.cpp`. All tasks share
one flat memory: a task owns a stack array in it and points, with `cpustate`,
to the frame holding its registers. Code and data pointers are 32-bit values,
addresses of the memory natural numbers.
-/

namespace GtuOs

/-- `MAX_STACK_SIZE`. -/
def maxStackSize : ℕ := 4096

/-- `MAX_NUM_TASKS`. -/
def maxNumTasks : ℕ := 256

/-- `Priority`, the highest being the least value. Kept as the `int` the
    scheduler compares: `SetLastTaskPriority` casts any 32-bit value to it. -/
abbrev Priority := ℤ

def Priority.high : Priority := 0
def Priority.medium : Priority := 1
def Priority.low : Priority := 2

inductive State
  | ready
  | running
  | blocked
  | terminated
  deriving DecidableEq

inductive SchedulerType
  | roundRobin
  | preemptivePriority
  deriving DecidableEq

inductive LifeCycleType
  | lifeCycleA
  | lifeCycleB1
  | lifeCycleB2
  | lifeCycleB3
  | lifeCycleB4
  deriving DecidableEq

/-! ## Frames -/

/-- The registers of an interrupted task: those pushed by the interrupt stub,
    and those pushed by the processor. -/
structure CPUState where
  eax : UInt32
  ebx : UInt32
  ecx : UInt32
  edx : UInt32
  esi : UInt32
  edi : UInt32
  ebp : UInt32
  error : UInt32
  eip : UInt32
  cs : UInt32
  eflags : UInt32
  esp : UInt32
  ss : UInt32
  deriving DecidableEq

namespace CPUState

/-- `sizeof(CPUState)`. -/
def sizeof : ℕ := 52

/-- The registers saved in the frame at `a`. -/
def load (m : Memory) (a : ℕ) : CPUState where
  eax := m.load32 a
  ebx := m.load32 (a + 4)
  ecx := m.load32 (a + 8)
  edx := m.load32 (a + 12)
  esi := m.load32 (a + 16)
  edi := m.load32 (a + 20)
  ebp := m.load32 (a + 24)
  error := m.load32 (a + 28)
  eip := m.load32 (a + 32)
  cs := m.load32 (a + 36)
  eflags := m.load32 (a + 40)
  esp := m.load32 (a + 44)
  ss := m.load32 (a + 48)

/-- The assignment `cpustate->eax = v`. -/
def setEax (m : Memory) (a : ℕ) (v : UInt32) : Memory := m.store32 a v

/-- The assignment `cpustate->ecx = v`. -/
def setEcx (m : Memory) (a : ℕ) (v : UInt32) : Memory := m.store32 (a + 8) v

variable {m m' : Memory} {a a' : ℕ}

/-- A frame is read from its bytes. -/
theorem load_congr (h : ∀ k < sizeof, m' (a' + k) = m (a + k)) : load m' a' = load m a := by
  have hw : ∀ d, d + 4 ≤ sizeof → m'.load32 (a' + d) = m.load32 (a + d) := fun d hd =>
    Memory.load32_congr fun k hk => by
      rw [Nat.add_assoc, Nat.add_assoc]
      exact h (d + k) (by omega)
  have h0 : m'.load32 a' = m.load32 a := hw 0 (by decide)
  simp only [load, h0, hw 4 (by decide), hw 8 (by decide), hw 12 (by decide), hw 16 (by decide),
    hw 20 (by decide), hw 24 (by decide), hw 28 (by decide), hw 32 (by decide), hw 36 (by decide),
    hw 40 (by decide), hw 44 (by decide), hw 48 (by decide)]

/-- Assigning `eax` changes `eax` only. -/
theorem load_setEax (v : UInt32) : load (setEax m a v) a = { load m a with eax := v } := by
  have hw : ∀ d, 4 ≤ d → (m.store32 a v).load32 (a + d) = m.load32 (a + d) := fun d hd =>
    Memory.load32_store32_of_disjoint (by omega)
  simp [load, setEax, hw]

/-- Assigning `ecx` changes `ecx` only. -/
theorem load_setEcx (v : UInt32) : load (setEcx m a v) a = { load m a with ecx := v } := by
  have hw : ∀ d, d + 4 ≤ 8 ∨ 12 ≤ d → (m.store32 (a + 8) v).load32 (a + d) = m.load32 (a + d) :=
    fun d hd => Memory.load32_store32_of_disjoint (by omega)
  have h0 : (m.store32 (a + 8) v).load32 a = m.load32 a := hw 0 (by omega)
  simp [load, setEcx, hw, h0]

theorem setEax_of_not_mem {v : UInt32} {x : ℕ} (h : x < a ∨ a + sizeof ≤ x) :
    setEax m a v x = m x :=
  Memory.store32_of_not_mem (by simp only [sizeof] at h; omega)

theorem setEcx_of_not_mem {v : UInt32} {x : ℕ} (h : x < a ∨ a + sizeof ≤ x) :
    setEcx m a v x = m x :=
  Memory.store32_of_not_mem (by simp only [sizeof] at h; omega)

theorem load_setEcx_of_disjoint {v : UInt32} {b : ℕ} (h : b + sizeof ≤ a ∨ a + sizeof ≤ b) :
    load (setEcx m a v) b = load m b :=
  load_congr fun _ _ => setEcx_of_not_mem (by omega)

end CPUState

/-! ## Tasks -/

/-- A process. The stack array is part of the object; the model keeps its
    address, its contents being in the memory. -/
structure Task where
  stack : ℕ
  cpustate : ℕ
  pid : ℤ
  ppid : ℤ
  priority : Priority
  state : State
  /-- Whether the task is waiting for a child. -/
  waitingChild : Bool
  /-- The child waited for: its pid, or `-1` for any of them. -/
  waitingChildId : ℤ
  /-- Whether the parent has got the pid of this task from a `Waitpid` already. -/
  parentTookInWait : Bool
  arrivalOrder : ℤ
  forkPid : ℤ

namespace Task

/-- `sizeof(Task)`: the stack array and ten fields of one word each. -/
def sizeof : ℕ := maxStackSize + 40

/-- The constructor `Task()`: the other fields keep what was in the memory. -/
def construct (this : Task) : Task :=
  { this with ppid := -1, forkPid := -1, waitingChild := false, parentTookInWait := false }

/-- `gdt->CodeSegmentSelector()`: the offset of the code segment in the table. -/
def codeSegmentSelector : UInt32 := 0x10

/-- `Reset`: a fresh frame at the top of the stack, entering `entrypoint`. -/
def reset (this : Task) (m : Memory) (entrypoint : UInt32) : Task × Memory :=
  let cpustate := this.stack + maxStackSize - CPUState.sizeof
  let m := m.store32 cpustate 0
  let m := m.store32 (cpustate + 4) 0
  let m := m.store32 (cpustate + 8) 0
  let m := m.store32 (cpustate + 12) 0
  let m := m.store32 (cpustate + 16) 0
  let m := m.store32 (cpustate + 20) 0
  let m := m.store32 (cpustate + 24) 0
  let m := m.store32 (cpustate + 32) entrypoint
  let m := m.store32 (cpustate + 36) codeSegmentSelector
  let m := m.store32 (cpustate + 40) 0x202
  ({ this with cpustate }, m)

theorem reset_cpustate (this : Task) (m : Memory) (entrypoint : UInt32) :
    (this.reset m entrypoint).1.cpustate = this.stack + maxStackSize - CPUState.sizeof := rfl

/-- The registers of a fresh frame, `old` being what was in its place. -/
def freshCpuState (old : CPUState) (entrypoint : UInt32) : CPUState :=
  { old with
    eax := 0, ebx := 0, ecx := 0, edx := 0, esi := 0, edi := 0, ebp := 0
    eip := entrypoint, cs := codeSegmentSelector, eflags := 0x202 }

/-- `Reset` makes a fresh frame. -/
theorem load_reset (this : Task) (m : Memory) (entrypoint : UInt32) :
    CPUState.load (this.reset m entrypoint).2 (this.reset m entrypoint).1.cpustate =
      freshCpuState (CPUState.load m (this.reset m entrypoint).1.cpustate) entrypoint := by
  dsimp only [reset]
  generalize this.stack + maxStackSize - CPUState.sizeof = a
  have hw : ∀ (m : Memory) (d e : ℕ) (v : UInt32), d + 4 ≤ e ∨ e + 4 ≤ d →
      (m.store32 (a + d) v).load32 (a + e) = m.load32 (a + e) := fun m d e v h =>
    Memory.load32_store32_of_disjoint (by omega)
  have h0 : ∀ (m : Memory) (e : ℕ) (v : UInt32), 4 ≤ e →
      (m.store32 a v).load32 (a + e) = m.load32 (a + e) := fun m e v h =>
    Memory.load32_store32_of_disjoint (by omega)
  have h0' : ∀ (m : Memory) (d : ℕ) (v : UInt32), 4 ≤ d →
      (m.store32 (a + d) v).load32 a = m.load32 a := fun m d v h =>
    Memory.load32_store32_of_disjoint (by omega)
  simp [CPUState.load, freshCpuState, hw, h0, h0']

/-- `Reset` changes nothing but the frame. -/
theorem reset_of_not_mem {this : Task} {m : Memory} {entrypoint : UInt32} {x : ℕ}
    (h : x < (this.reset m entrypoint).1.cpustate ∨
      (this.reset m entrypoint).1.cpustate + CPUState.sizeof ≤ x) :
    (this.reset m entrypoint).2 x = m x := by
  dsimp only [reset] at h ⊢
  generalize this.stack + maxStackSize - CPUState.sizeof = a at h ⊢
  simp only [CPUState.sizeof] at h
  have hw : ∀ (m : Memory) (d : ℕ) (v : UInt32), d + 4 ≤ 52 → (m.store32 (a + d) v) x = m x :=
    fun m d v hd => Memory.store32_of_not_mem (by omega)
  have h0 : ∀ (m : Memory) (v : UInt32), (m.store32 a v) x = m x := fun m v => hw m 0 v (by omega)
  simp [hw, h0]

/-- `Copy`: the stack of `oth`, byte by byte, and its frame at the same offset. -/
def copy (this oth : Task) (m : Memory) : Task × Memory :=
  ({ this with cpustate := ((this.stack : ℤ) - ((oth.stack : ℤ) - oth.cpustate)).toNat },
    m.copyLoop this.stack oth.stack 0 maxStackSize)

/-- `CopyCpuState`: the assignment of the frame at `cpustate` to that of the task. -/
def copyCpuState (this : Task) (m : Memory) (cpustate : ℕ) : Memory :=
  m.move this.cpustate cpustate CPUState.sizeof

end Task

end GtuOs

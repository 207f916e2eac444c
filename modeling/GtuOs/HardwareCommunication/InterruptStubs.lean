import GtuOs.Lib.Stack
import GtuOs.Multitasking.Task

/-!
# The interrupt stubs

`interruptstubs.s`, and the interrupt descriptor table of `interrupts.cpp`: the code that
runs from an interrupt to the call of `HandleInterrupt` and back. A stub is a list of
instructions of the processor, which pushes `eflags`, `cs` and `eip` before it, and an error
code for some of the exceptions.

The stubs of the hardware requests and of the system calls are transparent. Those of the
exceptions do not push anything in place of an error code, so that they are exactly if
the processor pushed one (`transparent_iff`).
-/

namespace GtuOs.InterruptStubs

/-- The registers, the memory, and the variable `interruptnumber`. -/
structure Processor where
  eax : UInt32
  ebx : UInt32
  ecx : UInt32
  edx : UInt32
  esi : UInt32
  edi : UInt32
  ebp : UInt32
  esp : UInt32
  eip : UInt32
  cs : UInt16
  eflags : UInt32
  mem : Ram
  interruptnumber : UInt8

inductive Register
  | eax
  | ebx
  | ecx
  | edx
  | esi
  | edi
  | ebp
  | esp

inductive Instruction
  /-- `movb $num, (interruptnumber)` -/
  | movNumber (num : UInt8)
  /-- `pushl $v` -/
  | pushImmediate (v : UInt32)
  | pushl (r : Register)
  /-- `push (interruptnumber)` -/
  | pushNumber
  /-- `call HandleInterrupt` -/
  | callHandleInterrupt
  /-- `mov %eax, %esp` -/
  | movEaxEsp
  | popl (r : Register)
  /-- `add $v, %esp` -/
  | addEsp (v : UInt32)
  | iret

/-- What the stubs do not determine. -/
structure Surroundings where
  /-- `InterruptManager::HandleInterrupt`, called in the state given. -/
  handleInterrupt : UInt8 → UInt32 → Processor → Processor
  /-- The address after the call. -/
  returnAddress : UInt32
  /-- The word at `interruptnumber`, apart from its lowest byte. -/
  padding : UInt32
  /-- The flags after an addition. -/
  addFlags : UInt32 → UInt32
  /-- The error code pushed by the processor. -/
  errorCode : UInt32
  /-- The entry of the table for the interrupt: the code segment and the address of the stub. -/
  segment : UInt16
  address : UInt8 → UInt32
  /-- The flags cleared by an interrupt gate. -/
  gateFlags : UInt32 → UInt32

namespace Processor

variable (s : Processor) (r : Register) (v : UInt32)

/-- The value of a register. -/
def get : Register → UInt32
  | .eax => s.eax
  | .ebx => s.ebx
  | .ecx => s.ecx
  | .edx => s.edx
  | .esi => s.esi
  | .edi => s.edi
  | .ebp => s.ebp
  | .esp => s.esp

/-- The state with a register set. -/
def set : Register → Processor
  | .eax => { s with eax := v }
  | .ebx => { s with ebx := v }
  | .ecx => { s with ecx := v }
  | .edx => { s with edx := v }
  | .esi => { s with esi := v }
  | .edi => { s with edi := v }
  | .ebp => { s with ebp := v }
  | .esp => { s with esp := v }

/-- A push. -/
def push : Processor := { s with mem := s.mem.store32 (s.esp - 4) v, esp := s.esp - 4 }

/-- The top of the stack. -/
def top : UInt32 := s.mem.load32 s.esp

/-- The argument `interrupt` of a call of `HandleInterrupt`. -/
def interruptArgument : UInt8 := s.top.toUInt8

/-- The argument `esp` of a call of `HandleInterrupt`. -/
def espArgument : UInt32 := s.mem.load32 (s.esp + 4)

end Processor

variable (e : Surroundings)

/-- The effect of an instruction. -/
def execute (s : Processor) : Instruction → Processor
  | .movNumber num => { s with interruptnumber := num }
  | .pushImmediate v => s.push v
  | .pushl r => s.push (s.get r)
  | .pushNumber => s.push (e.padding * 256 + s.interruptnumber.toUInt32)
  | .callHandleInterrupt =>
    -- The called function returns with its stack pointer restored.
    let s' := e.handleInterrupt s.interruptArgument s.espArgument (s.push e.returnAddress)
    { s' with esp := s.esp }
  | .movEaxEsp => { s with esp := s.eax }
  | .popl r => { s with esp := s.esp + 4 }.set s.top r
  | .addEsp v => { s with esp := s.esp + v, eflags := e.addFlags s.eflags }
  | .iret => { s with
      eip := s.top
      cs := (s.mem.load32 (s.esp + 4)).toUInt16
      eflags := s.mem.load32 (s.esp + 8)
      esp := s.esp + 12 }

/-- The effect of a list of instructions. -/
def run (s : Processor) (is : List Instruction) : Processor := is.foldl (execute e) s

/-- The state in which `HandleInterrupt` is called. -/
def call (s : Processor) : List Instruction → Option Processor
  | [] => none
  | .callHandleInterrupt :: _ => some s
  | i :: is => call (execute e s i) is

/-! ## The stubs -/

/-- `InterruptIgnore`. -/
def interruptIgnore : List Instruction := [.iret]

/-- `int_bottom`. -/
def intBottom : List Instruction :=
  [.pushl .ebp, .pushl .edi, .pushl .esi, .pushl .edx, .pushl .ecx, .pushl .ebx, .pushl .eax,
    .pushl .esp, .pushNumber, .callHandleInterrupt, .movEaxEsp,
    .popl .eax, .popl .ebx, .popl .ecx, .popl .edx, .popl .esi, .popl .edi, .popl .ebp,
    .addEsp 4] ++ interruptIgnore

/-- `IRQ_BASE`. -/
def irqBase : UInt8 := 0x20

/-- The macro `HandleException`. -/
def handleException (num : UInt8) : List Instruction := .movNumber num :: intBottom

/-- The macro `HandleInterruptRequest`. -/
def handleInterruptRequest (num : UInt8) : List Instruction :=
  .movNumber (num + irqBase) :: .pushImmediate 0 :: intBottom

/-- `interruptDescriptorTable`, as set by the constructor of `InterruptManager` with the
    offset `0x20` for hardware interrupts. -/
def interruptDescriptorTable (interrupt : UInt8) : List Instruction :=
  if interrupt ≤ 0x13 then handleException interrupt
  else if 0x20 ≤ interrupt ∧ interrupt ≤ 0x2F then handleInterruptRequest (interrupt - 0x20)
  else if interrupt = 0x80 then handleInterruptRequest 0x80
  else interruptIgnore

/-! ## The processor -/

/-- The exceptions with an error code. -/
def hasErrorCode (interrupt : UInt8) : Bool :=
  interrupt == 8 || 10 ≤ interrupt && interrupt ≤ 14 || interrupt == 17

/-- An interrupt in ring 0, up to its stub. -/
def interrupt (s : Processor) (n : UInt8) : Processor :=
  let s' := ((s.push s.eflags).push s.cs.toUInt32).push s.eip
  let s' := if hasErrorCode n then s'.push e.errorCode else s'
  { s' with eflags := e.gateFlags s.eflags, cs := e.segment, eip := e.address n }

/-! ## Transparency -/

/-- The vectors that have a stub. -/
def Installed (n : UInt8) : Prop := n ≤ 0x13 ∨ 0x20 ≤ n ∧ n ≤ 0x2F ∨ n = 0x80

/-- `HandleInterrupt`, called in the state `c`, returns its argument `esp` and leaves the
    registers saved there as they are. -/
def Returns (c : Processor) : Prop :=
  let s' := e.handleInterrupt c.interruptArgument c.espArgument (c.push e.returnAddress)
  s'.eax = c.espArgument ∧
    ∀ k < 44, s'.mem (c.espArgument + .ofNat k) = (c.push e.returnAddress).mem (c.espArgument + .ofNat k)

/-- The frame passed to `HandleInterrupt` in the state `c` is that of the state `s`. -/
structure Sees (s c : Processor) (f : CPUState) : Prop where
  frame : f = CPUState.load c.mem.memory c.espArgument.toNat
  eax : f.eax = s.eax
  ebx : f.ebx = s.ebx
  ecx : f.ecx = s.ecx
  edx : f.edx = s.edx
  esi : f.esi = s.esi
  edi : f.edi = s.edi
  ebp : f.ebp = s.ebp
  eip : f.eip = s.eip
  cs : f.cs = s.cs.toUInt32
  eflags : f.eflags = s.eflags

/-- The state `s'` continues the state `s`. -/
structure Resumes (s s' : Processor) : Prop where
  eax : s'.eax = s.eax
  ebx : s'.ebx = s.ebx
  ecx : s'.ecx = s.ecx
  edx : s'.edx = s.edx
  esi : s'.esi = s.esi
  edi : s'.edi = s.edi
  ebp : s'.ebp = s.ebp
  esp : s'.esp = s.esp
  eip : s'.eip = s.eip
  cs : s'.cs = s.cs
  eflags : s'.eflags = s.eflags

/-- The interrupt `n` in the state `s` is handled, and the program interrupted continues. -/
def Transparent (s : Processor) (n : UInt8) : Prop :=
  ∃ c, call e (interrupt e s n) (interruptDescriptorTable n) = some c ∧ (∃ f, Sees s c f) ∧
    Resumes s (run e (interrupt e s n) (interruptDescriptorTable n))

variable {e} {s t : Processor} {n : UInt8} {ws : List UInt32} {v : UInt32}

/-- A push onto the stack. -/
theorem stacked_push (h : s.mem.Stacked s.esp ws) (hlen : 4 * ws.length + 4 ≤ 2 ^ 32) :
    (s.push v).mem.Stacked (s.push v).esp (v :: ws) :=
  h.push hlen

/-- The registers in a frame on the stack. -/
theorem frame_of_stacked {m : Ram} {a eax ebx ecx edx esi edi ebp error eip cs eflags : UInt32}
    (h : m.Stacked a [eax, ebx, ecx, edx, esi, edi, ebp, error, eip, cs, eflags]) :
    CPUState.load m.memory a.toNat = ⟨eax, ebx, ecx, edx, esi, edi, ebp, error, eip, cs, eflags,
      m.load32 (a + 44), m.load32 (a + 48)⟩ := by
  simp only [Ram.Stacked.cons_iff, UInt32.add_assoc] at h
  obtain ⟨rfl, rfl, rfl, rfl, rfl, rfl, rfl, rfl, rfl, rfl, rfl, -⟩ := h
  simp only [CPUState.load, Ram.memory_load32]
  rfl

/-- The registers saved by `int_bottom`, in order. -/
def saved : List Register := [.ebp, .edi, .esi, .edx, .ecx, .ebx, .eax]

/-- The instructions of `int_bottom` before the call. -/
def save : List Instruction := saved.map .pushl ++ [.pushl .esp, .pushNumber]

/-- The instructions of `int_bottom` after the call. -/
def restore : List Instruction :=
  .movEaxEsp :: (saved.reverse.map .popl ++ [.addEsp 4, .iret])

theorem intBottom_eq : intBottom = save ++ .callHandleInterrupt :: restore := rfl

theorem run_cons {i : Instruction} {is : List Instruction} :
    run e s (i :: is) = run e (execute e s i) is := rfl

theorem run_append {is js : List Instruction} : run e s (is ++ js) = run e (run e s is) js :=
  List.foldl_append

theorem get_push {r : Register} (hr : r ≠ .esp) : (s.push v).get r = s.get r := by
  cases r with
  | esp => exact absurd rfl hr
  | _ => rfl

/-- The registers pushed are on the stack, the last one on top. -/
theorem stacked_pushes {rs : List Register} (hrs : .esp ∉ rs) (h : t.mem.Stacked t.esp ws)
    (hlen : 4 * (rs.length + ws.length) ≤ 2 ^ 32) :
    (run e t (rs.map .pushl)).mem.Stacked (run e t (rs.map .pushl)).esp
      ((rs.map t.get).reverse ++ ws) ∧
    (run e t (rs.map .pushl)).esp = t.esp - 4 * .ofNat rs.length := by
  induction rs generalizing t ws with
  | nil => exact ⟨h, by simp [run]⟩
  | cons r rs ih =>
    rw [List.mem_cons, not_or] at hrs
    rw [List.length_cons] at hlen
    obtain ⟨hmem, hesp⟩ := ih (t := t.push (t.get r)) hrs.2 (stacked_push h (by omega))
      (by rw [List.length_cons]; omega)
    have hget : rs.map (t.push (t.get r)).get = rs.map t.get := List.map_congr_left fun x hx =>
      get_push fun hx' => hrs.2 (hx' ▸ hx)
    rw [hget] at hmem
    rw [List.map_cons, List.map_cons, List.reverse_cons, List.append_assoc]
    refine ⟨hmem, hesp.trans ?_⟩
    rw [List.length_cons, UInt32.ofNat_add, UInt32.mul_add, UInt32.add_comm, ← Ram.sub_sub]
    rfl

/-- What is on the stack when `HandleInterrupt` is called. -/
theorem stacked_save (h : t.mem.Stacked t.esp ws) (hlen : 4 * ws.length + 36 ≤ 2 ^ 32) :
    (run e t save).espArgument = t.esp - 28 ∧ (run e t save).esp = t.esp - 36 ∧
      (run e t save).mem.Stacked (t.esp - 28)
        ([t.eax, t.ebx, t.ecx, t.edx, t.esi, t.edi, t.ebp] ++ ws) := by
  have hsaved : .esp ∉ saved := by simp [saved]
  obtain ⟨hmem, hesp⟩ := stacked_pushes (e := e) hsaved h
    (by change 4 * (7 + ws.length) ≤ _; omega)
  replace hesp : (run e t (saved.map .pushl)).esp = t.esp - 28 := hesp
  rw [save, run_append]
  generalize run e t (saved.map .pushl) = u at hmem hesp ⊢
  have hlen' : ((saved.map t.get).reverse ++ ws).length = 7 + ws.length := by
    rw [List.length_append]
    rfl
  have h₁ := stacked_push (v := u.esp) hmem (by omega)
  have h₂ := stacked_push (v := e.padding * 256 + u.interruptnumber.toUInt32) h₁
    (by rw [List.length_cons]; omega)
  have hc : run e u [.pushl .esp, .pushNumber] =
      (u.push u.esp).push (e.padding * 256 + u.interruptnumber.toUInt32) := rfl
  rw [← hc] at h₂
  have hc' : (run e u [.pushl .esp, .pushNumber]).esp = u.esp - 4 - 4 := rfl
  obtain ⟨-, harg, hregs⟩ := h₂
  rw [hc', UInt32.sub_add_cancel, UInt32.sub_add_cancel, hesp] at hregs
  rw [hesp] at harg
  refine ⟨harg, ?_, hregs⟩
  rw [hc', hesp, Ram.sub_sub, Ram.sub_sub]
  rfl

/-- The registers are restored from the frame at `eax`. -/
theorem run_restore {eax ebx ecx edx esi edi ebp error eip cs eflags : UInt32}
    (h : t.mem.Stacked t.eax [eax, ebx, ecx, edx, esi, edi, ebp, error, eip, cs, eflags]) :
    run e t restore = ⟨eax, ebx, ecx, edx, esi, edi, ebp, t.eax + 44, eip, cs.toUInt16, eflags,
      t.mem, t.interruptnumber⟩ := by
  simp only [Ram.Stacked.cons_iff, UInt32.add_assoc] at h
  obtain ⟨rfl, rfl, rfl, rfl, rfl, rfl, rfl, rfl, rfl, rfl, rfl, -⟩ := h
  simp only [restore, saved, run, execute, Processor.set, Processor.top, List.reverse_cons,
    List.reverse_nil, List.nil_append, List.cons_append, List.map_cons, List.map_nil,
    List.foldl_cons, List.foldl_nil, UInt32.add_assoc]
  rfl

/-- The call of `HandleInterrupt` and what follows, from a state with these words on the stack. -/
theorem run_intBottom {error eip cs eflags : UInt32}
    (h : t.mem.Stacked t.esp [error, eip, cs, eflags]) (hr : Returns e (run e t save)) :
    (∃ esp ss, CPUState.load (run e t save).mem.memory (run e t save).espArgument.toNat =
      ⟨t.eax, t.ebx, t.ecx, t.edx, t.esi, t.edi, t.ebp, error, eip, cs, eflags, esp, ss⟩) ∧
    ∃ m i, run e t intBottom = ⟨t.eax, t.ebx, t.ecx, t.edx, t.esi, t.edi, t.ebp, t.esp + 16,
      eip, cs.toUInt16, eflags, m, i⟩ := by
  obtain ⟨harg, hesp, hmem⟩ := stacked_save (e := e) h (by simp)
  rw [intBottom_eq, run_append]
  generalize run e t save = c at harg hesp hmem hr ⊢
  obtain ⟨heax, hkept⟩ := hr
  rw [harg] at heax hkept ⊢
  refine ⟨⟨_, _, frame_of_stacked hmem⟩, ?_⟩
  -- The return address is below the frame.
  have ha : t.esp - 28 = c.esp - 4 + 12 := by
    rw [hesp, Ram.sub_sub]
    exact (UInt32.sub_add_cancel _ 12).symm.trans (by rw [Ram.sub_sub]; rfl)
  have hcall : (c.push e.returnAddress).mem.Stacked (t.esp - 28)
      ([t.eax, t.ebx, t.ecx, t.edx, t.esi, t.edi, t.ebp] ++ [error, eip, cs, eflags]) := by
    rw [ha] at hmem ⊢
    exact hmem.store (by decide) (by simp)
  have hret := hcall.congr hkept
  have hx : execute e c .callHandleInterrupt = { e.handleInterrupt c.interruptArgument
      c.espArgument (c.push e.returnAddress) with esp := c.esp } := rfl
  rw [run_cons, hx, harg]
  generalize e.handleInterrupt c.interruptArgument (t.esp - 28) (c.push e.returnAddress) = s' at heax hret ⊢
  rw [← heax] at hret
  refine ⟨s'.mem, s'.interruptnumber, (run_restore (t := { s' with esp := c.esp }) hret).trans ?_⟩
  have h16 : t.esp - 28 + 44 = t.esp + 16 := by
    rw [show (44 : UInt32) = 28 + 16 from rfl, ← UInt32.add_assoc, UInt32.sub_add_cancel]
  dsimp only
  rw [heax, h16]

/-- What the processor pushes. -/
theorem stacked_interrupt (h : s.mem.Stacked s.esp ws) (hlen : 4 * ws.length + 16 ≤ 2 ^ 32) :
    (interrupt e s n).mem.Stacked (interrupt e s n).esp
      ((if hasErrorCode n then [e.errorCode] else []) ++ s.eip :: s.cs.toUInt32 :: s.eflags :: ws) ∧
    (interrupt e s n).esp = s.esp - if hasErrorCode n then 16 else 12 := by
  have h₁ := stacked_push (v := s.eflags) h (by omega)
  have h₂ := stacked_push (v := s.cs.toUInt32) h₁ (by simp only [List.length_cons]; omega)
  have h₃ := stacked_push (v := s.eip) h₂ (by simp only [List.length_cons]; omega)
  have h₄ := stacked_push (v := e.errorCode) h₃ (by simp only [List.length_cons]; omega)
  rw [interrupt]
  split_ifs
  · refine ⟨h₄, ?_⟩
    change s.esp - 4 - 4 - 4 - 4 = _
    rw [Ram.sub_sub, Ram.sub_sub, Ram.sub_sub]
    rfl
  · refine ⟨h₃, ?_⟩
    change s.esp - 4 - 4 - 4 = _
    rw [Ram.sub_sub, Ram.sub_sub]
    rfl

theorem get_interrupt {r : Register} (hr : r ≠ .esp) : (interrupt e s n).get r = s.get r := by
  have hother : ∀ (p : Processor) (eflags : UInt32) (cs : UInt16) (eip : UInt32),
      { p with eflags := eflags, cs := cs, eip := eip }.get r = p.get r := fun p _ _ _ => by
    cases r <;> rfl
  rw [interrupt, hother]
  split_ifs
  · rw [get_push hr, get_push hr, get_push hr, get_push hr]
  · rw [get_push hr, get_push hr, get_push hr]

/-- A stub is transparent that starts `int_bottom` with an error code, or a word in its
    place, on the stack. -/
theorem transparent_of_stacked {error : UInt32} {is : List Instruction}
    (htable : interruptDescriptorTable n = is ++ intBottom)
    (hcall : call e (interrupt e s n) (is ++ intBottom) = some (run e t save))
    (hrun : run e (interrupt e s n) is = t) (hesp : t.esp = s.esp - 16)
    (hregs : ∀ r ≠ .esp, t.get r = s.get r)
    (h : t.mem.Stacked t.esp [error, s.eip, s.cs.toUInt32, s.eflags])
    (hr : Returns e (run e t save)) : Transparent e s n := by
  obtain ⟨⟨esp, ss, hframe⟩, m, i, hfinal⟩ := run_intBottom h hr
  have heax : t.eax = s.eax := hregs .eax (by simp)
  have hebx : t.ebx = s.ebx := hregs .ebx (by simp)
  have hecx : t.ecx = s.ecx := hregs .ecx (by simp)
  have hedx : t.edx = s.edx := hregs .edx (by simp)
  have hesi : t.esi = s.esi := hregs .esi (by simp)
  have hedi : t.edi = s.edi := hregs .edi (by simp)
  have hebp : t.ebp = s.ebp := hregs .ebp (by simp)
  rw [heax, hebx, hecx, hedx, hesi, hedi, hebp] at hframe hfinal
  refine ⟨_, htable ▸ hcall, ⟨_, hframe.symm, rfl, rfl, rfl, rfl, rfl, rfl, rfl, rfl, rfl, rfl⟩, ?_⟩
  rw [htable, run_append, hrun, hfinal, hesp, UInt32.sub_add_cancel]
  exact ⟨rfl, rfl, rfl, rfl, rfl, rfl, rfl, rfl, rfl, UInt16.toUInt16_toUInt32 _, rfl⟩

/-- The state in which `HandleException` enters `int_bottom`. -/
def entered (e : Surroundings) (s : Processor) (n : UInt8) : Processor :=
  { interrupt e s n with interruptnumber := n }

theorem call_handleException : call e (interrupt e s n) ([.movNumber n] ++ intBottom) =
    some (run e (entered e s n) save) := rfl

theorem call_handleInterruptRequest {k : UInt8} :
    call e (interrupt e s n) ([.movNumber (k + irqBase), .pushImmediate 0] ++ intBottom) =
      some (run e ({ interrupt e s n with interruptnumber := k + irqBase }.push 0) save) := rfl

/-- A request of the hardware or a program. -/
theorem transparent_request {k : UInt8} (hcode : hasErrorCode n = false)
    (htable : interruptDescriptorTable n = handleInterruptRequest k)
    (hr : ∀ c, call e (interrupt e s n) (interruptDescriptorTable n) = some c → Returns e c) :
    Transparent e s n := by
  have htable' : interruptDescriptorTable n =
    [.movNumber (k + irqBase), .pushImmediate 0] ++ intBottom := htable
  obtain ⟨hmem, hesp⟩ := stacked_interrupt (e := e) (s := s) (n := n) Ram.stacked_nil (by simp)
  rw [hcode, if_neg (by simp)] at hmem hesp
  rw [htable', call_handleInterruptRequest] at hr
  refine transparent_of_stacked htable' call_handleInterruptRequest rfl ?_ (fun r h => ?_)
    (stacked_push hmem (by simp)) (hr _ rfl)
  · change (interrupt e s n).esp - 4 = _
    rw [hesp, Ram.sub_sub]
    rfl
  · rw [get_push h, ← get_interrupt (e := e) (s := s) (n := n) h]
    cases r <;> rfl

/-- An exception with an error code. -/
theorem transparent_exception (hcode : hasErrorCode n = true)
    (htable : interruptDescriptorTable n = handleException n)
    (hr : ∀ c, call e (interrupt e s n) (interruptDescriptorTable n) = some c → Returns e c) :
    Transparent e s n := by
  have htable' : interruptDescriptorTable n = [.movNumber n] ++ intBottom := htable
  obtain ⟨hmem, hesp⟩ := stacked_interrupt (e := e) (s := s) (n := n) Ram.stacked_nil (by simp)
  rw [hcode, if_pos rfl] at hmem hesp
  rw [htable', call_handleException] at hr
  refine transparent_of_stacked htable' call_handleException rfl hesp (fun r h => ?_) hmem (hr _ rfl)
  rw [← get_interrupt (e := e) (s := s) (n := n) h]
  cases r <;> rfl

/-- After an exception without an error code, the stack pointer is that of before and four
    bytes more. -/
theorem esp_exception (hcode : hasErrorCode n = false)
    (htable : interruptDescriptorTable n = handleException n)
    (hr : ∀ c, call e (interrupt e s n) (interruptDescriptorTable n) = some c → Returns e c) :
    (run e (interrupt e s n) (interruptDescriptorTable n)).esp = s.esp + 4 := by
  have htable' : interruptDescriptorTable n = [.movNumber n] ++ intBottom := htable
  have hstacked : s.mem.Stacked s.esp [s.mem.load32 s.esp] := by simp
  obtain ⟨hmem, hesp⟩ := stacked_interrupt (e := e) (s := s) (n := n) hstacked (by simp)
  rw [hcode, if_neg (by simp)] at hmem hesp
  rw [htable', call_handleException] at hr
  obtain ⟨-, m, i, hfinal⟩ := run_intBottom (t := entered e s n) hmem (hr _ rfl)
  have hesp' : (entered e s n).esp = s.esp - 12 := hesp
  have hrun : run e (interrupt e s n) [.movNumber n] = entered e s n := rfl
  rw [htable', run_append, hrun, hfinal, hesp', show (16 : UInt32) = 12 + 4 from rfl,
    ← UInt32.add_assoc, UInt32.sub_add_cancel]

theorem hasErrorCode_of_le (h : 0x20 ≤ n) : hasErrorCode n = false := by
  have h : 32 ≤ n.toNat := h
  have h8 : n ≠ 8 := by
    rintro rfl
    exact absurd h (by decide)
  have h17 : n ≠ 17 := by
    rintro rfl
    exact absurd h (by decide)
  have h14 : ¬n ≤ 14 := fun h' => by
    have : n.toNat ≤ 14 := h'
    omega
  simp [hasErrorCode, h8, h17, h14]

/-- An interrupt is transparent exactly if it is no exception, or the processor pushes an
    error code. -/
theorem transparent_iff (hn : Installed n)
    (hr : ∀ c, call e (interrupt e s n) (interruptDescriptorTable n) = some c → Returns e c) :
    Transparent e s n ↔ 0x20 ≤ n ∨ hasErrorCode n := by
  by_cases hle : n ≤ 0x13
  · have htable : interruptDescriptorTable n = handleException n := if_pos hle
    have hlt : ¬0x20 ≤ n := fun h => absurd (UInt8.le_trans h hle) (by decide)
    cases hcode : hasErrorCode n with
    | true => exact iff_of_true (transparent_exception hcode htable hr) (.inr rfl)
    | false =>
      -- Without an error code, `esp` ends 4 bytes too high.
      refine iff_of_false ?_ (by simp [hlt])
      rintro ⟨c, -, -, hresumes⟩
      have hesp := (esp_exception hcode htable hr).symm.trans hresumes.esp
      have h4 : (4 : UInt32) = 0 := UInt32.add_right_inj s.esp |>.1 (hesp.trans (UInt32.add_zero _).symm)
      exact absurd h4 (by decide)
  -- The requests and the system call come without an error code, as their stubs expect.
  · have hle' : 0x20 ≤ n := by
      rcases hn with hn | ⟨hn, -⟩ | rfl
      · exact absurd hn hle
      · exact hn
      · decide
    refine iff_of_true ?_ (.inl hle')
    by_cases hn' : n ≤ 0x2F
    · refine transparent_request (k := n - 0x20) (hasErrorCode_of_le hle') ?_ hr
      rw [interruptDescriptorTable, if_neg hle, if_pos ⟨hle', hn'⟩]
    · obtain rfl : n = 0x80 := by
        rcases hn with hn | ⟨-, hn⟩ | hn
        · exact absurd hn hle
        · exact absurd hn hn'
        · exact hn
      exact transparent_request (k := 0x80) (hasErrorCode_of_le hle') rfl hr

/-- A handler that returns its argument. -/
def quiet : Surroundings where
  handleInterrupt _ esp s := { s with eax := esp }
  returnAddress := 0
  padding := 0
  addFlags := id
  errorCode := 0
  segment := 16
  address _ := 0
  gateFlags := id

theorem quiet_returns {c : Processor} : Returns quiet c := ⟨rfl, fun _ _ => rfl⟩

/-- A program interrupted. -/
def interrupted : Processor := ⟨1, 2, 3, 4, 5, 6, 7, 4096, 8, 16, 9, fun _ => 0, 0⟩

/-- A request of the timer. -/
theorem transparent_iff_timer : Transparent quiet interrupted 0x20 :=
  (transparent_iff (.inr (.inl (by decide))) fun _ _ => quiet_returns).2 (.inl (by decide))

/-- A division by zero. -/
theorem not_transparent_division : Installed 0 ∧ (∀ c, Returns quiet c) ∧ ¬Transparent quiet interrupted 0 := by
  refine ⟨.inl (by decide), fun _ => quiet_returns, ?_⟩
  rintro ⟨c, -, -, hresumes⟩
  have hesp := (esp_exception (n := 0) rfl rfl fun _ _ => quiet_returns).symm.trans hresumes.esp
  exact absurd hesp (by decide)

end GtuOs.InterruptStubs

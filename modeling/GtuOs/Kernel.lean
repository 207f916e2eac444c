import GtuOs.Console.Ascii
import GtuOs.Console.TextMode
import GtuOs.Drivers.AmdReceive
import GtuOs.HardwareCommunication.InterruptManager
import GtuOs.HardwareCommunication.InterruptStubs
import GtuOs.Multitasking.Printing

/-!
# The kernel

What `kernelMain` puts together, in text mode: the task manager, the drivers of the keyboard, of the mouse and of the
network card, and the interrupt manager that calls them, with all of them and the tasks printing to one screen. A task
prints access by access, and finds its code of `printf` where it has left it when it is scheduled again.

Wherever interrupts fall, each one is handled in the end, and acknowledged once if it is a request of the hardware; as
long as they fall between characters, the screen shows the page of all that has been printed (`interrupts_served`). The
task manager does not notice the interrupts of the devices: its runs are those of `TaskManager.system`
(`runs_taskManager`).
-/

namespace GtuOs

/-- The objects that handle interrupts. -/
inductive Device
  | syscalls
  | keyboard
  | mouse
  | network
  deriving DecidableEq

/-- The objects of the kernel, and what has been written to the interrupt controllers. The memory is that of the task
manager. Each task has its own thread of `printf`, and so has `kernelMain`, as the task `-1`. -/
structure Kernel where
  taskManager : TaskManager
  textMode : TextMode
  receiver : AmdAm79c973.Receiver
  threads : ℤ → Thread Console Registers
  picWrites : List (PicPort × UInt8)

/-- What is found when an interrupt arrives: the memory, the address of the frame, the descriptors of the network card,
and what is read from the ports. -/
structure Arrival where
  mem : Memory
  esp : ℕ
  recvBufferDescr : Fin 8 → AmdAm79c973.BufferDescriptor
  scanCode : UInt8
  mouseStatus : UInt8
  mouseData : UInt8
  cardStatus : UInt16

/-- The string at an address of the memory, as far as `n` bytes. -/
def stringAt (mem : Memory) (p : UInt32) : ℕ → List UInt8
  | 0 => []
  | n + 1 => if mem p.toNat = 0 then [] else mem p.toNat :: stringAt mem (p + 1) n

namespace Kernel

variable (pt : ProcessTablePrintType) (dev : UInt8) (a : Arrival)

/-- The managers and handlers of `kernelMain`. The network card is at the line `dev` of the hardware. -/
def interrupts : InterruptManager Device :=
  let m := InterruptManager.construct 0x20
  let m := m.register .syscalls (0x80 + m.hardwareInterruptOffset.toUInt8)
  let m := m.register .keyboard 0x21
  let m := m.register .mouse 0x2C
  m.register .network (dev + m.hardwareInterruptOffset.toUInt8)

/-- What a system call prints. -/
def syscallText (s : TaskManager) (esp : ℕ) : List UInt8 :=
  match (CPUState.load a.mem esp).syscall with
  | .printf str => stringAt a.mem str (2 ^ 32)
  | _ => s.handleText pt (.syscall a.mem esp)

/-- The kernel after a text has been printed. -/
def printf (k : Kernel) (text : List UInt8) : Kernel := { k with textMode := k.textMode.handle (.print text) }

/-- `HandleInterrupt` of the objects. The loop over the eight descriptors of the network card ends by itself. -/
def handleInterrupt (k : Kernel) (esp : ℕ) : Device → Option (Kernel × ℕ)
  | .syscalls =>
    let text := syscallText pt a k.taskManager esp
    let (taskManager, esp) := k.taskManager.handle (.syscall a.mem esp)
    some ({ k with taskManager }.printf text, esp)
  | .keyboard => some ({ k with textMode := k.textMode.handle (.key a.scanCode) }, esp)
  | .mouse => some ({ k with textMode := k.textMode.handle (.mouse a.mouseStatus a.mouseData) }, esp)
  | .network => do
    let receiver := { k.receiver with mem := a.mem, recvBufferDescr := a.recvBufferDescr }
    let (receiver, text, _) ← receiver.handleInterrupt a.cardStatus 9
    some ({ k with receiver }.printf text, esp)

/-- `Schedule` of the task manager. -/
def schedule (k : Kernel) (esp : ℕ) : Kernel × ℕ :=
  let text := k.taskManager.handleText pt (.timer a.mem esp)
  let (taskManager, esp) := k.taskManager.handle (.timer a.mem esp)
  ({ k with taskManager }.printf text, esp)

/-- What `DoHandleInterrupt` calls. -/
def calls : InterruptCalls Device Kernel where
  handleInterrupt device k esp := k.handleInterrupt pt a esp device
  printf text k := k.printf text
  schedule := schedule pt a
  write port v k := { k with picWrites := k.picWrites ++ [(port, v)] }

/-- An interrupt. -/
def interrupt (k : Kernel) (n : UInt8) : Option (Kernel × ℕ) :=
  InterruptManager.handleInterrupt (calls pt a) k n a.esp (some (interrupts dev))

end Kernel

/-- Where an interrupt comes from. -/
inductive Source
  | request (irq : Fin 16)
  | exception (n : UInt8)
  | syscall
  deriving DecidableEq

/-- The number with which the stub calls `HandleInterrupt`. -/
def Source.number : Source → UInt8
  | .request irq => .ofNat irq + InterruptStubs.irqBase
  | .exception n => n
  | .syscall => 0x80 + InterruptStubs.irqBase

/-- A request is acknowledged at the master, and at the slave if it comes from there. -/
def Source.acknowledgements : Source → List (PicPort × UInt8)
  | .request irq => (.masterCommand, 0x20) :: if irq.val < 8 then [] else [(.slaveCommand, 0x20)]
  | _ => []

/-- What happens in a run. -/
inductive KernelEvent
  /-- The running program goes on to another character of a text that it prints by itself. -/
  | char (c : UInt8)
  /-- The next step of its code for the character. -/
  | access
  | interrupt (source : Source) (a : Arrival)

/-- The address of the frame, if it is an interrupt. -/
def KernelEvent.esp : KernelEvent → Option ℕ
  | .interrupt _ a => some a.esp
  | _ => none

/-- The interrupt of the task manager, if it is one. -/
def KernelEvent.toInterrupt : KernelEvent → Option TaskManager.Interrupt
  | .interrupt (.request irq) a => if irq.val = 0 then some (.timer a.mem a.esp) else none
  | .interrupt .syscall a => some (.syscall a.mem a.esp)
  | _ => none

/-- What an event writes to the interrupt controllers. -/
def KernelEvent.acknowledgements : KernelEvent → List (PicPort × UInt8)
  | .interrupt source _ => source.acknowledgements
  | _ => []

namespace Kernel

variable (pt : ProcessTablePrintType) (dev : UInt8) (a : Arrival)

/-- The thread of the running task. -/
def thread (k : Kernel) : Thread Console Registers := k.threads k.taskManager.currentTask

/-- The running task goes on with another thread. -/
def withThread (k : Kernel) (t : Thread Console Registers) : Kernel :=
  { k with threads := Function.update k.threads k.taskManager.currentTask t }

/-- Exceptions are those of the processor, and system calls are made by a task, as far as `TaskManager.Allowed` says,
and not in the middle of a character. The programs print ASCII. -/
def Allowed (k : Kernel) : KernelEvent → Prop
  | .char c => k.thread.rest = [] ∧ IsAscii c
  | .access => k.thread.rest ≠ []
  | .interrupt (.request _) _ => True
  | .interrupt (.exception n) _ => n ≤ 0x13
  | .interrupt .syscall a => k.thread.rest = [] ∧ 0 ≤ k.taskManager.currentTask ∧
    k.taskManager.Allowed (.syscall a.mem a.esp) ∧
    ∀ str, (CPUState.load a.mem a.esp).syscall = .printf str → AsciiText (stringAt a.mem str (2 ^ 32))

/-- The kernel after an event, with the stack pointer that is handed back by an interrupt. -/
def handle (k : Kernel) : KernelEvent → Option (Kernel × Option ℕ)
  | .char c => some (k.withThread ⟨[Console.printCharCode c], k.thread.registers⟩, none)
  | .access =>
    let (textMode, t) := k.textMode.access k.thread
    some ({ k with textMode }.withThread t, none)
  | .interrupt source a => do
    let (k, esp) ← k.interrupt pt dev a source.number
    some (k, some esp)

/-- What a handler prints. -/
def deviceText (k : Kernel) : Device → List UInt8
  | .syscalls => syscallText pt a k.taskManager a.esp
  | .keyboard => KeyboardDriver.handleInterrupt KeyboardDriver.printKey a.scanCode
  | .mouse => []
  | .network =>
    match ({ k.receiver with mem := a.mem, recvBufferDescr := a.recvBufferDescr } :
      AmdAm79c973.Receiver).handleInterrupt a.cardStatus 9 with
    | some (_, text, _) => text
    | none => []

/-- What is printed by the handler of an interrupt, or for want of one. -/
def handlerText (k : Kernel) (n : UInt8) : List UInt8 :=
  match (interrupts dev).handlers n with
  | some device => k.deviceText pt a device
  | none => if n = 0x20 then [] else InterruptManager.unhandled n

/-- What an interrupt prints. -/
def interruptText (k : Kernel) (n : UInt8) : List UInt8 :=
  k.handlerText pt dev a n ++ if n = 0x20 then k.taskManager.handleText pt (.timer a.mem a.esp) else []

/-- What an event prints. -/
def text (k : Kernel) : KernelEvent → List UInt8
  | .char c => [c]
  | .access => []
  | .interrupt source a => k.interruptText pt dev a source.number

/-- The kernel when `kernelMain` activates the interrupts: `before` has been printed before the handler of the mouse is
constructed, and `after` afterwards. -/
structure Starts (videoMemory : ℤ → UInt16) (before after : List UInt8) (k : Kernel) : Prop where
  taskManager : ∃ b : TaskManager.Boot, b.Allowed ∧ k.taskManager = b.start
  textMode : ∃ mouse, k.textMode = (TextMode.start videoMemory mouse before).handle (.print after)
  threads : ∀ i, (k.threads i).rest = []
  picWrites : k.picWrites = InterruptManager.remap 0x20
  before : AsciiText before
  after : AsciiText after

/-- The runs of the kernel. -/
def system (videoMemory : ℤ → UInt16) (before after : List UInt8) : System Kernel KernelEvent where
  init := Starts videoMemory before after
  step k e k' := k.Allowed e ∧ ∃ esp, k.handle pt dev e = some (k', esp)

/-- The event does not interrupt a character. -/
def Between (k : Kernel) : KernelEvent → Prop
  | .interrupt _ _ => k.thread.rest = []
  | _ => True

/-- What has been printed, in the order in which it has begun to be. -/
def printed (before after : List UInt8) : Monitor Kernel KernelEvent Printed where
  init _ h := h = ⟨before ++ after, True⟩
  next h k e _ := ⟨h.text ++ k.text pt dev e, h.whole ∧ k.Between e⟩

end Kernel

/-! ## All texts are ASCII -/

section

variable {pt : ProcessTablePrintType} {s : TaskManager} {esp : ℕ}

/-- Tables are ASCII. -/
theorem Snapshot.isAscii_text (t : Snapshot) : AsciiText t.text := by
  have hnewline : AsciiText [newline] := by decide
  have hstars : AsciiText (ascii "********************************** ") := by decide +kernel
  have hheadline : AsciiText (ascii "PID PPID   State   Priority   Arrival Order ") := by
    decide +kernel
  have hstate : ∀ state : State, AsciiText state.text := by
    intro state
    cases state <;> decide +kernel
  have hblanks : AsciiText (ascii "    ") ∧ AsciiText (ascii "   ") ∧ AsciiText (ascii "  ") := by
    decide +kernel
  refine .flatMap fun line hline => .append ?_ hnewline
  simp only [lines, List.append_assoc, List.mem_append, List.mem_cons, List.not_mem_nil, or_false,
    List.mem_map] at hline
  rcases hline with (rfl | rfl) | ⟨r, -, rfl⟩ | rfl | rfl | rfl
  · exact hstars
  · exact hheadline
  · exact ((((((isAscii_numeralOf _).append hblanks.1).append (isAscii_numeralOf _)).append hblanks.2.1).append
      (hstate _)).append (isAscii_numeralOf _)).append hblanks.2.2 |>.append (isAscii_numeralOf _)
  · refine .append (by decide +kernel) (.flatMap fun n _ => (isAscii_numeralOf n).append ?_)
    decide
  · exact .append (by decide +kernel) (isAscii_numeralOf _)
  · exact hstars

namespace TaskManager

variable (pt : ProcessTablePrintType) (s : TaskManager) (esp : ℕ)

theorem isAscii_tableText : AsciiText s.tableText := s.snapshot.isAscii_text

theorem isAscii_scheduleText : AsciiText (s.scheduleText pt) := .ite s.schedule.1.isAscii_tableText .nil

theorem isAscii_beforeFifthText : AsciiText s.beforeFifthText :=
  .append (by decide +kernel) (isAscii_tableText _)

theorem isAscii_scheduleTickText : AsciiText (s.scheduleTickText pt esp) :=
  .ite .nil (.ite .nil (((AsciiText.ite ((isAscii_beforeFifthText _).append (isAscii_tableText _)) .nil).append
    (.ite (isAscii_beforeFifthText _) .nil)).append (isAscii_scheduleText _ _)))

theorem isAscii_waitpidText (pid : UInt32) : AsciiText (s.waitpidText pt pid esp) := by
  refine .ite ?_ (.ite .nil (.ite .nil (.ite .nil (isAscii_scheduleText _ _))))
  split
  · exact .nil
  · exact .ite .nil (isAscii_scheduleText _ _)

theorem isAscii_handleText (i : Interrupt) : AsciiText (s.handleText pt i) := by
  cases i with
  | timer mem esp => exact isAscii_scheduleTickText pt _ esp
  | syscall mem esp =>
    rw [handleText, handleInterruptText]
    cases (CPUState.load mem esp).syscall with
    | waitpid pid => exact isAscii_waitpidText pt _ esp pid
    | exit => exact .append (.ite (isAscii_tableText _) .nil) (isAscii_scheduleText _ _)
    | blockForCollatz => exact isAscii_scheduleText _ _
    | _ => exact .nil

end TaskManager

theorem isAscii_hexByte (key : UInt8) : AsciiText (hexByte key) := fun _ => KeyboardDriver.isAscii_hexByte

theorem isAscii_unhandled (n : UInt8) : AsciiText (InterruptManager.unhandled n) :=
  .append (.append (by decide +kernel) (isAscii_hexByte n)) (by decide +kernel)

namespace AmdAm79c973

variable {r r' : Receiver} {text : List UInt8} {n : ℕ}

theorem isAscii_textOf (flags : UInt32) (buffer : ℕ → UInt8) : AsciiText (textOf flags buffer) :=
  .ite (.flatMap fun i _ => .append (isAscii_hexByte (buffer i)) (by decide)) .nil

/-- The loop ends, as each iteration gives a descriptor back to the card, and prints ASCII. -/
theorem Receiver.exists_loop (r : Receiver)
    (hn : (Finset.univ.filter fun i => (r.recvBufferDescr i).IsDrivers).card < n) :
    ∃ r' text, r.loop n = some (r', text) ∧ AsciiText text := by
  induction n generalizing r with
  | zero => exact absurd hn (Nat.not_lt_zero _)
  | succ n ih =>
    by_cases hdrivers : r.descr.IsDrivers
    · have hcard : (Finset.univ.filter fun i => (r.iteration.recvBufferDescr i).IsDrivers).card <
          (Finset.univ.filter fun i => (r.recvBufferDescr i).IsDrivers).card := by
        have hnot : ¬(r.iteration.recvBufferDescr (ringIndex r.currentRecvBuffer.toNat)).IsDrivers := by
          have hself : r.iteration.recvBufferDescr (ringIndex r.currentRecvBuffer.toNat) =
              { r.descr with flags2 := 0, flags := 0x8000F7FF } := Function.update_self _ _ _
          rw [hself]
          exact (by decide : ¬(0x8000F7FF : UInt32) &&& own = 0)
        refine Finset.card_lt_card (Finset.ssubset_iff_of_subset (fun i hi => ?_) |>.2
          ⟨ringIndex r.currentRecvBuffer.toNat, ?_, ?_⟩)
        · rw [Finset.mem_filter] at hi ⊢
          refine ⟨hi.1, ?_⟩
          have hne : i ≠ ringIndex r.currentRecvBuffer.toNat := fun h => hnot (h ▸ hi.2)
          have hsame : r.iteration.recvBufferDescr i = r.recvBufferDescr i := Function.update_of_ne hne _ _
          rw [← hsame]
          exact hi.2
        · exact Finset.mem_filter.2 ⟨Finset.mem_univ _, hdrivers⟩
        · exact fun h => hnot (Finset.mem_filter.1 h).2
      obtain ⟨r', text, hloop, htext⟩ := ih r.iteration (by omega)
      refine ⟨r', r.text ++ text, ?_, (isAscii_textOf _ _).append htext⟩
      rw [loop, if_pos hdrivers, hloop]
      rfl
    · exact ⟨r, [], if_neg hdrivers, .nil⟩

theorem isAscii_message (temp bit : UInt32) {text : String} (h : AsciiText (ascii text)) :
    AsciiText (Receiver.message temp bit text) := .ite h .nil

theorem isAscii_report (temp : UInt32) (h : AsciiText text) : AsciiText (Receiver.report temp text) :=
  ((((((AsciiText.append (by decide +kernel) (isAscii_message _ _ (by decide +kernel))).append
    (isAscii_message _ _ (by decide +kernel))).append (isAscii_message _ _ (by decide +kernel))).append
    (isAscii_message _ _ (by decide +kernel))).append h).append (isAscii_message _ _ (by decide +kernel))).append
    (isAscii_message _ _ (by decide +kernel))

/-- The handler of the network card ends, whatever it finds. -/
theorem Receiver.exists_handleInterrupt (r : Receiver) (status : UInt16) :
    ∃ r' text writes, r.handleInterrupt status 9 = some (r', text, writes) ∧ AsciiText text := by
  have hcard : (Finset.univ.filter fun i => (r.recvBufferDescr i).IsDrivers).card < 9 :=
    Nat.lt_succ_of_le (Finset.card_le_univ _)
  obtain ⟨r', text, hloop, htext⟩ := r.exists_loop hcard
  by_cases hframes : hasFrames status
  · have hreceived : AsciiText (ascii "AMD am79c973 DATA RECEIVED\n" ++ text) := .append (by decide +kernel) htext
    refine ⟨r', _, [(.registerAddress, 0), (.registerAddress, 0), (.registerData, status)], ?_,
      isAscii_report status.toUInt32 hreceived⟩
    rw [handleInterrupt, if_pos hframes, receive, hloop]
    rfl
  · refine ⟨r, _, [(.registerAddress, 0), (.registerAddress, 0), (.registerData, status)], ?_,
      isAscii_report status.toUInt32 .nil⟩
    rw [handleInterrupt, if_neg hframes]
    rfl

end AmdAm79c973

end

/-! ## An interrupt -/

namespace Kernel

variable {pt : ProcessTablePrintType} {dev n : UInt8} {a : Arrival} {k k' k'' : Kernel} {text text' : List UInt8}

/-- The screen changes by what is printed, and by the mouse; the threads and the controllers are left alone. -/
structure Shows (k k' : Kernel) (text : List UInt8) : Prop where
  screen : ∃ interrupts : List TextInterrupt, k'.textMode = interrupts.foldl TextMode.handle k.textMode ∧
    interrupts.flatMap TextInterrupt.printed = text ∧ ∀ i ∈ interrupts, i.IsAscii
  threads : k'.threads = k.threads
  picWrites : k'.picWrites = k.picWrites

theorem Shows.refl (k : Kernel) : k.Shows k [] := ⟨⟨[], rfl, rfl, fun _ he => absurd he List.not_mem_nil⟩, rfl, rfl⟩

theorem Shows.interrupt (i : TextInterrupt) (h : k'.textMode = k.textMode.handle i) (hi : i.IsAscii)
    (hthreads : k'.threads = k.threads) (hwrites : k'.picWrites = k.picWrites) : k.Shows k' i.printed := by
  refine ⟨⟨[i], h, List.flatMap_singleton .., fun e he => ?_⟩, hthreads, hwrites⟩
  rwa [List.mem_singleton.1 he]

theorem Shows.trans (h : k.Shows k' text) (h' : k'.Shows k'' text') : k.Shows k'' (text ++ text') := by
  obtain ⟨⟨interrupts, hk, rfl, hascii⟩, hthreads, hwrites⟩ := h
  obtain ⟨⟨interrupts', hk', rfl, hascii'⟩, hthreads', hwrites'⟩ := h'
  refine ⟨⟨interrupts ++ interrupts', ?_, List.flatMap_append .., List.forall_mem_append.2 ⟨hascii, hascii'⟩⟩,
    hthreads'.trans hthreads, hwrites'.trans hwrites⟩
  rw [List.foldl_append, ← hk, hk']

theorem Shows.inv {videoMemory : ℤ → UInt16} (h : k.Shows k' text') (hinv : TextMode.Inv videoMemory text k.textMode) :
    TextMode.Inv videoMemory (text ++ text') k'.textMode := by
  obtain ⟨interrupts, hk, rfl, hascii⟩ := h.screen
  rw [hk]
  exact hinv.foldl_handle hascii

theorem Shows.pointer (h : k.Shows k' text) (hpointer : k.textMode.PointerOnScreen) : k'.textMode.PointerOnScreen := by
  obtain ⟨interrupts, hk, -, -⟩ := h.screen
  rw [hk]
  exact hpointer.foldl_handle

@[simp] theorem taskManager_printf : (k.printf text).taskManager = k.taskManager := by simp only [printf]

theorem shows_printf (h : AsciiText text) : k.Shows (k.printf text) text := .interrupt (.print text) rfl h rfl rfl

/-- What a handler does. Only system calls are noticed by the task manager, or move the stack pointer. -/
theorem handleInterrupt_spec (k : Kernel) (device : Device)
    (hcall : device = .syscalls → AsciiText (syscallText pt a k.taskManager a.esp)) :
    ∃ k' esp, k.handleInterrupt pt a a.esp device = some (k', esp) ∧ k.Shows k' (k.deviceText pt a device) ∧
      (k'.taskManager, esp) =
        if device = .syscalls then k.taskManager.handle (.syscall a.mem a.esp) else (k.taskManager, a.esp) := by
  cases device with
  | syscalls =>
    exact ⟨_, _, rfl, .interrupt (.print (syscallText pt a k.taskManager a.esp)) rfl (hcall rfl) rfl rfl, rfl⟩
  | keyboard => exact ⟨_, _, rfl, .interrupt (.key a.scanCode) rfl trivial rfl rfl, rfl⟩
  | mouse => exact ⟨_, _, rfl, .interrupt (.mouse a.mouseStatus a.mouseData) rfl trivial rfl rfl, rfl⟩
  | network =>
    obtain ⟨r', text, writes, hr, htext⟩ := AmdAm79c973.Receiver.exists_handleInterrupt
      { k.receiver with mem := a.mem, recvBufferDescr := a.recvBufferDescr } a.cardStatus
    refine ⟨{ k with receiver := r' }.printf text, a.esp, ?_, ?_, rfl⟩
    · rw [handleInterrupt, hr]
      rfl
    · rw [deviceText, hr]
      exact .interrupt (.print text) rfl htext rfl rfl

/-- The table of the handlers. -/
theorem handlers_interrupts : (interrupts dev).handlers n =
    if n = dev + 0x20 then some .network else if n = 0x2C then some .mouse else if n = 0x21 then some .keyboard
    else if n = 0xA0 then some .syscalls else none := by
  simp only [interrupts, InterruptManager.register, InterruptManager.construct, Function.update_apply]
  rfl

/-- System calls are handled as such, unless the network card takes their place. -/
theorem handlers_eq_syscalls (hdev : dev ≠ 0x80) : (interrupts dev).handlers n = some .syscalls ↔ n = 0xA0 := by
  have hne : dev + 0x20 ≠ 0xA0 := fun h => hdev ((UInt8.add_left_inj 0x20).1 h)
  rw [handlers_interrupts]
  constructor
  · intro h
    by_contra hn
    rw [if_neg hn] at h
    split_ifs at h <;> cases h
  · rintro rfl
    rw [if_neg hne.symm, if_neg (by decide), if_neg (by decide), if_pos rfl]

/-- How an interrupt is acknowledged. -/
def acknowledgements (n : UInt8) : List (PicPort × UInt8) :=
  if 0x20 ≤ n.toNat ∧ n.toNat < 0x30 then
    (.masterCommand, 0x20) :: if 0x28 ≤ n.toNat then [(.slaveCommand, 0x20)] else []
  else []

theorem toNat_eq_timer : n.toNat = 0x20 ↔ n = 0x20 := UInt8.toNat_inj (b := 0x20)

/-- What the handler of an interrupt does, if there is one. -/
theorem callHandler_spec (hdev : dev ≠ 0x80) (k : Kernel) (n : UInt8)
    (hcall : n = 0xA0 → AsciiText (syscallText pt a k.taskManager a.esp)) :
    ∃ k' esp, InterruptManager.callHandler (interrupts dev) (calls pt a) k n a.esp = some (k', esp) ∧
      k.Shows k' (k.handlerText pt dev a n) ∧ (k'.taskManager, esp) =
        if n = 0xA0 then k.taskManager.handle (.syscall a.mem a.esp) else (k.taskManager, a.esp) := by
  have hoffset : (interrupts dev).hardwareInterruptOffset.toNat = 0x20 := rfl
  have hsyscalls := handlers_eq_syscalls (n := n) hdev
  simp only [InterruptManager.callHandler, hoffset, ne_eq, toNat_eq_timer, handlerText]
  cases hhandler : (interrupts dev).handlers n with
  | some device =>
    rw [hhandler, Option.some_inj] at hsyscalls
    obtain ⟨k', esp, hk, hshows, htasks⟩ := k.handleInterrupt_spec device fun h => hcall (hsyscalls.1 h)
    refine ⟨k', esp, hk, hshows, ?_⟩
    rw [htasks]
    exact if_congr hsyscalls rfl rfl
  | none =>
    rw [hhandler] at hsyscalls
    have hn : n ≠ 0xA0 := fun h => by cases hsyscalls.2 h
    rw [if_neg hn]
    dsimp only
    by_cases h0 : n = 0x20
    · rw [if_neg (not_not.2 h0), if_pos h0]
      exact ⟨k, a.esp, rfl, .refl k, rfl⟩
    · rw [if_pos h0, if_neg h0]
      exact ⟨k.printf (InterruptManager.unhandled n), a.esp, rfl, shows_printf (isAscii_unhandled n),
        by rw [taskManager_printf]⟩

/-- The kernel after the acknowledgement of an interrupt. -/
def acknowledge (n : UInt8) (r : Kernel × ℕ) : Kernel × ℕ :=
  ({ r.1 with picWrites := r.1.picWrites ++ acknowledgements n }, r.2)

theorem interrupt_eq {esp : ℕ}
    (h : InterruptManager.callHandler (interrupts dev) (calls pt a) k n a.esp = some (k', esp)) :
    k.interrupt pt dev a n =
      some (acknowledge n (if n = 0x20 then k'.schedule pt a esp else (k', esp))) := by
  have hoffset : (interrupts dev).hardwareInterruptOffset.toNat = 0x20 := rfl
  have hacknowledge : ∀ k : Kernel, InterruptManager.acknowledge (interrupts dev) (calls pt a) k n =
      { k with picWrites := k.picWrites ++ acknowledgements n } := fun k => by
    simp only [InterruptManager.acknowledge, hoffset, acknowledgements]
    split_ifs <;> simp [calls]
  rw [interrupt, InterruptManager.handleInterrupt, InterruptManager.doHandleInterrupt, h]
  simp only [hoffset, toNat_eq_timer, hacknowledge]
  rfl

/-- What the scheduler does. -/
theorem schedule_spec (pt : ProcessTablePrintType) (a : Arrival) (k : Kernel) (esp : ℕ) :
    k.Shows (k.schedule pt a esp).1 (k.taskManager.handleText pt (.timer a.mem esp)) ∧
      ((k.schedule pt a esp).1.taskManager, (k.schedule pt a esp).2) = k.taskManager.handle (.timer a.mem esp) := by
  refine ⟨?_, ?_⟩
  · exact .interrupt (.print (k.taskManager.handleText pt (.timer a.mem esp))) rfl
      (k.taskManager.isAscii_handleText pt _) rfl rfl
  · simp only [schedule, taskManager_printf]

/-- What an interrupt does. Only the timer and system calls are noticed by the task manager, or move the stack
pointer. -/
theorem interrupt_spec (hdev : dev ≠ 0x80) (k : Kernel) (n : UInt8)
    (hcall : n = 0xA0 → AsciiText (syscallText pt a k.taskManager a.esp)) :
    ∃ k₁ k' esp, k.interrupt pt dev a n = some (k', esp) ∧ k.Shows k₁ (k.interruptText pt dev a n) ∧
      k' = { k₁ with picWrites := k.picWrites ++ acknowledgements n } ∧ (k'.taskManager, esp) =
        if n = 0x20 then k.taskManager.handle (.timer a.mem a.esp)
        else if n = 0xA0 then k.taskManager.handle (.syscall a.mem a.esp) else (k.taskManager, a.esp) := by
  obtain ⟨k₁, esp₁, hcalled, hshows, htasks⟩ := k.callHandler_spec hdev n hcall
  rw [interrupt_eq hcalled, interruptText]
  by_cases h0 : n = 0x20
  · -- The timer goes on to the task manager.
    have hn : n ≠ 0xA0 := by
      rw [h0]
      decide
    rw [if_neg hn] at htasks
    obtain ⟨htm, rfl⟩ := Prod.mk.inj htasks
    obtain ⟨hshows', htasks'⟩ := k₁.schedule_spec pt a a.esp
    rw [htm] at hshows' htasks'
    simp only [if_pos h0]
    have hshown := hshows.trans hshows'
    refine ⟨_, _, _, rfl, hshown, ?_, htasks'⟩
    rw [← hshown.picWrites]
  · simp only [if_neg h0, List.append_nil]
    refine ⟨_, _, _, rfl, hshows, ?_, htasks⟩
    rw [← hshows.picWrites]

/-! ## An event -/

variable {e : KernelEvent} {source : Source} {videoMemory : ℤ → UInt16} {before after : List UInt8}
  {labels : List KernelEvent}

theorem number_eq_timer : ∀ irq, (Source.request irq).number = 0x20 ↔ irq = 0 := by decide

theorem number_ne_syscall : ∀ irq, (Source.request irq).number ≠ 0xA0 := by decide

theorem acknowledgements_request :
    ∀ irq, acknowledgements (Source.request irq).number = (Source.request irq).acknowledgements := by decide

/-- Where an interrupt comes from is known by its number, and so is how it is acknowledged. -/
theorem number_spec (hallowed : k.Allowed (.interrupt source a)) :
    (source.number = 0x20 ↔ source = .request 0) ∧ (source.number = 0xA0 ↔ source = .syscall) ∧
      acknowledgements source.number = source.acknowledgements := by
  cases source with
  | request irq =>
    simp only [number_eq_timer, acknowledgements_request, number_ne_syscall, Source.request.injEq, reduceCtorEq,
      and_self]
  | exception n =>
    have hle : n.toNat ≤ 19 := UInt8.le_iff_toNat_le.1 hallowed
    have hne : ∀ m : UInt8, 20 ≤ m.toNat → n ≠ m := by
      rintro m hm rfl
      omega
    refine ⟨iff_of_false (hne _ (by decide)) (by simp), iff_of_false (hne _ (by decide)) (by simp), ?_⟩
    exact if_neg fun h : 0x20 ≤ n.toNat ∧ n.toNat < 0x30 => absurd h.1 (by omega)
  | syscall => exact ⟨iff_of_false (by decide) (by simp), iff_of_true rfl rfl, rfl⟩

/-- The task manager and the stack pointer after an event. -/
def resumed (k : Kernel) (e : KernelEvent) : TaskManager × Option ℕ :=
  match e.toInterrupt with
  | some i => ((k.taskManager.handle i).1, some (k.taskManager.handle i).2)
  | none => (k.taskManager, e.esp)

/-- What an interrupt does, wherever it comes from. -/
theorem handle_interrupt_spec (pt : ProcessTablePrintType) (hdev : dev ≠ 0x80)
    (hallowed : k.Allowed (.interrupt source a)) :
    ∃ k₁ k' esp, k.handle pt dev (.interrupt source a) = some (k', esp) ∧
      k.Shows k₁ (k.interruptText pt dev a source.number) ∧
      k' = { k₁ with picWrites := k.picWrites ++ source.acknowledgements } ∧
      (k'.taskManager, esp) = k.resumed (.interrupt source a) := by
  obtain ⟨htimer, hsyscall, hacknowledged⟩ := number_spec hallowed
  have hcall : source.number = 0xA0 → AsciiText (syscallText pt a k.taskManager a.esp) := by
    intro h
    obtain rfl := hsyscall.1 h
    obtain ⟨-, -, -, htext⟩ := hallowed
    rw [syscallText]
    cases hcall : (CPUState.load a.mem a.esp).syscall with
    | printf str => exact htext str hcall
    | _ => exact TaskManager.isAscii_handleText pt _ _
  obtain ⟨k₁, k', esp, hk, hshows, hk', htasks⟩ := k.interrupt_spec hdev source.number hcall
  rw [hacknowledged] at hk'
  refine ⟨k₁, k', some esp, ?_, hshows, hk', ?_⟩
  · rw [handle, hk]
    rfl
  · rw [if_congr htimer rfl (if_congr hsyscall rfl rfl)] at htasks
    have hsplit : ∀ r : TaskManager × ℕ, (k'.taskManager, esp) = r → (k'.taskManager, some esp) = (r.1, some r.2) := by
      rintro r rfl
      rfl
    refine (hsplit _ htasks).trans ?_
    cases source with
    | request irq =>
      by_cases h0 : irq = 0
      · rw [h0, if_pos rfl]
        rfl
      · have hnot : KernelEvent.toInterrupt (.interrupt (.request irq) a) = none :=
          if_neg fun h => h0 (Fin.ext h)
        rw [if_neg (by simpa using h0), if_neg (by simp), resumed, hnot]
        rfl
    | exception n => rfl
    | syscall => rfl

/-- What an event does. -/
theorem handle_spec (pt : ProcessTablePrintType) (hdev : dev ≠ 0x80) (hallowed : k.Allowed e) :
    ∃ k' esp, k.handle pt dev e = some (k', esp) ∧ k'.picWrites = k.picWrites ++ e.acknowledgements ∧
      (k'.taskManager, esp) = k.resumed e := by
  cases e with
  | char c => exact ⟨_, _, rfl, (List.append_nil _).symm, rfl⟩
  | access => exact ⟨_, _, rfl, (List.append_nil _).symm, rfl⟩
  | interrupt source a =>
    obtain ⟨k₁, k', esp, hk, -, rfl, htasks⟩ := handle_interrupt_spec pt hdev hallowed
    exact ⟨_, esp, hk, rfl, htasks⟩

/-! ## Runs -/

@[simp] theorem thread_withThread (t : Thread Console Registers) : (k.withThread t).thread = t :=
  Function.update_self ..

/-- The pointer is on the screen, the task manager is as `startInitProcess` left it, or is reached in one of its runs,
and if no character has been interrupted, only the thread of the running task is about one, and the others are done. -/
structure Inv (videoMemory : ℤ → UInt16) (q : Printed) (k : Kernel) : Prop where
  pointer : k.textMode.PointerOnScreen
  tasks : (∃ b : TaskManager.Boot, b.Allowed ∧ k.taskManager = b.start) ∨ TaskManager.system.Reachable k.taskManager
  prints : q.whole → TextMode.Prints videoMemory q.text k.textMode k.thread
  threads : q.whole → ∀ i, i ≠ k.taskManager.currentTask → (k.threads i).rest = []

theorem Starts.inv (h : Starts videoMemory before after k) : Inv videoMemory ⟨before ++ after, True⟩ k := by
  obtain ⟨mouse, hmouse⟩ := h.textMode
  have hafter : (TextInterrupt.print after).IsAscii := h.after
  have hinv : TextMode.Inv videoMemory (before ++ after) k.textMode := by
    rw [hmouse]
    exact (TextMode.inv_start h.before).handle hafter
  exact ⟨hinv.pointerOnScreen, .inl h.taskManager, fun _ => .between hinv (h.threads _), fun _ i _ => h.threads i⟩

/-- Interrupts of the task manager are those of one of its runs, or the first tick. -/
theorem Inv.tasks_handle {q : Printed} (h : Inv videoMemory q k) (hallowed : k.Allowed e) {i : TaskManager.Interrupt}
    (hi : e.toInterrupt = some i) : TaskManager.system.Reachable (k.taskManager.handle i).1 := by
  cases e with
  | char c => cases hi
  | access => cases hi
  | interrupt source a =>
    cases source with
    | exception n => cases hi
    | request irq =>
      simp only [KernelEvent.toInterrupt] at hi
      split_ifs at hi
      obtain rfl := Option.some.inj hi
      rcases h.tasks with ⟨b, hb, hk⟩ | hreach
      · -- The first tick.
        rw [hk]
        exact .init ⟨{ b with mem := a.mem, esp := a.esp }, hb, rfl⟩
      · exact hreach.step (i := .timer a.mem a.esp) ⟨trivial, rfl⟩
    | syscall =>
      obtain rfl := Option.some.inj hi
      obtain ⟨-, hcurrent, hallowed, -⟩ := hallowed
      rcases h.tasks with ⟨b, hb, hk⟩ | hreach
      · obtain ⟨-, -, hnone, -⟩ := TaskManager.Boot.start_spec hb
        rw [hk, hnone] at hcurrent
        exact absurd hcurrent (by decide)
      · exact hreach.step ⟨hallowed, rfl⟩

/-- The task manager after an interrupt. -/
theorem Inv.tasks_resumed {q : Printed} (h : Inv videoMemory q k) (hallowed : k.Allowed e) :
    (∃ b : TaskManager.Boot, b.Allowed ∧ (k.resumed e).1 = b.start) ∨ TaskManager.system.Reachable (k.resumed e).1 := by
  rw [resumed]
  cases hi : e.toInterrupt with
  | none => exact h.tasks
  | some i => exact .inr (h.tasks_handle hallowed hi)

theorem Inv.step {q : Printed} (hdev : dev ≠ 0x80) (h : Inv videoMemory q k) (hallowed : k.Allowed e) {esp : Option ℕ}
    (hk : k.handle pt dev e = some (k', esp)) :
    Inv videoMemory ⟨q.text ++ k.text pt dev e, q.whole ∧ k.Between e⟩ k' := by
  cases e with
  | char c =>
    obtain ⟨ht, hc⟩ := hallowed
    obtain ⟨rfl, -⟩ := Prod.mk.inj (Option.some.inj hk)
    refine ⟨h.pointer, h.tasks, fun ⟨hwhole, _⟩ => ?_, fun ⟨hwhole, _⟩ i hi => ?_⟩
    · rw [thread_withThread]
      exact (h.prints hwhole).char ht hc
    · exact (congrArg Thread.rest (Function.update_of_ne hi _ _)).trans (h.threads hwhole i hi)
  | access =>
    obtain ⟨rfl, -⟩ := Prod.mk.inj (Option.some.inj hk)
    refine ⟨h.pointer, h.tasks, fun ⟨hwhole, _⟩ => ?_, fun ⟨hwhole, _⟩ i hi => ?_⟩
    · rw [thread_withThread, text, List.append_nil]
      exact (h.prints hwhole).access
    · exact (congrArg Thread.rest (Function.update_of_ne hi _ _)).trans (h.threads hwhole i hi)
  | interrupt source a =>
    have htasks := h.tasks_resumed hallowed
    obtain ⟨k₁, k'', esp', hk'', hshows, rfl, hresumed⟩ := handle_interrupt_spec pt hdev hallowed
    obtain ⟨rfl, rfl⟩ := Prod.mk.inj (Option.some.inj (hk''.symm.trans hk))
    rw [← hresumed] at htasks
    -- No thread is about a character, so that it does not matter which one goes on.
    have hidle : q.whole ∧ k.thread.rest = [] → ∀ i, (k₁.threads i).rest = [] := by
      rintro ⟨hwhole, ht⟩ i
      rw [hshows.threads]
      by_cases hi : i = k.taskManager.currentTask
      · rw [hi]
        exact ht
      · exact h.threads hwhole i hi
    refine ⟨hshows.pointer h.pointer, htasks, fun hwhole => .between ?_ (hidle hwhole _), fun hwhole i _ =>
      hidle hwhole i⟩
    exact hshows.inv ((h.prints hwhole.1).inv hwhole.2)

theorem inv_of_reachable (hdev : dev ≠ 0x80) {p : Kernel × Printed}
    (h : ((system pt dev videoMemory before after).monitored (printed pt dev before after)).Reachable p) :
    Inv videoMemory p.2 p.1 :=
  h.invariant (P := fun p => Inv videoMemory p.2 p.1)
    (fun p h => by
      obtain ⟨hstarts, hq⟩ := h
      have hq : p.2 = ⟨before ++ after, True⟩ := hq
      rw [hq]
      exact hstarts.inv)
    fun p e p' _ hinv hstep => by
      obtain ⟨⟨hallowed, esp, hk⟩, hq⟩ := hstep
      rw [hq]
      exact hinv.step hdev hallowed hk

theorem exists_inv (hdev : dev ≠ 0x80) (h : (system pt dev videoMemory before after).Reachable k) :
    ∃ q, Inv videoMemory q k :=
  h.invariant (P := fun k => ∃ q, Inv videoMemory q k) (fun _ hstarts => ⟨_, hstarts.inv⟩) fun _ _ _ _ hinv hstep => by
    obtain ⟨q, hinv⟩ := hinv
    obtain ⟨hallowed, esp, hk⟩ := hstep
    exact ⟨_, hinv.step hdev hallowed hk⟩

/-- **Every interrupt is served.** However the requests of the hardware, the exceptions and the system calls fall among
the accesses of the programs that print, the pointer of the mouse stays on the screen, and every event is handled in the
end: a request is acknowledged once at each controller that it comes through, and nothing else is; and the task that has
been interrupted does not notice it, unless it is for the task manager. If no character has been interrupted, the screen
shows the page of all that has been printed. -/
theorem interrupts_served {q : Printed} (hdev : dev ≠ 0x80)
    (h : ((system pt dev videoMemory before after).monitored (printed pt dev before after)).Reachable (k, q)) :
    (k.textMode.PointerOnScreen ∧
      (q.whole → k.thread.rest = [] → Displays videoMemory (.ofText q.text) k.textMode.console ∧
        ∀ j, colours (k.textMode.console.videoMemory j) = colours (swapCell videoMemory k.textMode.pointer.index j))) ∧
    ∀ e, k.Allowed e → ∃ k' esp, k.handle pt dev e = some (k', esp) ∧
      k'.picWrites = k.picWrites ++ e.acknowledgements ∧
      (e.toInterrupt = none → k'.taskManager = k.taskManager ∧ esp = e.esp) := by
  have hinv := inv_of_reachable hdev h
  refine ⟨⟨hinv.pointer, fun hwhole ht => ?_⟩, fun e hallowed => ?_⟩
  · have hprinted := (hinv.prints hwhole).inv ht
    exact ⟨hprinted.displays, hprinted.colours_eq⟩
  · obtain ⟨k', esp, hk, hwrites, htasks⟩ := handle_spec pt hdev hallowed
    refine ⟨k', esp, hk, hwrites, fun hnone => ?_⟩
    rw [resumed, hnone] at htasks
    exact Prod.mk.inj htasks

/-- A start of the kernel. -/
def sampleKernel : Kernel where
  taskManager := TaskManager.sampleBoot.start
  textMode := (TextMode.start (fun _ => 0x0720) ⟨fun _ => 0, 0, 0⟩ (ascii "Hello World!")).handle (.print (ascii "\n"))
  receiver := .construct (fun _ => 0) 4096 fun _ => 0
  threads := fun _ => ⟨[], 0, 0, 0⟩
  picWrites := InterruptManager.remap 0x20

/-- What is found if the key of an `a` has been pressed. -/
def sampleArrival : Arrival := ⟨TaskManager.sampleBoot.mem, 0, fun _ => ⟨0, 0x8000F7FF, 0, 0⟩, 0x1E, 0, 0, 0⟩

theorem sampleKernel_starts : Starts (fun _ => 0x0720) (ascii "Hello World!") (ascii "\n") sampleKernel :=
  ⟨⟨_, TaskManager.sampleBoot_allowed, rfl⟩, ⟨_, rfl⟩, fun _ => rfl, rfl, by decide +kernel, by decide +kernel⟩

/-- Its runs, with the network card at line 9. -/
abbrev sampleSystem : System Kernel KernelEvent :=
  system .doNotPrint 9 (fun _ => 0x0720) (ascii "Hello World!") (ascii "\n")

abbrev samplePrinted : Monitor Kernel KernelEvent Printed :=
  printed .doNotPrint 9 (ascii "Hello World!") (ascii "\n")

/-- A key is pressed before the first tick. -/
theorem interrupts_served_sampleKernel :
    ∃ k esp, sampleKernel.handle .doNotPrint 9 (.interrupt (.request 1) sampleArrival) = some (k, esp) ∧
      k.picWrites = InterruptManager.remap 0x20 ++ [(.masterCommand, 0x20)] ∧
      k.taskManager = sampleKernel.taskManager ∧
      Displays (fun _ => 0x0720) (.ofText (ascii "Hello World!\na")) k.textMode.console := by
  have hdev : (9 : UInt8) ≠ 0x80 := by decide
  have hreach : (sampleSystem.monitored samplePrinted).Reachable
      (sampleKernel, ⟨ascii "Hello World!" ++ ascii "\n", True⟩) := .init ⟨sampleKernel_starts, rfl⟩
  have hserved := (interrupts_served hdev hreach).2
  obtain ⟨k, esp, hk, hwrites, hsame⟩ := hserved (.interrupt (.request 1) sampleArrival) trivial
  have htext : (ascii "Hello World!" ++ ascii "\n") ++
      sampleKernel.text .doNotPrint 9 (.interrupt (.request 1) sampleArrival) = ascii "Hello World!\na" := by
    decide +kernel
  have hstep : (sampleSystem.monitored samplePrinted).step
      (sampleKernel, ⟨ascii "Hello World!" ++ ascii "\n", True⟩) (.interrupt (.request 1) sampleArrival)
      (k, ⟨ascii "Hello World!\na", True ∧ sampleKernel.thread.rest = []⟩) := by
    rw [← htext]
    exact ⟨⟨trivial, esp, hk⟩, rfl⟩
  have hallowed : sampleKernel.Allowed (.interrupt (.request 1) sampleArrival) := trivial
  have hidle : k.thread.rest = [] := by
    obtain ⟨k₁, k', esp', hk', hshows, rfl, -⟩ := handle_interrupt_spec .doNotPrint hdev hallowed
    obtain ⟨rfl, -⟩ := Prod.mk.inj (Option.some.inj (hk'.symm.trans hk))
    rw [thread, hshows.threads]
    rfl
  have hshown := (interrupts_served hdev (hreach.step hstep)).1.2 ⟨trivial, rfl⟩ hidle
  exact ⟨k, esp, hk, hwrites, (hsame rfl).1, hshown.1⟩

/-- The kernel simulates the task manager. -/
theorem simulates (hdev : dev ≠ 0x80) : (system pt dev videoMemory before after).Simulates TaskManager.system
    KernelEvent.toInterrupt fun k s => k.taskManager = s := by
  rintro k _ e k' rfl ⟨hallowed, esp, hk⟩
  obtain ⟨k'', esp', hk'', -, htasks⟩ := handle_spec pt hdev hallowed
  obtain ⟨rfl, rfl⟩ := Prod.mk.inj (Option.some.inj (hk''.symm.trans hk))
  have htm : k''.taskManager = (k.resumed e).1 := congrArg Prod.fst htasks
  refine ⟨k''.taskManager, ?_, rfl⟩
  rw [resumed] at htm
  cases hi : e.toInterrupt with
  | none =>
    rw [hi] at htm
    exact htm
  | some i =>
    rw [hi] at htm
    refine ⟨?_, htm.symm⟩
    -- The task manager allows what the kernel does.
    cases e with
    | char c => cases hi
    | access => cases hi
    | interrupt source a =>
      cases source with
      | exception n => cases hi
      | request irq =>
        simp only [KernelEvent.toInterrupt] at hi
        split_ifs at hi
        obtain rfl := Option.some.inj hi
        trivial
      | syscall =>
        obtain rfl := Option.some.inj hi
        exact hallowed.2.2.1

/-- **The devices do not disturb the scheduling.** Once a task is running, the timer ticks and system calls of a run of
the kernel are a run of the task manager by itself, from a state that it reaches, with the same states. -/
theorem runs_taskManager (hdev : dev ≠ 0x80) (h : (system pt dev videoMemory before after).Reachable k)
    (hrun : 0 ≤ k.taskManager.currentTask) (hruns : (system pt dev videoMemory before after).Runs k labels k') :
    TaskManager.system.Reachable k.taskManager ∧
      TaskManager.system.Runs k.taskManager (labels.filterMap KernelEvent.toInterrupt) k'.taskManager := by
  obtain ⟨q, hinv⟩ := exists_inv hdev h
  refine ⟨?_, ?_⟩
  · rcases hinv.tasks with ⟨b, hb, hk⟩ | hreach
    · obtain ⟨-, -, hnone, -⟩ := TaskManager.Boot.start_spec hb
      rw [hk, hnone] at hrun
      exact absurd hrun (by decide)
    · exact hreach
  · obtain ⟨s, hs, hk'⟩ := (simulates hdev).runs rfl hruns
    rwa [← hk'] at hs

/-- After the first tick, the task is interrupted within a character, by a key and by the timer. -/
theorem runs_taskManager_sampleKernel : ∃ k k' : Kernel, k.taskManager = TaskManager.sampleState ∧
    sampleSystem.Runs k
      [.char 0x41, .interrupt (.request 1) sampleArrival, .interrupt (.request 0) sampleArrival] k' ∧
    TaskManager.system.Runs TaskManager.sampleState [.timer sampleArrival.mem 0] k'.taskManager := by
  have hinit : sampleSystem.Reachable sampleKernel := .init sampleKernel_starts
  have hdev : (9 : UInt8) ≠ 0x80 := by decide
  have hallowed : sampleKernel.Allowed (.interrupt (.request 0) sampleArrival) := trivial
  obtain ⟨k₁, k, esp, hk, hshows, rfl, htasks⟩ := handle_interrupt_spec .doNotPrint hdev hallowed
  have hstate : k₁.taskManager = TaskManager.sampleState := congrArg Prod.fst htasks
  let k : Kernel := { k₁ with picWrites := sampleKernel.picWrites ++ (Source.request 0).acknowledgements }
  let kchar : Kernel := k.withThread ⟨[Console.printCharCode 0x41], k.thread.registers⟩
  have hchar : k.Allowed (.char 0x41) := by
    refine ⟨?_, by decide⟩
    change (k₁.threads k₁.taskManager.currentTask).rest = []
    rw [hshows.threads]
    rfl
  obtain ⟨kkey, espkey, hkey, -⟩ := handle_spec (k := kchar) (e := .interrupt (.request 1) sampleArrival) .doNotPrint
    hdev trivial
  obtain ⟨ktick, esptick, hlast, -⟩ := handle_spec (k := kkey) (e := .interrupt (.request 0) sampleArrival) .doNotPrint
    hdev trivial
  have hsteps : sampleSystem.step k (.char 0x41) kchar ∧
      sampleSystem.step kchar (.interrupt (.request 1) sampleArrival) kkey ∧
      sampleSystem.step kkey (.interrupt (.request 0) sampleArrival) ktick :=
    ⟨⟨hchar, none, rfl⟩, ⟨trivial, espkey, hkey⟩, trivial, esptick, hlast⟩
  have hruns := ((System.Runs.refl.step hsteps.1).step hsteps.2.1).step hsteps.2.2
  have hrun : 0 ≤ k.taskManager.currentTask := by
    change 0 ≤ k₁.taskManager.currentTask
    rw [hstate]
    exact (TaskManager.inv_of_reachable TaskManager.sampleState_reachable).currentTask_nonneg
  have htick : sampleSystem.step sampleKernel (.interrupt (.request 0) sampleArrival) k := ⟨trivial, esp, hk⟩
  have hmanager := (runs_taskManager hdev (hinit.step htick) hrun hruns).2
  change TaskManager.system.Runs k₁.taskManager _ _ at hmanager
  rw [hstate] at hmanager
  exact ⟨k, ktick, hstate, hruns, hmanager⟩

end Kernel

end GtuOs

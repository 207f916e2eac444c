import GtuOs.Console.PrintInteger
import GtuOs.Lib.System
import Mathlib.Data.Fintype.Basic

/-!
# The interrupt manager

`interrupts.cpp`, but for the descriptor table: the constructor writes to the two interrupt controllers (`remap`),
handlers enter themselves in a table as they are constructed, and `DoHandleInterrupt` calls them and acknowledges the
interrupts of the hardware. Of the controllers, there is only what is written to their ports.

A handler that is destroyed is taken out of the table, unless another one has taken its place. In every run the table
holds the handler that was constructed last for a number, if it is still there, and none that is not (`entries_live`).
-/

namespace GtuOs

/-! ## The manager -/

/-- The ports of the two interrupt controllers. -/
inductive PicPort
  | masterCommand
  | masterData
  | slaveCommand
  | slaveData
  deriving DecidableEq

/-- The members used by `DoHandleInterrupt`; `α` are the handlers. -/
structure InterruptManager (α : Type*) where
  hardwareInterruptOffset : UInt16
  handlers : UInt8 → Option α

/-- What `DoHandleInterrupt` calls: `HandleInterrupt` of a handler, which may not end, `printf`, `Schedule` of the task
manager, and the writes to the ports of the controllers. -/
structure InterruptCalls (α σ : Type*) where
  handleInterrupt : α → σ → ℕ → Option (σ × ℕ)
  printf : List UInt8 → σ → σ
  schedule : σ → ℕ → σ × ℕ
  write : PicPort → UInt8 → σ → σ

namespace InterruptManager

variable {α σ : Type*}

/-- The constructor. -/
def construct (hardwareInterruptOffset : UInt16) : InterruptManager α := ⟨hardwareInterruptOffset, fun _ => none⟩

/-- The writes of the constructor to the controllers. -/
def remap (hardwareInterruptOffset : UInt16) : List (PicPort × UInt8) :=
  [(.masterCommand, 0x11), (.slaveCommand, 0x11),
    (.masterData, hardwareInterruptOffset.toUInt8), (.slaveData, (hardwareInterruptOffset + 8).toUInt8),
    (.masterData, 0x04), (.slaveData, 0x02),
    (.masterData, 0x01), (.slaveData, 0x01),
    (.masterData, 0x00), (.slaveData, 0x00)]

/-- The constructor of `InterruptHandler`. -/
def register (m : InterruptManager α) (handler : α) (interruptNumber : UInt8) : InterruptManager α :=
  { m with handlers := Function.update m.handlers interruptNumber (some handler) }

/-- The destructor of `InterruptHandler`. -/
def unregister [DecidableEq α] (m : InterruptManager α) (handler : α) (interruptNumber : UInt8) :
    InterruptManager α :=
  if m.handlers interruptNumber = some handler then
    { m with handlers := Function.update m.handlers interruptNumber none }
  else m

/-- The message for an interrupt without a handler. -/
def unhandled (interrupt : UInt8) : List UInt8 :=
  ascii "UNHANDLED INTERRUPT 0x" ++ hexByte interrupt ++ ascii "\n"

variable (m : InterruptManager α) (e : InterruptCalls α σ) (s : σ) (interrupt : UInt8) (esp : ℕ)

/-- The handler of the interrupt is called, if it has one. -/
def callHandler : Option (σ × ℕ) :=
  match m.handlers interrupt with
  | some handler => e.handleInterrupt handler s esp
  | none =>
    if interrupt.toNat ≠ m.hardwareInterruptOffset.toNat then some (e.printf (unhandled interrupt) s, esp)
    else some (s, esp)

/-- The interrupts of the hardware are acknowledged. -/
def acknowledge : σ :=
  if m.hardwareInterruptOffset.toNat ≤ interrupt.toNat ∧ interrupt.toNat < m.hardwareInterruptOffset.toNat + 16 then
    let s := e.write .masterCommand 0x20 s
    if m.hardwareInterruptOffset.toNat + 8 ≤ interrupt.toNat then e.write .slaveCommand 0x20 s else s
  else s

/-- `DoHandleInterrupt`, with the stack pointer that is handed back. -/
def doHandleInterrupt : Option (σ × ℕ) := do
  let (s, esp) ← callHandler m e s interrupt esp
  let (s, esp) := if interrupt.toNat = m.hardwareInterruptOffset.toNat then e.schedule s esp else (s, esp)
  some (acknowledge m e s interrupt, esp)

/-- `HandleInterrupt`, with the manager that is active, if there is one. -/
def handleInterrupt (active : Option (InterruptManager α)) : Option (σ × ℕ) :=
  match active with
  | some m => m.doHandleInterrupt e s interrupt esp
  | none => some (s, esp)

end InterruptManager

/-! ## The table of handlers -/

/-- What a program does with its managers `M` and handlers `α`. -/
inductive HandlerEvent (M α : Type*)
  | construct (handler : α) (manager : M) (interruptNumber : UInt8)
  | destroy (handler : α)
  | activate (manager : M)
  | deactivate (manager : M)

/-- The managers, the members of the handlers that are there, `ActiveInterruptManager`, and whether the processor
takes interrupts. -/
structure Registry (M α : Type*) where
  managers : M → InterruptManager α
  members : α → Option (M × UInt8)
  active : Option M
  enabled : Bool

namespace Registry

variable {M α : Type*} [DecidableEq M] [DecidableEq α]

/-- `Deactivate`. -/
def deactivate (s : Registry M α) (manager : M) : Registry M α :=
  if s.active = some manager then { s with active := none, enabled := false } else s

/-- `Activate`. -/
def activate (s : Registry M α) (manager : M) : Registry M α :=
  let s := match s.active with
    | some active => s.deactivate active
    | none => s
  { s with active := some manager, enabled := true }

/-- The construction of a handler. -/
def construct (s : Registry M α) (handler : α) (manager : M) (interruptNumber : UInt8) : Registry M α :=
  { s with
    managers := Function.update s.managers manager ((s.managers manager).register handler interruptNumber)
    members := Function.update s.members handler (some (manager, interruptNumber)) }

/-- The destruction of a handler with these members. -/
def destroy (s : Registry M α) (handler : α) (manager : M) (interruptNumber : UInt8) : Registry M α :=
  { s with
    managers := Function.update s.managers manager ((s.managers manager).unregister handler interruptNumber)
    members := Function.update s.members handler none }

/-- A handler is constructed where there is none, and destroyed where there is one. -/
def step (s : Registry M α) : HandlerEvent M α → Registry M α → Prop
  | .construct handler manager interruptNumber, s' =>
    s.members handler = none ∧ s' = s.construct handler manager interruptNumber
  | .destroy handler, s' => ∃ q, s.members handler = some q ∧ s' = s.destroy handler q.1 q.2
  | .activate manager, s' => s' = s.activate manager
  | .deactivate manager, s' => s' = s.deactivate manager

/-- The runs from managers that have just been constructed. -/
def system : System (Registry M α) (HandlerEvent M α) where
  init s := (∀ manager, ∃ offset, s.managers manager = .construct offset) ∧ s.members = (fun _ => none) ∧
    s.active = none ∧ s.enabled = false
  step := step

/-- The handler that was constructed last for a number, and the manager that was activated last. -/
structure History (M α : Type*) where
  last : M → UInt8 → Option α
  activated : Option M

def History.construct (h : History M α) (handler : α) (manager : M) (interruptNumber : UInt8) : History M α :=
  { h with last := Function.update h.last manager (Function.update (h.last manager) interruptNumber (some handler)) }

def history : Monitor (Registry M α) (HandlerEvent M α) (History M α) where
  init _ h := h = ⟨fun _ _ => none, none⟩
  next h _
    | .construct handler manager interruptNumber, _ => h.construct handler manager interruptNumber
    | .destroy _, _ => h
    | .activate manager, _ => { h with activated := some manager }
    | .deactivate _, _ => h

variable {s s' : Registry M α} {h : History M α} {a b : α} {m m' : M} {n n' : UInt8}

/-- The table holds the handler that was constructed last, if it is still there with this number, and the processor
takes interrupts if a manager is active. -/
structure Inv (s : Registry M α) (h : History M α) : Prop where
  entry : ∀ m n a, (s.managers m).handlers n = some a ↔ h.last m n = some a ∧ s.members a = some (m, n)
  active : s.active = none ∨ s.active = h.activated
  enabled : s.enabled = s.active.isSome

theorem handlers_construct : ((s.construct b m' n').managers m).handlers n =
    if m = m' ∧ n = n' then some b else (s.managers m).handlers n := by
  by_cases hm : m = m'
  · subst hm
    simp [construct, InterruptManager.register, Function.update_apply]
  · simp [construct, hm]

theorem handlers_destroy : ((s.destroy b m' n').managers m).handlers n =
    if m = m' ∧ n = n' ∧ (s.managers m).handlers n = some b then none else (s.managers m).handlers n := by
  by_cases hm : m = m'
  · subst hm
    by_cases hn : n = n'
    · subst hn
      simp only [destroy, InterruptManager.unregister, Function.update_self, true_and]
      split_ifs <;> simp
    · simp only [destroy, InterruptManager.unregister, Function.update_self, hn, false_and, and_false, if_false]
      split_ifs <;> simp [hn]
  · simp [destroy, hm]

theorem inv_init (hinit : (system (M := M) (α := α)).init s) (hh : (history (M := M) (α := α)).init s h) :
    s.Inv h := by
  obtain ⟨hmanagers, hmembers, hactive, henabled⟩ := hinit
  obtain rfl : h = ⟨fun _ _ => none, none⟩ := hh
  refine ⟨fun m n a => ?_, .inl hactive, ?_⟩
  · obtain ⟨offset, hm⟩ := hmanagers m
    rw [hm, hmembers]
    simp [InterruptManager.construct]
  · rw [henabled, hactive]
    rfl

namespace Inv

theorem construct (hinv : s.Inv h) (hb : s.members b = none) :
    (s.construct b m' n').Inv (h.construct b m' n') := by
  refine ⟨fun m n a => ?_, hinv.active, hinv.enabled⟩
  have hlast : (h.construct b m' n').last m n = if m = m' ∧ n = n' then some b else h.last m n := by
    by_cases hm : m = m'
    · subst hm
      simp [History.construct, Function.update_apply]
    · simp [History.construct, hm]
  have hmembers : (s.construct b m' n').members a = if a = b then some (m', n') else s.members a :=
    Function.update_apply ..
  rw [handlers_construct, hlast, hmembers]
  by_cases hmn : m = m' ∧ n = n'
  · obtain ⟨rfl, rfl⟩ := hmn
    rw [if_pos ⟨rfl, rfl⟩, if_pos ⟨rfl, rfl⟩]
    constructor
    · rintro ⟨rfl⟩
      exact ⟨rfl, if_pos rfl⟩
    · exact fun h => h.1
  · rw [if_neg hmn, if_neg hmn, hinv.entry]
    refine and_congr_right fun _ => ?_
    -- The new handler was not there before, and is not there for this number.
    rcases eq_or_ne a b with rfl | hab
    · rw [hb, if_pos rfl]
      refine iff_of_false (by simp) fun h => hmn ?_
      obtain ⟨rfl, rfl⟩ := Prod.mk.inj (Option.some.inj h)
      exact ⟨rfl, rfl⟩
    · rw [if_neg hab]

theorem destroy (hinv : s.Inv h) (hb : s.members b = some (m', n')) : (s.destroy b m' n').Inv h := by
  refine ⟨fun m n a => ?_, hinv.active, hinv.enabled⟩
  have hmembers : (s.destroy b m' n').members a = if a = b then none else s.members a := Function.update_apply ..
  rw [handlers_destroy, hmembers]
  rcases eq_or_ne a b with rfl | hab
  · -- The handler is taken out of the place for its number, and is in no other one.
    rw [if_pos rfl]
    refine iff_of_false (fun h => ?_) fun h => by cases h.2
    split_ifs at h with hmn
    have hentry := (hinv.entry m n a).1 h
    rw [hb] at hentry
    obtain ⟨rfl, rfl⟩ := Prod.mk.inj (Option.some.inj hentry.2)
    exact hmn ⟨rfl, rfl, h⟩
  · rw [if_neg hab, ← hinv.entry]
    split_ifs with hmn
    · refine iff_of_false (by simp) fun h => hab ?_
      rw [hmn.2.2] at h
      exact (Option.some.inj h).symm
    · rfl

omit [DecidableEq α] in
theorem deactivate (hinv : s.Inv h) (m : M) : (s.deactivate m).Inv h := by
  rw [Registry.deactivate]
  split_ifs
  · exact ⟨hinv.entry, .inl rfl, rfl⟩
  · exact hinv

omit [DecidableEq α] in
theorem activate (hinv : s.Inv h) (m : M) : (s.activate m).Inv { h with activated := some m } := by
  refine ⟨fun m' n a => ?_, .inr rfl, rfl⟩
  have hsame : (s.activate m).managers = s.managers ∧ (s.activate m).members = s.members := by
    simp only [Registry.activate]
    cases s.active with
    | none => exact ⟨rfl, rfl⟩
    | some active =>
      simp only [Registry.deactivate]
      split_ifs <;> exact ⟨rfl, rfl⟩
  rw [hsame.1, hsame.2]
  exact hinv.entry m' n a

end Inv

/-- **No handler is called that is not there.** In every run, the table of a manager holds the handler that was
constructed last for a number if it is still there, and nothing otherwise; the manager that is active, if there is
one, is the one activated last, and the processor takes interrupts just as long. -/
theorem entries_live (hreach : ((system (M := M) (α := α)).monitored history).Reachable (s, h)) :
    (∀ m n a, (s.managers m).handlers n = some a ↔ h.last m n = some a ∧ s.members a = some (m, n)) ∧
      (s.active = none ∨ s.active = h.activated) ∧ s.enabled = s.active.isSome := by
  have hinv : s.Inv h := hreach.invariant (P := fun p => p.1.Inv p.2) (fun _ h => inv_init h.1 h.2)
    fun p i p' _ hinv hstep => by
      obtain ⟨hstep, hh⟩ := hstep
      rw [hh]
      cases i with
      | construct handler manager interruptNumber =>
        obtain ⟨hb, hs⟩ := hstep
        rw [hs]
        exact hinv.construct hb
      | destroy handler =>
        obtain ⟨q, hb, hs⟩ := hstep
        rw [hs]
        exact hinv.destroy hb
      | activate manager =>
        have hs : p'.1 = p.1.activate manager := hstep
        rw [hs]
        exact hinv.activate manager
      | deactivate manager =>
        have hs : p'.1 = p.1.deactivate manager := hstep
        rw [hs]
        exact hinv.deactivate manager
  exact ⟨hinv.entry, hinv.active, hinv.enabled⟩

/-- The second handler for a number takes the place of the first one, which does not get it back. -/
theorem entries_live_second :
    let s : Registry Unit Bool := ⟨fun _ => .construct 0x20, fun _ => none, none, false⟩
    let s := ((s.construct false () 0x21).construct true () 0x21).destroy true () 0x21
    s.members false = some ((), 0x21) ∧ (s.managers ()).handlers 0x21 = none := by
  let s₀ : Registry Unit Bool := ⟨fun _ => .construct 0x20, fun _ => none, none, false⟩
  let h₀ : History Unit Bool := ⟨fun _ _ => none, none⟩
  let s₁ := s₀.construct false () 0x21
  let h₁ := h₀.construct false () 0x21
  let s₂ := s₁.construct true () 0x21
  let h₂ := h₁.construct true () 0x21
  have hreach₀ : (system.monitored history).Reachable (s₀, h₀) := .init ⟨⟨fun _ => ⟨_, rfl⟩, rfl, rfl, rfl⟩, rfl⟩
  have hstep₁ : (system.monitored history).step (s₀, h₀) (.construct false () 0x21) (s₁, h₁) := ⟨⟨rfl, rfl⟩, rfl⟩
  have hstep₂ : (system.monitored history).step (s₁, h₁) (.construct true () 0x21) (s₂, h₂) := ⟨⟨rfl, rfl⟩, rfl⟩
  have hstep₃ : (system.monitored history).step (s₂, h₂) (.destroy true) (s₂.destroy true () 0x21, h₂) :=
    ⟨⟨((), 0x21), rfl, rfl⟩, rfl⟩
  have hlive := (entries_live (((hreach₀.step hstep₁).step hstep₂).step hstep₃)).1 () 0x21
  refine ⟨rfl, Option.eq_none_iff_forall_ne_some.2 fun a ha => ?_⟩
  obtain ⟨hlast, hmembers⟩ := (hlive a).1 ha
  cases a with
  | false => cases hlast
  | true => cases hmembers

end Registry

end GtuOs

import GtuOs.Console.Accesses
import GtuOs.Console.Ascii
import GtuOs.Drivers.Keyboard
import GtuOs.Lib.System
import GtuOs.MouseToConsole

/-!
# Text mode

What a program, the keyboard and the mouse do to the screen in text mode, all of them writing to the same video memory,
the program access by access and the interrupts in between.

An interrupt in the middle of a character finds the cursor of `printf` where the program has left it, and moves it on:
what is printed is mixed up or lost (`not_displays_sampleStart`). But nothing is written beyond the cell 2080 however the
interrupts fall, and if no character has been interrupted, the screen shows the page of what has been printed, by the
program and by the interrupts, with only the colours of the cell at the pointer swapped (`displays_whole`).
-/

namespace GtuOs

/-- What an interrupt does in text mode. It is not interrupted itself. -/
inductive TextInterrupt
  | print (text : List UInt8)
  /-- An interrupt of the keyboard, with the byte read. -/
  | key (scanCode : UInt8)
  /-- An interrupt of the mouse, with the bytes read. -/
  | mouse (status data : UInt8)

/-- What an interrupt prints. -/
def TextInterrupt.printed : TextInterrupt → List UInt8
  | .print text => text
  | .key scanCode => KeyboardDriver.handleInterrupt KeyboardDriver.printKey scanCode
  | .mouse _ _ => []

/-- Interrupts print ASCII. -/
def TextInterrupt.IsAscii : TextInterrupt → Prop
  | .print text => AsciiText text
  | _ => True

/-- The console, the driver of the mouse and the position of its pointer. -/
structure TextMode where
  console : Console
  mouse : MouseDriver
  x : Int8
  y : Int8

namespace TextMode

/-- The handler of the mouse, with the video memory. -/
def pointer (s : TextMode) : MouseToConsole := ⟨s.x, s.y, s.console.videoMemory⟩

/-- The handler of the mouse leaves the cursor of `printf` alone. -/
def withPointer (s : TextMode) (p : MouseToConsole) : TextMode :=
  { s with console := { s.console with videoMemory := p.videoMemory }, x := p.x, y := p.y }

/-- Text mode after an interrupt. -/
def handle (s : TextMode) : TextInterrupt → TextMode
  | .mouse status data =>
    let (mouse, es) := s.mouse.handleInterrupt status data
    { s.withPointer (es.foldl MouseToConsole.handle s.pointer) with mouse }
  | i => { s with console := s.console.printf i.printed }

/-- Text mode, and a thread that prints, after a step of the thread. -/
def access (s : TextMode) (t : Thread Console Registers) : TextMode × Thread Console Registers :=
  ({ s with console := (Thread.step (t, s.console)).2 }, (Thread.step (t, s.console)).1)

/-- Text mode once the handler of the mouse has been constructed, after the texts printed by then. -/
def start (videoMemory : ℤ → UInt16) (mouse : MouseDriver) (texts : List UInt8) : TextMode :=
  let console := (Console.start videoMemory).printf texts
  withPointer ⟨console, mouse, 0, 0⟩ (.construct console.videoMemory)

/-- The pointer is on the screen. -/
def PointerOnScreen (s : TextMode) : Prop := 0 ≤ s.x.toInt ∧ s.x.toInt < 80 ∧ 0 ≤ s.y.toInt ∧ s.y.toInt < 25

end TextMode

/-- What happens while a program prints. -/
inductive TextEvent
  /-- The program goes on to another character of a text. -/
  | char (c : UInt8)
  /-- The next step of the code for the character. -/
  | access
  | interrupt (i : TextInterrupt)

/-- Text mode, with the program that prints. -/
structure TextRun where
  textMode : TextMode
  thread : Thread Console Registers

/-- What has been printed, and whether no character has been interrupted. -/
structure Printed where
  text : List UInt8
  whole : Prop

namespace TextRun

/-- The program goes on to a character when it has done with the one before, and prints ASCII. -/
def step (p : TextRun) : TextEvent → TextRun → Prop
  | .char c, p' => p.thread.rest = [] ∧ IsAscii c ∧
    p' = { p with thread := ⟨[Console.printCharCode c], p.thread.registers⟩ }
  | .access, p' => p.thread.rest ≠ [] ∧ p' = ⟨(p.textMode.access p.thread).1, (p.textMode.access p.thread).2⟩
  | .interrupt i, p' => i.IsAscii ∧ p' = { p with textMode := p.textMode.handle i }

/-- The runs from the start of text mode, after `text`. -/
def system (videoMemory : ℤ → UInt16) (text : List UInt8) : System TextRun TextEvent where
  init p := (∃ mouse, p.textMode = .start videoMemory mouse text) ∧ AsciiText text ∧ p.thread.rest = []
  step := step

/-- What has been printed, in the order in which it has begun to be. -/
def printed (text : List UInt8) : Monitor TextRun TextEvent Printed where
  init _ h := h = ⟨text, True⟩
  next h p
    | .char c, _ => { h with text := h.text ++ [c] }
    | .access, _ => h
    | .interrupt i, _ => ⟨h.text ++ i.printed, h.whole ∧ p.thread.rest = []⟩

end TextRun

variable {cell : UInt16} {videoMemory videoMemory' : ℤ → UInt16} {i : ℤ}

/-! ## Swaps and characters -/

@[simp] theorem character_swapColours : character (swapColours cell) = character cell := by
  apply UInt8.eq_of_toBitVec_eq
  apply BitVec.eq_of_getLsbD_eq
  intro i hi
  simp [character, swapColours]
  interval_cases i <;> simp

/-- The colours after a swap are those of the colours before. -/
theorem colours_swapColours : colours (swapColours cell) = swapColours (colours cell) := by
  apply UInt16.eq_of_toBitVec_eq
  apply BitVec.eq_of_getLsbD_eq
  intro i hi
  simp [colours, swapColours]
  interval_cases i <;> simp

theorem character_swapCell (j : ℤ) : character (swapCell videoMemory i j) = character (videoMemory j) := by
  rcases eq_or_ne j i with rfl | h
  · rw [swapCell, Function.update_self, character_swapColours]
  · rw [swapCell, Function.update_of_ne h]

theorem colours_swapCell_congr (h : ∀ j, colours (videoMemory j) = colours (videoMemory' j)) (j : ℤ) :
    colours (swapCell videoMemory i j) = colours (swapCell videoMemory' i j) := by
  rcases eq_or_ne j i with rfl | hne
  · rw [swapCell, swapCell, Function.update_self, Function.update_self, colours_swapColours, colours_swapColours, h]
  · rw [swapCell, swapCell, Function.update_of_ne hne, Function.update_of_ne hne, h]

/-- A screen is shown through other colours. -/
theorem Displays.of_character {page : Page} {s : Console} (h : Displays videoMemory page s)
    (hchar : ∀ j, character (videoMemory' j) = character (s.videoMemory j)) :
    Displays videoMemory page { s with videoMemory := videoMemory' } := by
  refine ⟨h.x_lt, h.y_lt, h.index_eq, ?_, fun i hi => ?_⟩
  · rw [← h.text]
    exact List.map_congr_left fun q _ => hchar q.1
  · exact (hchar i).trans (h.rest i hi)

/-! ## The pointer -/

namespace MouseToConsole

variable {s : MouseToConsole} {e : MouseEvent} {es : List MouseEvent}

theorem character_foldl_handle (es : List MouseEvent) (s : MouseToConsole) (j : ℤ) :
    character ((es.foldl handle s).videoMemory j) = character (s.videoMemory j) := by
  induction es generalizing s with
  | nil => rfl
  | cons e es ih =>
    rw [List.foldl_cons, ih]
    cases e with
    | move x y => exact (character_swapCell j).trans (character_swapCell j)
    | down button => rfl
    | up button => rfl

theorem Shown.index_mem (h : Shown videoMemory s) : 0 ≤ s.index ∧ s.index < 2000 := by
  obtain ⟨hx₀, hx, hy₀, hy, -⟩ := h
  rw [index]
  omega

theorem Shown.handle (h : Shown videoMemory s) (he : ∀ x y, e = .move x y → IsOffset x y) :
    Shown videoMemory (s.handle e) := by
  cases e with
  | move x y => exact h.onMouseMove (he x y rfl)
  | down button => exact h
  | up button => exact h

theorem Shown.foldl_handle (h : Shown videoMemory s) (hes : ∀ x y, .move x y ∈ es → IsOffset x y) :
    Shown videoMemory (es.foldl MouseToConsole.handle s) := by
  induction es generalizing s with
  | nil => exact h
  | cons e es ih =>
    refine ih (h.handle fun x y he => hes x y ?_) fun x y hxy => hes x y (List.mem_cons_of_mem e hxy)
    rw [he]
    exact List.mem_cons_self

end MouseToConsole

/-! ## Between characters -/

namespace TextMode

variable {s : TextMode} {interrupt : TextInterrupt} {text : List UInt8} {mouse : MouseDriver} {c : UInt8}
  {t : Thread Console Registers}

/-- The screen shows the page of a text, and its colours are those of `videoMemory` but for the cell at the
    pointer, which is on the screen: the video memory is a swap of one with these colours. -/
structure Inv (videoMemory : ℤ → UInt16) (text : List UInt8) (s : TextMode) : Prop where
  displays : Displays videoMemory (.ofText text) s.console
  shown : ∃ unswapped, MouseToConsole.Shown unswapped s.pointer ∧ ∀ j, colours (unswapped j) = colours (videoMemory j)

theorem inv_start (htext : AsciiText text) : Inv videoMemory text (start videoMemory mouse text) := by
  refine ⟨?_, _, MouseToConsole.shown_construct, Console.colours_printf htext⟩
  exact ((Displays.start videoMemory).printf text).of_character character_swapCell

/-- A text leaves the colours, and so the swapped cell. -/
theorem Inv.printf {text' : List UInt8} (h : Inv videoMemory text s) (htext : AsciiText text') :
    Inv videoMemory (text ++ text') { s with console := s.console.printf text' } := by
  obtain ⟨unswapped, hshown, hcolours⟩ := h.shown
  let printed := (s.console.printf text').videoMemory
  refine ⟨h.displays.printf text', swapCell printed s.pointer.index, ?_, fun j => ?_⟩
  · exact { hshown with swapped := MouseToConsole.swapCell_swapCell.symm }
  · calc colours (swapCell printed s.pointer.index j)
        = colours (swapCell s.console.videoMemory s.pointer.index j) :=
          colours_swapCell_congr (Console.colours_printf htext) j
      _ = colours (swapCell (swapCell unswapped s.pointer.index) s.pointer.index j) :=
          congrArg (fun m => colours (swapCell m s.pointer.index j)) hshown.swapped
      _ = colours (videoMemory j) := by rw [MouseToConsole.swapCell_swapCell, hcolours]

theorem Inv.handle (h : Inv videoMemory text s) (hinterrupt : interrupt.IsAscii) :
    Inv videoMemory (text ++ interrupt.printed) (s.handle interrupt) := by
  cases interrupt with
  | print text' => exact h.printf hinterrupt
  | key scanCode => exact h.printf fun c => KeyboardDriver.isAscii_handleInterrupt
  | mouse status data =>
    obtain ⟨unswapped, hshown, hcolours⟩ := h.shown
    rw [TextInterrupt.printed, List.append_nil]
    refine ⟨h.displays.of_character (MouseToConsole.character_foldl_handle _ _), unswapped, ?_, hcolours⟩
    exact hshown.foldl_handle fun x y => MouseDriver.isOffset_of_handleInterrupt

theorem Inv.foldl_handle {interrupts : List TextInterrupt} (h : Inv videoMemory text s)
    (hinterrupts : ∀ i ∈ interrupts, i.IsAscii) :
    Inv videoMemory (text ++ interrupts.flatMap TextInterrupt.printed) (interrupts.foldl TextMode.handle s) := by
  induction interrupts generalizing s text with
  | nil => rwa [List.flatMap_nil, List.append_nil]
  | cons i interrupts ih =>
    obtain ⟨hi, hinterrupts⟩ := List.forall_mem_cons.1 hinterrupts
    rw [List.flatMap_cons, ← List.append_assoc]
    exact ih (h.handle hi) hinterrupts

theorem Inv.pointerOnScreen (h : Inv videoMemory text s) : s.PointerOnScreen := by
  obtain ⟨unswapped, hshown, -⟩ := h.shown
  exact ⟨hshown.nonneg_x, hshown.x_lt, hshown.nonneg_y, hshown.y_lt⟩

/-- The colours of the screen. -/
theorem Inv.colours_eq (h : Inv videoMemory text s) (j : ℤ) :
    colours (s.console.videoMemory j) = colours (swapCell videoMemory s.pointer.index j) := by
  obtain ⟨unswapped, hshown, hcolours⟩ := h.shown
  have hswapped : s.console.videoMemory = swapCell unswapped s.pointer.index := hshown.swapped
  rw [hswapped]
  exact colours_swapCell_congr hcolours j

/-- A text has been printed, or all of it but for the character that the thread is about, and that has not been
interrupted. -/
inductive Prints (videoMemory : ℤ → UInt16) : List UInt8 → TextMode → Thread Console Registers → Prop
  | between {text : List UInt8} {s : TextMode} {t : Thread Console Registers} : Inv videoMemory text s → t.rest = [] →
    Prints videoMemory text s t
  | within {text : List UInt8} {s : TextMode} {t : Thread Console Registers} {c : UInt8} {console : Console}
    {r : Registers} : Inv videoMemory text { s with console } → IsAscii c →
    Thread.Goes (⟨[Console.printCharCode c], r⟩, console) (t, s.console) → t.rest ≠ [] →
    Prints videoMemory (text ++ [c]) s t

namespace Prints

theorem inv (h : Prints videoMemory text s t) (ht : t.rest = []) : Inv videoMemory text s := by
  cases h with
  | between h _ => exact h
  | within _ _ _ hne => exact absurd ht hne

theorem char (h : Prints videoMemory text s t) (ht : t.rest = []) (hc : IsAscii c) :
    Prints videoMemory (text ++ [c]) s ⟨[Console.printCharCode c], t.registers⟩ :=
  .within (h.inv ht) hc .refl (List.cons_ne_nil _ _)

/-- A step of the thread, which has printed the character if it is the last one. -/
theorem access (h : Prints videoMemory text s t) : Prints videoMemory text (s.access t).1 (s.access t).2 := by
  cases h with
  | between h ht =>
    have hstay : Thread.step (t, s.console) = (t, s.console) := Thread.step_of_rest ht
    rw [TextMode.access, hstay]
    exact .between h ht
  | @within text s t c console r h hc hgoes hne =>
    by_cases hrest : (s.access t).2.rest = []
    · have hprinted : (s.access t).1.console = console.printChar c :=
        (Console.leads_printCharCode c console).eq_of_rest hgoes.tail hrest
      have htext : AsciiText [c] := by simpa [AsciiText] using hc
      have hinv : Inv videoMemory (text ++ [c]) { s with console := console.printChar c } := h.printf htext
      rw [← hprinted] at hinv
      exact .between hinv hrest
    · exact .within h hc hgoes.tail hrest

end Prints

/-! ## Within characters -/

/-- What holds however interrupts fall: the thread is safe, and nothing is written beyond the cell 2080. -/
structure Bounded (videoMemory : ℤ → UInt16) (s : TextMode) (t : Thread Console Registers) : Prop where
  cursor : s.console.Within 80 25
  cells : ∀ i, ¬(0 ≤ i ∧ i ≤ 2080) → s.console.videoMemory i = videoMemory i
  pointer : s.PointerOnScreen
  safe : ∀ n, Thread.Safe Console.Interrupted Console.Keeps (Console.Within 79 24) n (t, s.console)

/-- The mouse leaves the cells beyond the screen alone. -/
theorem pointer_foldl_handle (h : s.PointerOnScreen) {es : List MouseEvent}
    (hes : ∀ x y, .move x y ∈ es → IsOffset x y) :
    let p := es.foldl MouseToConsole.handle s.pointer
    (0 ≤ p.x.toInt ∧ p.x.toInt < 80 ∧ 0 ≤ p.y.toInt ∧ p.y.toInt < 25) ∧
      ∀ i, ¬(0 ≤ i ∧ i < 2000) → p.videoMemory i = s.console.videoMemory i := by
  intro p
  obtain ⟨hx₀, hx, hy₀, hy⟩ := h
  have hshown : MouseToConsole.Shown (swapCell s.console.videoMemory s.pointer.index) s.pointer :=
    ⟨hx₀, hx, hy₀, hy, MouseToConsole.swapCell_swapCell.symm⟩
  have hp : MouseToConsole.Shown (swapCell s.console.videoMemory s.pointer.index) p := hshown.foldl_handle hes
  refine ⟨⟨hp.nonneg_x, hp.x_lt, hp.nonneg_y, hp.y_lt⟩, fun i hi => ?_⟩
  have hne : i ≠ p.index := by
    rintro rfl
    exact hi hp.index_mem
  have hne' : i ≠ s.pointer.index := by
    rintro rfl
    exact hi hshown.index_mem
  rw [hp.swapped, swapCell, Function.update_of_ne hne, swapCell, Function.update_of_ne hne']

theorem PointerOnScreen.handle (h : s.PointerOnScreen) : (s.handle interrupt).PointerOnScreen := by
  cases interrupt with
  | print text => exact h
  | key scanCode => exact h
  | mouse status data => exact (pointer_foldl_handle h fun x y => MouseDriver.isOffset_of_handleInterrupt).1

theorem PointerOnScreen.foldl_handle {interrupts : List TextInterrupt} (h : s.PointerOnScreen) :
    (interrupts.foldl TextMode.handle s).PointerOnScreen := by
  induction interrupts generalizing s with
  | nil => exact h
  | cons i interrupts ih => exact ih h.handle

namespace Bounded

theorem within (h : Bounded videoMemory s t) (ht : t.rest = []) : s.console.Within 79 24 := (h.safe 1).2.1 ht

theorem char (h : Bounded videoMemory s t) (ht : t.rest = []) (c : UInt8) (r : Registers) :
    Bounded videoMemory s ⟨[Console.printCharCode c], r⟩ :=
  ⟨h.cursor, h.cells, h.pointer, fun n => (Console.triple_printCharCode c).safe
    (fun _ _ hinterrupted => hinterrupted.within le_rfl le_rfl) (fun _ _ hs => hs) n (h.within ht)⟩

theorem access (h : Bounded videoMemory s t) (ht : t.rest ≠ []) :
    Bounded videoMemory (s.access t).1 (s.access t).2 := by
  have hkeeps : s.console.Keeps (s.access t).1.console := ((h.safe 1).2.2 ht).1
  refine ⟨hkeeps.within h.cursor, fun i hi => ?_, h.pointer, fun n => ((h.safe (n + 1)).2.2 ht).2⟩
  exact (hkeeps.cells i fun hi' => hi ⟨hi'.1, by omega⟩).trans (h.cells i hi)

theorem printf (h : Bounded videoMemory s t) (text : List UInt8) :
    Bounded videoMemory { s with console := s.console.printf text } t := by
  obtain ⟨hinterrupted, hcells⟩ := Console.printf_spec h.cursor text
  refine ⟨?_, fun i hi => (hcells i hi).trans (h.cells i hi), h.pointer, fun n => (h.safe (n + 1)).1 _ hinterrupted⟩
  exact hinterrupted.within (by decide) (by decide) h.cursor

theorem handle (h : Bounded videoMemory s t) (interrupt : TextInterrupt) :
    Bounded videoMemory (s.handle interrupt) t := by
  cases interrupt with
  | print text => exact h.printf _
  | key scanCode => exact h.printf _
  | mouse status data =>
    obtain ⟨-, hcells⟩ := pointer_foldl_handle h.pointer fun x y => MouseDriver.isOffset_of_handleInterrupt
    refine ⟨h.cursor, fun i hi => ?_, h.pointer.handle, fun n => (h.safe (n + 1)).1 _ (.inl ⟨rfl, rfl⟩)⟩
    exact (hcells i fun hi' => hi ⟨hi'.1, by omega⟩).trans (h.cells i hi)

theorem start (text : List UInt8) (ht : t.rest = []) : Bounded videoMemory (start videoMemory mouse text) t := by
  have hstart : (Console.start videoMemory).Within 79 24 := ⟨Nat.zero_le _, Nat.zero_le _⟩
  have hstart' : (Console.start videoMemory).Within 80 25 := ⟨Nat.zero_le _, Nat.zero_le _⟩
  obtain ⟨hinterrupted, hcells⟩ := Console.printf_spec hstart' text
  have hwithin : ((Console.start videoMemory).printf text).Within 79 24 := hinterrupted.within le_rfl le_rfl hstart
  refine ⟨hinterrupted.within (by decide) (by decide) hstart', fun i hi => ?_, ?_, ?_⟩
  · have hne : i ≠ 80 * 12 + 40 := fun h => hi ⟨by omega, by omega⟩
    exact (Function.update_of_ne hne _ _).trans (hcells i hi)
  · have hcentre : (40 : Int8).toInt = 40 ∧ (12 : Int8).toInt = 12 := ⟨rfl, rfl⟩
    change 0 ≤ (40 : Int8).toInt ∧ (40 : Int8).toInt < 80 ∧ 0 ≤ (12 : Int8).toInt ∧ (12 : Int8).toInt < 25
    omega
  · exact Thread.safe_of_rest (fun _ _ h => h.within le_rfl le_rfl) ht hwithin

end Bounded

end TextMode

/-! ## Runs -/

namespace TextRun

variable {p : TextRun} {q : Printed} {text : List UInt8} {c : UInt8}

/-- However interrupts fall, the thread is safe; if they fall between characters, a text has been printed. -/
structure Inv (videoMemory : ℤ → UInt16) (q : Printed) (p : TextRun) : Prop where
  bounded : TextMode.Bounded videoMemory p.textMode p.thread
  prints : q.whole → TextMode.Prints videoMemory q.text p.textMode p.thread

theorem inv_of_reachable (h : ((system videoMemory text).monitored (printed text)).Reachable (p, q)) :
    Inv videoMemory q p :=
  h.invariant (P := fun s => Inv videoMemory s.2 s.1)
    (fun s hs => by
      obtain ⟨⟨⟨mouse, hmode⟩, htext, ht⟩, hq⟩ := hs
      have hq : s.2 = ⟨text, True⟩ := hq
      rw [hq]
      refine ⟨?_, fun _ => .between ?_ ht⟩
      · rw [hmode]
        exact .start text ht
      · rw [hmode]
        exact TextMode.inv_start htext)
    fun s e s' _ hinv hstep => by
      obtain ⟨hstep, hq⟩ := hstep
      rw [hq]
      cases e with
      | char c =>
        obtain ⟨ht, hc, hs⟩ := hstep
        rw [hs]
        exact ⟨hinv.bounded.char ht c _, fun hwhole => (hinv.prints hwhole).char ht hc⟩
      | access =>
        obtain ⟨ht, hs⟩ := hstep
        rw [hs]
        exact ⟨hinv.bounded.access ht, fun hwhole => (hinv.prints hwhole).access⟩
      | interrupt i =>
        obtain ⟨hi, hs⟩ := hstep
        rw [hs]
        refine ⟨hinv.bounded.handle i, fun ⟨hwhole, ht⟩ => .between ?_ ht⟩
        exact ((hinv.prints hwhole).inv ht).handle hi

/-- **Text, keys and mouse on one screen.** However the interrupts fall among the accesses of a program that prints,
nothing is written beyond the cell 2080, the pointer stays on the screen, and so does the cursor between characters. If
no character has been interrupted, the screen shows the page of what has been printed, and the colours are those of the
start with the cell at the pointer swapped. -/
theorem displays_whole (h : ((system videoMemory text).monitored (printed text)).Reachable (p, q)) :
    (p.textMode.console.Within 80 25 ∧ (p.thread.rest = [] → p.textMode.console.Within 79 24)) ∧
    (∀ i, ¬(0 ≤ i ∧ i ≤ 2080) → p.textMode.console.videoMemory i = videoMemory i) ∧
    p.textMode.PointerOnScreen ∧
    (q.whole → p.thread.rest = [] → Displays videoMemory (.ofText q.text) p.textMode.console ∧
      ∀ j, colours (p.textMode.console.videoMemory j) = colours (swapCell videoMemory p.textMode.pointer.index j)) := by
  have hinv := inv_of_reachable h
  refine ⟨⟨hinv.bounded.cursor, hinv.bounded.within⟩, hinv.bounded.cells, hinv.bounded.pointer, fun hwhole ht => ?_⟩
  have hprinted := (hinv.prints hwhole).inv ht
  exact ⟨hprinted.displays, hprinted.colours_eq⟩

/-- The thread after `n` steps without interrupts. -/
def accesses (n : ℕ) (p : TextRun) : TextRun :=
  let r := Thread.step^[n] (p.thread, p.textMode.console)
  ⟨{ p.textMode with console := r.2 }, r.1⟩

theorem reachable_accesses (h : ((system videoMemory text).monitored (printed text)).Reachable (p, q)) (n : ℕ) :
    ((system videoMemory text).monitored (printed text)).Reachable (p.accesses n, q) := by
  induction n with
  | zero => exact h
  | succ n ih =>
    have hnext : p.accesses (n + 1) = ⟨((p.accesses n).textMode.access (p.accesses n).thread).1,
        ((p.accesses n).textMode.access (p.accesses n).thread).2⟩ := by
      simp only [accesses, TextMode.access, Function.iterate_succ_apply']
    by_cases ht : (p.accesses n).thread.rest = []
    · have hstay : p.accesses (n + 1) = p.accesses n := by
        have hstep : Thread.step ((p.accesses n).thread, (p.accesses n).textMode.console) =
            ((p.accesses n).thread, (p.accesses n).textMode.console) := Thread.step_of_rest ht
        rw [hnext, TextMode.access, hstep]
      rwa [hstay]
    · exact ih.step (i := .access) ⟨⟨ht, hnext⟩, rfl⟩

/-- A character comes to its end if it is not interrupted. -/
theorem exists_printChar (h : ((system videoMemory text).monitored (printed text)).Reachable (p, q))
    (ht : p.thread.rest = []) (hc : IsAscii c) :
    ∃ t : Thread Console Registers, t.rest = [] ∧ ((system videoMemory text).monitored (printed text)).Reachable
      (⟨{ p.textMode with console := p.textMode.console.printChar c }, t⟩, { q with text := q.text ++ [c] }) := by
  have hstep : ((system videoMemory text).monitored (printed text)).step (p, q) (.char c)
      (⟨p.textMode, ⟨[Console.printCharCode c], p.thread.registers⟩⟩, { q with text := q.text ++ [c] }) :=
    ⟨⟨ht, hc, rfl⟩, rfl⟩
  obtain ⟨r, hends⟩ := Console.leads_printCharCode c p.textMode.console p.thread.registers
  obtain ⟨n, hn⟩ := hends []
  refine ⟨⟨[], r⟩, rfl, ?_⟩
  have hreach := reachable_accesses (h.step hstep) n
  rw [accesses, hn] at hreach
  exact hreach

theorem reachable_handle (h : ((system videoMemory text).monitored (printed text)).Reachable (p, q))
    {i : TextInterrupt} (hi : i.IsAscii) : ((system videoMemory text).monitored (printed text)).Reachable
      ({ p with textMode := p.textMode.handle i }, ⟨q.text ++ i.printed, q.whole ∧ p.thread.rest = []⟩) := by
  have hstep : ((system videoMemory text).monitored (printed text)).step (p, q) (.interrupt i)
      ({ p with textMode := p.textMode.handle i }, ⟨q.text ++ i.printed, q.whole ∧ p.thread.rest = []⟩) :=
    ⟨⟨hi, rfl⟩, rfl⟩
  exact h.step hstep

/-- A start of text mode. -/
def sampleStart : TextRun := ⟨.start (fun _ => 0x0720) ⟨fun _ => 0, 0, 0⟩ [], ⟨[], 0, 0, 0⟩⟩

theorem sampleStart_reachable :
    ((system (fun _ => 0x0720) []).monitored (printed [])).Reachable (sampleStart, ⟨[], True⟩) :=
  .init ⟨⟨⟨_, rfl⟩, fun _ hc => absurd hc List.not_mem_nil, rfl⟩, rfl⟩

/-- A key is pressed after a character. -/
theorem displays_whole_sampleStart :
    ∃ p q, ((system (fun _ => 0x0720) []).monitored (printed [])).Reachable (p, q) ∧ q.text = ascii "Aa" ∧
      Displays (fun _ => 0x0720) (.ofText q.text) p.textMode.console := by
  obtain ⟨t, ht, hreach⟩ := exists_printChar sampleStart_reachable rfl (by decide : IsAscii 0x41)
  have hkey := reachable_handle hreach (i := .key 0x1E) trivial
  have htext : [0x41] ++ (TextInterrupt.key 0x1E).printed = ascii "Aa" := by decide +kernel
  exact ⟨_, _, hkey, htext, ((displays_whole hkey).2.2.2 ⟨trivial, ht⟩ ht).1⟩

/-- A key is pressed after a character has been stored, and before the cursor has moved on: the key takes the place of
the character. -/
theorem not_displays_sampleStart :
    ∃ p q, ((system (fun _ => 0x0720) []).monitored (printed [])).Reachable (p, q) ∧ p.thread.rest = [] ∧
      q.text = ascii "Aa" ∧ ¬Displays (fun _ => 0x0720) (.ofText q.text) p.textMode.console := by
  have hstep : ((system (fun _ => 0x0720) []).monitored (printed [])).step (sampleStart, ⟨[], True⟩) (.char 0x41)
      (⟨sampleStart.textMode, ⟨[Console.printCharCode 0x41], 0, 0, 0⟩⟩, ⟨[0x41], True⟩) :=
    ⟨⟨rfl, by decide, rfl⟩, rfl⟩
  have hstored := reachable_accesses (sampleStart_reachable.step hstep) 13
  have hkey := reachable_handle hstored (i := .key 0x1E) trivial
  refine ⟨_, _, reachable_accesses hkey 12, rfl, by decide +kernel, fun hd => absurd hd.text ?_⟩
  decide +kernel

end TextRun

end GtuOs

import Mathlib.Data.Int.Notation
import Mathlib.Data.List.Induction
import Mathlib.Logic.Function.Basic
import Mathlib.Tactic.Common
import Mathlib.Tactic.IntervalCases

/-!
# The console

`printf`, from `kernel.cpp`: text on a screen of 80 columns and 25 rows, whose cells in the video
memory are a character and its colours. A text that does not fit on the screen goes on at the
top of it, after the screen has been cleared.

What has been printed since then is the *page* (`Page`). The screen shows it, each character at its
own cell, and nothing else but what was there before (`displays_printf`). The colours of the cells
stay as they are where the text is ASCII: a `char` is signed, and any other one sets
them all (`colours_withCharacter`).
-/

namespace GtuOs

/-! ## Cells -/

/-- The character of a cell. -/
def character (cell : UInt16) : UInt8 := cell.toUInt8

/-- The colours of a cell. -/
def colours (cell : UInt16) : UInt16 := cell &&& 0xFF00

/-- A cell with another character, which is a signed `char`. -/
def withCharacter (cell : UInt16) (c : UInt8) : UInt16 := (cell &&& 0xFF00) ||| c.toInt8.toInt16.toUInt16

/-- The video memory with another character in the cell `i`. -/
def setCharacter (videoMemory : ℤ → UInt16) (i : ℤ) (c : UInt8) : ℤ → UInt16 :=
  Function.update videoMemory i (withCharacter (videoMemory i) c)

/-- A character of ASCII. -/
def IsAscii (c : UInt8) : Prop := c < 0x80

instance : DecidablePred IsAscii := fun c => inferInstanceAs (Decidable (c < 0x80))

/-- `'\n'`. -/
def newline : UInt8 := 10

/-- `' '`. -/
def space : UInt8 := 32

/-- The cursor of `printf`, which is static, with the video memory. -/
structure Console where
  x : UInt8
  y : UInt8
  videoMemory : ℤ → UInt16

namespace Console

/-- The index of the cell at the cursor. -/
def index (s : Console) : ℕ := 80 * s.y.toNat + s.x.toNat

/-- The loops that clear the screen. -/
def clear (videoMemory : ℤ → UInt16) : ℤ → UInt16 :=
  (List.range 25).foldl (fun m y => (List.range 80).foldl (fun m x => setCharacter m (80 * y + x : ℕ) space) m)
    videoMemory

/-- A full row is followed by the next one, and a full screen is cleared. -/
def wrap (s : Console) : Console :=
  let s := if s.x ≥ 80 then { s with x := 0, y := s.y + 1 } else s
  if s.y ≥ 25 then ⟨0, 0, clear s.videoMemory⟩ else s

/-- What `printf` does with a character. -/
def printChar (s : Console) (c : UInt8) : Console :=
  wrap <| if c = newline then { s with x := 0, y := s.y + 1 }
    else { s with videoMemory := setCharacter s.videoMemory s.index c, x := s.x + 1 }

/-- `printf`, of a string without its terminating 0. -/
def printf (s : Console) (str : List UInt8) : Console := str.foldl printChar s

/-- The console before anything has been printed. -/
def start (videoMemory : ℤ → UInt16) : Console := ⟨0, 0, videoMemory⟩

end Console

/-! ## Pages -/

/-- The cell after the character `c` at the cell `p`. -/
def advance (p : ℕ) (c : UInt8) : ℕ := if c = newline then (p / 80 + 1) * 80 else p + 1

/-- The cell after a text from the cell `p` on. -/
def endOf (p : ℕ) (text : List UInt8) : ℕ := text.foldl advance p

/-- The characters of a text from the cell `p` on, with their cells. -/
def cellsOf (p : ℕ) : List UInt8 → List (ℕ × UInt8)
  | [] => []
  | c :: text => if c = newline then cellsOf (advance p c) text else (p, c) :: cellsOf (advance p c) text

/-- What has been printed since the screen was cleared, if it has been, or since the start. -/
structure Page where
  text : List UInt8
  cleared : Bool

namespace Page

/-- The page after another character: a new one, if it is full. -/
def print (page : Page) (c : UInt8) : Page :=
  if endOf 0 (page.text ++ [c]) < 2000 then { page with text := page.text ++ [c] } else ⟨[], true⟩

/-- The page after a text has been printed. -/
def ofText (text : List UInt8) : Page := text.foldl print ⟨[], false⟩

/-- The page is the end of what has been printed, and all of it unless the screen has been cleared; each of its
    characters has a cell of its own on the screen. -/
structure IsOf (page : Page) (text : List UInt8) : Prop where
  suffix : page.text <:+ text
  eq_of_not_cleared : page.cleared = false → page.text = text
  pairwise : (cellsOf 0 page.text).Pairwise fun q q' => q.1 < q'.1
  lt : ∀ q ∈ cellsOf 0 page.text, q.1 < 2000

end Page

/-- The screen, which was `videoMemory` at the start, shows the page. -/
structure Displays (videoMemory : ℤ → UInt16) (page : Page) (s : Console) : Prop where
  x_lt : s.x.toNat < 80
  y_lt : s.y.toNat < 25
  index_eq : s.index = endOf 0 page.text
  /-- Each character of the page is in its own cell. -/
  text : (cellsOf 0 page.text).map (fun q => character (s.videoMemory q.1)) = page.text.filter (· ≠ newline)
  /-- The other cells are blank, if the screen has been cleared. -/
  rest : ∀ i, i ∉ (cellsOf 0 page.text).map (fun q => (q.1 : ℤ)) → character (s.videoMemory i) =
    if page.cleared ∧ 0 ≤ i ∧ i < 2000 then space else character (videoMemory i)

variable {cell : UInt16} {c : UInt8} {videoMemory : ℤ → UInt16} {i : ℤ} {p q : ℕ} {text : List UInt8}

/-! ## Characters and colours -/

theorem toBitVec_withCharacter :
    (withCharacter cell c).toBitVec = (cell.toBitVec &&& 0xFF00#16) ||| c.toBitVec.signExtend 16 := rfl

@[simp] theorem character_withCharacter : character (withCharacter cell c) = c := by
  apply UInt8.eq_of_toBitVec_eq
  apply BitVec.eq_of_getLsbD_eq
  intro i hi
  rw [character, UInt16.toBitVec_toUInt8, toBitVec_withCharacter]
  simp [BitVec.getLsbD_signExtend, hi]
  interval_cases i <;> simp

theorem colours_withCharacter (hc : IsAscii c) : colours (withCharacter cell c) = colours cell := by
  apply UInt16.eq_of_toBitVec_eq
  apply BitVec.eq_of_getLsbD_eq
  intro i hi
  -- The sign that is extended is 0.
  have hmsb : c.toBitVec.msb = false := by
    have h : c.toNat < 128 := hc
    rw [BitVec.msb_eq_decide]
    simpa using h
  simp [colours, toBitVec_withCharacter, BitVec.getLsbD_signExtend, hmsb]
  interval_cases i <;> simp

theorem isAscii_space : IsAscii space := by decide

@[simp] theorem setCharacter_self : setCharacter videoMemory i c i = withCharacter (videoMemory i) c :=
  Function.update_self ..

theorem setCharacter_of_ne {j : ℤ} (h : j ≠ i) : setCharacter videoMemory i c j = videoMemory j :=
  Function.update_of_ne h ..

theorem colours_setCharacter (hc : IsAscii c) (j : ℤ) :
    colours (setCharacter videoMemory i c j) = colours (videoMemory j) := by
  rcases eq_or_ne j i with rfl | h
  · rw [setCharacter_self, colours_withCharacter hc]
  · rw [setCharacter_of_ne h]

/-- The same character in several cells. -/
theorem character_foldl_setCharacter (l : List ℤ) (videoMemory : ℤ → UInt16) :
    character (l.foldl (fun m j => setCharacter m j c) videoMemory i) =
      if i ∈ l then c else character (videoMemory i) := by
  induction l generalizing videoMemory with
  | nil => rfl
  | cons j l ih =>
    rw [List.foldl_cons, ih]
    rcases eq_or_ne i j with rfl | h
    · simp
    · simp [setCharacter_of_ne h, h]

theorem colours_foldl_setCharacter (hc : IsAscii c) (l : List ℤ) (videoMemory : ℤ → UInt16) :
    colours (l.foldl (fun m j => setCharacter m j c) videoMemory i) = colours (videoMemory i) := by
  induction l generalizing videoMemory with
  | nil => rfl
  | cons j l ih => rw [List.foldl_cons, ih, colours_setCharacter hc]

theorem foldl_setCharacter_of_not_mem {l : List ℤ} (h : i ∉ l) :
    l.foldl (fun m j => setCharacter m j c) videoMemory i = videoMemory i := by
  induction l generalizing videoMemory with
  | nil => rfl
  | cons j l ih =>
    rw [List.mem_cons, not_or] at h
    rw [List.foldl_cons, ih h.2, setCharacter_of_ne h.1]

namespace Console

/-- The cells of the screen, in the order in which they are cleared. -/
theorem clear_eq : clear videoMemory = ((List.range 25).flatMap fun y => (List.range 80).map fun x =>
    ((80 * y + x : ℕ) : ℤ)).foldl (fun m j => setCharacter m j space) videoMemory := by
  simp only [clear, List.foldl_flatMap, List.foldl_map]

theorem mem_cells : i ∈ ((List.range 25).flatMap fun y => (List.range 80).map fun x => ((80 * y + x : ℕ) : ℤ)) ↔
    0 ≤ i ∧ i < 2000 := by
  simp only [List.mem_flatMap, List.mem_map, List.mem_range]
  constructor
  · rintro ⟨y, hy, x, hx, rfl⟩
    omega
  · rintro ⟨h₀, h⟩
    obtain ⟨n, rfl⟩ := Int.eq_ofNat_of_zero_le h₀
    exact ⟨n / 80, by omega, n % 80, by omega, congrArg _ (Nat.div_add_mod n 80)⟩

theorem character_clear : character (clear videoMemory i) =
    if 0 ≤ i ∧ i < 2000 then space else character (videoMemory i) := by
  rw [clear_eq, character_foldl_setCharacter]
  exact if_congr mem_cells rfl rfl

theorem clear_of_not_mem (hi : ¬(0 ≤ i ∧ i < 2000)) : clear videoMemory i = videoMemory i := by
  rw [clear_eq]
  exact foldl_setCharacter_of_not_mem (mt mem_cells.1 hi)

theorem colours_clear : colours (clear videoMemory i) = colours (videoMemory i) := by
  rw [clear_eq, colours_foldl_setCharacter isAscii_space]

end Console

/-! ## Cells of a text -/

theorem lt_advance : p < advance p c := by
  rw [advance]
  split_ifs <;> omega

theorem le_endOf : p ≤ endOf p text := by
  induction text generalizing p with
  | nil => exact le_rfl
  | cons c text ih => exact lt_advance.le.trans ih

theorem endOf_append_singleton : endOf p (text ++ [c]) = advance (endOf p text) c := by
  simp [endOf]

theorem cellsOf_append_singleton : cellsOf p (text ++ [c]) =
    cellsOf p text ++ if c = newline then [] else [(endOf p text, c)] := by
  induction text generalizing p with
  | nil => simp only [List.nil_append, cellsOf]; rfl
  | cons d text ih =>
    rw [List.cons_append, cellsOf, cellsOf, ih]
    split_ifs <;> rfl

/-- The cells of a text are before its end. -/
theorem lt_endOf_of_mem {q : ℕ × UInt8} (h : q ∈ cellsOf p text) : p ≤ q.1 ∧ q.1 < endOf p text := by
  induction text generalizing p with
  | nil => exact absurd h List.not_mem_nil
  | cons c text ih =>
    have hadv : p < advance p c := lt_advance
    rw [cellsOf] at h
    split_ifs at h
    · obtain ⟨hle, hlt⟩ := ih h
      exact ⟨hadv.le.trans hle, hlt⟩
    · rcases List.mem_cons.1 h with rfl | h
      · exact ⟨le_rfl, lt_of_lt_of_le hadv le_endOf⟩
      · obtain ⟨hle, hlt⟩ := ih h
        exact ⟨hadv.le.trans hle, hlt⟩

/-- Each character has a cell of its own. -/
theorem pairwise_cellsOf : (cellsOf p text).Pairwise fun q q' => q.1 < q'.1 := by
  induction text generalizing p with
  | nil => exact .nil
  | cons c text ih =>
    rw [cellsOf]
    split_ifs
    · exact ih
    · exact .cons (fun q hq => lt_of_lt_of_le lt_advance (lt_endOf_of_mem hq).1) ih

/-! ## Pages -/

namespace Page

variable {page : Page}

theorem endOf_print_lt : endOf 0 (page.print c).text < 2000 := by
  rw [print]
  split_ifs with hlt
  · exact hlt
  · decide

theorem ofText_append_singleton : ofText (text ++ [c]) = (ofText text).print c := by
  simp [ofText]

theorem endOf_ofText_lt : endOf 0 (ofText text).text < 2000 := by
  rcases List.eq_nil_or_concat text with rfl | ⟨text, c, rfl⟩
  · decide
  · rw [List.concat_eq_append, ofText_append_singleton]
    exact endOf_print_lt

/-- The page is the end of what has been printed. -/
theorem suffix_ofText : (ofText text).text <:+ text := by
  induction text using List.reverseRecOn with
  | nil => exact List.nil_suffix
  | append_singleton text c ih =>
    rw [ofText_append_singleton, print]
    split_ifs
    · obtain ⟨before, h⟩ := ih
      refine ⟨before, ?_⟩
      rw [← List.append_assoc, h]
    · exact List.nil_suffix

/-- It is all of it before the screen is cleared. -/
theorem ofText_of_not_cleared (h : (ofText text).cleared = false) : (ofText text).text = text := by
  induction text using List.reverseRecOn with
  | nil => rfl
  | append_singleton text c ih =>
    rw [ofText_append_singleton, print] at h ⊢
    split_ifs at h ⊢
    rw [ih h]

theorem isOf_ofText (text : List UInt8) : (ofText text).IsOf text :=
  ⟨suffix_ofText, ofText_of_not_cleared, pairwise_cellsOf, fun _ hq => (lt_endOf_of_mem hq).2.trans endOf_ofText_lt⟩

end Page

/-! ## Printing -/

namespace Console

variable {s : Console} {page : Page}

theorem ext {s s' : Console} (hx : s.x.toNat = s'.x.toNat) (hy : s.y.toNat = s'.y.toNat)
    (hm : s.videoMemory = s'.videoMemory) : s = s' := by
  obtain ⟨x, y, m⟩ := s
  obtain ⟨x', y', m'⟩ := s'
  obtain rfl := UInt8.toNat_inj.1 hx
  obtain rfl := UInt8.toNat_inj.1 hy
  obtain rfl : m = m' := hm
  rfl

theorem wrap_eq (hx : s.x.toNat ≤ 80) (hy : s.y.toNat ≤ 25) : s.wrap =
    if s.index < 2000 then ⟨.ofNat (s.index % 80), .ofNat (s.index / 80), s.videoMemory⟩
    else ⟨0, 0, clear s.videoMemory⟩ := by
  have hindex : s.index = 80 * s.y.toNat + s.x.toNat := rfl
  have h80 : (80 : UInt8).toNat = 80 := rfl
  have h25 : (25 : UInt8).toNat = 25 := rfl
  have hof : ∀ n < 256, (UInt8.ofNat n).toNat = n := fun n hn => UInt8.toNat_ofNat_of_lt' hn
  have hsucc : (s.y + 1).toNat = s.y.toNat + 1 := by
    rw [UInt8.toNat_add, UInt8.toNat_one]
    omega
  simp only [wrap, ge_iff_le, UInt8.le_iff_toNat_le, h80, h25]
  by_cases hrow : 80 ≤ s.x.toNat
  · rw [if_pos hrow]
    dsimp only
    rw [hsucc]
    split_ifs
    · omega
    · rfl
    · refine ext ?_ ?_ rfl
      · rw [hof _ (by omega), UInt8.toNat_zero]
        omega
      · rw [hof _ (by omega), hsucc]
        omega
    · omega
  · rw [if_neg hrow]
    split_ifs
    · omega
    · rfl
    · refine ext ?_ ?_ rfl
      · rw [hof _ (by omega)]
        omega
      · rw [hof _ (by omega)]
        omega
    · omega

/-- The video memory with a character at the cursor. -/
def written (s : Console) (c : UInt8) : ℤ → UInt16 :=
  if c = newline then s.videoMemory else setCharacter s.videoMemory s.index c

/-- The cursor goes on to the next cell, or to the top of a cleared screen. -/
theorem printChar_eq (hx : s.x.toNat < 80) (hy : s.y.toNat < 25) : s.printChar c =
    if advance s.index c < 2000 then
      ⟨.ofNat (advance s.index c % 80), .ofNat (advance s.index c / 80), s.written c⟩
    else ⟨0, 0, clear (s.written c)⟩ := by
  have hindex : s.index = 80 * s.y.toNat + s.x.toNat := rfl
  have hx1 : (s.x + 1).toNat = s.x.toNat + 1 := by
    rw [UInt8.toNat_add, UInt8.toNat_one]
    omega
  have hy1 : (s.y + 1).toNat = s.y.toNat + 1 := by
    rw [UInt8.toNat_add, UInt8.toNat_one]
    omega
  by_cases hc : c = newline
  · have hnext : index { s with x := 0, y := s.y + 1 } = advance s.index c := by
      rw [advance, if_pos hc, index, hy1, UInt8.toNat_zero]
      omega
    rw [printChar, if_pos hc, wrap_eq (by simp) (hy1.trans_le hy), hnext, written, if_pos hc]
  · have hnext : index { s with videoMemory := setCharacter s.videoMemory s.index c, x := s.x + 1 } =
        advance s.index c := by
      rw [advance, if_neg hc, index, hx1, hindex, Nat.add_assoc]
    rw [printChar, if_neg hc, wrap_eq (s := { s with videoMemory := _, x := s.x + 1 }) (hx1.trans_le hx) hy.le, hnext,
      written, if_neg hc]

end Console

/-! ## What the screen shows -/

namespace Displays

variable {s : Console} {page : Page}

theorem start (videoMemory : ℤ → UInt16) : Displays videoMemory (.ofText []) (.start videoMemory) :=
  ⟨Nat.zero_lt_succ _, Nat.zero_lt_succ _, rfl, rfl, fun i _ => by simp [Page.ofText, Console.start]⟩

theorem index_lt (h : Displays videoMemory page s) : s.index < 2000 := by
  have hx := h.x_lt
  have hy := h.y_lt
  rw [Console.index]
  omega

/-- What is before the cursor stays. -/
theorem written_of_mem (h : Displays videoMemory page s) {q : ℕ × UInt8} (hq : q ∈ cellsOf 0 page.text) :
    s.written c q.1 = s.videoMemory q.1 := by
  rw [Console.written]
  split_ifs
  · rfl
  · refine setCharacter_of_ne ?_
    have hlt := (lt_endOf_of_mem hq).2
    rw [← h.index_eq] at hlt
    omega

/-- The page with another character, before it is cleared. -/
theorem written (h : Displays videoMemory page s) :
    ((cellsOf 0 (page.text ++ [c])).map fun q => character (s.written c q.1)) =
        (page.text ++ [c]).filter (· ≠ newline) ∧
      ∀ i, i ∉ (cellsOf 0 (page.text ++ [c])).map (fun q => (q.1 : ℤ)) → character (s.written c i) =
        if page.cleared ∧ 0 ≤ i ∧ i < 2000 then space else character (videoMemory i) := by
  have hold : (cellsOf 0 page.text).map (fun q => character (s.written c q.1)) =
      page.text.filter (· ≠ newline) := by
    rw [← h.text]
    exact List.map_congr_left fun q hq => congrArg character (h.written_of_mem hq)
  rw [cellsOf_append_singleton, List.map_append, List.map_append, List.filter_append, hold, ← h.index_eq]
  constructor
  · congr 1
    rw [Console.written]
    split_ifs with hc <;> simp [hc]
  · intro i hi
    obtain ⟨hi, hne⟩ := not_or.1 (List.mem_append.not.1 hi)
    rw [← h.rest i hi, Console.written]
    split_ifs with hc
    · rfl
    · rw [setCharacter_of_ne]
      simpa [hc] using hne

theorem printChar (h : Displays videoMemory page s) : Displays videoMemory (page.print c) (s.printChar c) := by
  obtain ⟨htext, hrest⟩ := h.written (c := c)
  rw [Console.printChar_eq h.x_lt h.y_lt, Page.print, endOf_append_singleton, ← h.index_eq]
  split_ifs with hlt
  · have hof : ∀ n < 256, (UInt8.ofNat n).toNat = n := fun n hn => UInt8.toNat_ofNat_of_lt' hn
    have hx := hof (advance s.index c % 80) (by omega)
    have hy := hof (advance s.index c / 80) (by omega)
    refine ⟨?_, ?_, ?_, htext, hrest⟩
    · rw [hx]
      exact Nat.mod_lt _ (by decide)
    · rw [hy]
      omega
    · rw [Console.index, hx, hy, endOf_append_singleton, ← h.index_eq]
      exact Nat.div_add_mod _ _
  · refine ⟨Nat.zero_lt_succ _, Nat.zero_lt_succ _, rfl, rfl, fun i _ => ?_⟩
    -- Beyond the screen, nothing has been printed.
    rw [Console.character_clear]
    by_cases hi : 0 ≤ i ∧ i < 2000
    · simp [hi]
    · rw [if_neg hi, if_neg fun h => hi h.2, hrest i fun hmem => hi ?_, if_neg fun h => hi h.2]
      obtain ⟨q, hq, rfl⟩ := List.mem_map.1 hmem
      rw [cellsOf_append_singleton] at hq
      have hlt := h.index_lt
      rcases List.mem_append.1 hq with hq | hq
      · have hq := (lt_endOf_of_mem hq).2
        rw [← h.index_eq] at hq
        omega
      · split_ifs at hq
        · exact absurd hq List.not_mem_nil
        · obtain rfl := List.mem_singleton.1 hq
          rw [← h.index_eq]
          omega

theorem printf (text' : List UInt8) (h : Displays videoMemory (.ofText text) s) :
    Displays videoMemory (.ofText (text ++ text')) (s.printf text') := by
  induction text' generalizing text s with
  | nil => rwa [List.append_nil]
  | cons c text' ih =>
    rw [List.append_cons]
    refine ih ?_
    rw [Page.ofText_append_singleton]
    exact h.printChar

end Displays

namespace Console

variable {s : Console}

theorem colours_printChar (hc : IsAscii c) (i : ℤ) :
    colours ((s.printChar c).videoMemory i) = colours (s.videoMemory i) := by
  have hwrap : ∀ s : Console, colours (s.wrap.videoMemory i) = colours (s.videoMemory i) := by
    intro s
    rw [wrap]
    split_ifs
    all_goals first | rfl | exact colours_clear
  rw [printChar, hwrap]
  split_ifs
  · rfl
  · exact colours_setCharacter hc i

theorem foldl_printf (texts : List (List UInt8)) : texts.foldl printf s = s.printf texts.flatten := by
  rw [printf, List.foldl_flatten]
  rfl

theorem colours_printf (htext : ∀ c ∈ text, IsAscii c) (i : ℤ) :
    colours ((s.printf text).videoMemory i) = colours (s.videoMemory i) := by
  induction text generalizing s with
  | nil => rfl
  | cons c text ih =>
    obtain ⟨hc, htext⟩ := List.forall_mem_cons.1 htext
    exact (ih htext).trans (colours_printChar hc i)

/-- **The screen shows the last page.** After any calls of `printf`, the screen shows the page that what has
    been printed ends with, and the colours stay as they are if everything was ASCII. -/
theorem displays_printf (videoMemory : ℤ → UInt16) (texts : List (List UInt8)) :
    (Page.ofText texts.flatten).IsOf texts.flatten ∧
      Displays videoMemory (.ofText texts.flatten) (texts.foldl printf (start videoMemory)) ∧
      ((∀ text ∈ texts, ∀ c ∈ text, IsAscii c) →
        ∀ i, colours ((texts.foldl printf (start videoMemory)).videoMemory i) = colours (videoMemory i)) := by
  rw [foldl_printf]
  refine ⟨Page.isOf_ofText _, (Displays.start videoMemory).printf texts.flatten, fun hascii i => ?_⟩
  have hflatten : ∀ c ∈ texts.flatten, IsAscii c := fun c hc => by
    obtain ⟨text, htext, hc⟩ := List.mem_flatten.1 hc
    exact hascii text htext c hc
  exact colours_printf hflatten i

end Console

end GtuOs

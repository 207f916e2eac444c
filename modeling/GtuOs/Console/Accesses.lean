import GtuOs.Console.Printf
import GtuOs.Lib.Interruptible

/-!
# The accesses of printf

The code of `printf` for a character, access by access: its cursor is static, so that an interrupt that prints moves
it, even in the middle of a character or of the loops that clear the screen. In an assignment the right hand side is
read first.

A character that is not interrupted is printed as `printChar` says (`leads_printCharCode`). One that is
interrupted is printed somewhere on the screen, and the cursor is on the screen again afterwards
(`triple_printCharCode`).
-/

namespace GtuOs

/-- What has been loaded of the cursor and of the video memory. -/
structure Registers where
  x : UInt8
  y : UInt8
  cell : UInt16

namespace Console

/-- Code of `printf`. -/
abbrev PrintfCode := Code Console Registers

def loadX : PrintfCode := .access fun s r => (s, { r with x := s.x })

def loadY : PrintfCode := .access fun s r => (s, { r with y := s.y })

def storeX (v : Registers → UInt8) : PrintfCode := .access fun s r => ({ s with x := v r }, r)

def storeY (v : Registers → UInt8) : PrintfCode := .access fun s r => ({ s with y := v r }, r)

/-- `x++` -/
def incrementX : PrintfCode := .seq loadX (storeX fun r => r.x + 1)

/-- `y++` -/
def incrementY : PrintfCode := .seq loadY (storeY fun r => r.y + 1)

/-- The index of the cell, as it has been loaded. -/
def cellIndex (r : Registers) : ℕ := 80 * r.y.toNat + r.x.toNat

def loadCell : PrintfCode := .access fun s r => (s, { r with cell := s.videoMemory (cellIndex r) })

def storeCell (c : UInt8) : PrintfCode := .access fun s r =>
  ({ s with videoMemory := Function.update s.videoMemory (cellIndex r) (withCharacter r.cell c) }, r)

/-- `VideoMemory[80*y+x] = (VideoMemory[80*y+x] & 0xFF00) | c` -/
def storeCharacter (c : UInt8) : PrintfCode :=
  .seq loadY <| .seq loadX <| .seq loadCell <| .seq loadY <| .seq loadX <| storeCell c

/-- A full row is followed by the next one. -/
def nextRow : PrintfCode := .when loadX (fun r => r.x ≥ 80) (.seq (storeX fun _ => 0) incrementY)

/-- The loop over `x`. -/
def clearCells : PrintfCode := .loop loadX (fun r => r.x < 80) (.seq (storeCharacter space) incrementX)

/-- The loop over `y`. -/
def clearRows : PrintfCode :=
  .loop loadY (fun r => r.y < 25) (.seq (.seq (storeX fun _ => 0) clearCells) incrementY)

/-- A full screen is cleared. -/
def nextPage : PrintfCode :=
  .when loadY (fun r => r.y ≥ 25)
    (.seq (.seq (storeY fun _ => 0) clearRows) (.seq (storeX fun _ => 0) (storeY fun _ => 0)))

/-- What `printf` does with a character. -/
def printCharCode (c : UInt8) : PrintfCode :=
  .seq (if c = newline then .seq (storeX fun _ => 0) incrementY else .seq (storeCharacter c) incrementX)
    (.seq nextRow nextPage)

variable {s s' : Console} {c : UInt8}

/-! ## Without interrupts -/

theorem leads_storeX (v : UInt8) : (storeX fun _ => v).Leads s { s with x := v } := fun r => ⟨r, .access _⟩

theorem leads_storeY (v : UInt8) : (storeY fun _ => v).Leads s { s with y := v } := fun r => ⟨r, .access _⟩

theorem leads_incrementX : incrementX.Leads s { s with x := s.x + 1 } := fun _ => ⟨_, .seq (.access _) (.access _)⟩

theorem leads_incrementY : incrementY.Leads s { s with y := s.y + 1 } := fun _ => ⟨_, .seq (.access _) (.access _)⟩

theorem leads_storeCharacter :
    (storeCharacter c).Leads s { s with videoMemory := setCharacter s.videoMemory s.index c } := fun _ =>
  ⟨_, .seq (.access _) (.seq (.access _) (.seq (.access _) (.seq (.access _) (.seq (.access _) (.access _)))))⟩

theorem tests_loadX (test : UInt8 → Bool) : loadX.Tests (fun r => test r.x) s (test s.x) := fun _ => ⟨_, .access _, rfl⟩

theorem tests_loadY (test : UInt8 → Bool) : loadY.Tests (fun r => test r.y) s (test s.y) := fun _ => ⟨_, .access _, rfl⟩

theorem leads_nextRow : nextRow.Leads s (if s.x ≥ 80 then { s with x := 0, y := s.y + 1 } else s) := by
  have htests : loadX.Tests (fun r => r.x ≥ 80) s (s.x ≥ 80) := tests_loadX fun x => x ≥ 80
  split_ifs with h
  · rw [decide_eq_true h] at htests
    exact .when_true htests ((leads_storeX 0).seq leads_incrementY)
  · rw [decide_eq_false h] at htests
    exact .when_false htests

/-- The last `k` cells of a row. -/
theorem leads_clearCells {k : ℕ} (hk : s.x.toNat + k = 80) : clearCells.Leads s
    ⟨80, s.y, (List.range' s.x.toNat k).foldl (fun m x => setCharacter m (80 * s.y.toNat + x : ℕ) space)
      s.videoMemory⟩ := by
  induction k generalizing s with
  | zero =>
    have hx : s.x = 80 := UInt8.toNat_inj.1 hk
    have htests : loadX.Tests (fun r => r.x < 80) s (s.x < 80) := tests_loadX fun x => x < 80
    rw [decide_eq_false (by rw [hx]; decide)] at htests
    rw [← hx]
    exact .loop_false htests
  | succ k ih =>
    have hlt : s.x < 80 := UInt8.lt_iff_toNat_lt.2 (by change _ < 80; omega)
    have hx : (s.x + 1).toNat = s.x.toNat + 1 := by
      rw [UInt8.toNat_add, UInt8.toNat_one]
      omega
    have htests : loadX.Tests (fun r => r.x < 80) s (s.x < 80) := tests_loadX fun x => x < 80
    rw [decide_eq_true hlt] at htests
    refine .loop_true htests (leads_storeCharacter.seq leads_incrementX) ?_
    have hrest := ih (s := ⟨s.x + 1, s.y, setCharacter s.videoMemory s.index space⟩) (by dsimp only; omega)
    dsimp only at hrest
    rwa [hx] at hrest

/-- The last `k` rows. -/
theorem leads_clearRows {k : ℕ} (hk : s.y.toNat + k = 25) : ∃ x, clearRows.Leads s
    ⟨x, 25, (List.range' s.y.toNat k).foldl (fun m y => (List.range 80).foldl
      (fun m x => setCharacter m (80 * y + x : ℕ) space) m) s.videoMemory⟩ := by
  induction k generalizing s with
  | zero =>
    have hy : s.y = 25 := UInt8.toNat_inj.1 hk
    have htests : loadY.Tests (fun r => r.y < 25) s (s.y < 25) := tests_loadY fun y => y < 25
    rw [decide_eq_false (by rw [hy]; decide)] at htests
    refine ⟨s.x, ?_⟩
    rw [← hy]
    exact .loop_false htests
  | succ k ih =>
    have hlt : s.y < 25 := UInt8.lt_iff_toNat_lt.2 (by change _ < 25; omega)
    have hy : (s.y + 1).toNat = s.y.toNat + 1 := by
      rw [UInt8.toNat_add, UInt8.toNat_one]
      omega
    have htests : loadY.Tests (fun r => r.y < 25) s (s.y < 25) := tests_loadY fun y => y < 25
    rw [decide_eq_true hlt] at htests
    have hcells := (leads_storeX 0).seq (leads_clearCells (s := { s with x := 0 }) (k := 80) rfl)
    dsimp only at hcells
    rw [UInt8.toNat_zero, ← List.range_eq_range'] at hcells
    obtain ⟨x, hrest⟩ := ih (s := ⟨80, s.y + 1, (List.range 80).foldl
      (fun m x => setCharacter m (80 * s.y.toNat + x : ℕ) space) s.videoMemory⟩) (by dsimp only; omega)
    refine ⟨x, .loop_true htests (hcells.seq leads_incrementY) ?_⟩
    dsimp only at hrest
    rwa [hy] at hrest

theorem leads_nextPage : nextPage.Leads s (if s.y ≥ 25 then ⟨0, 0, clear s.videoMemory⟩ else s) := by
  have htests : loadY.Tests (fun r => r.y ≥ 25) s (s.y ≥ 25) := tests_loadY fun y => y ≥ 25
  split_ifs with h
  · rw [decide_eq_true h] at htests
    obtain ⟨x, hrows⟩ := leads_clearRows (s := { s with y := 0 }) (k := 25) rfl
    dsimp only at hrows
    rw [UInt8.toNat_zero, ← List.range_eq_range'] at hrows
    exact .when_true htests (((leads_storeY 0).seq hrows).seq ((leads_storeX 0).seq (leads_storeY 0)))
  · rw [decide_eq_false h] at htests
    exact .when_false htests

/-- A character that is not interrupted. -/
theorem leads_printCharCode (c : UInt8) (s : Console) : (printCharCode c).Leads s (s.printChar c) := by
  refine .seq ?_ (leads_nextRow.seq leads_nextPage)
  split_ifs
  · exact (leads_storeX 0).seq leads_incrementY
  · exact leads_storeCharacter.seq leads_incrementX

/-! ## With interrupts -/

/-- Bounds of the cursor. -/
def Within (a b : ℕ) (s : Console) : Prop := s.x.toNat ≤ a ∧ s.y.toNat ≤ b

/-- What an interrupt does: if it prints, the cursor is on the screen when it returns. -/
def Interrupted (s s' : Console) : Prop := s'.x = s.x ∧ s'.y = s.y ∨ s'.Within 79 24

/-- What the code keeps to: it changes no cell beyond the screen, and the cursor leaves it by a row and a column at
most. -/
structure Keeps (s s' : Console) : Prop where
  within : s.Within 80 25 → s'.Within 80 25
  cells : ∀ i, ¬(0 ≤ i ∧ i < 2000) → s'.videoMemory i = s.videoMemory i

variable {a b : Registers → ℕ} {p : Registers → Prop}

theorem Keeps.refl (s : Console) : s.Keeps s := ⟨id, fun _ _ => rfl⟩

/-- Interrupts preserve bounds that leave room for the screen. -/
theorem Interrupted.within {m n : ℕ} (h : s.Interrupted s') (hm : 79 ≤ m) (hn : 24 ≤ n) (hs : s.Within m n) :
    s'.Within m n := by
  rcases h with ⟨hx, hy⟩ | h
  · rwa [Within, hx, hy]
  · exact ⟨h.1.trans hm, h.2.trans hn⟩

theorem stable_within (ha : ∀ r, 79 ≤ a r) (hb : ∀ r, 24 ≤ b r) :
    Code.Stable Interrupted fun s r => s.Within (a r) (b r) := fun _ _ r h hs => h.within (ha r) (hb r) hs

theorem stable_within_and (ha : ∀ r, 79 ≤ a r) (hb : ∀ r, 24 ≤ b r) :
    Code.Stable Interrupted fun s r => s.Within (a r) (b r) ∧ p r := fun s s' r h hs =>
  ⟨stable_within ha hb s s' r h hs.1, hs.2⟩

/-- `Triple` for the code of `printf`. -/
abbrev PrintfTriple (P : Console → Registers → Prop) (a : PrintfCode) (P' : Console → Registers → Prop) :=
  Code.Triple Interrupted Keeps P a P'

theorem triple_storeX {m n : ℕ} (hm : 79 ≤ m) (hn : 24 ≤ n) :
    PrintfTriple (fun s _ => s.Within m n) (storeX fun _ => 0) fun s _ => s.Within 79 n :=
  .access (stable_within (fun _ => hm) fun _ => hn) fun _ _ hs =>
    ⟨⟨fun h => ⟨Nat.zero_le _, h.2⟩, fun _ _ => rfl⟩, Nat.zero_le _, hs.2⟩

theorem triple_storeY {m n : ℕ} (hm : 79 ≤ m) (hn : 24 ≤ n) :
    PrintfTriple (fun s _ => s.Within m n) (storeY fun _ => 0) fun s _ => s.Within m 24 :=
  .access (stable_within (fun _ => hm) fun _ => hn) fun _ _ hs =>
    ⟨⟨fun h => ⟨h.1, Nat.zero_le _⟩, fun _ _ => rfl⟩, hs.1, Nat.zero_le _⟩

theorem triple_incrementX : PrintfTriple (fun s _ => s.Within 79 24) incrementX fun s _ => s.Within 80 24 := by
  have hload : PrintfTriple (fun s _ => s.Within 79 24) loadX fun s r => s.Within 79 24 ∧ r.x.toNat ≤ 79 :=
    .access (stable_within (by simp) (by simp)) fun s _ hs => ⟨.refl s, hs, hs.1⟩
  refine .seq Keeps.refl (stable_within (by simp) (by simp)) hload ?_
  refine .access (stable_within_and (by simp) (by simp)) fun s r hs => ?_
  have hx : (r.x + 1).toNat ≤ 80 := by
    rw [UInt8.toNat_add, UInt8.toNat_one]
    omega
  exact ⟨⟨fun h => ⟨hx, h.2⟩, fun _ _ => rfl⟩, hx, hs.1.2⟩

theorem triple_incrementY {m : ℕ} (hm : 79 ≤ m) :
    PrintfTriple (fun s _ => s.Within m 24) incrementY fun s _ => s.Within m 25 := by
  have hload : PrintfTriple (fun s _ => s.Within m 24) loadY fun s r => s.Within m 24 ∧ r.y.toNat ≤ 24 :=
    .access (stable_within (fun _ => hm) (by simp)) fun s _ hs => ⟨.refl s, hs, hs.2⟩
  refine .seq Keeps.refl (stable_within (fun _ => hm) (by simp)) hload ?_
  refine .access (stable_within_and (fun _ => hm) (by simp)) fun s r hs => ?_
  have hy : (r.y + 1).toNat ≤ 25 := by
    rw [UInt8.toNat_add, UInt8.toNat_one]
    omega
  exact ⟨⟨fun h => ⟨h.1, hy⟩, fun _ _ => rfl⟩, hs.1.1, hy⟩

/-- The index of the cell is that of one on the screen, as soon as it has been loaded. -/
theorem triple_storeCharacter (c : UInt8) :
    PrintfTriple (fun s _ => s.Within 79 24) (storeCharacter c) fun s _ => s.Within 79 24 := by
  have hstable : ∀ p : Registers → Prop, Code.Stable Interrupted fun s r => s.Within 79 24 ∧ p r := fun p =>
    stable_within_and (by simp) (by simp)
  have hloadY : PrintfTriple (fun s _ => s.Within 79 24) loadY fun s r => s.Within 79 24 ∧ r.y.toNat ≤ 24 :=
    .access (stable_within (by simp) (by simp)) fun s _ hs => ⟨.refl s, hs, hs.2⟩
  have hloadX : PrintfTriple (fun s r => s.Within 79 24 ∧ r.y.toNat ≤ 24) loadX
      fun s r => s.Within 79 24 ∧ cellIndex r < 2000 := by
    refine .access (hstable _) fun s r hs => ⟨.refl s, hs.1, ?_⟩
    have hx := hs.1.1
    have hy := hs.2
    change 80 * r.y.toNat + s.x.toNat < 2000
    omega
  have hloadCell : PrintfTriple (fun s r => s.Within 79 24 ∧ cellIndex r < 2000) loadCell fun s _ => s.Within 79 24 :=
    .access (hstable _) fun s _ hs => ⟨.refl s, hs.1⟩
  refine .seq Keeps.refl (stable_within (by simp) (by simp)) hloadY ?_
  refine .seq Keeps.refl (hstable _) hloadX (.seq Keeps.refl (hstable _) hloadCell ?_)
  refine .seq Keeps.refl (stable_within (by simp) (by simp)) hloadY (.seq Keeps.refl (hstable _) hloadX ?_)
  refine .access (hstable _) fun s r hs => ⟨⟨id, fun i hi => Function.update_of_ne ?_ _ _⟩, hs.1⟩
  rintro rfl
  exact hi ⟨Int.natCast_nonneg _, Int.ofNat_lt.2 hs.2⟩

/-- After a character, the cursor has left either the row or the screen at most. -/
def Advanced (s : Console) : Prop := s.Within 79 25 ∨ s.Within 80 24

theorem stable_advanced : Code.Stable Interrupted fun s (_ : Registers) => s.Advanced := by
  rintro s s' r (⟨hx, hy⟩ | h) hs
  · rwa [Advanced, Within, Within, hx, hy]
  · exact .inl ⟨h.1, h.2.trans (by decide)⟩

theorem triple_nextRow : PrintfTriple (fun s _ => s.Advanced) nextRow fun s _ => s.Within 79 25 := by
  have h80 : (80 : UInt8).toNat = 80 := rfl
  refine .when Keeps.refl (fun s r => s.Within (if 80 ≤ r.x then 80 else 79) (if 80 ≤ r.x then 24 else 25))
    stable_advanced (stable_within (fun r => ?_) fun r => ?_)
    (.access stable_advanced fun s r hs => ⟨.refl s, ?_⟩) ?_ fun s r hs => ?_
  · split_ifs <;> simp
  · split_ifs <;> simp
  · change s.Within (if 80 ≤ s.x then 80 else 79) (if 80 ≤ s.x then 24 else 25)
    simp only [Advanced, Within, UInt8.le_iff_toNat_le, h80] at hs ⊢
    split_ifs <;> omega
  · refine .weaken (.seq Keeps.refl (stable_within (by simp) (by simp)) (triple_storeX (by simp) le_rfl)
      (triple_incrementY le_rfl)) (P := fun s _ => s.Within 80 24) (fun s r hs => ?_) fun _ _ hs => hs
    have hfull : 80 ≤ r.x := of_decide_eq_true hs.2
    simpa [hfull] using hs.1
  · have hroom : ¬80 ≤ r.x := of_decide_eq_false hs.2
    simpa [hroom] using hs.1

theorem triple_clearCells : PrintfTriple (fun s _ => s.Within 80 24) clearCells fun s _ => s.Within 80 24 := by
  have h80 : (80 : UInt8).toNat = 80 := rfl
  refine .loop Keeps.refl (fun s r => s.Within (if r.x < 80 then 79 else 80) 24)
    (stable_within (by simp) (by simp)) (stable_within (fun r => ?_) (by simp))
    (.access (stable_within (by simp) (by simp)) fun s r hs => ⟨.refl s, ?_⟩) ?_ fun s r hs => ?_
  · split_ifs <;> simp
  · change s.Within (if s.x < 80 then 79 else 80) 24
    simp only [Within, UInt8.lt_iff_toNat_lt, h80] at hs ⊢
    split_ifs <;> omega
  · have hcell := Code.Triple.seq Keeps.refl (stable_within (by simp) (by simp)) (triple_storeCharacter space)
      triple_incrementX
    refine hcell.weaken (fun s r hs => ?_) fun _ _ hs => hs
    have hroom : r.x < 80 := of_decide_eq_true hs.2
    simpa [hroom] using hs.1
  · have hfull : ¬r.x < 80 := of_decide_eq_false hs.2
    simpa [hfull] using hs.1

theorem triple_clearRows : PrintfTriple (fun s _ => s.Within 80 25) clearRows fun s _ => s.Within 80 25 := by
  have h25 : (25 : UInt8).toNat = 25 := rfl
  refine .loop Keeps.refl (fun s r => s.Within 80 (if r.y < 25 then 24 else 25))
    (stable_within (by simp) (by simp)) (stable_within (by simp) fun r => ?_)
    (.access (stable_within (by simp) (by simp)) fun s r hs => ⟨.refl s, ?_⟩) ?_ fun s r hs => ?_
  · split_ifs <;> simp
  · change s.Within 80 (if s.y < 25 then 24 else 25)
    simp only [Within, UInt8.lt_iff_toNat_lt, h25] at hs ⊢
    split_ifs <;> omega
  · have hcells : PrintfTriple (fun s _ => s.Within 80 24) (.seq (storeX fun _ => 0) clearCells)
        fun s _ => s.Within 80 24 :=
      .seq Keeps.refl (stable_within (by simp) (by simp)) (triple_storeX (by simp) le_rfl)
        (triple_clearCells.weaken (fun _ _ hs => ⟨hs.1.trans (by decide), hs.2⟩) fun _ _ hs => hs)
    refine .weaken (.seq Keeps.refl (stable_within (by simp) (by simp)) hcells (triple_incrementY (by simp)))
      (fun s r hs => ?_) fun _ _ hs => hs
    have hroom : r.y < 25 := of_decide_eq_true hs.2
    simpa [hroom] using hs.1
  · have hfull : ¬r.y < 25 := of_decide_eq_false hs.2
    simpa [hfull] using hs.1

theorem triple_nextPage : PrintfTriple (fun s _ => s.Within 79 25) nextPage fun s _ => s.Within 79 24 := by
  have h25 : (25 : UInt8).toNat = 25 := rfl
  refine .when Keeps.refl (fun s r => s.Within 79 (if 25 ≤ r.y then 25 else 24))
    (stable_within (by simp) (by simp)) (stable_within (by simp) fun r => ?_)
    (.access (stable_within (by simp) (by simp)) fun s r hs => ⟨.refl s, ?_⟩) ?_ fun s r hs => ?_
  · split_ifs <;> simp
  · change s.Within 79 (if 25 ≤ s.y then 25 else 24)
    simp only [Within, UInt8.le_iff_toNat_le, h25] at hs ⊢
    split_ifs <;> omega
  · have hrows : PrintfTriple (fun s _ => s.Within 79 25) (.seq (storeY fun _ => 0) clearRows)
        fun s _ => s.Within 80 25 :=
      .seq Keeps.refl (stable_within (by simp) (by simp)) (triple_storeY le_rfl (by simp))
        (triple_clearRows.weaken (fun _ _ hs => ⟨hs.1.trans (by decide), hs.2.trans (by decide)⟩) fun _ _ hs => hs)
    have htop : PrintfTriple (fun s _ => s.Within 80 25) (.seq (storeX fun _ => 0) (storeY fun _ => 0))
        fun s _ => s.Within 79 24 :=
      .seq Keeps.refl (stable_within (by simp) (by simp)) (triple_storeX (by simp) (by simp))
        (triple_storeY le_rfl (by simp))
    refine .weaken (.seq Keeps.refl (stable_within (by simp) (by simp)) hrows htop) (fun s r hs => ?_) fun _ _ hs => hs
    exact ⟨hs.1.1, hs.1.2.trans (by split_ifs <;> simp)⟩
  · have hroom : ¬25 ≤ r.y := of_decide_eq_false hs.2
    simpa [hroom] using hs.1

/-- A character, however it is interrupted. -/
theorem triple_printCharCode (c : UInt8) :
    PrintfTriple (fun s _ => s.Within 79 24) (printCharCode c) fun s _ => s.Within 79 24 := by
  have hstable : Code.Stable Interrupted fun s (_ : Registers) => s.Within 79 24 := stable_within (by simp) (by simp)
  have hcharacter : PrintfTriple (fun s _ => s.Within 79 24)
      (if c = newline then .seq (storeX fun _ => 0) incrementY else .seq (storeCharacter c) incrementX)
      fun s _ => s.Advanced := by
    split_ifs
    · exact .weaken (.seq Keeps.refl hstable (triple_storeX le_rfl le_rfl) (triple_incrementY le_rfl))
        (fun _ _ hs => hs) fun _ _ hs => .inl hs
    · exact .weaken (.seq Keeps.refl hstable (triple_storeCharacter c) triple_incrementX)
        (fun _ _ hs => hs) fun _ _ hs => .inr hs
  exact .seq Keeps.refl hstable hcharacter (.seq Keeps.refl stable_advanced triple_nextRow triple_nextPage)

/-! ## What interrupts print -/

theorem wrap_spec (s : Console) (hx : s.x.toNat ≤ 81) (hy : s.y.toNat ≤ 26) :
    s.wrap.Within 79 24 ∧ ∀ i, ¬(0 ≤ i ∧ i < 2000) → s.wrap.videoMemory i = s.videoMemory i := by
  have h80 : (80 : UInt8).toNat = 80 := rfl
  have h25 : (25 : UInt8).toNat = 25 := rfl
  have hy1 : (s.y + 1).toNat = s.y.toNat + 1 := by
    rw [UInt8.toNat_add, UInt8.toNat_one]
    omega
  simp only [wrap, ge_iff_le, UInt8.le_iff_toNat_le, h80, h25]
  split_ifs with hrow hpage hpage
  · exact ⟨⟨Nat.zero_le _, Nat.zero_le _⟩, fun i hi => clear_of_not_mem hi⟩
  · exact ⟨⟨Nat.zero_le _, by dsimp only at hpage ⊢; omega⟩, fun _ _ => rfl⟩
  · exact ⟨⟨Nat.zero_le _, Nat.zero_le _⟩, fun i hi => clear_of_not_mem hi⟩
  · exact ⟨⟨by omega, by omega⟩, fun _ _ => rfl⟩

/-- A character that an interrupt prints, in the middle of another one. -/
theorem printChar_spec (h : s.Within 80 25) (c : UInt8) : (s.printChar c).Within 79 24 ∧
    ∀ i, ¬(0 ≤ i ∧ i ≤ 2080) → (s.printChar c).videoMemory i = s.videoMemory i := by
  obtain ⟨hx, hy⟩ := h
  have hx1 : (s.x + 1).toNat = s.x.toNat + 1 := by
    rw [UInt8.toNat_add, UInt8.toNat_one]
    omega
  have hy1 : (s.y + 1).toNat = s.y.toNat + 1 := by
    rw [UInt8.toNat_add, UInt8.toNat_one]
    omega
  rw [printChar]
  split_ifs
  · obtain ⟨hwithin, hcells⟩ := wrap_spec { s with x := 0, y := s.y + 1 } (by simp) (by dsimp only; omega)
    exact ⟨hwithin, fun i hi => hcells i fun h => hi ⟨h.1, by omega⟩⟩
  · obtain ⟨hwithin, hcells⟩ := wrap_spec
      { s with videoMemory := setCharacter s.videoMemory s.index c, x := s.x + 1 } (by dsimp only; omega)
      (by dsimp only; omega)
    refine ⟨hwithin, fun i hi => (hcells i fun h => hi ⟨h.1, by omega⟩).trans (setCharacter_of_ne ?_)⟩
    rintro rfl
    refine hi ⟨Int.natCast_nonneg _, ?_⟩
    rw [index]
    omega

/-- A text that an interrupt prints. -/
theorem printf_spec (h : s.Within 80 25) (text : List UInt8) : s.Interrupted (s.printf text) ∧
    ∀ i, ¬(0 ≤ i ∧ i ≤ 2080) → (s.printf text).videoMemory i = s.videoMemory i := by
  induction text generalizing s with
  | nil => exact ⟨.inl ⟨rfl, rfl⟩, fun _ _ => rfl⟩
  | cons c text ih =>
    obtain ⟨hwithin, hcells⟩ := printChar_spec h c
    have hnext : (s.printChar c).Within 80 25 := ⟨hwithin.1.trans (by decide), hwithin.2.trans (by decide)⟩
    obtain ⟨hrest, hcells'⟩ := ih hnext
    refine ⟨.inr ?_, fun i hi => (hcells' i hi).trans (hcells i hi)⟩
    rcases hrest with ⟨hx, hy⟩ | hrest
    · rwa [Within, printf, List.foldl_cons, ← printf, hx, hy]
    · exact hrest

end Console

end GtuOs

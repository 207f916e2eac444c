import GtuOs.FatFileSystem.Command
import GtuOs.FatFileSystem.Inserting
import Mathlib.Order.Interval.Finset.Nat

/-!
# The capacity check

`add_dir_entry` compares `calculate_total_num_blocks_for_entry` with the number of free blocks before it
inserts at the end of a table. The estimate counts at most one block for a name that does not fit in the rest
of its block, and none for an empty file; the insertion takes one block for any entry, and, the
cursor being lost after the first one it chains, at most one for the name. So the estimate is enough
(`Sufficient`) exactly under `CapacityCounts` (`sufficient_iff`).
-/

namespace GtuOs.FatFileSystem.FileSystem

variable {s t : FileSystem} {b p n : ℕ} {l : List ℕ} {c : Cursor} {e : DirectoryEntry}
  {fileName : CString} {linuxFile : LinuxFile} {unflag : FileSystem → FileSystem} {name : List UInt8}

/-! ## Free blocks -/

/-- The number of free blocks among the first `n`. -/
def countEmpty (fat : ℕ → UInt16) (n : ℕ) : ℕ := ((Finset.range n).filter fun b => fat b = fatEntryEmpty).card

theorem countEmpty_of_take {fat fat' : ℕ → UInt16} (hb : b < n) (hfree : fat b = fatEntryEmpty)
    (htaken : fat' b ≠ fatEntryEmpty)
    (hother : ∀ i, i ≠ b → (fat' i = fatEntryEmpty ↔ fat i = fatEntryEmpty)) :
    countEmpty fat' n + 1 = countEmpty fat n := by
  have herase : ((Finset.range n).filter fun i => fat' i = fatEntryEmpty) =
      ((Finset.range n).filter fun i => fat i = fatEntryEmpty).erase b := by
    ext i
    rcases eq_or_ne i b with rfl | hne
    · simp [htaken]
    · simp [hother i hne, hne]
  rw [countEmpty, herase, countEmpty]
  exact Finset.card_erase_add_one (Finset.mem_filter.2 ⟨Finset.mem_range.2 hb, hfree⟩)

theorem countEmpty_eq_zero_iff {fat : ℕ → UInt16} : countEmpty fat n = 0 ↔
    ∀ b < n, fat b ≠ fatEntryEmpty := by
  rw [countEmpty, Finset.card_eq_zero, Finset.filter_eq_empty_iff]
  simp only [Finset.mem_range]

variable (s) in
/-- The number of free blocks in the FAT. -/
def freeBlocks : ℕ := countEmpty s.fat numBlocks

theorem freeBlocks_congr (h : t.fat = s.fat) : t.freeBlocks = s.freeBlocks :=
  congrArg (countEmpty · numBlocks) h

/-- A block is found if one is free. -/
theorem findFreeBlock_eq_none_iff : s.findFreeBlock = none ↔ s.freeBlocks = 0 := by
  rw [freeBlocks, countEmpty_eq_zero_iff]
  delta findFreeBlock
  generalize numBlocks = n
  simp only [List.find?_eq_none, List.mem_range, decide_eq_true_eq]

theorem freeBlocks_allocate (h : s.findFreeBlock = some b) :
    (s.allocate e b).freeBlocks + 1 = s.freeBlocks := by
  obtain ⟨hb, hfree⟩ := findFreeBlock_spec h
  refine countEmpty_of_take hb hfree ?_ fun i hi => ?_
  · rw [allocate_fat, Function.update_self]
    decide
  · rw [allocate_fat, Function.update_of_ne hi]

/-- The FAT after a block has been chained. -/
theorem extend_fat (s : FileSystem) (cur : UInt16) (b : ℕ) : (s.extend cur b).fat =
    Function.update (Function.update s.fat cur.toNat (.ofNat b)) b fatEntryEnd :=
  writeSuperblockAndFat_fat _

theorem extend_blockSize (s : FileSystem) (cur : UInt16) (b : ℕ) : (s.extend cur b).blockSize = s.blockSize := by
  rw [extend, blockSize, writeSuperblockAndFat_sb]
  rfl

theorem freeBlocks_extend {cur : UInt16} (h : s.findFreeBlock = some b)
    (hcur : s.fat cur.toNat ≠ fatEntryEmpty) : (s.extend cur b).freeBlocks + 1 = s.freeBlocks := by
  obtain ⟨hb, hfree⟩ := findFreeBlock_spec h
  refine countEmpty_of_take hb hfree ?_ fun i hi => ?_
  · rw [extend_fat, Function.update_self]
    decide
  · rw [extend_fat, Function.update_of_ne hi]
    rcases eq_or_ne i cur.toNat with rfl | hne
    · rw [Function.update_self]
      refine iff_of_false (fun hempty => ?_) hcur
      have hlt : b < 4096 := hb
      have hofNat := congrArg UInt16.toNat hempty
      rw [UInt16.toNat_ofNat_of_lt' (by simp only [UInt16.size]; omega)] at hofNat
      rw [hofNat] at hlt
      exact absurd hlt (by decide)
    · rw [Function.update_of_ne hne]

-- The count is not evaluated.
attribute [irreducible] freeBlocks

/-! ## The name -/

/-- The block of a cursor is not free. -/
theorem At.fat_ne_empty (h : s.At l p c) : s.fat c.fatCurIndex.toNat ≠ fatEntryEmpty := by
  obtain ⟨l₁, b, l₂, j, -, hch, -⟩ := h
  rw [hch.isChain.1]
  exact hch.isChain.ne_empty List.mem_cons_self

/-- The end of a chain is no index. -/
theorem next_end (s : FileSystem) : s.next fatEntryEnd = .error .index := by
  rw [next, if_neg (by decide)]

/-- The insertion of a name: in the chain, past its end in one more block, or further. -/
inductive NameEnds (s : FileSystem) (l : List ℕ) (p n : ℕ) :
    Except Fault (FileSystem × Option Cursor) → Prop
  | inChain {t : FileSystem} {c' : Cursor} : p + n ≤ l.length * s.blockSize → t.fat = s.fat →
    t.blockSize = s.blockSize → NameEnds s l p n (.ok (t, some c'))
  | full {t : FileSystem} : l.length * s.blockSize < p + n → s.freeBlocks = 0 →
    NameEnds s l p n (.ok (t, none))
  | extended {t : FileSystem} {c' : Cursor} : l.length * s.blockSize < p + n →
    p + n ≤ (l.length + 1) * s.blockSize → t.freeBlocks + 1 = s.freeBlocks →
    t.blockSize = s.blockSize → NameEnds s l p n (.ok (t, some c'))
  | lost : (l.length + 1) * s.blockSize < p + n → NameEnds s l p n (.error .index)

/-- Past the end of the chain. -/
theorem At.insertName_end (h : s.At l p c) (hbs : 0 < s.blockSize)
    (hend : l.length * s.blockSize ≤ p + c.remaining.toNat) (hlt : c.remaining.toNat < name.length) :
    ∃ r, Settles (fun fuel => insertNameToDir fuel s name c) r ∧ NameEnds s l p name.length r := by
  have hle := h.add_remaining_le
  have hoff := h.offset_add_le
  have hnext := h.next_eq_end hend hbs
  have hmin : min c.remaining.toNat (s.length - c.offset) = c.remaining.toNat := by omega
  cases hfree : s.findFreeBlock with
  | none =>
    refine ⟨.ok (s, none), (Settles.const _).succ fun fuel => ?_,
      .full (by omega) (findFreeBlock_eq_none_iff.1 hfree)⟩
    rw [insertNameToDir, if_neg (by omega), hmin, hnext, hfree]
    rfl
  | some b =>
    have hstep : ∀ fuel, insertNameToDir (fuel + 1) s name c =
        insertNameToDir fuel (s.extend c.fatCurIndex b) (name.drop c.remaining.toNat)
          ((s.extend c.fatCurIndex b).seekBlock fatEntryEnd) := by
      intro fuel
      rw [insertNameToDir, if_neg (by omega), hmin, hnext, hfree]
      rfl
    have hblock := extend_blockSize s c.fatCurIndex b
    have hfree' := freeBlocks_extend hfree h.fat_ne_empty
    generalize s.extend c.fatCurIndex b = t at hstep hblock hfree'
    have hwrite : (t.writeList (t.seekBlock fatEntryEnd).offset (name.drop c.remaining.toNat)).freeBlocks =
        t.freeBlocks := freeBlocks_congr rfl
    have hlen : (name.drop c.remaining.toNat).length = name.length - c.remaining.toNat := List.length_drop
    have hsucc : (l.length + 1) * s.blockSize = l.length * s.blockSize + s.blockSize := Nat.succ_mul ..
    have hrem : (t.seekBlock fatEntryEnd).remaining.toNat = s.blockSize := hblock
    -- The rest of the name fits in the new block, or the next round is past its end, too.
    by_cases hfit : (name.drop c.remaining.toNat).length ≤ s.blockSize
    · refine ⟨.ok (t.writeList (t.seekBlock fatEntryEnd).offset (name.drop c.remaining.toNat),
        some ((t.seekBlock fatEntryEnd).advance (name.drop c.remaining.toNat).length)),
        Settles.succ ((Settles.const _).succ fun fuel => ?_) hstep,
        .extended (by omega) (by omega) (by omega) hblock⟩
      rw [insertNameToDir.eq_def]
      exact if_pos (hrem ▸ hfit)
    · refine ⟨.error .index, Settles.succ ((Settles.const _).succ fun fuel => ?_) hstep, .lost (by omega)⟩
      rw [insertNameToDir.eq_def]
      refine (if_neg (hrem ▸ hfit)).trans ?_
      rw [show (t.seekBlock fatEntryEnd).fatCurIndex = fatEntryEnd from rfl, next_end]
      rfl

/-- Inserting a name at a place of a table. -/
theorem At.insertName (h : s.At l p c) (hbs : 0 < s.blockSize) (name : List UInt8) :
    ∃ r, Settles (fun fuel => insertNameToDir fuel s name c) r ∧ NameEnds s l p name.length r := by
  -- The bytes left decrease, unless the block is at its end.
  generalize hm : 2 * name.length + (if c.remaining.toNat = 0 then 1 else 0) = m
  induction m using Nat.strong_induction_on generalizing name p c with
  | _ m ih =>
    have hle := h.add_remaining_le
    have hoff := h.offset_add_le
    rcases Nat.lt_or_ge c.remaining.toNat name.length with hlt | hfit
    · rcases Nat.lt_or_ge (p + c.remaining.toNat) (l.length * s.blockSize) with hmore | hend
      · obtain ⟨i, hi, hne, hnext⟩ := h.next hmore
        have hmin : min c.remaining.toNat (s.length - c.offset) = c.remaining.toNat := by omega
        have hlen : (name.drop c.remaining.toNat).length = name.length - c.remaining.toNat := List.length_drop
        have hrem : (s.seekBlock i).remaining.toNat = s.blockSize := rfl
        have hless : 2 * (name.drop c.remaining.toNat).length +
            (if (s.seekBlock i).remaining.toNat = 0 then 1 else 0) < m := by
          rw [hrem, if_neg (by omega)]
          split_ifs at hm <;> omega
        obtain ⟨r, hset, hr⟩ := ih _ hless hnext _ rfl
        have hadd : p + c.remaining.toNat + (name.drop c.remaining.toNat).length = p + name.length := by omega
        refine ⟨r, hset.succ fun fuel => ?_, ?_⟩
        · rw [insertNameToDir, if_neg (by omega), hmin, hi]
          exact if_neg hne
        · cases hr with
          | inChain hp hfat hblock => exact .inChain (hadd ▸ hp) hfat hblock
          | full hp hfree => exact .full (hadd ▸ hp) hfree
          | extended hp hp' hfree hblock => exact .extended (hadd ▸ hp) (hadd ▸ hp') hfree hblock
          | lost hp => exact .lost (hadd ▸ hp)
      · exact h.insertName_end hbs hend hlt
    · refine ⟨.ok (s.writeList c.offset name, some (c.advance name.length)),
        (Settles.const _).succ fun fuel => ?_, .inChain (by omega) rfl rfl⟩
      rw [insertNameToDir, if_pos hfit]

/-! ## The content -/

/-- The copy of a content takes no block. -/
theorem copyFileFrom_fat (content : List UInt8) (hc : c.remaining ≠ 0) :
    ∃ t, Settles (fun fuel => copyFileFrom fuel s content c) (.ok t) ∧ t.fat = s.fat ∧
      t.blockSize = s.blockSize := by
  induction content generalizing s c with
  | nil => exact ⟨s, (Settles.const _).succ fun _ => rfl, rfl, rfl⟩
  | cons ch content ih =>
    obtain ⟨t, hset, hfat, hbs⟩ := ih (s := s.writeList c.offset [ch])
      (c := { c with offset := c.offset + 1 }) hc
    refine ⟨t, hset.succ fun fuel => ?_, hfat, hbs⟩
    rw [copyFileFrom]
    exact if_neg hc

/-! ## The estimate -/

/-- The estimate is enough for the rest of the insertion: no block is missing, and as many blocks as
    estimated suffice. -/
def Sufficient (s : FileSystem) (unflag : FileSystem → FileSystem) (e : DirectoryEntry)
    (fileName : CString) (c : Cursor) (linuxFile : LinuxFile) : Prop :=
  ∃ s₁ e₁ c₁ s₂, Settles (s.insertAt unflag e fileName c) (.ok (s₁, some (e₁, c₁))) ∧
    (if checkAttribute e.attributes file then Settles (s₁.copyFileFromLinux e₁ linuxFile) (.ok s₂)
      else s₂ = s₁) ∧
    s.freeBlocks ≤ s₂.freeBlocks + s.calculateTotalNumBlocksForEntry e c.remaining.toNat

/-- The name needs at most one block more than the chain has, and something is estimated for the
    content, or for blocks of the name that the chain has already. -/
def CapacityCounts (s : FileSystem) (l : List ℕ) (p : ℕ) (e : DirectoryEntry) (c : Cursor) : Prop :=
  p + e.entrySize.toNat ≤ (l.length + 1) * s.blockSize ∧
    (checkAttribute e.attributes file → e.size = 0 →
      c.remaining.toNat < e.entrySize.toNat ∧ p + e.entrySize.toNat ≤ l.length * s.blockSize)

/-- What is estimated: a block if the name does not fit in the rest of its block, and the content. -/
theorem estimate_eq (hrem : 0 < c.remaining.toNat) (hle : c.remaining.toNat ≤ s.blockSize) :
    s.calculateTotalNumBlocksForEntry e c.remaining.toNat =
      (if c.remaining.toNat < e.entrySize.toNat then 1 else 0) + s.blocksFor e := by
  have hone : (c.remaining.toNat + s.blockSize - 1) / s.blockSize = 1 :=
    Nat.div_eq_of_lt_le (by omega) (by omega)
  rw [calculateTotalNumBlocksForEntry, hone]
  rfl

theorem blocksFor_eq_zero_iff (hbs : 0 < s.blockSize) :
    s.blocksFor e = 0 ↔ checkAttribute e.attributes file ∧ e.size = 0 := by
  rw [blocksFor]
  split_ifs with hfile
  · rw [calculateTotalNumBlocksForFile, Nat.div_eq_zero_iff_lt hbs, ← UInt32.toNat_inj]
    simp only [hfile, true_and]
    show _ ↔ e.size.toNat = 0
    omega
  · simp [hfile]

theorem At.remaining_le (h : s.At l p c) : c.remaining.toNat ≤ s.blockSize := by
  obtain ⟨-, -, -, j, -, -, hj, -, hr, -⟩ := h
  omega

theorem le_write_length (s : FileSystem) (p n : ℕ) (src : ℕ → UInt8) :
    s.length ≤ (s.write p n src).length := by
  rw [write]
  split_ifs
  · exact le_rfl
  · exact le_max_left _ _

theorem le_allocate_length (s : FileSystem) (e : DirectoryEntry) (b : ℕ) :
    s.length ≤ (s.allocate e b).length := by
  have hflush : s.length ≤ (s.takeBlock b).writeSuperblockAndFat.length :=
    (((le_write_length (s.takeBlock b) ..).trans (le_write_length ..)).trans (le_write_length ..)).trans
      (le_write_length ..)
  rw [allocate]
  split_ifs
  · exact hflush.trans (le_write_length ..)
  · exact hflush

/-- The insertion of an entry, for which the block `b` is free: that of its name remains. -/
theorem At.insertAt_name (h : s.At l p c) (hrem : DirectoryEntry.sizeof ≤ c.remaining.toNat)
    (hsize : e.entrySize.toNat = DirectoryEntry.sizeof + fileName.buffer.length)
    (hunflag : ∀ t, (unflag t).fat = t.fat ∧ (unflag t).blockSize = t.blockSize ∧
      t.length ≤ (unflag t).length)
    (hfree : s.findFreeBlock = some b) :
    ∃ (r : Except Fault (FileSystem × Option Cursor)) (t : FileSystem), t.NameEnds l (p + DirectoryEntry.sizeof) fileName.buffer.length r ∧
      t.blockSize = s.blockSize ∧ t.freeBlocks + 1 = s.freeBlocks ∧
      Settles (s.insertAt unflag e fileName c) (r >>= fun x => .ok (x.1, x.2.map fun c' =>
        ({ e with firstBlockIndex := .ofNat b }, c'))) := by
  obtain ⟨hfat, hblock, hlen⟩ := hunflag (s.allocate e b)
  let e' : DirectoryEntry := { e with firstBlockIndex := .ofNat b }
  have hbs : (s.allocate e b).blockSize = s.blockSize := by
    rw [blockSize, allocate_sb]
    rfl
  -- The cursor is behind the new header, in a chain that the allocation has not touched.
  have hat : ((unflag (s.allocate e b)).writeEntry c.offset e').At l (p + DirectoryEntry.sizeof)
      (c.advance DirectoryEntry.sizeof) := by
    refine (h.advance hrem).of_fat (hblock.trans hbs)
      (((le_allocate_length s e b).trans hlen).trans (le_write_length ..)) fun d hd => ?_
    refine (congrFun (hfat.trans (allocate_fat s e b)) d).trans (Function.update_of_ne ?_ _ _)
    rintro rfl
    exact hd (findFreeBlock_spec hfree).2
  have hpos : 0 < s.blockSize := lt_of_lt_of_le (lt_of_lt_of_le (by decide) hrem) h.remaining_le
  obtain ⟨r, hset, hr⟩ := hat.insertName (hpos.trans_eq (hblock.trans hbs).symm) fileName.buffer
  have htake : fileName.buffer.take e'.nameSize = fileName.buffer := by
    have hsize' : e'.nameSize = fileName.buffer.length := DirectoryEntry.nameSize_eq hsize
    rw [hsize', List.take_length]
  have hwrite : ((unflag (s.allocate e b)).writeEntry c.offset e').freeBlocks = (s.allocate e b).freeBlocks :=
    freeBlocks_congr hfat
  refine ⟨r, _, hr, hblock.trans hbs, hwrite ▸ freeBlocks_allocate hfree, (hset.bind_const _).congr fun fuel => ?_⟩
  rw [insertAt, allocateBlockForNewEntry_eq hfree]
  dsimp only
  rw [htake]

/-- After an insertion that has found its blocks. -/
theorem sufficient_of_ok {x : DirectoryEntry × Cursor}
    (h : Settles (s.insertAt unflag e fileName c) (.ok (t, some x))) (hbs : 0 < t.blockSize) :
    s.Sufficient unflag e fileName c linuxFile ↔
      s.freeBlocks ≤ t.freeBlocks + s.calculateTotalNumBlocksForEntry e c.remaining.toNat := by
  obtain ⟨t', hcopy, hfat, -⟩ := copyFileFrom_fat (s := t) (linuxFile.content.take x.1.size.toNat)
    (c := t.seekBlock x.1.firstBlockIndex) fun h0 => hbs.ne' (congrArg UInt16.toNat h0)
  have hfree := freeBlocks_congr hfat
  constructor
  · rintro ⟨s₁, e₁, c₁, s₂, hset, hs₂, hle⟩
    obtain ⟨rfl, hx⟩ := Prod.mk.inj (Except.ok.inj (hset.unique h))
    obtain rfl := Option.some.inj hx
    split_ifs at hs₂
    · obtain rfl := Except.ok.inj (hs₂.unique hcopy)
      rwa [hfree] at hle
    · rwa [hs₂] at hle
  · intro hle
    by_cases hfile : checkAttribute e.attributes file
    · exact ⟨t, x.1, x.2, t', h, by rw [if_pos hfile]; exact hcopy, by rw [hfree]; exact hle⟩
    · exact ⟨t, x.1, x.2, t, h, by rw [if_neg hfile], hle⟩

/-- An insertion that has not. -/
theorem not_sufficient {r : Except Fault (FileSystem × Option (DirectoryEntry × Cursor))}
    (h : Settles (s.insertAt unflag e fileName c) r) (hr : ∀ t x, r ≠ .ok (t, some x)) :
    ¬s.Sufficient unflag e fileName c linuxFile :=
  fun ⟨_, _, _, _, hset, _⟩ => hr _ _ (h.unique hset)

/-- **The capacity check.** At a place of the chain whose block has room for the header: where the check
    passes, the estimate is enough exactly if it counts enough. -/
theorem sufficient_iff (h : s.At l p c) (hrem : DirectoryEntry.sizeof ≤ c.remaining.toNat)
    (hfree : s.sb.numFreeBlocks.toNat = s.freeBlocks)
    (hsize : e.entrySize.toNat = DirectoryEntry.sizeof + fileName.buffer.length)
    (hunflag : unflag = id ∨ ∃ offset last, unflag = fun t => t.writeEntry offset last)
    (hcheck : s.calculateTotalNumBlocksForEntry e c.remaining.toNat ≤ s.sb.numFreeBlocks.toNat) :
    s.Sufficient unflag e fileName c linuxFile ↔ s.CapacityCounts l p e c := by
  have hpos : 0 < c.remaining.toNat := lt_of_lt_of_le (by decide) hrem
  have hbs : 0 < s.blockSize := hpos.trans_le h.remaining_le
  have hestimate := estimate_eq (e := e) hpos h.remaining_le
  have hle := h.add_remaining_le
  have hsucc : (l.length + 1) * s.blockSize = l.length * s.blockSize + s.blockSize := Nat.succ_mul ..
  have hunflag : ∀ t, (unflag t).fat = t.fat ∧ (unflag t).blockSize = t.blockSize ∧
      t.length ≤ (unflag t).length := by
    rcases hunflag with rfl | ⟨offset, last, rfl⟩
    · exact fun t => ⟨rfl, rfl, le_rfl⟩
    · exact fun t => ⟨rfl, rfl, le_write_length ..⟩
  have hcounts : s.CapacityCounts l p e c ↔ p + e.entrySize.toNat ≤ (l.length + 1) * s.blockSize ∧
      (s.blocksFor e = 0 →
        c.remaining.toNat < e.entrySize.toNat ∧ p + e.entrySize.toNat ≤ l.length * s.blockSize) := by
    rw [blocksFor_eq_zero_iff hbs, and_imp]
    rfl
  rw [hcounts]
  rw [hfree] at hcheck
  cases hblock : s.findFreeBlock with
  | none =>
    have hnone := findFreeBlock_eq_none_iff.1 hblock
    refine iff_of_false (not_sufficient (r := .ok (s.print .noFreeBlockFound, none))
      ((Settles.const _).congr fun fuel => ?_) fun t x heq => ?_) fun h => ?_
    · rw [insertAt, allocateBlockForNewEntry, hblock]
    · cases heq
    · have hcount := h.2
      split_ifs at hestimate
      all_goals omega
  | some b =>
    obtain ⟨r, t, hr, htbs, htfree, hset⟩ := h.insertAt_name hrem hsize hunflag hblock
    have hadd : p + DirectoryEntry.sizeof + fileName.buffer.length = p + e.entrySize.toNat := by omega
    cases hr with
    | inChain hp hfat htbs' =>
      -- Only the block of the content is taken.
      rw [sufficient_of_ok hset (by rw [htbs', htbs]; exact hbs), freeBlocks_congr hfat]
      rw [hadd, htbs] at hp
      split_ifs at hestimate with hlt
      all_goals omega
    | full hp hzero =>
      rw [hadd, htbs] at hp
      refine iff_of_false (not_sufficient hset fun t' x heq => by cases heq) fun h => ?_
      have hcount := h.2
      split_ifs at hestimate
      all_goals omega
    | extended hp hp' htfree' htbs' =>
      rw [sufficient_of_ok hset (by rw [htbs', htbs]; exact hbs)]
      rw [hadd, htbs] at hp hp'
      dsimp only
      split_ifs at hestimate with hlt
      all_goals omega
    | lost hp =>
      rw [hadd, htbs] at hp
      refine iff_of_false (not_sufficient hset fun t' x heq => by cases heq) fun h => ?_
      have hle' := h.1
      omega

/-! ### Two checks -/

/-- The place of the first entry of an empty root directory. -/
theorem at_newFile : newFile.At [25] 0 (newFile.seekBlock 25) := by
  have hroot : newFile.sb.rootDir.firstBlockIndex = 25 := by decide +kernel
  have htable := insertable_newFile.table
  rw [hroot] at htable
  exact htable.chained.at_seekBlock htable.ne_nil

theorem freeBlocks_newFile : newFile.sb.numFreeBlocks.toNat = newFile.freeBlocks := by
  have hfilter : ((Finset.range numBlocks).filter fun b => newFile.fat b = fatEntryEmpty) =
      Finset.Ico 26 numBlocks := by
    ext b
    rw [Finset.mem_filter, Finset.mem_range, Finset.mem_Ico, and_comm]
    exact and_congr_left fun hb => fat_newFile_eq_empty_iff hb
  rw [freeBlocks, countEmpty, hfilter, Nat.card_Ico]
  decide +kernel

/-- A new directory. -/
theorem sufficient_newDir :
    newFile.Sufficient id newDir newName (newFile.seekBlock 25) ⟨[], true, true⟩ :=
  (sufficient_iff at_newFile (by decide +kernel) freeBlocks_newFile (by decide) (.inl rfl)
    (by decide +kernel)).2 ⟨by decide +kernel, fun h => absurd h (by decide)⟩

/-- The entry of an empty file `x`. -/
def emptyFile : DirectoryEntry := { newDir with attributes := readPermission ||| writePermission ||| file }

/-- Nothing is estimated for an empty file, but it takes a block. -/
theorem not_sufficient_emptyFile :
    newFile.calculateTotalNumBlocksForEntry emptyFile (newFile.seekBlock 25).remaining.toNat ≤
        newFile.sb.numFreeBlocks.toNat ∧
      ¬newFile.Sufficient id emptyFile newName (newFile.seekBlock 25) ⟨[], true, true⟩ := by
  have hcheck : newFile.calculateTotalNumBlocksForEntry emptyFile (newFile.seekBlock 25).remaining.toNat ≤
      newFile.sb.numFreeBlocks.toNat := by decide +kernel
  refine ⟨hcheck, fun h => ?_⟩
  obtain ⟨-, hcounts⟩ := (sufficient_iff at_newFile (by decide +kernel) freeBlocks_newFile (by decide)
    (.inl rfl) hcheck).1 h
  exact absurd (hcounts (by decide) rfl).1 (by decide +kernel)

end GtuOs.FatFileSystem.FileSystem

import GtuOs.FatFileSystem.Creating

/-!
# Inserting into directory tables

Where the chain of a directory has room for the header of a new entry, and room for its name in
the rest of the block or, if the header ends the block, in the next one, `add_dir_entry` either
refuses, changing nothing, or adds the entry as the last
one of the table (`Table.addDirEntry_of_roomFor`).
-/

namespace GtuOs.FatFileSystem

/-- A name is not empty, with its 0. -/
theorem CString.sizeof_lt {n : ℕ} (fileName : CString)
    (h : n = DirectoryEntry.sizeof + fileName.buffer.length) : DirectoryEntry.sizeof < n := by
  have hpos : 0 < fileName.buffer.length := by
    rw [buffer, List.length_append]
    exact Nat.lt_add_left _ Nat.one_pos
  omega

theorem IsChain.ne_empty {fat : ℕ → UInt16} {i : UInt16} {l : List ℕ} {b : ℕ} (h : IsChain fat i l)
    (hb : b ∈ l) : fat b ≠ fatEntryEmpty := by
  obtain ⟨l₁, l₂, rfl⟩ := List.append_of_mem hb
  have hl₂ := h.suffix
  cases l₂ with
  | nil =>
    rw [show fat b = fatEntryEnd from hl₂]
    decide
  | cons c l₂ =>
    intro hempty
    have hc : c < 4096 := hl₂.2.1
    rw [← hl₂.1, hempty] at hc
    exact absurd hc (by decide)

namespace FileSystem

variable {s : FileSystem} {e dir : DirectoryEntry} {b : ℕ} {i : UInt16} {l : List ℕ}

/-! ## Allocation -/

theorem findFreeBlock_spec (h : s.findFreeBlock = some b) : b < numBlocks ∧ s.fat b = fatEntryEmpty := by
  delta findFreeBlock at h
  generalize numBlocks = n at h ⊢
  have hmem := List.mem_of_find?_eq_some h
  have hempty := List.find?_some h
  exact ⟨List.mem_range.1 hmem, by simpa using hempty⟩

theorem allocateBlockForNewEntry_eq (h : s.findFreeBlock = some b) :
    s.allocateBlockForNewEntry e = (s.allocate e b, some { e with firstBlockIndex := .ofNat b }) := by
  rw [allocateBlockForNewEntry, h]

/-- The table of a new directory. -/
def indicator : Record := ⟨lastDirIndicatorEntry, [], rfl, fun h => absurd rfl h⟩

theorem keeps_takeBlock (s : FileSystem) (b : ℕ) : s.Keeps (s.takeBlock b) {b} :=
  ⟨rfl, rfl, rfl, rfl, rfl, fun _ hc => Function.update_of_ne hc _ _, fun _ _ _ _ _ => rfl⟩

theorem keeps_allocate (hs : s.Geometry) (hb : b < numBlocks) : s.Keeps (s.allocate e b) {b} := by
  have h₁ := keeps_takeBlock s b
  have h₂ := keeps_writeSuperblockAndFat (h₁.geometry hs)
  have h₁₂ : s.Keeps (s.takeBlock b).writeSuperblockAndFat {b} :=
    (h₁.trans h₂).mono (Set.union_empty _).subset
  rw [allocate]
  split_ifs
  · have hgeo := h₁₂.geometry hs
    have h₃ := keeps_write (f := lastDirIndicatorEntry.bytes) (n := DirectoryEntry.sizeof) hgeo hb
      le_rfl (Nat.add_le_add_left hgeo.header_le _)
    exact (h₁₂.trans h₃).mono (Set.union_self _).subset
  · exact h₁₂

theorem stored_allocate (hs : s.Geometry) (hb : s.dataStart ≤ b) : (s.allocate e b).Stored := by
  have h₁ := keeps_takeBlock s b
  have h₂ := keeps_writeSuperblockAndFat (h₁.geometry hs)
  have hst := stored_writeSuperblockAndFat (h₁.geometry hs).toRegions
  rw [allocate]
  split_ifs
  · refine hst.write (h₂.geometry (h₁.geometry hs)).toRegions (Nat.mul_le_mul_right _ ?_)
    rw [h₂.dataStart_eq, h₁.dataStart_eq]
    exact hb
  · exact hst

theorem allocate_sb (s : FileSystem) (e : DirectoryEntry) (b : ℕ) :
    (s.allocate e b).sb = { s.sb with numFreeBlocks := s.sb.numFreeBlocks - 1 } := by
  rw [allocate]
  split_ifs <;> rfl

theorem allocate_fat (s : FileSystem) (e : DirectoryEntry) (b : ℕ) :
    (s.allocate e b).fat = Function.update s.fat b fatEntryEnd := by
  rw [allocate]
  split_ifs <;> rfl

theorem allocate_printed (s : FileSystem) (e : DirectoryEntry) (b : ℕ) :
    (s.allocate e b).printed = s.printed := by
  rw [allocate]
  split_ifs <;> rfl

/-- The block of a new directory holds an empty table. -/
theorem table_allocate (hs : s.Geometry) (hb : b < numBlocks)
    (hd : checkAttribute e.attributes directory) : (s.allocate e b).Table (.ofNat b) [b] [indicator] := by
  have hkeeps := keeps_allocate (e := e) hs hb
  have hgeo := hkeeps.geometry hs
  have hb' : (UInt16.ofNat b).toNat = b :=
    UInt16.toNat_ofNat_of_lt' (lt_of_lt_of_le hb (by decide))
  have hslot : slot (s.allocate e b).blockSize 0 = 0 := by
    rw [slot, Nat.zero_mod, if_pos (by rw [Nat.zero_add]; exact hgeo.header_le)]
  have hfat : (s.allocate e b).fat b = fatEntryEnd := by
    rw [allocate_fat, Function.update_self]
  -- One block, with the passive record at its start.
  refine ⟨⟨hgeo.header_le, ⟨⟨hb', hb, hfat⟩, fun c hc => ?_⟩, ⟨fun k hk => ?_, ?_, trivial⟩⟩,
    .inl ⟨by decide, rfl⟩⟩
  · obtain rfl := List.mem_singleton.1 hc
    have hle := Nat.mul_le_mul_right (s.allocate e c).blockSize (Nat.succ_le_of_lt hb)
    rw [Nat.succ_mul] at hle
    exact hle.trans hgeo.length_le
  · have hk : k < DirectoryEntry.sizeof := hk
    have haddr : Memory.blockAddr (s.allocate e b).blockSize [b] k = b * s.blockSize + k := by
      have hmiddle := @blockAddr_middle b [] [] k _ (lt_of_lt_of_le hk hgeo.header_le)
      rw [List.length_nil, Nat.zero_mul, Nat.zero_add, hkeeps.blockSize_eq] at hmiddle
      rw [hkeeps.blockSize_eq]
      exact hmiddle
    rw [hslot, Nat.zero_add, FileSystem.content, Memory.stream, haddr, indicator.bytes_header hk,
      allocate, if_pos hd]
    exact Memory.store_add hk
  · rw [hslot, Nat.zero_add, List.length_singleton, Nat.one_mul]
    exact hgeo.header_le

/-! ## The loop -/

variable {fileName : CString} {unflag : FileSystem → FileSystem} {r last : Record} {c : Cursor}
  {rs : List Record} {p q fuel : ℕ} {Q : FileSystem × Insertion → Prop}

/-- A cursor, when only entries of the FAT that were empty have changed. -/
theorem At.of_fat {t : FileSystem} (h : s.At l p c) (hbs : t.blockSize = s.blockSize) (hlen : s.length ≤ t.length)
    (hfat : ∀ d, s.fat d ≠ fatEntryEmpty → t.fat d = s.fat d) : t.At l p c := by
  obtain ⟨l₁, b, l₂, j, rfl, hch, hj, rfl, hr, hoff⟩ := h
  refine ⟨l₁, b, l₂, j, rfl, ⟨hch.isChain.congr fun d hd => hfat d (hch.isChain.ne_empty hd),
    fun d hd => ?_⟩, by rw [hbs]; exact hj, by rw [hbs], by rw [hbs]; exact hr, by rw [hbs]; exact hoff⟩
  rw [hbs]
  exact (hch.inFile d hd).trans hlen

/-- A name goes to the cursor, or to the next block from the end of one. -/
theorem At.insertName_fits {name : List UInt8} (h : s.At l p c) (hlt : p < l.length * s.blockSize)
    (hle : p % s.blockSize + name.length ≤ s.blockSize) (hpos : 0 < name.length) :
    ∃ c', Settles (fun fuel => insertNameToDir fuel s name c)
      (.ok (s.writeList (Memory.blockAddr s.blockSize l p) name, some c')) := by
  have hwrite : ∀ {c}, s.At l p c → name.length ≤ c.remaining.toNat →
      Settles (fun fuel => insertNameToDir fuel s name c)
        (.ok (s.writeList (Memory.blockAddr s.blockSize l p) name, some (c.advance name.length))) := by
    intro c h hfit
    refine (Settles.const _).succ fun fuel => ?_
    rw [insertNameToDir, if_pos hfit, h.offset_eq (lt_of_lt_of_le hpos hfit)]
  rcases Nat.eq_zero_or_pos c.remaining.toNat with hzero | hrem
  · -- Nothing is read from the end of the block.
    obtain ⟨i, hi, hend, hat⟩ := h.next (by omega)
    rw [hzero, Nat.add_zero] at hat
    have hbs : name.length ≤ (s.seekBlock i).remaining.toNat := (Nat.le_add_left ..).trans hle
    refine ⟨_, (hwrite hat hbs).succ fun fuel => ?_⟩
    rw [insertNameToDir, if_neg (by omega), hzero, Nat.zero_min, List.drop_zero, hi]
    exact if_neg hend
  · have hfit : name.length ≤ c.remaining.toNat := by
      rw [h.remaining_eq hrem]
      omega
    exact ⟨_, hwrite h hfit⟩

/-- At the header, or in the block before. -/
theorem At.addFrom_toSlot {lastActive : Option (DirectoryEntry × ℕ)} (h : s.At l p c)
    (hbs : DirectoryEntry.sizeof ≤ s.blockSize) (hlt : slot s.blockSize p < l.length * s.blockSize)
    (hx : ∀ c, s.At l (slot s.blockSize p) c → DirectoryEntry.sizeof ≤ c.remaining.toNat →
      ∃ x, Settles (fun fuel => addFrom fileName fuel s e lastActive c) (.ok x) ∧ Q x) :
    ∃ x, Settles (fun fuel => addFrom fileName fuel s e lastActive c) (.ok x) ∧ Q x := by
  rcases h.toSlot hbs hlt with ⟨hrem, hat⟩ | ⟨hrem, i, hi, hend, hat⟩
  · exact hx c hat hrem
  · obtain ⟨x, hset, hQ⟩ := hx _ hat hbs
    refine ⟨x, hset.succ fun fuel => ?_, hQ⟩
    cases lastActive <;>
    · rw [addFrom, if_pos hrem, hi]
      exact if_neg hend

/-- Over active entries and bare passive headers the loop comes to the header of the last record. -/
theorem At.addFrom_walk (h : s.At l p c) (hbs : DirectoryEntry.sizeof ≤ s.blockSize)
    (hl : Laid s.blockSize (l.length * s.blockSize) (s.content l) p (rs ++ [last]))
    (hlast : LastFlagged (rs ++ [last])) (hrs : ∀ r ∈ rs, r.Active ∨ r.name = [])
    (hsize : DirectoryEntry.sizeof < e.entrySize.toNat)
    (hx : ∀ c, s.At l (slot s.blockSize (endOf s.blockSize p rs)) c →
      DirectoryEntry.sizeof ≤ c.remaining.toNat →
      ∃ x, Settles (fun fuel => addFrom fileName fuel s e none c) (.ok x) ∧ Q x) :
    ∃ x, Settles (fun fuel => addFrom fileName fuel s e none c) (.ok x) ∧ Q x := by
  induction rs generalizing p c with
  | nil =>
    refine h.addFrom_toSlot hbs ?_ hx
    have hle := hl.2.1
    have hpos : 0 < last.size := lt_of_lt_of_le (by decide) (Nat.le_add_right DirectoryEntry.sizeof _)
    omega
  | cons r rs ih =>
    obtain ⟨hbytes, hle, hl⟩ := hl
    obtain ⟨hL, hlast⟩ : ¬r.Last ∧ LastFlagged (rs ++ [last]) :=
      hlast.resolve_left fun h => absurd h.2 (by simp)
    have hpos : 0 < r.size := lt_of_lt_of_le (by decide) (Nat.le_add_right DirectoryEntry.sizeof _)
    refine h.addFrom_toSlot hbs (by omega) fun c hat hrem => ?_
    obtain ⟨hentry, c', hname, hat'⟩ := hat.readRecord hrem hbytes hle
    have hrest : ∀ c', s.At l (slot s.blockSize p + r.size) c' →
        ∃ x, Settles (fun fuel => addFrom fileName fuel s e none c') (.ok x) ∧ Q x :=
      fun c' hat' => ih hat' hl hlast (fun r hr => hrs r (List.mem_cons_of_mem _ hr)) hx
    have hnot : ¬(r.entry.isLastEntry ≠ 0 ∧ r.entry.isActiveEntry = 0) := fun h => hL h.1
    by_cases hr : r.Active
    · obtain ⟨x, hset, hQ⟩ := hrest c' hat'
      have hbind := hname.bind (g := fun fuel y => addFrom fileName fuel s e none y.2) hset
      refine ⟨x, hbind.succ fun fuel => ?_, hQ⟩
      rw [addFrom, if_neg (by omega), hentry]
      exact (if_neg hnot).trans ((if_neg hL).trans (if_neg hr))
    -- A bare header is too small for an entry, and has no name that had to be skipped.
    · have hnil := (hrs r List.mem_cons_self).resolve_left hr
      have hbare : r.size = DirectoryEntry.sizeof := by rw [Record.size, hnil, List.length_nil, Nat.add_zero]
      have hsmall : r.entry.entrySize.toNat = DirectoryEntry.sizeof := r.entrySize_eq.trans hbare
      obtain ⟨x, hset, hQ⟩ := hrest (c.advance DirectoryEntry.sizeof) (by rw [hbare]; exact hat.advance hrem)
      refine ⟨x, hset.succ fun fuel => ?_, hQ⟩
      have hunfit : ¬((r.entry.entrySize = e.entrySize ∨
          r.entry.entrySize.toNat ≥ e.entrySize.toNat + DirectoryEntry.sizeof) ∧
          s.calculateTotalNumBlocksForEntry e (c.advance DirectoryEntry.sizeof).remaining.toNat ≤
            s.sb.numFreeBlocks.toNat) := by
        rintro ⟨heq | hge, -⟩
        · rw [← heq] at hsize
          omega
        · omega
      rw [addFrom, if_neg (by omega), hentry]
      exact (if_neg hnot).trans ((if_neg hL).trans ((if_pos (not_not.1 hr)).trans (if_neg hunfit)))

/-! ## Tables of active entries -/

variable (s) in
/-- The number of blocks that the content of an entry needs. -/
def blocksFor (e : DirectoryEntry) : ℕ :=
  if checkAttribute e.attributes file then s.calculateTotalNumBlocksForFile e else 1

/-- The last record is flagged so, and all are active; or the table is empty. -/
inductive Occupied : List Record → List Record → Prop
  | empty {r : Record} : ¬r.Active → Occupied [r] []
  | active {rs : List Record} : (∀ r ∈ rs, r.Active) → Occupied rs (rs.map Record.unflag)

/-- The scan comes to the end of the table: of the records before the last one, all are active or
    bare headers. The records `olds` are those that stay. -/
inductive Scanned : List Record → List Record → Prop
  | passive {rs : List Record} {last : Record} : (∀ r ∈ rs, r.Active ∨ r.name = []) → ¬last.Active →
    Scanned (rs ++ [last]) rs
  | active {rs : List Record} {last : Record} : (∀ r ∈ rs, r.Active ∨ r.name = []) → last.Active →
    Scanned (rs ++ [last]) ((rs ++ [last]).map Record.unflag)

theorem Occupied.scanned {olds : List Record} (h : Occupied rs olds) (hlast : LastFlagged rs) :
    Scanned rs olds := by
  cases h with
  | @empty r hr => exact Scanned.passive (fun r hr => absurd hr List.not_mem_nil) hr
  | active hact =>
    obtain ⟨rs, last, rfl, -, -⟩ := hlast.exists_concat
    exact .active (fun r hr => .inl (hact r (List.mem_append_left _ hr)))
      (hact last (List.mem_append_right _ List.mem_cons_self))

/-- What `add_dir_entry` has done to the table of the entries `olds`, when it has inserted
    `e'`, for which it has taken the block `b`. -/
structure Inserted (s s' : FileSystem) (i : UInt16) (l : List ℕ) (olds : List Record)
    (e e' : DirectoryEntry) (fileName : CString) (b : ℕ) : Prop where
  findFreeBlock : s.findFreeBlock = some b
  entry : e' = { e with isLastEntry := 1, firstBlockIndex := .ofNat b }
  sb : s'.sb = { s.sb with numFreeBlocks := s.sb.numFreeBlocks - 1 }
  fat : s'.fat = Function.update s.fat b fatEntryEnd
  printed : s'.printed = s.printed
  keeps : s.Keeps s' ({x | x ∈ l} ∪ {b})
  stored : s'.Stored
  table : ∃ r, r.entry = e' ∧ r.name = fileName.buffer ∧ s'.Table i l (olds ++ [r])
  newTable : checkAttribute e.attributes directory → s'.Table e'.firstBlockIndex [b] [indicator]

/-- The number of blocks that is counted for a new entry behind the records `olds`. -/
def estimateAt (s : FileSystem) (olds : List Record) (e : DirectoryEntry) : ℕ :=
  s.calculateTotalNumBlocksForEntry e (s.blockSize - slot s.blockSize (endOf s.blockSize 0 olds) % s.blockSize)

/-- The result of `add_dir_entry` where the new entry fits. -/
inductive AddsEntry (s : FileSystem) (i : UInt16) (l : List ℕ) (olds : List Record)
    (e : DirectoryEntry) (fileName : CString) : FileSystem × Insertion → Prop
  | refused : s.sb.numFreeBlocks.toNat < s.estimateAt olds e →
    AddsEntry s i l olds e fileName (s.print .notEnoughCapacity, .refused)
  | failed : s.estimateAt olds e ≤ s.sb.numFreeBlocks.toNat → s.findFreeBlock = none →
    AddsEntry s i l olds e fileName (s.print .noFreeBlockFound, .failed)
  | inserted {s' e' b} : s.estimateAt olds e ≤ s.sb.numFreeBlocks.toNat →
    Inserted s s' i l olds e e' fileName b → AddsEntry s i l olds e fileName (s', .inserted e')

/-- The chain `l` has room for a name of `n` bytes in the block of the byte behind the header at the byte `q`: in
    the block of the header or, if the header ends it, in the next one. -/
structure HasRoom (s : FileSystem) (l : List ℕ) (q n : ℕ) : Prop where
  lt : q + DirectoryEntry.sizeof < l.length * s.blockSize
  le : (q + DirectoryEntry.sizeof) % s.blockSize + n ≤ s.blockSize

variable {olds : List Record} {s' : FileSystem}

/-- From `s` to `t`, the last entry of the table of `olds` has lost its flag. -/
structure Unflagged (s t : FileSystem) (i : UInt16) (l : List ℕ) (olds : List Record) : Prop where
  keeps : s.Keeps t {b | b ∈ l}
  stored : t.Stored
  sb : t.sb = s.sb
  fat : t.fat = s.fat
  printed : t.printed = s.printed
  layout : t.Layout i l olds
  notLast : ∀ r ∈ olds, ¬r.Last

/-- The table after the allocation, the unflagging of the last entry and the writing of the new
    one. -/
theorem Unflagged.inserted {t : FileSystem} (h : (s.allocate e b).Unflagged t i l olds) (hs : s.Geometry)
    (hl : ∀ b ∈ l, s.dataStart ≤ b) (hc : s.Chained i l) (hfree : s.findFreeBlock = some b)
    (hb : s.dataStart ≤ b) (hentry : r.entry = { e with isLastEntry := 1, firstBlockIndex := .ofNat b })
    (hname : r.name = fileName.buffer)
    (hroom : s.HasRoom l (slot s.blockSize (endOf s.blockSize 0 olds)) fileName.buffer.length) :
    Inserted s (t.insertRecord l (slot s.blockSize (endOf s.blockSize 0 olds)) r) i l olds e r.entry fileName b := by
  obtain ⟨hlt, hempty⟩ := findFreeBlock_spec hfree
  have hnot : b ∉ l := fun hmem => hc.isChain.ne_empty hmem hempty
  have hk := keeps_allocate (e := e) hs hlt
  have hst := hk.trans h.keeps
  have hgeo := hst.geometry hs
  have hbs := hst.blockSize_eq
  have hfits : t.Fits l (slot t.blockSize (endOf t.blockSize 0 olds)) r := by
    rw [hbs]
    exact ⟨by rw [hbs]; exact slot_mod hs.header_le _, by rw [hbs]; exact hroom.lt,
      by rw [hbs, hname]; exact hroom.le⟩
  -- Writing the record keeps the other blocks, lengthens the table, and leaves what is stored.
  have hwrite := hfits.keeps hgeo hc.isChain.lt
  have htable := h.layout.insertRecord hgeo hfits
  have hstored := hfits.stored hgeo
    (fun b hb => ⟨hst.dataStart_eq ▸ hl b hb, hc.isChain.lt b hb⟩) h.stored
  rw [hbs] at hwrite htable hstored
  have hlast : r.Last := by
    rw [Record.Last, hentry]
    exact (by decide : (1 : UInt8) ≠ 0)
  refine ⟨hfree, hentry, h.sb.trans (allocate_sb s e b), h.fat.trans (allocate_fat s e b),
    h.printed.trans (allocate_printed s e b), (hst.trans hwrite).mono ?_, hstored,
    ⟨r, rfl, hname, htable, lastFlagged_concat.2 ⟨h.notLast, hlast⟩⟩, fun hd => ?_⟩
  · rintro x ((hx | hx) | hx)
    · exact .inr hx
    · exact .inl hx
    · exact .inl hx
  · have hnew := (h.keeps.trans hwrite).table (table_allocate hs hlt hd) fun c hc => by
      obtain rfl := List.mem_singleton.1 hc
      exact ⟨hk.dataStart_eq ▸ hb, fun h => h.elim hnot hnot⟩
    rw [hentry]
    exact hnew

/-- The cursor behind the header of the new entry, for which the block `b` has been taken. -/
theorem At.behindHeader {t : FileSystem} {e' : DirectoryEntry} (h : s.At l q c)
    (hrem : DirectoryEntry.sizeof ≤ c.remaining.toNat) (hs : s.Geometry) (hfree : s.findFreeBlock = some b)
    (hun : (s.allocate e b).Unflagged t i l olds) :
    (t.writeEntry c.offset e').At l (q + DirectoryEntry.sizeof) (c.advance DirectoryEntry.sizeof) := by
  obtain ⟨hlt, hempty⟩ := findFreeBlock_spec hfree
  have hk := (keeps_allocate (e := e) hs hlt).trans hun.keeps
  have hlen : t.length ≤ (t.writeEntry c.offset e').length := by
    show t.length ≤ if DirectoryEntry.sizeof = 0 then t.length else max t.length _
    split_ifs
    · exact le_rfl
    · exact le_max_left _ _
  -- The FAT entry of the new block was empty.
  refine (h.advance hrem).of_fat hk.blockSize_eq (hk.length.ge.trans hlen) fun d hd => ?_
  have hfat : (t.writeEntry c.offset e').fat = Function.update s.fat b fatEntryEnd := hun.fat.trans (allocate_fat s e b)
  rw [hfat]
  refine Function.update_of_ne ?_ _ _
  rintro rfl
  exact hd hempty

/-- What is inserted where the new entry fits. -/
theorem At.insertAt_fits (h : s.At l q c) (hrem : DirectoryEntry.sizeof ≤ c.remaining.toNat) (hs : s.Geometry)
    (hfree : s.findFreeBlock = some b) (hentry : r.entry = { e with firstBlockIndex := .ofNat b })
    (hname : r.name = fileName.buffer) (hroom : s.HasRoom l q fileName.buffer.length)
    (hun : (s.allocate e b).Unflagged (unflag (s.allocate e b)) i l olds) :
    ∃ c', Settles (s.insertAt unflag e fileName c)
      (.ok ((unflag (s.allocate e b)).insertRecord l q r, some (r.entry, c'))) := by
  have hpos : 0 < c.remaining.toNat := lt_of_lt_of_le (by decide) hrem
  have hk := (keeps_allocate (e := e) hs (findFreeBlock_spec hfree).1).trans hun.keeps
  have hbs : ((unflag (s.allocate e b)).writeEntry c.offset r.entry).blockSize = s.blockSize := hk.blockSize_eq
  have hname_pos : 0 < fileName.buffer.length := by
    rw [CString.buffer, List.length_append]
    exact Nat.lt_add_left _ Nat.one_pos
  have hat : ((unflag (s.allocate e b)).writeEntry c.offset r.entry).At l (q + DirectoryEntry.sizeof)
      (c.advance DirectoryEntry.sizeof) := h.behindHeader hrem hs hfree hun
  have hle : (q + DirectoryEntry.sizeof) % s.blockSize + r.name.length ≤ s.blockSize := hname ▸ hroom.le
  obtain ⟨c', hset⟩ := hat.insertName_fits (by rw [hbs]; exact hroom.lt) (by rw [hbs]; exact hle) (hname ▸ hname_pos)
  have hrecord : ((unflag (s.allocate e b)).writeEntry c.offset r.entry).writeList
      (Memory.blockAddr s.blockSize l (q + DirectoryEntry.sizeof)) r.name =
        (unflag (s.allocate e b)).insertRecord l q r := by
    rw [insertRecord, hk.blockSize_eq, h.offset_eq hpos]
  have htake : fileName.buffer.take r.entry.nameSize = r.name := by
    rw [r.nameSize_eq, hname, List.take_length]
  rw [hbs, hrecord] at hset
  refine ⟨c', (hset.bind_const fun x => .ok (x.1, x.2.map fun c' => (r.entry, c'))).congr fun fuel => ?_⟩
  rw [insertAt, allocateBlockForNewEntry_eq hfree, ← hentry]
  dsimp only
  rw [htake]

/-- The insertion where the new entry fits, with enough capacity for it or not. -/
theorem At.addsEntry (h : s.At l (slot s.blockSize (endOf s.blockSize 0 olds)) c)
    (hrem : DirectoryEntry.sizeof ≤ c.remaining.toNat) (hs : s.Geometry)
    (hblocks : ∀ b < numBlocks, s.fat b = fatEntryEmpty → s.dataStart ≤ b)
    (hl : ∀ b ∈ l, s.dataStart ≤ b) (hc : s.Chained i l)
    (hsize : e.entrySize.toNat = DirectoryEntry.sizeof + fileName.buffer.length)
    (hroom : s.HasRoom l (slot s.blockSize (endOf s.blockSize 0 olds)) fileName.buffer.length)
    (hunflag : ∀ b, s.findFreeBlock = some b →
      (s.allocate e b).Unflagged (unflag (s.allocate e b)) i l olds) :
    ∃ x, Settles (fun fuel =>
      if s.calculateTotalNumBlocksForEntry { e with isLastEntry := 1 } c.remaining.toNat >
          s.sb.numFreeBlocks.toNat then .ok (s.print .notEnoughCapacity, .refused)
      else s.insertAt unflag { e with isLastEntry := 1 } fileName c fuel >>= fun r => .ok (insertion r))
      (.ok x) ∧ AddsEntry s i l olds e fileName x := by
  have hpos : 0 < c.remaining.toNat := lt_of_lt_of_le (by decide) hrem
  have htotal : s.calculateTotalNumBlocksForEntry { e with isLastEntry := 1 } c.remaining.toNat =
      s.estimateAt olds e := by
    rw [h.remaining_eq hpos]
    rfl
  rw [htotal]
  rcases Nat.lt_or_ge s.sb.numFreeBlocks.toNat (s.estimateAt olds e) with hcap | hcap
  · exact ⟨_, (Settles.const _).congr fun fuel => if_pos hcap, .refused hcap⟩
  -- The capacity test may pass where there is no free block at all.
  cases hfree : s.findFreeBlock with
  | none =>
    refine ⟨_, (Settles.const _).congr fun fuel => ?_, .failed hcap hfree⟩
    rw [if_neg (Nat.not_lt.2 hcap), insertAt, allocateBlockForNewEntry, hfree]
    rfl
  | some b =>
    obtain ⟨hlt, hempty⟩ := findFreeBlock_spec hfree
    let r : Record := ⟨{ e with isLastEntry := 1, firstBlockIndex := .ofNat b }, fileName.buffer, hsize,
      fun _ => List.mem_append_right _ List.mem_cons_self⟩
    have hins := (hunflag b hfree).inserted (r := r) hs hl hc hfree (hblocks b hlt hempty) rfl rfl hroom
    obtain ⟨c', hset⟩ := h.insertAt_fits (e := { e with isLastEntry := 1 }) (r := r) hrem hs hfree rfl rfl hroom
      (hunflag b hfree)
    refine ⟨_, (hset.bind_const fun r => .ok (insertion r)).congr fun fuel => ?_, .inserted hcap hins⟩
    exact if_neg (Nat.not_lt.2 hcap)

/-- The places of the records do not depend on their flags. -/
theorem endOf_unflag (bs p : ℕ) (rs : List Record) :
    endOf bs p (rs.map Record.unflag) = endOf bs p rs := by
  induction rs generalizing p with
  | nil => rfl
  | cons r rs ih => exact ih _

/-- A record that is not flagged. -/
theorem unflag_eq_self (h : ¬r.Last) : r.unflag = r := by
  obtain ⟨entry, name, h₁, h₂⟩ := r
  have hentry : { entry with isLastEntry := 0 } = entry := by
    rw [← not_not.1 h]
  simp only [Record.unflag, hentry]

/-- The entry that was the last one loses its flag. -/
theorem unflagged_writeEntry {t : FileSystem} {rs : List Record} (ht : t.Table i l (rs ++ [last]))
    (hs : t.Geometry) (hst : t.Stored) (hl : ∀ b ∈ l, t.dataStart ≤ b) :
    t.Unflagged (t.writeEntry (Memory.blockAddr t.blockSize l (slot t.blockSize (endOf t.blockSize 0 rs)))
      { last.entry with isLastEntry := 0 }) i l ((rs ++ [last]).map Record.unflag) := by
  obtain ⟨hnotLast, -⟩ := lastFlagged_concat.1 ht.lastFlagged
  have hmap : (rs ++ [last]).map Record.unflag = rs ++ [last.unflag] := by
    rw [List.map_append, List.map_congr_left fun r hr => unflag_eq_self (hnotLast r hr), List.map_id']
    rfl
  have hle := (Laid.append_iff.1 ht.laid).2.2.1
  have hpos : 0 < last.size := lt_of_lt_of_le (by decide) (Nat.le_add_right DirectoryEntry.sizeof _)
  have hn := slot_mod ht.header_le (endOf t.blockSize 0 rs)
  have hlayout := ht.toLayout.writeEntry hs (rfl : last.unflag.name = last.name)
  rw [hmap]
  refine ⟨keeps_writeChain hs ht.chained.isChain.lt (by omega) hn, hst.writeChain hs hl (by omega), rfl,
    rfl, rfl, hlayout, fun r hr => ?_⟩
  rcases List.mem_append.1 hr with hr | hr
  · exact hnotLast r hr
  · obtain rfl := List.mem_singleton.1 hr
    exact not_not.2 rfl

/-- Where the place of the new entry is in the chain, the loop comes to it. -/
theorem Table.addDirEntry_place (ht : s.Table dir.firstBlockIndex l rs) (hscan : Scanned rs olds)
    (hs : s.Geometry) (hblocks : ∀ b < numBlocks, s.fat b = fatEntryEmpty → s.dataStart ≤ b)
    (hl : ∀ b ∈ l, s.dataStart ≤ b)
    (hsize : e.entrySize.toNat = DirectoryEntry.sizeof + fileName.buffer.length)
    (hlt : slot s.blockSize (endOf s.blockSize 0 olds) < l.length * s.blockSize)
    (hx : ∀ c unflag, s.At l (slot s.blockSize (endOf s.blockSize 0 olds)) c →
      DirectoryEntry.sizeof ≤ c.remaining.toNat →
      (∀ b, s.findFreeBlock = some b →
        (s.allocate e b).Unflagged (unflag (s.allocate e b)) dir.firstBlockIndex l olds) →
      ∃ x, Settles (fun fuel =>
        if s.calculateTotalNumBlocksForEntry { e with isLastEntry := 1 } c.remaining.toNat >
            s.sb.numFreeBlocks.toNat then .ok (s.print .notEnoughCapacity, .refused)
        else s.insertAt unflag { e with isLastEntry := 1 } fileName c fuel >>= fun r => .ok (insertion r))
        (.ok x) ∧ Q x) :
    ∃ x, Settles (s.addDirEntry dir e fileName) (.ok x) ∧ Q x := by
  have hstart := ht.chained.at_seekBlock ht.ne_nil
  have hsize := fileName.sizeof_lt hsize
  -- The table after the allocation of a block.
  have hallocate : ∀ b, s.findFreeBlock = some b → b < numBlocks ∧ s.dataStart ≤ b ∧
      (s.allocate e b).Table dir.firstBlockIndex l rs := fun b hfree => by
    obtain ⟨hlt, hempty⟩ := findFreeBlock_spec hfree
    refine ⟨hlt, hblocks b hlt hempty, (keeps_allocate hs hlt).table ht fun c hc => ⟨hl c hc, ?_⟩⟩
    rintro rfl
    exact ht.chained.isChain.ne_empty hc hempty
  cases hscan with
  | passive hrs hr =>
    refine hstart.addFrom_walk ht.header_le ht.laid ht.lastFlagged hrs hsize fun c hat hrem => ?_
    obtain ⟨hbytes, hle, -⟩ := (Laid.append_iff.1 ht.laid).2
    obtain ⟨hentry, -⟩ := hat.readRecord hrem hbytes hle
    obtain ⟨hnotLast, hlast⟩ := lastFlagged_concat.1 ht.lastFlagged
    obtain ⟨x, hset, hQ⟩ := hx c id hat hrem fun b hfree => by
      obtain ⟨-, hb, htable⟩ := hallocate b hfree
      exact ⟨.refl _ _, stored_allocate hs hb, rfl, rfl, rfl,
        ⟨htable.header_le, htable.chained, (Laid.append_iff.1 htable.laid).1⟩, hnotLast⟩
    refine ⟨x, hset.succ fun fuel => ?_, hQ⟩
    rw [addFrom, if_neg (by omega), hentry]
    exact if_pos ⟨hlast, not_not.1 hr⟩
  | @active rs last hrs hr =>
    rw [endOf_unflag] at hlt
    refine hstart.addFrom_walk ht.header_le ht.laid ht.lastFlagged hrs hsize fun c hat hrem => ?_
    obtain ⟨hbytes, hle, -⟩ := (Laid.append_iff.1 ht.laid).2
    obtain ⟨hentry, c', hname, hat'⟩ := hat.readRecord hrem hbytes hle
    obtain ⟨-, hlast⟩ := lastFlagged_concat.1 ht.lastFlagged
    have hoff := hat.offset_eq (lt_of_lt_of_le (by decide) hrem)
    have hend : endOf s.blockSize 0 (rs ++ [last]) =
        slot s.blockSize (endOf s.blockSize 0 rs) + last.size := endOf_append _ _ _
    -- The new entry goes after the name of the last one.
    have hafter : ∃ x, Settles (fun fuel => addFrom fileName fuel s { e with isLastEntry := 1 }
        (some (last.entry, c.offset)) c') (.ok x) ∧ Q x := by
      rw [← hend] at hat'
      refine hat'.addFrom_toSlot ht.header_le hlt fun c'' hat'' hrem'' => ?_
      rw [← endOf_unflag] at hat''
      obtain ⟨x, hset, hQ⟩ := hx c'' (fun t => t.writeEntry c.offset { last.entry with isLastEntry := 0 })
        hat'' hrem'' fun b hfree => by
          obtain ⟨hlt, hb, htable⟩ := hallocate b hfree
          have hkeeps := keeps_allocate (e := e) hs hlt
          have hun := unflagged_writeEntry htable (hkeeps.geometry hs) (stored_allocate hs hb) fun c hc =>
            hkeeps.dataStart_eq ▸ hl c hc
          rw [hkeeps.blockSize_eq, ← hoff] at hun
          exact hun
      refine ⟨x, hset.succ fun fuel => ?_, hQ⟩
      rw [addFrom, if_neg (by omega)]
    obtain ⟨x, hset, hQ⟩ := hafter
    have hbind := hname.bind (g := fun fuel y => addFrom fileName fuel s
      { e with isLastEntry := 1 } (some (last.entry, c.offset)) y.2) hset
    refine ⟨x, hbind.succ fun fuel => ?_, hQ⟩
    rw [addFrom, if_neg (by omega), hentry]
    exact (if_neg fun h => hr h.2).trans (if_pos hlast)

/-- Inserting where there is room: `add_dir_entry` refuses, with nothing changed, or adds the
    new entry, with its full name, after the old ones. -/
theorem Table.addDirEntry_of_hasRoom (ht : s.Table dir.firstBlockIndex l rs) (hscan : Scanned rs olds)
    (hs : s.Geometry) (hblocks : ∀ b < numBlocks, s.fat b = fatEntryEmpty → s.dataStart ≤ b)
    (hl : ∀ b ∈ l, s.dataStart ≤ b)
    (hsize : e.entrySize.toNat = DirectoryEntry.sizeof + fileName.buffer.length)
    (hroom : s.HasRoom l (slot s.blockSize (endOf s.blockSize 0 olds)) fileName.buffer.length) :
    ∃ x, Settles (s.addDirEntry dir e fileName) (.ok x) ∧
      AddsEntry s dir.firstBlockIndex l olds e fileName x :=
  ht.addDirEntry_place hscan hs hblocks hl hsize (lt_of_le_of_lt (Nat.le_add_right ..) hroom.lt)
    fun _ _ hat hrem hunflag =>
    hat.addsEntry hrem hs hblocks hl ht.chained hsize hroom hunflag

/-! ## The whole function -/

/-- The header of the new entry has a place in the chain, and its name has room there, too,
    unless the free blocks do not suffice anyway. -/
def RoomFor (s : FileSystem) (l : List ℕ) (olds : List Record) (e : DirectoryEntry)
    (fileName : CString) : Prop :=
  let q := slot s.blockSize (endOf s.blockSize 0 olds)
  s.findFreeBlock = none ∨ q < l.length * s.blockSize ∧
    (s.HasRoom l q fileName.buffer.length ∨ s.sb.numFreeBlocks.toNat < s.estimateAt olds e)

/-- The free blocks do not suffice for the new entry at its place. -/
def Lacks (s : FileSystem) (olds : List Record) (e : DirectoryEntry) : Prop :=
  s.findFreeBlock = none ∨ s.sb.numFreeBlocks.toNat < s.estimateAt olds e

/-- The result of `add_dir_entry` where there is room for the new entry, or no block for it. -/
inductive AddsOrRefuses (s : FileSystem) (i : UInt16) (l : List ℕ) (olds : List Record)
    (e : DirectoryEntry) (fileName : CString) : FileSystem × Insertion → Prop
  | refused : s.findFreeBlock = none ∨ s.sb.numFreeBlocks.toNat ≤ s.blocksFor e →
    AddsOrRefuses s i l olds e fileName (s.print .notEnoughCapacity, .refused)
  | failed : s.findFreeBlock = none →
    AddsOrRefuses s i l olds e fileName (s.print .noFreeBlockFound, .failed)
  | inserted {s' e' b} : Inserted s s' i l olds e e' fileName b →
    AddsOrRefuses s i l olds e fileName (s', .inserted e')

/-- Past the end of the chain, with no free block. -/
theorem Table.addDirEntry_full (ht : s.Table dir.firstBlockIndex l rs) (hscan : Scanned rs olds)
    (hsize : e.entrySize.toNat = DirectoryEntry.sizeof + fileName.buffer.length)
    (hle : l.length * s.blockSize ≤ slot s.blockSize (endOf s.blockSize 0 olds))
    (hfree : s.findFreeBlock = none) :
    Settles (s.addDirEntry dir e fileName) (.ok (s.print .notEnoughCapacity, .refused)) := by
  have hstart := ht.chained.at_seekBlock ht.ne_nil
  have hbs := ht.header_le
  have hpos : 0 < DirectoryEntry.sizeof := by decide
  have hsize := fileName.sizeof_lt hsize
  cases hscan with
  | @passive _ last _ hr =>
    -- The last record is at the place of the new one.
    have hlaid := (Laid.append_iff.1 ht.laid).2.2.1
    have hsize : DirectoryEntry.sizeof ≤ last.size := Nat.le_add_right ..
    omega
  | @active rs last hrs hr =>
    rw [endOf_unflag] at hle
    obtain ⟨x, hset, rfl⟩ := hstart.addFrom_walk (Q := (· = (s.print .notEnoughCapacity, .refused))) hbs
      ht.laid ht.lastFlagged hrs hsize fun c hat hrem => by
        obtain ⟨hbytes, hend, -⟩ := (Laid.append_iff.1 ht.laid).2
        obtain ⟨hentry, c', hname, hat'⟩ := hat.readRecord hrem hbytes hend
        obtain ⟨-, hlast⟩ := lastFlagged_concat.1 ht.lastFlagged
        have heq : endOf s.blockSize 0 (rs ++ [last]) =
            slot s.blockSize (endOf s.blockSize 0 rs) + last.size := endOf_append _ _ _
        rw [← heq] at hat'
        have hadd := hat'.add_remaining_le
        have hrem' : c'.remaining.toNat < DirectoryEntry.sizeof := by
          by_contra hrem'
          rw [hat'.slot_eq (Nat.not_lt.1 hrem')] at hle
          omega
        rw [hat'.slot_eq_add hbs hrem'] at hle
        have hnext := hat'.next_eq_end hle (lt_of_lt_of_le hpos hbs)
        have hafter : Settles (fun fuel => addFrom fileName fuel s { e with isLastEntry := 1 }
            (some (last.entry, c.offset)) c') (.ok (s.print .notEnoughCapacity, .refused)) :=
          (Settles.const _).succ fun fuel => by
            rw [addFrom, if_pos hrem', hnext, hfree]
            rfl
        have hbind := hname.bind (g := fun fuel y => addFrom fileName fuel s
          { e with isLastEntry := 1 } (some (last.entry, c.offset)) y.2) hafter
        refine ⟨_, hbind.succ fun fuel => ?_, rfl⟩
        rw [addFrom, if_neg (by omega), hentry]
        exact (if_neg fun h => hr h.2).trans (if_pos hlast)
    exact hset

/-- What is counted for a new entry. -/
theorem calculateTotalNumBlocksForEntry_le (hs : s.Geometry) {n : ℕ} (hn : n ≤ s.blockSize) :
    s.calculateTotalNumBlocksForEntry e n ≤ s.blocksFor e + 1 := by
  have hpos : 0 < s.blockSize := lt_of_lt_of_le (by decide) hs.header_le
  have hone : (n + s.blockSize - 1) / s.blockSize ≤ 1 := by
    rw [← Nat.lt_succ_iff, Nat.div_lt_iff_lt_mul hpos]
    omega
  rw [calculateTotalNumBlocksForEntry, blocksFor, Nat.add_comm]
  refine Nat.add_le_add_left ?_ _
  split_ifs
  · exact hone
  · exact Nat.zero_le 1

theorem estimateAt_le (hs : s.Geometry) : s.estimateAt olds e ≤ s.blocksFor e + 1 :=
  calculateTotalNumBlocksForEntry_le hs (Nat.sub_le _ _)

/-- Where there is room for the new entry, it is added, or there are not enough blocks. -/
theorem Table.addDirEntry_of_roomFor (ht : s.Table dir.firstBlockIndex l rs) (hscan : Scanned rs olds)
    (hs : s.Geometry) (hblocks : ∀ b < numBlocks, s.fat b = fatEntryEmpty → s.dataStart ≤ b)
    (hl : ∀ b ∈ l, s.dataStart ≤ b)
    (hsize : e.entrySize.toNat = DirectoryEntry.sizeof + fileName.buffer.length)
    (hroom : s.RoomFor l olds e fileName) :
    ∃ x, Settles (s.addDirEntry dir e fileName) (.ok x) ∧
      AddsOrRefuses s dir.firstBlockIndex l olds e fileName x := by
  rcases Nat.lt_or_ge (slot s.blockSize (endOf s.blockSize 0 olds)) (l.length * s.blockSize) with hlt | hge
  · refine ht.addDirEntry_place hscan hs hblocks hl hsize hlt fun c unflag hat hrem hunflag => ?_
    have hpos : 0 < c.remaining.toNat := lt_of_lt_of_le (by decide) hrem
    by_cases hfit : s.HasRoom l (slot s.blockSize (endOf s.blockSize 0 olds)) fileName.buffer.length
    · obtain ⟨x, hset, hadds⟩ := hat.addsEntry hrem hs hblocks hl ht.chained hsize hfit hunflag
      refine ⟨x, hset, ?_⟩
      cases hadds with
      | refused hcap =>
        have hle : s.estimateAt olds e ≤ s.blocksFor e + 1 := estimateAt_le hs
        exact .refused (.inr (by omega))
      | failed _ hfree => exact .failed hfree
      | inserted _ h => exact .inserted h
    -- Otherwise it is refused, or there is no block for the entry.
    by_cases hcap : s.calculateTotalNumBlocksForEntry { e with isLastEntry := 1 } c.remaining.toNat >
        s.sb.numFreeBlocks.toNat
    · have hle := calculateTotalNumBlocksForEntry_le (e := { e with isLastEntry := 1 }) hs
        (n := c.remaining.toNat) (by rw [hat.remaining_eq hpos]; exact Nat.sub_le _ _)
      have hblocks : s.blocksFor { e with isLastEntry := 1 } = s.blocksFor e := rfl
      exact ⟨_, (Settles.const _).congr fun fuel => if_pos hcap, .refused (.inr (by omega))⟩
    have hfree : s.findFreeBlock = none := hroom.resolve_right fun ⟨_, hor⟩ => by
      rcases hor with hor | hor
      · exact hfit hor
      · rw [estimateAt, ← hat.remaining_eq hpos] at hor
        exact hcap hor
    refine ⟨(s.print .noFreeBlockFound, .failed), (Settles.const _).congr fun fuel => ?_, .failed hfree⟩
    rw [if_neg hcap, insertAt, allocateBlockForNewEntry, hfree]
    rfl
  · have hfree : s.findFreeBlock = none := hroom.resolve_right fun h => by omega
    exact ⟨_, ht.addDirEntry_full hscan hsize hge hfree, .refused (.inl hfree)⟩

/-- The header of the new entry would end the chain, and there is no block left for its name when one has been taken
    for its content. -/
def Strands (s : FileSystem) (l : List ℕ) (olds : List Record) : Prop :=
  slot s.blockSize (endOf s.blockSize 0 olds) + DirectoryEntry.sizeof = l.length * s.blockSize ∧
    ∃ b, s.findFreeBlock = some b ∧ (s.takeBlock b).findFreeBlock = none

theorem findFreeBlock_congr {t : FileSystem} (h : t.fat = s.fat) : t.findFreeBlock = s.findFreeBlock := by
  delta findFreeBlock
  rw [h]

/-- A name at the end of the chain, with no free block. -/
theorem insertNameToDir_full {fuel : ℕ} {name : List UInt8} (hname : ¬name.length ≤ c.remaining.toNat)
    (hnext : s.next c.fatCurIndex = .ok fatEntryEnd) (hfull : s.findFreeBlock = none) :
    insertNameToDir (fuel + 1) s name c = .ok (s, none) := by
  rw [insertNameToDir, if_neg hname, hnext]
  simp only [bind, Except.bind, if_pos, hfull]

/-- There the insertion gives up at the name. -/
theorem At.insertAt_strands (h : s.At l q c) (hrem : DirectoryEntry.sizeof ≤ c.remaining.toNat) (hs : s.Geometry)
    (hsize : e.entrySize.toNat = DirectoryEntry.sizeof + fileName.buffer.length)
    (hend : q + DirectoryEntry.sizeof = l.length * s.blockSize) (hfree : s.findFreeBlock = some b)
    (hnone : (s.takeBlock b).findFreeBlock = none)
    (hun : (s.allocate e b).Unflagged (unflag (s.allocate e b)) i l olds) :
    ∃ t, Settles (s.insertAt unflag e fileName c) (.ok (t, none)) := by
  let e' : DirectoryEntry := { e with firstBlockIndex := .ofNat b }
  let t := (unflag (s.allocate e b)).writeEntry c.offset e'
  have hk := (keeps_allocate (e := e) hs (findFreeBlock_spec hfree).1).trans hun.keeps
  have hbs : t.blockSize = s.blockSize := hk.blockSize_eq
  have hat : t.At l (q + DirectoryEntry.sizeof) (c.advance DirectoryEntry.sizeof) :=
    h.behindHeader hrem hs hfree hun
  have hle := hat.add_remaining_le
  rw [hbs, ← hend] at hle
  have hzero : (c.advance DirectoryEntry.sizeof).remaining.toNat = 0 := by omega
  have hnext := hat.next_eq_end (by rw [hbs, hend]; exact Nat.le_add_right ..)
    (lt_of_lt_of_le (by decide) (hbs ▸ hs.header_le))
  -- The FAT is that after the first block has been taken.
  have hfat : t.fat = (s.takeBlock b).fat := hun.fat.trans (allocate_fat s e b)
  have hnone' : t.findFreeBlock = none := (findFreeBlock_congr hfat).trans hnone
  have hname : ¬fileName.buffer.length ≤ (c.advance DirectoryEntry.sizeof).remaining.toNat := by
    have hlt := fileName.sizeof_lt hsize
    omega
  have htake : fileName.buffer.take e'.nameSize = fileName.buffer := by
    have hsize' : e'.nameSize = fileName.buffer.length := DirectoryEntry.nameSize_eq hsize
    rw [hsize', List.take_length]
  refine ⟨t, (Settles.const _).succ fun fuel => ?_⟩
  rw [insertAt, allocateBlockForNewEntry_eq hfree]
  dsimp only
  have hgives : insertNameToDir (fuel + 1) t fileName.buffer (c.advance DirectoryEntry.sizeof) = .ok (t, none) :=
    insertNameToDir_full hname hnext hnone'
  rw [htake]
  show insertNameToDir (fuel + 1) t fileName.buffer (c.advance DirectoryEntry.sizeof) >>= _ = _
  rw [hgives]
  rfl

theorem Table.addDirEntry_of_strands (ht : s.Table dir.firstBlockIndex l rs) (hscan : Scanned rs olds)
    (hs : s.Geometry) (hblocks : ∀ b < numBlocks, s.fat b = fatEntryEmpty → s.dataStart ≤ b)
    (hl : ∀ b ∈ l, s.dataStart ≤ b)
    (hsize : e.entrySize.toNat = DirectoryEntry.sizeof + fileName.buffer.length) (hstrands : s.Strands l olds) :
    ∃ x, Settles (s.addDirEntry dir e fileName) (.ok x) ∧
      (x = (s.print .notEnoughCapacity, .refused) ∨ x.2 = .failed) := by
  obtain ⟨hend, b, hfree, hnone⟩ := hstrands
  have hlt : slot s.blockSize (endOf s.blockSize 0 olds) < l.length * s.blockSize :=
    lt_of_lt_of_eq (Nat.lt_add_of_pos_right (by decide)) hend
  refine ht.addDirEntry_place hscan hs hblocks hl hsize hlt fun c unflag hat hrem hunflag => ?_
  by_cases hcap : s.calculateTotalNumBlocksForEntry { e with isLastEntry := 1 } c.remaining.toNat >
      s.sb.numFreeBlocks.toNat
  · exact ⟨_, (Settles.const _).congr fun fuel => if_pos hcap, .inl rfl⟩
  · obtain ⟨t, hset⟩ := hat.insertAt_strands (e := { e with isLastEntry := 1 }) hrem hs hsize hend hfree hnone
      (hunflag b hfree)
    exact ⟨_, (hset.bind_const fun r => .ok (insertion r)).congr fun fuel => if_neg hcap, .inr rfl⟩

/-- Where the free blocks do not suffice, the new entry is refused at its place. -/
theorem Table.addDirEntry_refused (ht : s.Table dir.firstBlockIndex l rs) (hscan : Scanned rs olds)
    (hs : s.Geometry) (hblocks : ∀ b < numBlocks, s.fat b = fatEntryEmpty → s.dataStart ≤ b)
    (hl : ∀ b ∈ l, s.dataStart ≤ b)
    (hsize : e.entrySize.toNat = DirectoryEntry.sizeof + fileName.buffer.length)
    (hlt : slot s.blockSize (endOf s.blockSize 0 olds) < l.length * s.blockSize)
    (hcap : s.sb.numFreeBlocks.toNat < s.estimateAt olds e) :
    Settles (s.addDirEntry dir e fileName) (.ok (s.print .notEnoughCapacity, .refused)) := by
  obtain ⟨x, hset, rfl⟩ := ht.addDirEntry_place (Q := (· = (s.print .notEnoughCapacity, .refused))) hscan hs hblocks
    hl hsize hlt fun c unflag hat hrem _ => by
      have hpos : 0 < c.remaining.toNat := lt_of_lt_of_le (by decide) hrem
      rw [estimateAt, ← hat.remaining_eq hpos] at hcap
      exact ⟨_, (Settles.const _).congr fun fuel => if_pos hcap, rfl⟩
  exact hset

/-- Nothing is added where the free blocks do not suffice. -/
theorem Table.not_inserted_of_lacks (ht : s.Table dir.firstBlockIndex l rs) (hscan : Scanned rs olds)
    (hs : s.Geometry) (hblocks : ∀ b < numBlocks, s.fat b = fatEntryEmpty → s.dataStart ≤ b)
    (hl : ∀ b ∈ l, s.dataStart ≤ b)
    (hsize : e.entrySize.toNat = DirectoryEntry.sizeof + fileName.buffer.length)
    (hroom : s.RoomFor l olds e fileName) (hlacks : s.Lacks olds e) {s' : FileSystem} {e' : DirectoryEntry} {b : ℕ}
    (hset : Settles (s.addDirEntry dir e fileName) (.ok (s', .inserted e')))
    (hins : Inserted s s' dir.firstBlockIndex l olds e e' fileName b) : False := by
  have hfree : s.findFreeBlock ≠ none := by
    rw [hins.findFreeBlock]
    exact Option.some_ne_none b
  have hrefused := ht.addDirEntry_refused hscan hs hblocks hl hsize (hroom.resolve_left hfree).1
    (hlacks.resolve_left hfree)
  cases congrArg Prod.snd (Except.ok.inj (hset.unique hrefused))

/-- A table of active entries, or an empty one, and a new entry for it. -/
structure Insertable (s : FileSystem) (dir : DirectoryEntry) (l : List ℕ) (rs olds : List Record)
    (e : DirectoryEntry) (fileName : CString) : Prop where
  geometry : s.Geometry
  freeBlocks : ∀ b < numBlocks, s.fat b = fatEntryEmpty → s.dataStart ≤ b
  table : s.Table dir.firstBlockIndex l rs
  occupied : Occupied rs olds
  blocks : ∀ b ∈ l, s.dataStart ≤ b
  entrySize : e.entrySize.toNat = DirectoryEntry.sizeof + fileName.buffer.length

/-- When `add_dir_entry` returns 1, the table consists of the old entries and the new one, with its
    full name; when it returns 0, the image is unchanged. -/
def IsExact (s : FileSystem) (dir : DirectoryEntry) (olds : List Record) (e : DirectoryEntry)
    (fileName : CString) : FileSystem × Insertion → Prop
  | (s', .inserted e') => (∃ b, e' = { e with isLastEntry := 1, firstBlockIndex := b }) ∧
    ∃ l' r, r.entry = e' ∧ r.name = fileName.buffer ∧ s'.Table dir.firstBlockIndex l' (olds ++ [r])
  | (s', .refused) => s'.toImage = s.toImage
  | (_, .failed) => True

/-- `add_dir_entry` ends with an exact result. -/
def InsertsExactly (s : FileSystem) (dir : DirectoryEntry) (olds : List Record) (e : DirectoryEntry)
    (fileName : CString) : Prop :=
  ∃ x, Settles (s.addDirEntry dir e fileName) (.ok x) ∧ s.IsExact dir olds e fileName x

theorem AddsOrRefuses.isExact {x : FileSystem × Insertion}
    (h : AddsOrRefuses s dir.firstBlockIndex l olds e fileName x) : s.IsExact dir olds e fileName x := by
  cases h with
  | refused _ => rfl
  | failed _ => trivial
  | inserted h =>
    obtain ⟨r, hentry, hname, htable⟩ := h.table
    exact ⟨⟨_, h.entry⟩, l, r, hentry, hname, htable⟩

/-- Inserting: where there is room, `add_dir_entry` adds exactly the new entry, and where there is no block for the
    name at the end of the chain, it fails. -/
theorem Insertable.insertsExactly (h : s.Insertable dir l rs olds e fileName)
    (hroom : s.RoomFor l olds e fileName ∨ s.Strands l olds) : s.InsertsExactly dir olds e fileName := by
  have hscan := h.occupied.scanned h.table.lastFlagged
  rcases hroom with hroom | hstrands
  · obtain ⟨x, hset, hadds⟩ := h.table.addDirEntry_of_roomFor hscan h.geometry h.freeBlocks h.blocks h.entrySize hroom
    exact ⟨x, hset, hadds.isExact⟩
  · obtain ⟨⟨s', ins⟩, hset, hx⟩ := h.table.addDirEntry_of_strands hscan h.geometry h.freeBlocks h.blocks h.entrySize
      hstrands
    refine ⟨_, hset, ?_⟩
    rcases hx with hx | hx
    · obtain ⟨rfl, rfl⟩ := Prod.mk.inj hx
      rfl
    · obtain rfl : ins = .failed := hx
      trivial

/-! ### Two insertions -/

/-- The file right after `create_filesystem`. -/
def newFile : FileSystem := (createFilesystem ⟨fun _ => 0, 0, 0⟩ ⟨0, 0, 0, 0⟩ false).load

/-- The entry of a new directory `x`. -/
def newDir : DirectoryEntry :=
  { lastDirIndicatorEntry with
    entrySize := 34, isActiveEntry := 1, isLastEntry := 0
    attributes := readPermission ||| writePermission ||| directory }

/-- Its name. -/
def newName : CString := ⟨[120], by decide⟩

theorem fat_newFile_eq_empty_iff (hb : b < numBlocks) : newFile.fat b = fatEntryEmpty ↔ 25 < b := by
  have hload : newFile.fat b = createFat (fun _ => 0) 9 16 b :=
    load_fat (sizes false) ⟨fun _ => 0, 0, 0⟩ ⟨0, 0, 0, 0⟩ hb
  rw [hload]
  exact createFat_eq_empty_iff hb (by decide) (by decide)

theorem insertable_newFile :
    newFile.Insertable newFile.sb.rootDir [25] [indicator] [] newDir newName where
  geometry := ⟨⟨by decide +kernel, by decide +kernel⟩, by decide +kernel, by decide +kernel,
    by decide +kernel, by decide +kernel⟩
  freeBlocks b hb h := by
    have hstart : newFile.dataStart = 25 := by decide +kernel
    rw [hstart]
    exact ((fat_newFile_eq_empty_iff hb).1 h).le
  table := by
    have hroot : newFile.sb.rootDir.firstBlockIndex = 25 := by decide +kernel
    have hend : newFile.fat 25 = fatEntryEnd := by decide +kernel
    rw [hroot]
    exact ⟨⟨by decide +kernel, ⟨⟨by decide, by decide, hend⟩, by decide +kernel⟩,
      ⟨by decide +kernel, by decide +kernel, trivial⟩⟩, .inl ⟨by decide, rfl⟩⟩
  occupied := .empty (by decide)
  blocks := by decide +kernel
  entrySize := by decide

/-- An entry in an empty directory. -/
theorem insertsExactly_newFile : newFile.InsertsExactly newFile.sb.rootDir [] newDir newName :=
  insertable_newFile.insertsExactly (.inl (.inr ⟨by decide +kernel, .inl ⟨by decide +kernel, by decide +kernel⟩⟩))

/-! Now the only block of the directory is filled by one entry, so that a block has to be chained. -/

/-- The record that fills the block. -/
def fullRecord : Record where
  entry := { lastDirIndicatorEntry with
    entrySize := 512, isActiveEntry := 1, attributes := file, firstBlockIndex := 26 }
  name := List.replicate 479 97 ++ [0]
  entrySize_eq := by decide +kernel
  terminated _ := by decide +kernel

/-- The file after the allocation of a block for this entry. -/
def allocatedFile : FileSystem := newFile.allocate fullRecord.entry 26

/-- The file with this record in its root directory. -/
def fullFile : FileSystem := allocatedFile.writeRecord 12800 fullRecord

theorem geometry_allocatedFile : allocatedFile.Geometry :=
  ⟨⟨by decide +kernel, by decide +kernel⟩, by decide +kernel, by decide +kernel, by decide +kernel,
    by decide +kernel⟩

theorem rootDir_fullFile : fullFile.sb.rootDir.firstBlockIndex = 25 := by decide +kernel

theorem table_fullFile : fullFile.Table fullFile.sb.rootDir.firstBlockIndex [25] [fullRecord] := by
  have hend : allocatedFile.fat 25 = fatEntryEnd := by decide +kernel
  have hlayout : allocatedFile.Layout 25 [25] [] :=
    ⟨by decide +kernel, ⟨⟨by decide, by decide, hend⟩, by decide +kernel⟩, trivial⟩
  have haddr : Memory.blockAddr allocatedFile.blockSize [25]
      (slot allocatedFile.blockSize (endOf allocatedFile.blockSize 0 [])) = 12800 := by decide +kernel
  have hwrite := hlayout.insertRecord (r := fullRecord) geometry_allocatedFile
    ⟨by decide +kernel, by decide +kernel, by decide +kernel⟩
  rw [insertRecord_eq (by decide +kernel), haddr] at hwrite
  rw [rootDir_fullFile]
  exact ⟨hwrite, .inl ⟨by decide +kernel, rfl⟩⟩

theorem geometry_fullFile : fullFile.Geometry :=
  ⟨⟨by decide +kernel, by decide +kernel⟩, by decide +kernel, by decide +kernel, by decide +kernel,
    by decide +kernel⟩

theorem dataStart_le_fullFile (hb : b < numBlocks) (h : fullFile.fat b = fatEntryEmpty) :
    fullFile.dataStart ≤ b := by
  have hfat : fullFile.fat = Function.update newFile.fat 26 fatEntryEnd := by
    rw [fullFile, writeRecord_fat, allocatedFile, allocate_fat]
  have hstart : fullFile.dataStart = 25 := by decide +kernel
  have hne : b ≠ 26 := by
    rintro rfl
    rw [hfat, Function.update_self] at h
    exact absurd h (by decide)
  rw [hfat, Function.update_of_ne hne] at h
  rw [hstart]
  exact ((fat_newFile_eq_empty_iff hb).1 h).le

/-- The full directory is well formed, and the new entry is one for it. -/
theorem insertable_fullFile :
    fullFile.Insertable fullFile.sb.rootDir [25] [fullRecord] [fullRecord.unflag] newDir newName where
  geometry := geometry_fullFile
  freeBlocks b hb h := dataStart_le_fullFile hb h
  table := table_fullFile
  occupied := .active fun r hr => by
    obtain rfl := List.mem_singleton.1 hr
    decide +kernel
  blocks := by decide +kernel
  entrySize := by decide +kernel

/-- What is tested of the file after the insertion. -/
def chainsEmptyBlock : FileSystem × Insertion → Bool
  | (s', .inserted _) =>
    s'.blockSize = 512 ∧ s'.fat 25 = 27 ∧ s'.fat 27 = fatEntryEnd ∧ s'.disk (27 * 512 + 4) = 0
  | _ => false

/-- The block that is chained holds no header. -/
theorem not_insertsExactly_fullFile :
    ¬(fullFile.Insertable fullFile.sb.rootDir [25] [fullRecord] [fullRecord.unflag] newDir newName →
      fullFile.InsertsExactly fullFile.sb.rootDir [fullRecord.unflag] newDir newName) := by
  intro hinserts
  obtain ⟨x, hset, hexact⟩ := hinserts insertable_fullFile
  obtain ⟨⟨s', e' | e' | e'⟩, hset', htest⟩ := Settles.of_yields (n := 10) (P := chainsEmptyBlock)
    (f := fullFile.addDirEntry fullFile.sb.rootDir newDir newName)
    (fun n m h => addFrom_below h _ _ _ _) (by decide +kernel)
  · nomatch htest
  · nomatch htest
  obtain rfl := Except.ok.inj (hset.unique hset')
  obtain ⟨hbs, hfat, hend, hdisk⟩ := of_decide_eq_true htest
  obtain ⟨⟨b, he'⟩, l', r, hr, -, htable⟩ := hexact
  have hchain : IsChain s'.fat 25 [25, 27] :=
    ⟨by decide, by decide, by rw [hfat]; decide, by decide, hend⟩
  rw [rootDir_fullFile] at htable
  obtain rfl := htable.chained.isChain.unique hchain
  have hlaid := htable.laid
  rw [hbs] at hlaid
  have hbyte := hlaid.2.2.1 4 (Nat.lt_of_lt_of_le (by decide) (Nat.le_add_right 32 _))
  have hactive : r.bytes 4 = 1 := by
    rw [r.bytes_header (by decide), hr, he']
    rfl
  have haddr : Memory.blockAddr 512 [25, 27] (slot 512 (slot 512 0 + fullRecord.unflag.size) + 4) =
      27 * 512 + 4 := by decide +kernel
  rw [hactive, content, hbs, Memory.stream, haddr, hdisk] at hbyte
  exact absurd hbyte (by decide)

end FileSystem

end GtuOs.FatFileSystem

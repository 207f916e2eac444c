import GtuOs.FatFileSystem.FileSystem
import GtuOs.Lib.Fuel

/-!
# Directory tables

The functions of `fileSystemOper.c` on the table of a directory, which is laid out along
a chain of blocks: looking up a name (`searchNameInDir`), listing the entries
(`printEntriesInDirectory`) and adding one (`addDirEntry`). Their loops take fuel, one
unit an iteration.
-/

namespace GtuOs.FatFileSystem

/-- The place in a chain: the block `fat_cur_index`, the bytes left in it
    (`remaining_block_size`), and the offset in the file. -/
structure Cursor where
  fatCurIndex : UInt16
  remaining : UInt16
  offset : ℕ

/-- After `n` more bytes. -/
def Cursor.advance (c : Cursor) (n : ℕ) : Cursor :=
  { c with remaining := c.remaining - .ofNat n, offset := c.offset + n }

/-- The size of the name after a directory entry. -/
def DirectoryEntry.nameSize (e : DirectoryEntry) : ℕ := (e.entrySize - 32).toNat

/-- What `%s` prints. -/
def cString (buffer : List UInt8) : Except Fault (List UInt8) :=
  if 0 ∈ buffer then .ok (buffer.takeWhile (· ≠ 0)) else .error .string

/-- `decode_fat_date`: year, month and day. -/
def decodeFatDate (fatDate : UInt16) : ℕ × ℕ × ℕ :=
  (((fatDate >>> 9) &&& 0x7F).toNat + 1980, ((fatDate >>> 5) &&& 0x0F).toNat, (fatDate &&& 0x1F).toNat)

/-- `decode_fat_time`: hours, minutes and seconds. -/
def decodeFatTime (fatTime : UInt16) : ℕ × ℕ × ℕ :=
  (((fatTime >>> 11) &&& 0x1F).toNat, ((fatTime >>> 5) &&& 0x3F).toNat, (fatTime &&& 0x1F).toNat * 2)

/-- What is printed for an entry of a directory. -/
structure Listing where
  fileName : List UInt8
  size : UInt32
  createDate : ℕ × ℕ × ℕ
  createTime : ℕ × ℕ × ℕ
  updateDate : ℕ × ℕ × ℕ
  updateTime : ℕ × ℕ × ℕ
  isFile : Bool
  isWritable : Bool
  isReadable : Bool
  passwordProtection : Bool
  deriving DecidableEq

/-- The listing of an entry. -/
def DirectoryEntry.listing (e : DirectoryEntry) (fileName : List UInt8) : Listing where
  fileName
  size := e.size
  createDate := decodeFatDate e.createDate
  createTime := decodeFatTime e.createTime
  updateDate := decodeFatDate e.updateDate
  updateTime := decodeFatTime e.updateTime
  isFile := checkAttribute e.attributes file
  isWritable := checkAttribute e.attributes writePermission
  isReadable := checkAttribute e.attributes readPermission
  passwordProtection := checkAttribute e.attributes passwordEnabled

/-- The comparison of `search_name_in_dir`, for an entry with the name read after it. -/
def DirectoryEntry.compareName (e : DirectoryEntry) (fileName : CString) (name : List UInt8) :
    Except Fault Bool :=
  if e.isActiveEntry ≠ 0 then strcmp fileName.chars name else .ok false

/-- What `print_entries_in_directory` prints for an entry with the name read after it. -/
def DirectoryEntry.printEntry (e : DirectoryEntry) (name : List UInt8) : Except Fault (List Listing) :=
  if e.isActiveEntry ≠ 0 then (cString name).map fun fileName => [e.listing fileName] else .ok []

/-- What `add_dir_entry` returns. -/
inductive Insertion
  /-- -1. -/
  | failed
  /-- 0. -/
  | refused
  /-- 1, with the members of `new_entry` that have been set. -/
  | inserted (newEntry : DirectoryEntry)

namespace FileSystem

variable (s : FileSystem)

/-- `lseek` to the start of the block `b`. -/
def seekBlock (b : UInt16) : Cursor := ⟨b, s.sb.blockSize, b.toNat * s.blockSize⟩

/-- `read_file_name`. -/
def readFileName : ℕ → ℕ → Cursor → Except Fault (List UInt8 × Cursor)
  | 0, _, _ => .error .fuel
  | fuel + 1, nameSize, c =>
    if nameSize = 0 then .ok ([], c)
    else if nameSize ≤ c.remaining.toNat then do
      let name ← s.read c.offset nameSize
      .ok (name, c.advance nameSize)
    else do
      let name ← s.read c.offset c.remaining.toNat
      let next ← s.next c.fatCurIndex
      let (rest, c') ← readFileName fuel (nameSize - c.remaining.toNat) (s.seekBlock next)
      .ok (name ++ rest, c')

/-- The loop of `search_name_in_dir`. -/
def searchFrom (fileName : CString) : ℕ → Cursor → Except Fault (Option (DirectoryEntry × ℕ))
  | 0, _ => .error .fuel
  | fuel + 1, c =>
    if c.remaining.toNat < DirectoryEntry.sizeof then do
      let next ← s.next c.fatCurIndex
      if next = fatEntryEnd then .ok none else searchFrom fileName fuel (s.seekBlock next)
    else do
      let entry ← s.readEntry c.offset
      if entry.isLastEntry ≠ 0 ∧ entry.isActiveEntry = 0 then .ok none
      else do
        let (name, c') ← s.readFileName fuel entry.nameSize (c.advance DirectoryEntry.sizeof)
        let isFound ← entry.compareName fileName name
        if isFound then .ok (some (entry, c.offset))
        else if entry.isLastEntry ≠ 0 then .ok none
        else searchFrom fileName fuel c'

/-- `search_name_in_dir`: the entry found and its offset. -/
def searchNameInDir (dirEntry : DirectoryEntry) (fileName : CString) (fuel : ℕ) :
    Except Fault (Option (DirectoryEntry × ℕ)) :=
  s.searchFrom fileName fuel (s.seekBlock dirEntry.firstBlockIndex)

/-- The loop of `print_entries_in_directory`. -/
def printFrom : ℕ → Cursor → Except Fault (List Listing)
  | 0, _ => .error .fuel
  | fuel + 1, c =>
    if c.remaining.toNat < DirectoryEntry.sizeof then do
      let next ← s.next c.fatCurIndex
      if next = fatEntryEnd then .ok [] else printFrom fuel (s.seekBlock next)
    else do
      let entry ← s.readEntry c.offset
      if entry.isLastEntry ≠ 0 ∧ entry.isActiveEntry = 0 then .ok []
      else do
        let (name, c') ← s.readFileName fuel entry.nameSize (c.advance DirectoryEntry.sizeof)
        let printed ← entry.printEntry name
        if entry.isLastEntry ≠ 0 then .ok printed
        else do
          let rest ← printFrom fuel c'
          .ok (printed ++ rest)

/-- `print_entries_in_directory`. -/
def printEntriesInDirectory (dirEntry : DirectoryEntry) (fuel : ℕ) : Except Fault (List Listing) :=
  s.printFrom fuel (s.seekBlock dirEntry.firstBlockIndex)

/-! ## Adding an entry -/

/-- `insert_name_to_dir`, for the bytes of the name that are left. It returns -1 if no
    block is free. -/
def insertNameToDir : ℕ → FileSystem → List UInt8 → Cursor →
    Except Fault (FileSystem × Option Cursor)
  | 0, _, _, _ => .error .fuel
  | fuel + 1, s, name, c =>
    if name.length ≤ c.remaining.toNat then
      .ok (s.writeList c.offset name, some (c.advance name.length))
    else do
      -- The rest of the block is read, not written, up to the end of the file.
      let name := name.drop (min c.remaining.toNat (s.length - c.offset))
      let next ← s.next c.fatCurIndex
      if next = fatEntryEnd then
        match s.findFreeBlock with
        | none => .ok (s, none)
        | some b =>
          -- The cursor goes to the old next index, which is `FAT_ENTRY_END`.
          let s := s.extend c.fatCurIndex b
          insertNameToDir fuel s name (s.seekBlock next)
      else insertNameToDir fuel s name (s.seekBlock next)

/-- `calculate_total_num_blocks_for_file`. -/
def calculateTotalNumBlocksForFile (newEntry : DirectoryEntry) : ℕ :=
  (newEntry.size.toNat + s.blockSize - 1) / s.blockSize

/-- `calculate_total_num_blocks_for_entry`. -/
def calculateTotalNumBlocksForEntry (newEntry : DirectoryEntry) (remaining : ℕ) : ℕ :=
  (if newEntry.entrySize.toNat > remaining then (remaining + s.blockSize - 1) / s.blockSize else 0) +
    if checkAttribute newEntry.attributes file then s.calculateTotalNumBlocksForFile newEntry else 1

/-- The allocation of the free block `b`, which for a directory gets an empty table. -/
def allocate (newEntry : DirectoryEntry) (b : ℕ) : FileSystem :=
  if checkAttribute newEntry.attributes directory then
    (s.takeBlock b).writeSuperblockAndFat.writeEntry (b * s.blockSize) lastDirIndicatorEntry
  else (s.takeBlock b).writeSuperblockAndFat

/-- `allocate_block_for_new_entry`. -/
def allocateBlockForNewEntry (newEntry : DirectoryEntry) : FileSystem × Option DirectoryEntry :=
  match s.findFreeBlock with
  | none => (s.print .noFreeBlockFound, none)
  | some b => (s.allocate newEntry b, some { newEntry with firstBlockIndex := .ofNat b })

/-- What `add_dir_entry` does where the new entry goes, once there is enough capacity. The
    entry before it, if it is the last one, is written again in `unflag`. -/
def insertAt (unflag : FileSystem → FileSystem) (newEntry : DirectoryEntry) (fileName : CString)
    (c : Cursor) (fuel : ℕ) : Except Fault (FileSystem × Option (DirectoryEntry × Cursor)) :=
  match s.allocateBlockForNewEntry newEntry with
  | (s, none) => .ok (s, none)
  | (s, some newEntry) => do
    let s := (unflag s).writeEntry c.offset newEntry
    let (s, c') ← insertNameToDir fuel s (fileName.buffer.take newEntry.nameSize)
      (c.advance DirectoryEntry.sizeof)
    .ok (s, c'.map fun c' => (newEntry, c'))

/-- The result of an insertion at the end. -/
def insertion : FileSystem × Option (DirectoryEntry × Cursor) → FileSystem × Insertion
  | (s, none) => (s, .failed)
  | (s, some (newEntry, _)) => (s, .inserted newEntry)

/-- The loop of `add_dir_entry`. After the last entry, if it is active, `lastActive` is that
    entry with its offset. -/
def addFrom (fileName : CString) : ℕ → FileSystem → DirectoryEntry →
    Option (DirectoryEntry × ℕ) → Cursor → Except Fault (FileSystem × Insertion)
  | 0, _, _, _, _ => .error .fuel
  | fuel + 1, s, newEntry, lastActive, c =>
    if c.remaining.toNat < DirectoryEntry.sizeof then do
      let next ← s.next c.fatCurIndex
      if next = fatEntryEnd then
        match s.findFreeBlock with
        | none => .ok (s.print .notEnoughCapacity, .refused)
        | some b =>
          -- The cursor goes to the old next index, which is `FAT_ENTRY_END`.
          let s := s.extend c.fatCurIndex b
          addFrom fileName fuel s newEntry lastActive (s.seekBlock next)
      else addFrom fileName fuel s newEntry lastActive (s.seekBlock next)
    else match lastActive with
    | some (last, lastOffset) =>
      if s.calculateTotalNumBlocksForEntry newEntry c.remaining.toNat > s.sb.numFreeBlocks.toNat then
        .ok (s.print .notEnoughCapacity, .refused)
      else do
        let r ← s.insertAt (fun s => s.writeEntry lastOffset { last with isLastEntry := 0 })
          newEntry fileName c fuel
        .ok (insertion r)
    | none => do
      let entry ← s.readEntry c.offset
      let c' := c.advance DirectoryEntry.sizeof
      if entry.isLastEntry ≠ 0 ∧ entry.isActiveEntry = 0 then
        let newEntry := { newEntry with isLastEntry := 1 }
        if s.calculateTotalNumBlocksForEntry newEntry c.remaining.toNat > s.sb.numFreeBlocks.toNat then
          .ok (s.print .notEnoughCapacity, .refused)
        else do
          let r ← s.insertAt id newEntry fileName c fuel
          .ok (insertion r)
      else if entry.isLastEntry ≠ 0 then do
        let (_, c') ← s.readFileName fuel entry.nameSize c'
        addFrom fileName fuel s { newEntry with isLastEntry := 1 } (some (entry, c.offset)) c'
      else if entry.isActiveEntry = 0 then
        if (entry.entrySize = newEntry.entrySize ∨
              entry.entrySize.toNat ≥ newEntry.entrySize.toNat + DirectoryEntry.sizeof) ∧
            s.calculateTotalNumBlocksForEntry newEntry c'.remaining.toNat ≤ s.sb.numFreeBlocks.toNat then do
          let r ← s.insertAt id newEntry fileName c' fuel
          match r with
          | (s, none) => .ok (s, .failed)
          | (s, some (newEntry, c')) =>
            let fragment := entry.entrySize - newEntry.entrySize
            let s := if 0 < fragment ∧ fragment < 0x80000000 then
              s.writeEntry c'.offset
                { lastDirIndicatorEntry with entrySize := fragment, isLastEntry := 0 }
              else s
            .ok (s, .inserted newEntry)
        -- The name of the passive entry is not skipped.
        else addFrom fileName fuel s newEntry none c'
      else do
        let (_, c') ← s.readFileName fuel entry.nameSize c'
        addFrom fileName fuel s newEntry none c'

/-- `add_dir_entry`. -/
def addDirEntry (dirEntry newEntry : DirectoryEntry) (fileName : CString) (fuel : ℕ) :
    Except Fault (FileSystem × Insertion) :=
  addFrom fileName fuel s newEntry none (s.seekBlock dirEntry.firstBlockIndex)

/-! ## More fuel -/

variable {s} {fileName : CString} {n m : ℕ}

theorem readFileName_below (h : n ≤ m) (k : ℕ) (c : Cursor) :
    Below (s.readFileName n k c) (s.readFileName m k c) := by
  induction h using fuel_induction generalizing k c with
  | zero m => exact .error
  | succ n m _ ih =>
    rw [readFileName, readFileName]
    exact .ite (fun _ => .refl _) fun _ => .ite (fun _ => .refl _) fun _ => .bind (.refl _) fun _ =>
      .bind (.refl _) fun _ => .bind (ih _ _) fun _ => .refl _

theorem searchFrom_below (h : n ≤ m) (c : Cursor) :
    Below (s.searchFrom fileName n c) (s.searchFrom fileName m c) := by
  induction h using fuel_induction generalizing c with
  | zero m => exact .error
  | succ n m hnm ih =>
    rw [searchFrom, searchFrom]
    refine .ite (fun _ => .bind (.refl _) fun _ => .ite (fun _ => .refl _) fun _ => ih _) fun _ =>
      .bind (.refl _) fun _ => .ite (fun _ => .refl _) fun _ => .bind (readFileName_below hnm _ _) ?_
    exact fun _ => .bind (.refl _) fun _ => .ite (fun _ => .refl _) fun _ =>
      .ite (fun _ => .refl _) fun _ => ih _

theorem printFrom_below (h : n ≤ m) (c : Cursor) : Below (s.printFrom n c) (s.printFrom m c) := by
  induction h using fuel_induction generalizing c with
  | zero m => exact .error
  | succ n m hnm ih =>
    rw [printFrom, printFrom]
    refine .ite (fun _ => .bind (.refl _) fun _ => .ite (fun _ => .refl _) fun _ => ih _) fun _ =>
      .bind (.refl _) fun _ => .ite (fun _ => .refl _) fun _ => .bind (readFileName_below hnm _ _) ?_
    exact fun _ => .bind (.refl _) fun _ => .ite (fun _ => .refl _) fun _ =>
      .bind (ih _) fun _ => .refl _

theorem insertNameToDir_below (h : n ≤ m) (s : FileSystem) (name : List UInt8) (c : Cursor) :
    Below (insertNameToDir n s name c) (insertNameToDir m s name c) := by
  induction h using fuel_induction generalizing s name c with
  | zero m => exact .error
  | succ n m _ ih =>
    rw [insertNameToDir, insertNameToDir]
    refine .ite (fun _ => .refl _) fun _ => .bind (.refl _) fun _ => .ite (fun _ => ?_) fun _ =>
      ih _ _ _
    cases s.findFreeBlock with
    | none => exact .refl _
    | some b => exact ih _ _ _

theorem insertAt_below (h : n ≤ m) (unflag : FileSystem → FileSystem) (e : DirectoryEntry) (c : Cursor) :
    Below (s.insertAt unflag e fileName c n) (s.insertAt unflag e fileName c m) := by
  rw [insertAt, insertAt]
  rcases s.allocateBlockForNewEntry e with ⟨s', _ | e'⟩
  · exact .refl _
  · exact .bind (insertNameToDir_below h _ _ _) fun _ => .refl _

theorem addFrom_below (h : n ≤ m) (s : FileSystem) (e : DirectoryEntry)
    (lastActive : Option (DirectoryEntry × ℕ)) (c : Cursor) :
    Below (addFrom fileName n s e lastActive c) (addFrom fileName m s e lastActive c) := by
  induction h using fuel_induction generalizing s e lastActive c with
  | zero m => exact .error
  | succ n m hnm ih =>
    -- Going to the next block.
    have hskip : ∀ next, Below
        (if next = fatEntryEnd then
          match s.findFreeBlock with
          | none => .ok (s.print .notEnoughCapacity, .refused)
          | some b => addFrom fileName n (s.extend c.fatCurIndex b) e lastActive
            ((s.extend c.fatCurIndex b).seekBlock next)
        else addFrom fileName n s e lastActive (s.seekBlock next))
        (if next = fatEntryEnd then
          match s.findFreeBlock with
          | none => .ok (s.print .notEnoughCapacity, .refused)
          | some b => addFrom fileName m (s.extend c.fatCurIndex b) e lastActive
            ((s.extend c.fatCurIndex b).seekBlock next)
        else addFrom fileName m s e lastActive (s.seekBlock next)) := by
      intro next
      refine .ite (fun _ => ?_) fun _ => ih _ _ _ _
      cases s.findFreeBlock with
      | none => exact .refl _
      | some b => exact ih _ _ _ _
    cases lastActive with
    | some last =>
      rw [addFrom, addFrom]
      exact .ite (fun _ => .bind (.refl _) hskip) fun _ => .ite (fun _ => .refl _) fun _ =>
        .bind (insertAt_below hnm _ _ _) fun _ => .refl _
    | none =>
      rw [addFrom, addFrom]
      refine .ite (fun _ => .bind (.refl _) hskip) fun _ => .bind (.refl _) fun _ => ?_
      refine .ite (fun _ => .ite (fun _ => .refl _) fun _ => .bind (insertAt_below hnm _ _ _) fun _ => .refl _)
        fun _ => .ite (fun _ => .bind (readFileName_below hnm _ _) fun _ => ih _ _ _ _) fun _ => ?_
      exact .ite (fun _ => .ite (fun _ => .bind (insertAt_below hnm _ _ _) fun _ => .refl _) fun _ =>
        ih _ _ _ _) fun _ => .bind (readFileName_below hnm _ _) fun _ => ih _ _ _ _

end FileSystem

end GtuOs.FatFileSystem

import GtuOs.FatFileSystem.Tables
import Mathlib.Data.Set.Insert

/-!
# The regions of the file

The superblock and the FAT come first in the file, followed by the blocks of the data
(`Geometry`). `Stored` says that the superblock and the FAT in the file are those in memory.
`Keeps s s' B` is the frame of an operation from `s` to `s'`: only the blocks `B`, and their
FAT entries, have changed. A chain or a table with no block in `B` is what it was
(`Keeps.chained`, `Keeps.table`).
-/

namespace GtuOs.FatFileSystem.FileSystem

variable {s s' s'' : FileSystem} {b n j p : ℕ} {i : UInt16} {l : List ℕ} {rs : List Record}
  {B B' : Set ℕ} {f : ℕ → UInt8}

variable (s) in
/-- The first block of the data. -/
def dataStart : ℕ := s.sb.blockNumberForSuperblock.toNat + s.sb.blockNumberForFat.toNat

/-- The superblock and the FAT fit in their blocks. -/
structure Regions (s : FileSystem) : Prop where
  superblock_le : Superblock.sizeof ≤ s.sb.blockNumberForSuperblock.toNat * s.blockSize
  fat_le : 2 * numBlocks ≤ s.sb.blockNumberForFat.toNat * s.blockSize

/-- The parts of the file are where the superblock says, and all blocks are in the file. -/
structure Geometry (s : FileSystem) : Prop extends s.Regions where
  header_le : DirectoryEntry.sizeof ≤ s.blockSize
  fatIndex_eq : s.sb.fatIndex = s.sb.blockNumberForSuperblock
  dataStart_le : s.dataStart ≤ numBlocks
  length_le : numBlocks * s.blockSize ≤ s.length

/-- The superblock is in the file. -/
theorem Geometry.superblock_le_length (h : s.Geometry) : 0 + Superblock.sizeof ≤ s.length := by
  have hsup := h.superblock_le
  have hlen := h.length_le
  have hstart := Nat.mul_le_mul_right s.blockSize h.dataStart_le
  rw [dataStart, Nat.add_mul] at hstart
  omega

/-- The superblock and the FAT in the file are those in memory. -/
structure Stored (s : FileSystem) : Prop where
  superblock : Superblock.load s.disk 0 = s.sb
  fat : ∀ i < numBlocks,
    s.disk.load16 (s.sb.blockNumberForSuperblock.toNat * s.blockSize + 2 * i) = s.fat i

/-- From `s` to `s'`, only the blocks `B` change, with their FAT entries. -/
structure Keeps (s s' : FileSystem) (B : Set ℕ) : Prop where
  blockSize : s'.sb.blockSize = s.sb.blockSize
  superblocks : s'.sb.blockNumberForSuperblock = s.sb.blockNumberForSuperblock
  fatBlocks : s'.sb.blockNumberForFat = s.sb.blockNumberForFat
  fatIndex : s'.sb.fatIndex = s.sb.fatIndex
  length : s'.length = s.length
  fat : ∀ b, b ∉ B → s'.fat b = s.fat b
  disk : ∀ b, s.dataStart ≤ b → b ∉ B → ∀ j < s.blockSize,
    s'.disk (b * s.blockSize + j) = s.disk (b * s.blockSize + j)

namespace Keeps

theorem refl (s : FileSystem) (B : Set ℕ) : s.Keeps s B :=
  ⟨rfl, rfl, rfl, rfl, rfl, fun _ _ => rfl, fun _ _ _ _ _ => rfl⟩

theorem blockSize_eq (h : s.Keeps s' B) : s'.blockSize = s.blockSize := congrArg UInt16.toNat h.blockSize

theorem dataStart_eq (h : s.Keeps s' B) : s'.dataStart = s.dataStart := by
  rw [dataStart, dataStart, h.superblocks, h.fatBlocks]

theorem trans (h : s.Keeps s' B) (h' : s'.Keeps s'' B') : s.Keeps s'' (B ∪ B') where
  blockSize := h'.blockSize.trans h.blockSize
  superblocks := h'.superblocks.trans h.superblocks
  fatBlocks := h'.fatBlocks.trans h.fatBlocks
  fatIndex := h'.fatIndex.trans h.fatIndex
  length := h'.length.trans h.length
  fat b hb := (h'.fat b fun hm => hb (.inr hm)).trans (h.fat b fun hm => hb (.inl hm))
  disk b hd hb j hj := by
    have hdisk := h'.disk b (h.dataStart_eq ▸ hd) (fun hm => hb (.inr hm)) j (h.blockSize_eq ▸ hj)
    rw [h.blockSize_eq] at hdisk
    exact hdisk.trans (h.disk b hd (fun hm => hb (.inl hm)) j hj)

theorem mono (h : s.Keeps s' B) (hB : B ⊆ B') : s.Keeps s' B' :=
  { h with
    fat := fun b hb => h.fat b fun hm => hb (hB hm)
    disk := fun b hd hb => h.disk b hd fun hm => hb (hB hm) }

theorem geometry (h : s.Keeps s' B) (hs : s.Geometry) : s'.Geometry where
  header_le := h.blockSize_eq ▸ hs.header_le
  superblock_le := by rw [h.superblocks, h.blockSize_eq]; exact hs.superblock_le
  fat_le := by rw [h.fatBlocks, h.blockSize_eq]; exact hs.fat_le
  fatIndex_eq := by rw [h.fatIndex, h.superblocks]; exact hs.fatIndex_eq
  dataStart_le := h.dataStart_eq ▸ hs.dataStart_le
  length_le := by rw [h.blockSize_eq, h.length]; exact hs.length_le

theorem chained (h : s.Keeps s' B) (hc : s.Chained i l) (hl : ∀ b ∈ l, b ∉ B) : s'.Chained i l where
  isChain := hc.isChain.congr fun b hb => h.fat b (hl b hb)
  inFile b hb := by
    rw [h.blockSize_eq, h.length]
    exact hc.inFile b hb

theorem content (h : s.Keeps s' B) (hl : ∀ b ∈ l, s.dataStart ≤ b ∧ b ∉ B)
    (hp : p < l.length * s.blockSize) : s'.content l p = s.content l p := by
  rw [FileSystem.content, FileSystem.content, h.blockSize_eq]
  exact Memory.stream_congr (fun b hb j hj => h.disk b (hl b hb).1 (hl b hb).2 j hj) hp

end Keeps

theorem Keeps.layout (h : s.Keeps s' B) (ht : s.Layout i l rs)
    (hl : ∀ b ∈ l, s.dataStart ≤ b ∧ b ∉ B) : s'.Layout i l rs where
  header_le := h.blockSize_eq ▸ ht.header_le
  chained := h.chained ht.chained fun b hb => (hl b hb).2
  laid := by
    have hend := ht.laid.endOf_le (Nat.zero_le _)
    rw [h.blockSize_eq]
    exact ht.laid.congr (lt_of_lt_of_le (by decide) ht.header_le) fun q _ hq =>
      h.content hl (lt_of_lt_of_le hq hend)

theorem Keeps.table (h : s.Keeps s' B) (ht : s.Table i l rs) (hl : ∀ b ∈ l, s.dataStart ≤ b ∧ b ∉ B) :
    s'.Table i l rs :=
  ⟨h.layout ht.toLayout hl, ht.lastFlagged⟩

/-! ## Writing -/

theorem write_length (h : p + n ≤ s.length) : (s.write p n f).length = s.length := by
  rw [write]
  split_ifs
  · rfl
  · exact max_eq_left h

theorem write_eq (h : p + n ≤ s.length) : s.write p n f = { s with disk := s.disk.store p n f } := by
  have hlen : (s.write p n f).length = s.length := write_length h
  calc s.write p n f
    _ = { s with disk := s.disk.store p n f, length := (s.write p n f).length } := rfl
    _ = _ := by rw [hlen]

/-- A write within a block of the data. -/
theorem keeps_write (hs : s.Geometry) (hlt : b < numBlocks) (hb : b * s.blockSize ≤ p)
    (hp : p + n ≤ b * s.blockSize + s.blockSize) : s.Keeps (s.write p n f) {b} := by
  have hlen := hs.length_le
  have hle : (b + 1) * s.blockSize ≤ numBlocks * s.blockSize := Nat.mul_le_mul_right _ hlt
  rw [Nat.succ_mul] at hle
  rw [write_eq (by omega)]
  refine ⟨rfl, rfl, rfl, rfl, rfl, fun _ _ => rfl, fun c _ hc j hj => ?_⟩
  refine Memory.store_of_not_mem ?_
  rcases Memory.block_apart s.blockSize (show c ≠ b from hc) with h | h <;> omega

/-- A write to the data changes neither the superblock nor the FAT. -/
theorem Stored.write (h : s.Stored) (hs : s.Regions) (hp : s.dataStart * s.blockSize ≤ p) :
    (s.write p n f).Stored := by
  have hsup := hs.superblock_le
  have hfat := hs.fat_le
  rw [dataStart, Nat.add_mul] at hp
  constructor
  · refine (Superblock.load_congr fun k hk => ?_).trans h.superblock
    exact Memory.store_of_not_mem (by omega)
  · intro i hi
    refine (Memory.load16_congr fun k hk => ?_).trans (h.fat i hi)
    refine Memory.store_of_not_mem ?_
    show s.sb.blockNumberForSuperblock.toNat * s.blockSize + 2 * i + k < p ∨ _
    omega

variable (s) in
/-- The disk after `write_superblock_and_fat`. -/
def flushed : Memory :=
  let fatOffset := s.sb.blockNumberForSuperblock.toNat * s.blockSize
  (((s.disk.store 0 Superblock.sizeof s.sb.bytes).store Superblock.sizeof
    (fatOffset - Superblock.sizeof) fun _ => 0).store fatOffset (2 * numBlocks) s.fatBytes).store
    (fatOffset + 2 * numBlocks) (s.sb.blockNumberForFat.toNat * s.blockSize - 2 * numBlocks) fun _ => 0

theorem flushed_of_le (hs : s.Regions) {a : ℕ} (ha : s.dataStart * s.blockSize ≤ a) :
    s.flushed a = s.disk a := by
  have hsup := hs.superblock_le
  have hfat := hs.fat_le
  rw [dataStart, Nat.add_mul] at ha
  rw [flushed, Memory.store_of_not_mem (by omega), Memory.store_of_not_mem (by omega),
    Memory.store_of_not_mem (by omega), Memory.store_of_not_mem (by omega)]

/-- The superblock and the FAT are in the file now. -/
theorem stored_flushed (hs : s.Regions) : { s with disk := s.flushed }.Stored := by
  have hsup := hs.superblock_le
  have hfat := hs.fat_le
  constructor
  · refine Superblock.load_of_bytes fun k hk => ?_
    show s.flushed (0 + k) = _
    rw [flushed, Memory.store_of_not_mem (by omega), Memory.store_of_not_mem (by omega),
      Memory.store_of_not_mem (by omega), Memory.store_add hk]
  · intro i hi
    refine Memory.load16_of_bytes fun k hk => ?_
    show s.flushed (s.sb.blockNumberForSuperblock.toNat * s.blockSize + 2 * i + k) = _
    rw [flushed, Memory.store_of_not_mem (by omega), Nat.add_assoc, Memory.store_add (by omega),
      fatBytes]
    have hdiv : (2 * i + k) / 2 = i := by omega
    have hmod : (2 * i + k) % 2 = k := by omega
    rw [hdiv, hmod]

theorem writeSuperblockAndFat_disk (s : FileSystem) : s.writeSuperblockAndFat.disk = s.flushed := by
  simp only [writeSuperblockAndFat, writeSuperblock, flushed, write]
  rfl

theorem writeSuperblockAndFat_length (hs : s.Geometry) :
    s.writeSuperblockAndFat.length = s.length := by
  have hsup := hs.superblock_le
  have hfat := hs.fat_le
  have hstart := Nat.mul_le_mul_right s.blockSize hs.dataStart_le
  have hlen := hs.length_le
  rw [dataStart, Nat.add_mul] at hstart
  have h₁ : s.writeSuperblock.length = s.length := write_length hs.superblock_le_length
  have h₂ := (write_length (s := s.writeSuperblock) (p := Superblock.sizeof) (f := fun _ => 0)
    (n := s.sb.blockNumberForSuperblock.toNat * s.blockSize - Superblock.sizeof) (by omega)).trans h₁
  have h₃ := (write_length (p := s.sb.blockNumberForSuperblock.toNat * s.blockSize)
    (n := 2 * numBlocks) (f := s.fatBytes) (by rw [h₂]; omega)).trans h₂
  refine (write_length (le_trans ?_ h₃.ge)).trans h₃
  show s.sb.blockNumberForSuperblock.toNat * s.blockSize + 2 * numBlocks +
    (s.sb.blockNumberForFat.toNat * s.blockSize - 2 * numBlocks) ≤ _
  omega

theorem writeSuperblockAndFat_eq (hs : s.Geometry) :
    s.writeSuperblockAndFat = { s with disk := s.flushed } := by
  ext1
  · exact writeSuperblockAndFat_disk s
  · exact writeSuperblockAndFat_length hs
  all_goals simp only [writeSuperblockAndFat, writeSuperblock, write]

theorem keeps_writeSuperblockAndFat (hs : s.Geometry) : s.Keeps s.writeSuperblockAndFat ∅ := by
  rw [writeSuperblockAndFat_eq hs]
  refine ⟨rfl, rfl, rfl, rfl, rfl, fun _ _ => rfl, fun b hb _ j _ => ?_⟩
  exact flushed_of_le hs.toRegions (Nat.le_add_right_of_le (Nat.mul_le_mul_right _ hb))

theorem writeSuperblockAndFat_sb (s : FileSystem) : s.writeSuperblockAndFat.sb = s.sb := by
  simp only [writeSuperblockAndFat, writeSuperblock, write]

theorem writeSuperblockAndFat_fat (s : FileSystem) : s.writeSuperblockAndFat.fat = s.fat := by
  simp only [writeSuperblockAndFat, writeSuperblock, write]

theorem stored_writeSuperblockAndFat (hs : s.Regions) : s.writeSuperblockAndFat.Stored := by
  have hst := stored_flushed hs
  constructor
  · rw [writeSuperblockAndFat_disk, writeSuperblockAndFat_sb]
    exact hst.superblock
  · rw [blockSize, writeSuperblockAndFat_disk, writeSuperblockAndFat_sb, writeSuperblockAndFat_fat]
    exact hst.fat

/-! ## Writing to a chain -/

/-- A write within a block of a chain. -/
theorem keeps_writeChain (hs : s.Geometry) (hl : ∀ b ∈ l, b < numBlocks)
    (hp : p < l.length * s.blockSize) (hn : p % s.blockSize + n ≤ s.blockSize) :
    s.Keeps (s.write (Memory.blockAddr s.blockSize l p) n f) {b | b ∈ l} := by
  have hmem := Memory.getD_mem (Memory.div_lt_of_lt hp)
  refine (keeps_write hs (hl _ hmem) (Nat.le_add_right _ _) ?_).mono (Set.singleton_subset_iff.2 hmem)
  show l.getD (p / s.blockSize) 0 * s.blockSize + p % s.blockSize + n ≤ _
  omega

theorem Stored.writeChain (h : s.Stored) (hs : s.Geometry) (hl : ∀ b ∈ l, s.dataStart ≤ b)
    (hp : p < l.length * s.blockSize) :
    (s.write (Memory.blockAddr s.blockSize l p) n f).Stored := by
  have hmem := Memory.getD_mem (Memory.div_lt_of_lt hp)
  exact h.write hs.toRegions (Nat.le_add_right_of_le (Nat.mul_le_mul_right _ (hl _ hmem)))

theorem content_writeChain (hc : s.Chained i l) (hp : p < l.length * s.blockSize)
    (hn : p % s.blockSize + n ≤ s.blockSize) {q : ℕ} (hq : q < l.length * s.blockSize) :
    (s.write (Memory.blockAddr s.blockSize l p) n f).content l q = (s.content l).store p n f q :=
  Memory.stream_store hc.isChain.nodup hp hn hq

/-- A write to a chain changes no FAT entry. -/
theorem Chained.writeChain (hc : s.Chained i l) (hs : s.Geometry) (hp : p < l.length * s.blockSize)
    (hn : p % s.blockSize + n ≤ s.blockSize) :
    (s.write (Memory.blockAddr s.blockSize l p) n f).Chained i l where
  isChain := hc.isChain
  inFile b hb := by
    have hlen := (keeps_writeChain (f := f) hs hc.isChain.lt hp hn).length
    rw [hlen]
    exact hc.inFile b hb

variable {r r' : Record} {rs' : List Record}

variable (s) in
/-- Writing the record `r` at `a`, the header first. -/
def writeRecord (a : ℕ) (r : Record) : FileSystem :=
  (s.writeEntry a r.entry).writeList (a + DirectoryEntry.sizeof) r.name

theorem writeRecord_fat (s : FileSystem) (a : ℕ) (r : Record) : (s.writeRecord a r).fat = s.fat := rfl

variable (s) in
/-- Writing the record `r` at the byte `q` of the chain `l`, at whose end its name may be in the next block. -/
def insertRecord (l : List ℕ) (q : ℕ) (r : Record) : FileSystem :=
  (s.writeEntry (Memory.blockAddr s.blockSize l q) r.entry).writeList
    (Memory.blockAddr s.blockSize l (q + DirectoryEntry.sizeof)) r.name

/-- Elsewhere the name is behind the header. -/
theorem insertRecord_eq {q : ℕ} (h : q % s.blockSize + DirectoryEntry.sizeof < s.blockSize) :
    s.insertRecord l q r = s.writeRecord (Memory.blockAddr s.blockSize l q) r := by
  rw [insertRecord, Memory.blockAddr_add h, writeRecord]

/-- The header of the record `r` fits in the block of the byte `q` of the chain `l`, and its name in the block of the
    byte behind the header. -/
structure Fits (s : FileSystem) (l : List ℕ) (q : ℕ) (r : Record) : Prop where
  header_le : q % s.blockSize + DirectoryEntry.sizeof ≤ s.blockSize
  lt : q + DirectoryEntry.sizeof < l.length * s.blockSize
  le : (q + DirectoryEntry.sizeof) % s.blockSize + r.name.length ≤ s.blockSize

namespace Fits

variable {q : ℕ}

theorem header_lt (h : s.Fits l q r) : q < l.length * s.blockSize := lt_of_le_of_lt (Nat.le_add_right ..) h.lt

theorem add_le (h : s.Fits l q r) : q + r.size ≤ l.length * s.blockSize := by
  have hdiv := Nat.div_add_mod' (q + DirectoryEntry.sizeof) s.blockSize
  have hlt := Nat.mul_le_mul_right s.blockSize (Memory.div_lt_of_lt h.lt)
  have hle := h.le
  rw [Nat.succ_mul] at hlt
  rw [Record.size]
  omega

theorem keeps (h : s.Fits l q r) (hs : s.Geometry) (hl : ∀ b ∈ l, b < numBlocks) :
    s.Keeps (s.insertRecord l q r) {b | b ∈ l} := by
  have h₁ := keeps_writeChain (f := r.entry.bytes) hs hl h.header_lt h.header_le
  have h₂ := keeps_writeChain (s := s.write (Memory.blockAddr s.blockSize l q) DirectoryEntry.sizeof
    r.entry.bytes) (f := fun k => r.name.getD k 0) (h₁.geometry hs) hl h.lt h.le
  exact (h₁.trans h₂).mono (Set.union_self _).subset

theorem stored (h : s.Fits l q r) (hs : s.Geometry) (hl : ∀ b ∈ l, s.dataStart ≤ b ∧ b < numBlocks)
    (hst : s.Stored) : (s.insertRecord l q r).Stored := by
  have h₁ := keeps_writeChain (f := r.entry.bytes) hs (fun b hb => (hl b hb).2) h.header_lt h.header_le
  have hst₁ := hst.writeChain (f := r.entry.bytes) (n := DirectoryEntry.sizeof) hs
    (fun b hb => (hl b hb).1) h.header_lt
  exact hst₁.writeChain (h₁.geometry hs) (fun b hb => (hl b hb).1) h.lt

theorem content (h : s.Fits l q r) (hs : s.Geometry) (hc : s.Chained i l) {x : ℕ}
    (hx : x < l.length * s.blockSize) :
    (s.insertRecord l q r).content l x = (s.content l).store q r.size r.bytes x := by
  have hc₁ := hc.writeChain (f := r.entry.bytes) hs h.header_lt h.header_le
  have h₁ := content_writeChain (f := r.entry.bytes) hc h.header_lt h.header_le hx
  have h₂ := content_writeChain (f := fun k => r.name.getD k 0) hc₁ h.lt h.le hx
  refine h₂.trans ((Memory.store_apply_congr h₁).trans ?_)
  rw [Memory.store_store]
  rfl

end Fits

namespace Layout

/-- Writing the header of a record again. -/
theorem writeEntry (ht : s.Layout i l (rs ++ r :: rs')) (hs : s.Geometry) (hname : r'.name = r.name) :
    (s.writeEntry (Memory.blockAddr s.blockSize l (slot s.blockSize (endOf s.blockSize 0 rs)))
      r'.entry).Layout i l (rs ++ r' :: rs') := by
  have hbs : 0 < s.blockSize := lt_of_lt_of_le (by decide) ht.header_le
  have hlaid := ht.laid.writeHeader hbs hname
  have hle := (Laid.append_iff.1 ht.laid).2.2.1
  have hpos : 0 < r.size := lt_of_lt_of_le (by decide) (Nat.le_add_right DirectoryEntry.sizeof _)
  have hn := slot_mod ht.header_le (endOf s.blockSize 0 rs)
  refine ⟨ht.header_le, ht.chained.writeChain hs (by omega) hn, ?_⟩
  exact hlaid.congr hbs fun q _ hq => content_writeChain ht.chained (by omega) hn
    (lt_of_lt_of_le hq (hlaid.endOf_le (Nat.zero_le _)))

/-- Writing a record after the others. -/
theorem insertRecord (ht : s.Layout i l rs) (hs : s.Geometry)
    (hfits : s.Fits l (slot s.blockSize (endOf s.blockSize 0 rs)) r) :
    (s.insertRecord l (slot s.blockSize (endOf s.blockSize 0 rs)) r).Layout i l (rs ++ [r]) := by
  have hbs : 0 < s.blockSize := lt_of_lt_of_le (by decide) ht.header_le
  have hlaid := ht.laid.writeRecord hbs hfits.add_le
  have hkeeps := hfits.keeps hs ht.chained.isChain.lt
  refine ⟨ht.header_le, ⟨ht.chained.isChain, fun b hb => ?_⟩, ?_⟩
  · rw [hkeeps.length]
    exact ht.chained.inFile b hb
  · exact hlaid.congr hbs fun x _ hx => hfits.content hs ht.chained
      (lt_of_lt_of_le hx (hlaid.endOf_le (Nat.zero_le _)))

end Layout

end GtuOs.FatFileSystem.FileSystem

import GtuOs.FatFileSystem.Regions

/-!
# Writing back

`write_superblock_and_fat` as it works on the open file, each `write` starting where the one
before it ended, with the arguments of `fill_remaining_block_with_zero` as `utils.c` computes
them. Where the superblock and the FAT fit in their blocks it is the operation of the model
(`writeSuperblockAndFat_eq`), and, for the superblocks of `create_filesystem`, it undoes
`load_superblock_and_fat` (`load_writeSuperblockAndFat`).
-/

namespace GtuOs.FatFileSystem

/-- What `create_filesystem` chooses by the block size. -/
structure Superblock.CreatedWith (sb : Superblock) (is1024 : Bool) : Prop where
  blockSize : sb.blockSize = if is1024 then 1024 else 512
  fatIndex : sb.fatIndex = if is1024 then 5 else 9
  blockNumberForFat : sb.blockNumberForFat = if is1024 then 8 else 16
  blockNumberForSuperblock : sb.blockNumberForSuperblock = if is1024 then 5 else 9

/-- The open `.data` file. -/
structure OpenFile extends Image where
  cursor : ℕ

namespace OpenFile

/-- `lseek(fd, offset, SEEK_SET)`. -/
def lseek (f : OpenFile) (offset : ℕ) : OpenFile := { f with cursor := offset }

/-- A `write` of `n` bytes. -/
def write (f : OpenFile) (n : ℕ) (src : ℕ → UInt8) : OpenFile where
  disk := f.disk.store f.cursor n src
  length := if n = 0 then f.length else max f.length (f.cursor + n)
  cursor := f.cursor + n

/-- `fill_remaining_block_with_zero`, without a result where it returns -1: `calloc` has no
    room for a negative number of bytes. -/
def fillRemainingBlockWithZero (f : OpenFile) (blockSize writtenBytes : ℤ) : Option OpenFile :=
  let remainingBytes := blockSize - writtenBytes
  if remainingBytes ≠ 0 then
    if remainingBytes < 0 then none else some (f.write remainingBytes.toNat fun _ => 0)
  else some f

/-- `write_superblock_and_fat`, without a result where it returns -1. -/
def writeSuperblockAndFat (f : OpenFile) (sb : Superblock) (fat : ℕ → UInt16) : Option OpenFile :=
  let curOffset := f.cursor
  let f := f.lseek 0
  let f := f.write Superblock.sizeof sb.bytes
  let blockSize : ℤ := sb.blockSize.toNat
  (f.fillRemainingBlockWithZero blockSize
    (Superblock.sizeof - blockSize * (sb.blockNumberForSuperblock.toNat - 1))).bind fun f =>
  let f := f.write (2 * numBlocks) fun k => Memory.byte16 (fat (k / 2)) (k % 2)
  (f.fillRemainingBlockWithZero blockSize
    (2 * numBlocks - blockSize * (sb.blockNumberForFat.toNat - 1))).bind fun f =>
  some (f.lseek curOffset)

variable {f : OpenFile} {sb : Superblock} {fat : ℕ → UInt16}

/-- Writing nothing. -/
theorem write_zero {src : ℕ → UInt8} : f.write 0 src = f := by
  have hdisk : f.disk.store f.cursor 0 src = f.disk := by
    funext a
    exact Memory.store_of_not_mem (by omega)
  rw [write, hdisk]
  rfl

/-- The rest of `n` blocks is filled, of which `written` bytes have been written. -/
theorem fillRemainingBlockWithZero_blocks {blockSize n written : ℕ} (h : written ≤ n * blockSize) :
    f.fillRemainingBlockWithZero blockSize (written - blockSize * (n - 1)) =
      some (f.write (n * blockSize - written) fun _ => 0) := by
  have hrest : (blockSize : ℤ) - (written - blockSize * (n - 1)) = (n * blockSize - written : ℕ) := by
    rw [Int.natCast_sub h, Int.natCast_mul, Int.mul_sub, Int.mul_one, Int.mul_comm n]
    omega
  rw [fillRemainingBlockWithZero, hrest]
  by_cases hzero : n * blockSize - written = 0
  · rw [hzero, write_zero]
    rfl
  · rw [if_pos (by omega), if_neg (by omega), Int.toNat_natCast]

/-- A write that leaves no gap after the end of the file. -/
theorem length_write {s : FileSystem} {p n : ℕ} {g : ℕ → UInt8} (h : p ≤ s.length) :
    (s.write p n g).length = max s.length (p + n) := by
  rw [FileSystem.write]
  split_ifs with hn
  · rw [hn, Nat.add_zero, max_eq_left h]
  · rfl

/-- The file ends at the data at least. -/
theorem length_writeSuperblockAndFat {s : FileSystem} (hs : s.Regions) :
    s.writeSuperblockAndFat.length = max s.length (s.dataStart * s.blockSize) := by
  have hsup := hs.superblock_le
  have hfat := hs.fat_le
  have h₁ : s.writeSuperblock.length = max s.length (0 + Superblock.sizeof) := length_write (Nat.zero_le _)
  have h₂ := length_write (s := s.writeSuperblock) (p := Superblock.sizeof) (g := fun _ => 0)
    (n := s.sb.blockNumberForSuperblock.toNat * s.blockSize - Superblock.sizeof) (by omega)
  have h₃ := length_write (p := s.sb.blockNumberForSuperblock.toNat * s.blockSize)
    (n := 2 * numBlocks) (g := s.fatBytes) (by rw [h₂]; omega)
  refine (length_write (le_trans (le_max_right _ _) h₃.ge)).trans ?_
  refine (congrArg₂ max h₃ rfl).trans ?_
  change max _ (s.sb.blockNumberForSuperblock.toNat * s.blockSize + 2 * numBlocks +
    (s.sb.blockNumberForFat.toNat * s.blockSize - 2 * numBlocks)) = _
  rw [h₂, h₁, FileSystem.dataStart, Nat.add_mul]
  omega

/-- The superblock and the FAT are written as the model of the file system has it, and the
    cursor is restored. -/
theorem writeSuperblockAndFat_eq {s : FileSystem} (hs : s.Regions) (cursor : ℕ) :
    (OpenFile.mk s.toImage cursor).writeSuperblockAndFat s.sb s.fat =
      some ⟨s.writeSuperblockAndFat.toImage, cursor⟩ := by
  have hsup : Superblock.sizeof ≤ s.sb.blockNumberForSuperblock.toNat * s.sb.blockSize.toNat :=
    hs.superblock_le
  have hfat : 2 * numBlocks ≤ s.sb.blockNumberForFat.toNat * s.sb.blockSize.toNat := hs.fat_le
  have hcast : (2 * numBlocks : ℤ) = ((2 * numBlocks : ℕ) : ℤ) := by push_cast; rfl
  dsimp only [writeSuperblockAndFat]
  rw [fillRemainingBlockWithZero_blocks hsup, Option.bind_some, hcast,
    fillRemainingBlockWithZero_blocks hfat, Option.bind_some]
  -- The cursor is at the FAT after the first two writes.
  have hcursor : Superblock.sizeof +
      (s.sb.blockNumberForSuperblock.toNat * s.sb.blockSize.toNat - Superblock.sizeof) =
      s.sb.blockNumberForSuperblock.toNat * s.sb.blockSize.toNat := by omega
  simp only [lseek, write, hcursor, FileSystem.writeSuperblockAndFat, FileSystem.writeSuperblock,
    FileSystem.write, FileSystem.blockSize, Nat.zero_add]
  rfl

theorem regions_of_createdWith {s : FileSystem} {is1024 : Bool} (h : s.sb.CreatedWith is1024) : s.Regions := by
  constructor
  · rw [FileSystem.blockSize, h.blockSize, h.blockNumberForSuperblock]
    cases is1024 <;> decide
  · rw [FileSystem.blockSize, h.blockSize, h.blockNumberForFat]
    cases is1024 <;> decide

/-- With a superblock of `create_filesystem`, the superblock and the FAT that have been
    written are loaded again, the blocks from the root directory on are what they were, and so
    is the cursor. -/
theorem load_writeSuperblockAndFat {is1024 : Bool} (h : sb.CreatedWith is1024) :
    ∃ f', f.writeSuperblockAndFat sb fat = some f' ∧
      f'.toImage.load.sb = sb ∧ (∀ i < numBlocks, f'.toImage.load.fat i = fat i) ∧
      (∀ a, (sb.blockNumberForSuperblock.toNat + sb.blockNumberForFat.toNat) * sb.blockSize.toNat ≤ a →
        f'.disk a = f.disk a) ∧
      f'.length = max f.length
        ((sb.blockNumberForSuperblock.toNat + sb.blockNumberForFat.toNat) * sb.blockSize.toNat) ∧
      f'.cursor = f.cursor := by
  let s : FileSystem := { f.toImage with sb, fat, printed := [] }
  have hs : s.Regions := regions_of_createdWith h
  have hstored := FileSystem.stored_writeSuperblockAndFat hs
  have hindex : sb.fatIndex = sb.blockNumberForSuperblock :=
    h.fatIndex.trans h.blockNumberForSuperblock.symm
  have hsb : s.writeSuperblockAndFat.toImage.load.sb = sb :=
    hstored.superblock.trans (FileSystem.writeSuperblockAndFat_sb s)
  refine ⟨_, writeSuperblockAndFat_eq hs f.cursor, hsb, fun i hi => ?_, fun a ha => ?_,
    length_writeSuperblockAndFat hs, rfl⟩
  · have hfat := hstored.fat i hi
    rw [FileSystem.writeSuperblockAndFat_fat, FileSystem.blockSize, FileSystem.writeSuperblockAndFat_sb] at hfat
    have hnext : s.writeSuperblockAndFat.toImage.load.fat i = s.writeSuperblockAndFat.disk.load16
        (s.writeSuperblockAndFat.toImage.load.sb.fatIndex.toNat *
          s.writeSuperblockAndFat.toImage.load.sb.blockSize.toNat + 2 * i) := rfl
    rw [hnext, hsb, hindex]
    exact hfat
  · rw [FileSystem.writeSuperblockAndFat_disk]
    exact FileSystem.flushed_of_le hs ha

/-- A superblock and a FAT as they are created, in an empty file. -/
theorem load_writeSuperblockAndFat_create :
    ∃ f', (OpenFile.mk ⟨fun _ => 0, 0⟩ 7).writeSuperblockAndFat
        (createSuperblock ⟨fun _ => 0, 0, 0⟩ ⟨0, 0, 0, 0⟩ 1024 5 8) (createFat (fun _ => 0) 5 8) = some f' ∧
      f'.toImage.load.sb = createSuperblock ⟨fun _ => 0, 0, 0⟩ ⟨0, 0, 0, 0⟩ 1024 5 8 ∧
      f'.cursor = 7 := by
  obtain ⟨f', hwrite, hsb, -, -, -, hcursor⟩ := @load_writeSuperblockAndFat ⟨⟨fun _ => 0, 0⟩, 7⟩
    (createSuperblock ⟨fun _ => 0, 0, 0⟩ ⟨0, 0, 0, 0⟩ 1024 5 8) (createFat (fun _ => 0) 5 8) true
    ⟨rfl, rfl, rfl, rfl⟩
  exact ⟨f', hwrite, hsb, hcursor⟩

end OpenFile

end GtuOs.FatFileSystem

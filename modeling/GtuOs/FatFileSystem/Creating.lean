import GtuOs.FatFileSystem.Regions

/-!
# The image made by `create_filesystem`

The superblock and the FAT of the image are those that `create_filesystem` has made in memory
(`load_sb`, `load_fat`). The assignments after
the two loops over the FAT are made with the outer `i`: the first block of the superblock is
the end of a chain, whatever the memory has held, so that the FAT is not the one meant
(`not_soundFat`). The last entries for the superblock and for the FAT keep what the memory has
held; unless this is `FAT_ENTRY_EMPTY`, the free blocks are those after the root directory
(`createFat_eq_empty_iff`).
-/

namespace GtuOs.FatFileSystem

variable {garbage : ℕ → UInt16} {g : Garbage} {now : Stamp} {bs superblocks fatBlocks i : ℕ} {is1024 : Bool}

/-! ## The FAT in memory -/

/-- The assignments after the loops. -/
theorem createFat_zero (h : superblocks + fatBlocks ≠ 0) :
    createFat garbage superblocks fatBlocks 0 = fatEntryEnd := by
  have hne : (0 : ℕ) ≠ superblocks + fatBlocks := h.symm
  simp only [createFat]
  rw [if_neg (by omega), Function.update_of_ne hne, Function.update_self]

theorem createFat_root :
    createFat garbage superblocks fatBlocks (superblocks + fatBlocks) = fatEntryEnd := by
  simp only [createFat]
  rw [if_neg (by omega), Function.update_self]

/-- The entries that are neither empty nor uninitialised. -/
theorem createFat_eq_empty_iff (hi : i < numBlocks) (h₁ : garbage (superblocks - 1) ≠ fatEntryEmpty)
    (h₂ : garbage (superblocks + fatBlocks - 1) ≠ fatEntryEmpty) :
    createFat garbage superblocks fatBlocks i = fatEntryEmpty ↔ superblocks + fatBlocks < i := by
  have hlink : ∀ j, j < numBlocks → UInt16.ofNat (j + 1) ≠ fatEntryEmpty := fun j hj h => by
    have hj : j < 4096 := hj
    have hnat := congrArg UInt16.toNat h
    rw [UInt16.toNat_ofNat_of_lt' (by simp only [UInt16.size]; omega)] at hnat
    have hempty : fatEntryEmpty.toNat = 4368 := rfl
    omega
  simp only [createFat]
  by_cases hfree : superblocks + fatBlocks + 1 ≤ i ∧ i < numBlocks
  · rw [if_pos hfree]
    exact iff_of_true rfl (by omega)
  rw [if_neg hfree]
  refine iff_of_false ?_ (by omega)
  rcases eq_or_ne i (superblocks + fatBlocks) with rfl | hroot
  · rw [Function.update_self]
    decide
  rw [Function.update_of_ne hroot]
  rcases eq_or_ne i 0 with rfl | hzero
  · rw [Function.update_self]
    decide
  rw [Function.update_of_ne hzero, linkBlocks]
  split_ifs with hfat
  · exact hlink i hi
  rw [Function.update_of_ne hzero, linkBlocks]
  split_ifs with hsup
  · exact hlink i hi
  -- One of the two entries that are not set.
  · obtain rfl | rfl : i = superblocks - 1 ∨ i = superblocks + fatBlocks - 1 := by omega
    · exact h₁
    · exact h₂

/-! ## The image -/

/-- The numbers of blocks that `create_filesystem` uses. -/
structure Sizes (bs superblocks fatBlocks : ℕ) : Prop where
  header_le : DirectoryEntry.sizeof ≤ bs
  lt : bs < 65536
  superblock_le : Superblock.sizeof ≤ superblocks * bs
  fat_le : 2 * numBlocks ≤ fatBlocks * bs
  root_lt : superblocks + fatBlocks < numBlocks

/-- What `create_filesystem` has in memory. -/
def initial (g : Garbage) (now : Stamp) (bs superblocks fatBlocks : ℕ) : FileSystem where
  disk _ := 0
  length := 0
  sb := createSuperblock g now bs superblocks fatBlocks
  fat := createFat g.fat superblocks fatBlocks
  printed := []

/-- What it has in the end, with the file. -/
def created (g : Garbage) (now : Stamp) (bs superblocks fatBlocks : ℕ) : FileSystem :=
  let root := (superblocks + fatBlocks) * bs
  ((((initial g now bs superblocks fatBlocks).writeSuperblockAndFat.writeEntry root
    lastDirIndicatorEntry).write (root + DirectoryEntry.sizeof) (bs - DirectoryEntry.sizeof) fun _ => 0).write
    (root + bs) ((numBlocks - (superblocks + fatBlocks + 1)) * bs) fun _ => 0)

theorem createFilesystem_eq : createFilesystem g now is1024 =
    (created g now (if is1024 then 1024 else 512) (if is1024 then 5 else 9) (if is1024 then 8 else 16)).toImage :=
  rfl

theorem sizes (is1024 : Bool) :
    Sizes (if is1024 then 1024 else 512) (if is1024 then 5 else 9) (if is1024 then 8 else 16) := by
  cases is1024
  · exact ⟨by decide, by decide, by decide, by decide, by decide⟩
  · exact ⟨by decide, by decide, by decide, by decide, by decide⟩

section

variable (h : Sizes bs superblocks fatBlocks)
include h

theorem toNat_sizes : (UInt16.ofNat bs).toNat = bs ∧ (UInt16.ofNat superblocks).toNat = superblocks ∧
    (UInt16.ofNat fatBlocks).toNat = fatBlocks ∧
    (UInt16.ofNat (superblocks + fatBlocks)).toNat = superblocks + fatBlocks := by
  have hroot : superblocks + fatBlocks < 4096 := h.root_lt
  refine ⟨UInt16.toNat_ofNat_of_lt' h.lt, ?_, ?_, ?_⟩ <;>
  · refine UInt16.toNat_ofNat_of_lt' ?_
    simp only [UInt16.size]
    omega

theorem regions_initial (g : Garbage) (now : Stamp) : (initial g now bs superblocks fatBlocks).Regions := by
  obtain ⟨hbs, hsup, hfat, -⟩ := toNat_sizes h
  constructor
  · show Superblock.sizeof ≤ (UInt16.ofNat superblocks).toNat * (UInt16.ofNat bs).toNat
    rw [hbs, hsup]
    exact h.superblock_le
  · show 2 * numBlocks ≤ (UInt16.ofNat fatBlocks).toNat * (UInt16.ofNat bs).toNat
    rw [hbs, hfat]
    exact h.fat_le

/-- The superblock and the FAT are in the file. -/
theorem stored_created (g : Garbage) (now : Stamp) : (created g now bs superblocks fatBlocks).Stored := by
  obtain ⟨hbs, hsup, hfat, -⟩ := toNat_sizes h
  have hregions := regions_initial h g now
  have h₀ := FileSystem.stored_writeSuperblockAndFat hregions
  -- Everything else is written after them.
  have hstart : (initial g now bs superblocks fatBlocks).dataStart *
      (initial g now bs superblocks fatBlocks).blockSize = (superblocks + fatBlocks) * bs := by
    show ((UInt16.ofNat superblocks).toNat + (UInt16.ofNat fatBlocks).toNat) * (UInt16.ofNat bs).toNat = _
    rw [hbs, hsup, hfat]
  have h₁ := h₀.write (p := (superblocks + fatBlocks) * bs) (n := DirectoryEntry.sizeof)
    (f := lastDirIndicatorEntry.bytes) ⟨hregions.1, hregions.2⟩ hstart.le
  have h₂ := h₁.write (p := (superblocks + fatBlocks) * bs + DirectoryEntry.sizeof)
    (n := bs - DirectoryEntry.sizeof) (f := fun _ => 0) ⟨hregions.1, hregions.2⟩
    (hstart.le.trans (Nat.le_add_right _ _))
  have h₃ := h₂.write (p := (superblocks + fatBlocks) * bs + bs)
    (n := (numBlocks - (superblocks + fatBlocks + 1)) * bs) (f := fun _ => 0)
    ⟨hregions.1, hregions.2⟩ (hstart.le.trans (Nat.le_add_right _ _))
  exact h₃

theorem load_sb (g : Garbage) (now : Stamp) : (created g now bs superblocks fatBlocks).toImage.load.sb =
    createSuperblock g now bs superblocks fatBlocks :=
  (stored_created h g now).superblock

theorem load_fat (g : Garbage) (now : Stamp) (hi : i < numBlocks) :
    (created g now bs superblocks fatBlocks).toImage.load.fat i = createFat g.fat superblocks fatBlocks i := by
  refine Eq.trans ?_ ((stored_created h g now).fat i hi)
  show (created g now bs superblocks fatBlocks).disk.load16
    ((created g now bs superblocks fatBlocks).toImage.load.sb.fatIndex.toNat *
      (created g now bs superblocks fatBlocks).toImage.load.sb.blockSize.toNat + 2 * i) = _
  rw [load_sb h g now]
  rfl

end

/-! ## The FAT of the image -/

/-- The FAT that is meant: the chains of the superblock, the FAT and the root directory, and the
    other blocks free. -/
structure SoundFat (s : FileSystem) : Prop where
  superblock : IsChain s.fat 0 (List.range s.sb.blockNumberForSuperblock.toNat)
  fat : IsChain s.fat s.sb.fatIndex (List.range' s.sb.fatIndex.toNat s.sb.blockNumberForFat.toNat)
  root : IsChain s.fat s.sb.rootDir.firstBlockIndex [s.dataStart]
  empty : ∀ b < numBlocks, s.fat b = fatEntryEmpty ↔ s.dataStart < b
  numFreeBlocks : s.sb.numFreeBlocks.toNat =
    (List.range numBlocks).countP fun b => s.fat b = fatEntryEmpty
  findFreeBlock : ∀ b, s.findFreeBlock = some b → s.dataStart < b

/-- The first block is the end of a chain, while the superblock has several. -/
theorem not_soundFat (g : Garbage) (now : Stamp) (is1024 : Bool) :
    ¬SoundFat (createFilesystem g now is1024).load := by
  intro hsound
  have hs := sizes is1024
  have hchain := hsound.superblock
  rw [createFilesystem_eq, load_sb hs g now] at hchain
  have hzero : (created g now (if is1024 then 1024 else 512) (if is1024 then 5 else 9)
      (if is1024 then 8 else 16)).toImage.load.fat 0 = fatEntryEnd := by
    rw [load_fat hs g now (by decide), createFat_zero (by cases is1024 <;> decide)]
  have hlen : IsChain (created g now (if is1024 then 1024 else 512) (if is1024 then 5 else 9)
      (if is1024 then 8 else 16)).toImage.load.fat 0 [0] := ⟨rfl, by decide, hzero⟩
  have heq := congrArg List.length (hchain.unique hlen)
  rw [List.length_range, List.length_singleton, createSuperblock, (toNat_sizes hs).2.1] at heq
  cases is1024 <;> exact absurd heq (by decide)

/-- Where the memory has held `FAT_ENTRY_EMPTY`, a block of the superblock is the first free one. -/
theorem superblock_handedOut :
    let s := (createFilesystem ⟨fun _ => fatEntryEmpty, 0, 0⟩ ⟨0, 0, 0, 0⟩ false).load
    s.findFreeBlock = some 8 ∧ ¬SoundFat s := by
  intro s
  have hfree : s.findFreeBlock = some 8 := by decide +kernel
  have hstart : s.dataStart = 25 := by decide +kernel
  refine ⟨hfree, fun hsound => ?_⟩
  have hlt := hsound.findFreeBlock 8 hfree
  omega

end GtuOs.FatFileSystem

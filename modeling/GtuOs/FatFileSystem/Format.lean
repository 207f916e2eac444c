import GtuOs.Lib.Memory
import Mathlib.Tactic.IntervalCases

/-!
# The format of the file system

The constants and structures of `utils.h`, and their bytes in the `.data` file: a
directory entry has 32 of them, a superblock 48. `load` reads a structure, `bytes` are the
bytes written for it; either undoes the other.
-/

namespace GtuOs.FatFileSystem

/-- `NUM_BLOCKS`. -/
def numBlocks : ℕ := 4096

/-- `PASSWORD_SIZE`. -/
def passwordSize : ℕ := 11

/-- `FAT_ENTRY_END`. -/
def fatEntryEnd : UInt16 := 0x1111

/-- `FAT_ENTRY_EMPTY`. -/
def fatEntryEmpty : UInt16 := 0x1110

/-! ## Attributes -/

/-- `READ_PERMISSION`. -/
def readPermission : UInt8 := 0x01

/-- `WRITE_PERMISSION`. -/
def writePermission : UInt8 := 0x02

/-- `PASSWORD_ENABLED`. -/
def passwordEnabled : UInt8 := 0x04

/-- `DIRECTORY`. -/
def directory : UInt8 := 0x08

/-- `FILE`. -/
def file : UInt8 := 0x10

/-- `check_attribute`. -/
def checkAttribute (attributes permission : UInt8) : Bool := attributes &&& permission ≠ 0

/-- `set_attribute`. -/
def setAttribute (attributes permission : UInt8) : UInt8 := attributes ||| permission

/-- `remove_attribute`. -/
def removeAttribute (attributes permission : UInt8) : UInt8 := attributes &&& ~~~permission

/-! ## Directory entries -/

/-- `struct directory_entry`. -/
@[ext] structure DirectoryEntry where
  /-- The size of the entry together with its name. -/
  entrySize : UInt32
  isActiveEntry : UInt8
  isLastEntry : UInt8
  attributes : UInt8
  pw : Fin passwordSize → UInt8
  createTime : UInt16
  createDate : UInt16
  updateTime : UInt16
  updateDate : UInt16
  firstBlockIndex : UInt16
  size : UInt32

namespace DirectoryEntry

/-- `sizeof(struct directory_entry)`. -/
def sizeof : ℕ := 32

/-- The entry at `a`. -/
def load (m : Memory) (a : ℕ) : DirectoryEntry where
  entrySize := m.load32 a
  isActiveEntry := m (a + 4)
  isLastEntry := m (a + 5)
  attributes := m (a + 6)
  pw i := m (a + 7 + i)
  createTime := m.load16 (a + 18)
  createDate := m.load16 (a + 20)
  updateTime := m.load16 (a + 22)
  updateDate := m.load16 (a + 24)
  firstBlockIndex := m.load16 (a + 26)
  size := m.load32 (a + 28)

/-- The bytes of an entry. -/
def bytes (e : DirectoryEntry) (k : ℕ) : UInt8 :=
  if k < 4 then Memory.byte32 e.entrySize k
  else if k = 4 then e.isActiveEntry
  else if k = 5 then e.isLastEntry
  else if k = 6 then e.attributes
  else if h : k < 18 then e.pw ⟨k - 7, by simp only [passwordSize]; omega⟩
  else if k < 20 then Memory.byte16 e.createTime (k - 18)
  else if k < 22 then Memory.byte16 e.createDate (k - 20)
  else if k < 24 then Memory.byte16 e.updateTime (k - 22)
  else if k < 26 then Memory.byte16 e.updateDate (k - 24)
  else if k < 28 then Memory.byte16 e.firstBlockIndex (k - 26)
  else Memory.byte32 e.size (k - 28)

variable {m m' : Memory} {a a' : ℕ} {e : DirectoryEntry}

/-- The bytes of the words of an entry. -/
theorem bytes_words {k : ℕ} : (k < 4 → e.bytes k = Memory.byte32 e.entrySize k) ∧
    (k < 2 → e.bytes (18 + k) = Memory.byte16 e.createTime k) ∧
    (k < 2 → e.bytes (20 + k) = Memory.byte16 e.createDate k) ∧
    (k < 2 → e.bytes (22 + k) = Memory.byte16 e.updateTime k) ∧
    (k < 2 → e.bytes (24 + k) = Memory.byte16 e.updateDate k) ∧
    (k < 2 → e.bytes (26 + k) = Memory.byte16 e.firstBlockIndex k) ∧
    (k < 4 → e.bytes (28 + k) = Memory.byte32 e.size k) := by
  refine ⟨fun h => ?_, fun h => ?_, fun h => ?_, fun h => ?_, fun h => ?_, fun h => ?_, fun h => ?_⟩ <;>
    interval_cases k <;> rfl

/-- The byte of a password. -/
theorem bytes_pw (i : Fin passwordSize) : e.bytes (7 + i) = e.pw i := by
  have hi : i.val < 11 := i.isLt
  rw [bytes, if_neg (by omega), if_neg (by omega), if_neg (by omega), if_neg (by omega),
    dif_pos (by omega)]
  congr 1
  exact Fin.ext (Nat.add_sub_cancel_left 7 i)

/-- An entry is read back. -/
theorem load_of_bytes (h : ∀ k < sizeof, m (a + k) = e.bytes k) : load m a = e := by
  have hb : ∀ d k, d + k < sizeof → m (a + d + k) = e.bytes (d + k) := fun d k hk => by
    rw [Nat.add_assoc, h _ hk]
  have hw := @bytes_words e
  have hpw : (load m a).pw = e.pw := by
    funext i
    have hi : i.val < 11 := i.isLt
    exact (hb 7 i (by simp only [sizeof]; omega)).trans (bytes_pw i)
  have hsize : m.load32 a = e.entrySize := Memory.load32_of_bytes fun k hk => by
    rw [h k (by simp only [sizeof]; omega), hw.1 hk]
  have hsize' : m.load32 (a + 28) = e.size := Memory.load32_of_bytes fun k hk => by
    rw [hb 28 k (by simp only [sizeof]; omega), hw.2.2.2.2.2.2 hk]
  have hword : ∀ d v, d + 2 ≤ sizeof → (∀ k < 2, e.bytes (d + k) = Memory.byte16 v k) →
      m.load16 (a + d) = v := fun d v hd hv => Memory.load16_of_bytes fun k hk => by
    rw [hb d k (by omega), hv k hk]
  ext1
  · exact hsize
  · exact h 4 (by decide)
  · exact h 5 (by decide)
  · exact h 6 (by decide)
  · exact hpw
  · exact hword 18 _ (by decide) fun k => hw.2.1
  · exact hword 20 _ (by decide) fun k => hw.2.2.1
  · exact hword 22 _ (by decide) fun k => hw.2.2.2.1
  · exact hword 24 _ (by decide) fun k => hw.2.2.2.2.1
  · exact hword 26 _ (by decide) fun k => hw.2.2.2.2.2.1
  · exact hsize'

/-- The bytes of the entry read. -/
theorem bytes_load {k : ℕ} (hk : k < sizeof) : (load m a).bytes k = m (a + k) := by
  simp only [sizeof] at hk
  simp only [bytes, load]
  split_ifs with h1 h2 h3 h4 h5 h6 h7 h8 h9 h10
  · exact Memory.byte32_load32 h1
  · rw [h2]
  · rw [h3]
  · rw [h4]
  · congr 1
    omega
  all_goals
    first | rw [Memory.byte16_load16 (by omega)] | rw [Memory.byte32_load32 (by omega)]
    congr 1
    omega

end DirectoryEntry

/-! ## The superblock -/

/-- `struct superblock`. -/
@[ext] structure Superblock where
  blockSize : UInt16
  fatIndex : UInt16
  blockNumberForFat : UInt16
  blockNumberForSuperblock : UInt16
  rootDir : DirectoryEntry
  numFiles : UInt16
  numDirs : UInt16
  numFreeBlocks : UInt16
  /-- The two bytes that pad the structure. -/
  padding : UInt16

namespace Superblock

/-- `sizeof(struct superblock)`. -/
def sizeof : ℕ := 48

/-- The superblock at `a`. -/
def load (m : Memory) (a : ℕ) : Superblock where
  blockSize := m.load16 a
  fatIndex := m.load16 (a + 2)
  blockNumberForFat := m.load16 (a + 4)
  blockNumberForSuperblock := m.load16 (a + 6)
  rootDir := .load m (a + 8)
  numFiles := m.load16 (a + 40)
  numDirs := m.load16 (a + 42)
  numFreeBlocks := m.load16 (a + 44)
  padding := m.load16 (a + 46)

/-- The bytes of a superblock. -/
def bytes (sb : Superblock) (k : ℕ) : UInt8 :=
  if k < 2 then Memory.byte16 sb.blockSize k
  else if k < 4 then Memory.byte16 sb.fatIndex (k - 2)
  else if k < 6 then Memory.byte16 sb.blockNumberForFat (k - 4)
  else if k < 8 then Memory.byte16 sb.blockNumberForSuperblock (k - 6)
  else if k < 40 then sb.rootDir.bytes (k - 8)
  else if k < 42 then Memory.byte16 sb.numFiles (k - 40)
  else if k < 44 then Memory.byte16 sb.numDirs (k - 42)
  else if k < 46 then Memory.byte16 sb.numFreeBlocks (k - 44)
  else Memory.byte16 sb.padding (k - 46)

variable {m m' : Memory} {a a' : ℕ} {sb : Superblock}

/-- The bytes of the words of a superblock. -/
theorem bytes_words {k : ℕ} (h : k < 2) : sb.bytes k = Memory.byte16 sb.blockSize k ∧
    sb.bytes (2 + k) = Memory.byte16 sb.fatIndex k ∧
    sb.bytes (4 + k) = Memory.byte16 sb.blockNumberForFat k ∧
    sb.bytes (6 + k) = Memory.byte16 sb.blockNumberForSuperblock k ∧
    sb.bytes (40 + k) = Memory.byte16 sb.numFiles k ∧
    sb.bytes (42 + k) = Memory.byte16 sb.numDirs k ∧
    sb.bytes (44 + k) = Memory.byte16 sb.numFreeBlocks k ∧
    sb.bytes (46 + k) = Memory.byte16 sb.padding k := by
  refine ⟨?_, ?_, ?_, ?_, ?_, ?_, ?_, ?_⟩ <;> interval_cases k <;> rfl

theorem bytes_rootDir {k : ℕ} (h : k < DirectoryEntry.sizeof) :
    sb.bytes (8 + k) = sb.rootDir.bytes k := by
  simp only [DirectoryEntry.sizeof] at h
  rw [bytes, if_neg (by omega), if_neg (by omega), if_neg (by omega), if_neg (by omega),
    if_pos (by omega), Nat.add_sub_cancel_left]

/-- A superblock is read back. -/
theorem load_of_bytes (h : ∀ k < sizeof, m (a + k) = sb.bytes k) : load m a = sb := by
  have hb : ∀ d k, d + k < sizeof → m (a + d + k) = sb.bytes (d + k) := fun d k hk => by
    rw [Nat.add_assoc, h _ hk]
  have hword : ∀ d v, d + 2 ≤ sizeof → (∀ k < 2, sb.bytes (d + k) = Memory.byte16 v k) →
      m.load16 (a + d) = v := fun d v hd hv => Memory.load16_of_bytes fun k hk => by
    rw [hb d k (by omega), hv k hk]
  ext1
  · exact hword 0 _ (by decide) fun k hk => by rw [Nat.zero_add, (bytes_words hk).1]
  · exact hword 2 _ (by decide) fun k hk => (bytes_words hk).2.1
  · exact hword 4 _ (by decide) fun k hk => (bytes_words hk).2.2.1
  · exact hword 6 _ (by decide) fun k hk => (bytes_words hk).2.2.2.1
  · refine DirectoryEntry.load_of_bytes fun k hk => ?_
    have hk' : k < 32 := hk
    rw [hb 8 k (by simp only [sizeof]; omega), bytes_rootDir hk]
  · exact hword 40 _ (by decide) fun k hk => (bytes_words hk).2.2.2.2.1
  · exact hword 42 _ (by decide) fun k hk => (bytes_words hk).2.2.2.2.2.1
  · exact hword 44 _ (by decide) fun k hk => (bytes_words hk).2.2.2.2.2.2.1
  · exact hword 46 _ (by decide) fun k hk => (bytes_words hk).2.2.2.2.2.2.2

/-- The bytes of the superblock read. -/
theorem bytes_load {k : ℕ} (hk : k < sizeof) : (load m a).bytes k = m (a + k) := by
  simp only [sizeof] at hk
  simp only [bytes, load]
  split_ifs with h1 h2 h3 h4 h5 h6 h7 h8
  · exact Memory.byte16_load16 h1
  all_goals
    first
    | rw [Memory.byte16_load16 (by omega)]
    | rw [DirectoryEntry.bytes_load (by simp only [DirectoryEntry.sizeof]; omega)]
    congr 1
    omega

theorem load_congr (h : ∀ k < sizeof, m' (a' + k) = m (a + k)) : load m' a' = load m a :=
  load_of_bytes fun k hk => by rw [h k hk, bytes_load hk]

end Superblock

end GtuOs.FatFileSystem

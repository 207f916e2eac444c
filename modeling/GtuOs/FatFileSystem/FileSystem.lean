import GtuOs.FatFileSystem.Format
import Mathlib.Logic.Function.Basic

/-!
# The file system

`makeFileSystem.c`, `utils.c` and the first functions of `fileSystemOper.c`: the `.data`
file, the superblock and the FAT kept in memory while a command runs, and reading and
writing them. What has no defined behaviour, or does not end, is a `Fault`. System calls
succeed.
-/

namespace GtuOs.FatFileSystem

/-- Why a command has no result. -/
inductive Fault
  /-- An array is indexed outside its bounds. -/
  | index
  /-- Bytes are used that a `read` at the end of the file has not set. -/
  | read
  /-- A string is not terminated. -/
  | string
  /-- The fuel of a loop has run out. -/
  | fuel
  deriving DecidableEq

/-- A string of the command line: its characters, without the terminating 0. -/
structure CString where
  chars : List UInt8
  noNul : 0 ∉ chars

instance : DecidableEq CString := fun s t =>
  decidable_of_iff (s.chars = t.chars) (by cases s; cases t; simp)

/-- The bytes of a string with the terminating 0. -/
def CString.buffer (s : CString) : List UInt8 := s.chars ++ [0]

/-- `strcmp(s, buffer) == 0`, where `[]` is the end of the string `s`. -/
def strcmp : List UInt8 → List UInt8 → Except Fault Bool
  | _, [] => .error .string
  | [], b :: _ => .ok (b = 0)
  | c :: s, b :: buffer => if c = b then strcmp s buffer else .ok false

/-- What a command prints. -/
inductive Message
  /-- `There is not enough capacity` -/
  | notEnoughCapacity
  /-- `No free block found` -/
  | noFreeBlockFound
  /-- `The directory cannot found` -/
  | directoryCannotFound
  /-- `It is not a directory` -/
  | notADirectory
  /-- `It is not a file` -/
  | notAFile
  /-- `Wrong password` -/
  | wrongPassword
  /-- `Invalid mode argument` -/
  | invalidMode
  /-- `Password size cannot be 0 or greater than 10.` -/
  | passwordSize
  /-- `No permission to read` -/
  | noPermissionToRead
  /-- `A name in the path is not a directory`, and `A name in the path is not directory` -/
  | nameNotADirectory
  /-- `The file '%s' in the path does not exist` -/
  | doesNotExist (name : CString)
  /-- `The file does not have write permission` -/
  | noWritePermission
  /-- `The directory already exists` -/
  | alreadyExists
  /-- `Cannot create root directory` -/
  | cannotCreateRoot
  /-- `open`, from `perror` -/
  | open
  deriving DecidableEq

/-- The `.data` file. -/
structure Image where
  disk : Memory
  length : ℕ

/-- The `.data` file, with the superblock and the FAT in memory, and what has been
    printed. -/
@[ext] structure FileSystem extends Image where
  sb : Superblock
  fat : ℕ → UInt16
  printed : List Message

namespace FileSystem

variable (s : FileSystem)

/-- `sb.block_size`. -/
def blockSize : ℕ := s.sb.blockSize.toNat

/-- A `read` of `n` bytes at `offset`. -/
def read (offset n : ℕ) : Except Fault (List UInt8) :=
  if n = 0 ∨ offset + n ≤ s.length then .ok ((List.range n).map fun k => s.disk (offset + k))
  else .error .read

/-- A `write` of `n` bytes at `offset`. -/
def write (offset n : ℕ) (src : ℕ → UInt8) : FileSystem :=
  { s with
    disk := s.disk.store offset n src
    length := if n = 0 then s.length else max s.length (offset + n) }

def print (m : Message) : FileSystem := { s with printed := s.printed ++ [m] }

/-- A `read` of a directory entry. -/
def readEntry (offset : ℕ) : Except Fault DirectoryEntry :=
  if offset + DirectoryEntry.sizeof ≤ s.length then .ok (.load s.disk offset) else .error .read

/-- A `write` of a directory entry. -/
def writeEntry (offset : ℕ) (e : DirectoryEntry) : FileSystem :=
  s.write offset DirectoryEntry.sizeof e.bytes

/-- A `write` of the bytes of a list. -/
def writeList (offset : ℕ) (l : List UInt8) : FileSystem :=
  s.write offset l.length fun k => l.getD k 0

/-- A `write` of the superblock at the start of the file. -/
def writeSuperblock : FileSystem := s.write 0 Superblock.sizeof s.sb.bytes

/-- `fat[i].next_index`. -/
def next (i : UInt16) : Except Fault UInt16 :=
  if i.toNat < numBlocks then .ok (s.fat i.toNat) else .error .index

/-- The bytes of the FAT. -/
def fatBytes (k : ℕ) : UInt8 := Memory.byte16 (s.fat (k / 2)) (k % 2)

/-- `write_superblock_and_fat`, where `fill_remaining_block_with_zero` fills the last block
    of either with zeros. -/
def writeSuperblockAndFat : FileSystem :=
  let fatOffset := s.sb.blockNumberForSuperblock.toNat * s.blockSize
  let s := s.writeSuperblock
  let s := s.write Superblock.sizeof (fatOffset - Superblock.sizeof) fun _ => 0
  let s := s.write fatOffset (2 * numBlocks) s.fatBytes
  s.write (fatOffset + 2 * numBlocks)
    (s.sb.blockNumberForFat.toNat * s.blockSize - 2 * numBlocks) fun _ => 0

/-- `find_free_block`. -/
@[irreducible] def findFreeBlock : Option ℕ := (List.range numBlocks).find? fun i => s.fat i = fatEntryEmpty

/-- Takes the free block `b` as the last one of a chain. -/
def takeBlock (b : ℕ) : FileSystem :=
  { s with
    sb := { s.sb with numFreeBlocks := s.sb.numFreeBlocks - 1 }
    fat := Function.update s.fat b fatEntryEnd }

/-- What is done wherever the chain of the block `cur` has to be continued: the free block
    `b` is taken and linked in. -/
def extend (cur : UInt16) (b : ℕ) : FileSystem :=
  let s := { s with
    sb := { s.sb with numFreeBlocks := s.sb.numFreeBlocks - 1 }
    fat := Function.update s.fat cur.toNat (.ofNat b) }
  let s := { s with fat := Function.update s.fat b fatEntryEnd }
  s.writeSuperblockAndFat

end FileSystem

/-- `load_superblock_and_fat`. -/
def Image.load (image : Image) : FileSystem :=
  let sb := Superblock.load image.disk 0
  { image with
    sb
    fat := fun i => image.disk.load16 (sb.fatIndex.toNat * sb.blockSize.toNat + 2 * i)
    printed := [] }

/-- `create_last_dir_indicator_entry`. -/
def lastDirIndicatorEntry : DirectoryEntry where
  entrySize := 32
  isActiveEntry := 0
  isLastEntry := 1
  attributes := 0
  pw _ := 0
  createTime := 0
  createDate := 0
  updateTime := 0
  updateDate := 0
  firstBlockIndex := 0
  size := 0

/-! ## `create_filesystem` -/

/-- The readings of the clock. -/
structure Stamp where
  createTime : UInt16
  createDate : UInt16
  updateTime : UInt16
  updateDate : UInt16

/-- What the memory returned by `malloc` holds where `create_filesystem` sets nothing. -/
structure Garbage where
  fat : ℕ → UInt16
  isLastEntry : UInt8
  padding : UInt16

/-- The loop `for (int i = start; i < stop; ++i) fat[i].next_index = i + 1`. -/
def linkBlocks (start stop : ℕ) (fat : ℕ → UInt16) : ℕ → UInt16 :=
  fun i => if start ≤ i ∧ i < stop then .ofNat (i + 1) else fat i

/-- The FAT made by `create_filesystem`. The assignments after the loops use the outer `i`,
    which is 0. -/
def createFat (garbage : ℕ → UInt16) (superblocks fatBlocks : ℕ) : ℕ → UInt16 :=
  let fat := linkBlocks 0 (superblocks - 1) garbage
  let fat := Function.update fat 0 fatEntryEnd
  let fat := linkBlocks superblocks (superblocks + fatBlocks - 1) fat
  let fat := Function.update fat 0 fatEntryEnd
  let fat := Function.update fat (superblocks + fatBlocks) fatEntryEnd
  fun i => if superblocks + fatBlocks + 1 ≤ i ∧ i < numBlocks then fatEntryEmpty else fat i

/-- The superblock made by `create_filesystem`. -/
def createSuperblock (garbage : Garbage) (now : Stamp) (blockSize superblocks fatBlocks : ℕ) :
    Superblock where
  blockSize := .ofNat blockSize
  fatIndex := .ofNat superblocks
  blockNumberForFat := .ofNat fatBlocks
  blockNumberForSuperblock := .ofNat superblocks
  rootDir :=
    { entrySize := 32
      isActiveEntry := 1
      isLastEntry := garbage.isLastEntry
      attributes := setAttribute (setAttribute (setAttribute 0 writePermission) readPermission)
        directory
      pw := fun _ => 48
      createTime := now.createTime
      createDate := now.createDate
      updateTime := now.updateTime
      updateDate := now.updateDate
      firstBlockIndex := .ofNat (superblocks + fatBlocks)
      size := 0 }
  numFiles := 0
  numDirs := 1
  numFreeBlocks := .ofNat (numBlocks - (superblocks + fatBlocks + 1))
  padding := garbage.padding

/-- `create_filesystem`, with a block size of 1024 or of 512 bytes. -/
def createFilesystem (garbage : Garbage) (now : Stamp) (is1024 : Bool) : Image :=
  let blockSize := if is1024 then 1024 else 512
  let superblocks := if is1024 then 5 else 9
  let fatBlocks := if is1024 then 8 else 16
  let s : FileSystem :=
    { disk := fun _ => 0
      length := 0
      sb := createSuperblock garbage now blockSize superblocks fatBlocks
      fat := createFat garbage.fat superblocks fatBlocks
      printed := [] }
  let s := s.writeSuperblockAndFat
  let root := (superblocks + fatBlocks) * blockSize
  let s := s.writeEntry root lastDirIndicatorEntry
  let s := s.write (root + DirectoryEntry.sizeof) (blockSize - DirectoryEntry.sizeof) fun _ => 0
  (s.write (root + blockSize) ((numBlocks - (superblocks + fatBlocks + 1)) * blockSize)
    fun _ => 0).toImage

end GtuOs.FatFileSystem

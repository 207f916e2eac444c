import GtuOs.FatFileSystem.Arguments
import GtuOs.FatFileSystem.Decoding

/-!
# The commands

The commands of `fileSystemOper.c`, from the path that `main` has split on. `dir`, `read`, `chmod`
and `addpw` walk to the last name of the path (`traverseDirHelper`); so do `mkdir` and `write`, which
on the way back count the bytes that have been added (`mkdirHelper`).

A path has a name each for the directories on the way. The file of Linux that a command
names is what `open` gives for it, if anything. The clock is read at every name of a path.
-/

namespace GtuOs.FatFileSystem

/-- A file of Linux, with the permissions of its owner. -/
structure LinuxFile where
  content : List UInt8
  isReadable : Bool
  isWritable : Bool

/-- What a command gives its user, besides what it prints about failures. -/
inductive Output
  | none
  | listed (listings : List Listing)
  | copied (linuxFile : LinuxFile)

/-- The command `chmod` or `addpw`, with its argument. -/
inductive Change
  | chmod (mods : CString)
  | addpw (newPwd : CString)

/-- What `traverse_file_or_dir` is called for. -/
inductive Query
  | dir
  | read (pw : Option CString)
  | change (c : Change) (pw : Option CString)

namespace DirectoryEntry

variable (dir : DirectoryEntry)

/-- The array `pw`. -/
def pwBytes : List UInt8 := List.ofFn dir.pw

/-- Whether the password is wrong, or missing. -/
def wrongPassword (pw : Option CString) : Except Fault Bool :=
  if checkAttribute dir.attributes passwordEnabled then
    match pw with
    | none => .ok true
    | some pw => (strcmp pw.chars dir.pwBytes).map not
  else .ok false

/-- The copy of the password in `addpw`. -/
def copyPassword (chmodpwArg : CString) : DirectoryEntry :=
  let len := chmodpwArg.chars.length
  { dir with
    pw := fun i => if i.val < len then chmodpwArg.chars.getD i 0 else if i.val = len then 0 else dir.pw i
    attributes := setAttribute dir.attributes passwordEnabled }

/-- `update_entry_time`. -/
def updateEntryTime (now : Stamp) : DirectoryEntry :=
  { dir with updateTime := now.updateTime, updateDate := now.updateDate }

end DirectoryEntry

namespace Change

/-- The entry that is changed, if the argument is accepted. -/
def apply : Change → DirectoryEntry → Option DirectoryEntry
  | chmod mods, dir => dir.setPermissionGivenFromCommand mods
  | addpw newPwd, dir =>
    if newPwd.chars.length = 0 ∨ newPwd.chars.length > passwordSize - 1 then none
    else some (dir.copyPassword newPwd)

/-- What is printed if it is not. -/
def refusal : Change → Message
  | chmod _ => .invalidMode
  | addpw _ => .passwordSize

end Change

namespace FileSystem

variable (s : FileSystem)

/-! ## Reading a file -/

/-- The loop of `print_file`. The bytes left in the block are not counted. -/
def printFileFrom : ℕ → ℕ → Cursor → Except Fault (List UInt8)
  | 0, _, _ => .error .fuel
  | fuel + 1, size, c =>
    if size = 0 then .ok []
    else if c.remaining = 0 then do
      let next ← s.next c.fatCurIndex
      if next = fatEntryEnd then .ok [] else printFileFrom fuel size (s.seekBlock next)
    else do
      let ch ← s.read c.offset 1
      let rest ← printFileFrom fuel (size - 1) { c with offset := c.offset + 1 }
      .ok (ch ++ rest)

/-- `print_file`: the file of Linux, with the permissions it gets. -/
def printFile (dirEntry : DirectoryEntry) (fuel : ℕ) : Except Fault LinuxFile := do
  let content ← s.printFileFrom fuel dirEntry.size.toNat (s.seekBlock dirEntry.firstBlockIndex)
  .ok ⟨content, checkAttribute dirEntry.attributes readPermission,
    checkAttribute dirEntry.attributes writePermission⟩

/-! ## Traversing -/

/-- `chmod` and `addpw` of the entry `dir` at `offset`. -/
def changeEntry (dir : DirectoryEntry) (offset : ℕ) (c : Change) (pw : Option CString) (now : Stamp) :
    Except Fault FileSystem :=
  if checkAttribute dir.attributes directory then .ok (s.print .notAFile)
  else do
    let wrong ← dir.wrongPassword pw
    if wrong then .ok (s.print .wrongPassword)
    else match c.apply dir with
    | none => .ok (s.print c.refusal)
    | some dir => .ok (s.writeEntry offset (dir.updateEntryTime now))

/-- What `traverse_dir_helper` does with the entry of the last name. -/
def traverseLast (q : Query) (now : Stamp) (fuel : ℕ) (dir : DirectoryEntry) (offset : ℕ) :
    Except Fault (FileSystem × Output) :=
  match q with
  | .dir =>
    if checkAttribute dir.attributes file then .ok (s.print .notADirectory, .none)
    else do
      let listings ← s.printEntriesInDirectory dir fuel
      .ok (s, .listed listings)
  | .read pw =>
    if checkAttribute dir.attributes directory then .ok (s.print .notAFile, .none)
    else do
      let wrong ← dir.wrongPassword pw
      if wrong then .ok (s.print .wrongPassword, .none)
      else if checkAttribute dir.attributes readPermission then do
        let linuxFile ← s.printFile dir fuel
        .ok (s, .copied linuxFile)
      else .ok (s.print .noPermissionToRead, .none)
  | .change c pw => do
    let s ← s.changeEntry dir offset c pw now
    .ok (s, .none)

/-- `traverse_dir_helper`. What it returns is not used. -/
def traverseDirHelper (q : Query) (now : Stamp) (fuel : ℕ) :
    List CString → DirectoryEntry → Except Fault (FileSystem × Output)
  | [], _ => .ok (s.print .directoryCannotFound, .none)
  | name :: path, dirEntry => do
    let found ← s.searchNameInDir dirEntry name fuel
    match found with
    | none => .ok (s.print (.doesNotExist name), .none)
    | some (dir, offset) =>
      if path = [] then s.traverseLast q now fuel dir offset
      else if checkAttribute dir.attributes directory then traverseDirHelper q now fuel path dir
      else .ok (s.print .nameNotADirectory, .none)

end FileSystem

namespace Image

variable (image : Image)

/-- `traverse_file_or_dir`. -/
def traverseFileOrDir (path : List CString) (q : Query) (now : Stamp) (fuel : ℕ) :
    Except Fault (FileSystem × Output) :=
  let s := image.load
  match path with
  | [] => .ok (s, .none)
  | name :: _ =>
    if name.chars = [slash] then
      match q with
      | .dir => do
        let listings ← s.printEntriesInDirectory s.sb.rootDir fuel
        .ok (s, .listed listings)
      | _ => .ok (s, .none)
    else s.traverseDirHelper q now fuel path s.sb.rootDir

/-- `dir_command`. -/
def dirCommand (path : List CString) (now : Stamp) (fuel : ℕ) :=
  image.traverseFileOrDir path .dir now fuel

/-- `read_command`. -/
def readCommand (path : List CString) (pw : Option CString) (now : Stamp) (fuel : ℕ) :=
  image.traverseFileOrDir path (.read pw) now fuel

/-- `chmod_command`. -/
def chmodCommand (path : List CString) (mods : CString) (pw : Option CString) (now : Stamp) (fuel : ℕ) :=
  image.traverseFileOrDir path (.change (.chmod mods) pw) now fuel

/-- `addpw_command`. -/
def addpwCommand (path : List CString) (newPwd : CString) (pw : Option CString) (now : Stamp)
    (fuel : ℕ) :=
  image.traverseFileOrDir path (.change (.addpw newPwd) pw) now fuel

end Image

/-! ## Creating and writing -/

/-- What `mkdir_entry` is called for: a directory, or the file that `open` gives. -/
inductive Target
  | dir
  | file (linuxFile : Option LinuxFile) (pw : Option CString)

/-- The members of a new entry that `mkdir_helper` sets first. -/
def newEntry (name : CString) (now : Stamp) : DirectoryEntry where
  entrySize := .ofNat (DirectoryEntry.sizeof + name.chars.length + 1)
  isActiveEntry := 1
  isLastEntry := 0
  attributes := 0
  pw _ := 0
  createTime := now.createTime
  createDate := now.createDate
  updateTime := now.updateTime
  updateDate := now.updateDate
  firstBlockIndex := 0
  size := 0

namespace DirectoryEntry

/-- The attributes and the size that a file of Linux gives an entry. -/
def describe (newEntry : DirectoryEntry) (linuxFile : LinuxFile) : DirectoryEntry :=
  let attributes := newEntry.attributes
  let attributes := if linuxFile.isReadable then setAttribute attributes readPermission else attributes
  let attributes := if linuxFile.isWritable then setAttribute attributes writePermission else attributes
  { newEntry with size := .ofNat linuxFile.content.length, attributes }

/-- What is kept of the entry `dir` that is overwritten. -/
def overwrite (newEntry dir : DirectoryEntry) : DirectoryEntry :=
  { newEntry with
    isLastEntry := dir.isLastEntry
    pw := dir.pw
    createTime := dir.createTime
    createDate := dir.createDate
    firstBlockIndex := dir.firstBlockIndex }

end DirectoryEntry

namespace FileSystem

variable (s : FileSystem)

/-- The loop of `copy_file_from_linux`, for the bytes that are left. The bytes left in the block are
    not counted. -/
def copyFileFrom : ℕ → FileSystem → List UInt8 → Cursor → Except Fault FileSystem
  | 0, _, _, _ => .error .fuel
  | fuel + 1, s, content, c =>
    match content with
    | [] => .ok s
    | ch :: rest =>
      if c.remaining = 0 then do
        let next ← s.next c.fatCurIndex
        if next = fatEntryEnd then
          match s.findFreeBlock with
          -- The index is -1.
          | none => .error .index
          | some b =>
            let s := s.extend c.fatCurIndex b
            copyFileFrom fuel s content (s.seekBlock next)
        else copyFileFrom fuel s content (s.seekBlock next)
      else copyFileFrom fuel (s.writeList c.offset [ch]) rest { c with offset := c.offset + 1 }

/-- `copy_file_from_linux`: as many bytes as the size of the entry says. -/
def copyFileFromLinux (newEntry : DirectoryEntry) (linuxFile : LinuxFile) (fuel : ℕ) :
    Except Fault FileSystem :=
  copyFileFrom fuel s (linuxFile.content.take newEntry.size.toNat) (s.seekBlock newEntry.firstBlockIndex)

/-- `mkdir_helper` for a new directory. -/
def createDirectory (dirEntry : DirectoryEntry) (name : CString) (now : Stamp) (fuel : ℕ) :
    Except Fault (FileSystem × ℤ) := do
  let newEntry :=
    { newEntry name now with
      attributes := setAttribute (setAttribute (setAttribute 0 readPermission) writePermission) directory }
  let (s, insertion) ← s.addDirEntry dirEntry newEntry name fuel
  match insertion with
  | .failed => .ok (s, -1)
  -- The directory is counted when it is refused, too.
  | _ => .ok ({ s with sb := { s.sb with numDirs := s.sb.numDirs + 1 } }.writeSuperblockAndFat, 0)

/-- `mkdir_helper` for a new file. -/
def createFile (dirEntry : DirectoryEntry) (name : CString) (linuxFile : Option LinuxFile) (now : Stamp)
    (fuel : ℕ) : Except Fault (FileSystem × ℤ) :=
  match linuxFile with
  | none => .ok (s.print .open, 1)
  | some linuxFile => do
    let newEntry := { newEntry name now with attributes := setAttribute 0 file }.describe linuxFile
    let (s, insertion) ← s.addDirEntry dirEntry newEntry name fuel
    match insertion with
    | .inserted newEntry =>
      let s := { s with sb := { s.sb with numFiles := s.sb.numFiles + 1 } }.writeSuperblockAndFat
      let s ← s.copyFileFromLinux newEntry linuxFile fuel
      .ok (s, newEntry.size.toInt32.toInt)
    | _ => .ok (s, -1)

/-- `mkdir_helper` for the entry `dir` at `offset`, which is overwritten. -/
def overwriteFile (dir : DirectoryEntry) (offset : ℕ) (name : CString) (linuxFile : Option LinuxFile)
    (now : Stamp) (fuel : ℕ) : Except Fault (FileSystem × ℤ) :=
  match linuxFile with
  | none => .ok (s.print .open, 1)
  | some linuxFile => do
    let newEntry :=
      ({ newEntry name now with attributes := setAttribute 0 file }.overwrite dir).describe linuxFile
    let s := s.writeEntry offset newEntry
    let s ← s.copyFileFromLinux newEntry linuxFile fuel
    .ok (s, newEntry.size.toInt32.toInt)

/-- What `mkdir_helper` does with the last name of the path. -/
def mkdirLast (target : Target) (now : Stamp) (fuel : ℕ) (dirEntry : DirectoryEntry) (name : CString)
    (found : Option (DirectoryEntry × ℕ)) : Except Fault (FileSystem × ℤ) :=
  match found, target with
  | some _, .dir => .ok (s.print .alreadyExists, 0)
  | some (dir, offset), .file linuxFile pw => do
    let wrong ← dir.wrongPassword pw
    if wrong then .ok (s.print .wrongPassword, -1)
    else if checkAttribute dir.attributes writePermission then
      s.overwriteFile dir offset name linuxFile now fuel
    else .ok (s.print .noWritePermission, 0)
  | none, .dir => s.createDirectory dirEntry name now fuel
  | none, .file linuxFile _ => s.createFile dirEntry name linuxFile now fuel

/-- `mkdir_helper`: -1, or the bytes that have been added. -/
def mkdirHelper (target : Target) (clock : ℕ → Stamp) (fuel : ℕ) :
    ℕ → List CString → DirectoryEntry → Except Fault (FileSystem × ℤ)
  | _, [], _ => .ok (s.print .directoryCannotFound, 0)
  | index, name :: path, dirEntry => do
    let found ← s.searchNameInDir dirEntry name fuel
    if path = [] then s.mkdirLast target (clock index) fuel dirEntry name found
    else match found with
    | none => .ok (s.print (.doesNotExist name), 0)
    | some (dir, offset) =>
      if checkAttribute dir.attributes directory then do
        let (s, res) ← mkdirHelper target clock fuel (index + 1) path dir
        if res = -1 then .ok (s, -1)
        else .ok (s.writeEntry offset
          ({ dir with size := dir.size + UInt32.ofInt res }.updateEntryTime (clock index)), res)
      else .ok (s.print .nameNotADirectory, 0)

end FileSystem

namespace Image

variable (image : Image)

/-- `mkdir_entry`. -/
def mkdirEntry (path : List CString) (target : Target) (clock : ℕ → Stamp) (fuel : ℕ) :
    Except Fault FileSystem :=
  let s := image.load
  match path with
  | [] => .ok s
  | name :: _ =>
    if name.chars = [slash] then .ok (s.print .cannotCreateRoot)
    else do
      let (s, res) ← s.mkdirHelper target clock fuel 0 path s.sb.rootDir
      if res = -1 then .ok s
      else
        let rootDir := { s.sb.rootDir with size := s.sb.rootDir.size + UInt32.ofInt res }
        .ok { s with sb := { s.sb with rootDir } }.writeSuperblock

/-- `mkdir_command`. -/
def mkdirCommand (path : List CString) (clock : ℕ → Stamp) (fuel : ℕ) :=
  image.mkdirEntry path .dir clock fuel

/-- `write_command`. -/
def writeCommand (path : List CString) (linuxFile : Option LinuxFile) (pw : Option CString)
    (clock : ℕ → Stamp) (fuel : ℕ) :=
  image.mkdirEntry path (.file linuxFile pw) clock fuel

end Image

/-! ## More fuel -/

namespace FileSystem

variable {s : FileSystem} {n m : ℕ}

theorem printFileFrom_below (h : n ≤ m) (size : ℕ) (c : Cursor) :
    Below (s.printFileFrom n size c) (s.printFileFrom m size c) := by
  induction h using fuel_induction generalizing size c with
  | zero m => exact .error
  | succ n m _ ih =>
    rw [printFileFrom, printFileFrom]
    exact .ite (fun _ => .refl _) fun _ => .ite
      (fun _ => .bind (.refl _) fun _ => .ite (fun _ => .refl _) fun _ => ih _ _)
      fun _ => .bind (.refl _) fun _ => .bind (ih _ _) fun _ => .refl _

theorem traverseLast_below (h : n ≤ m) (q : Query) (now : Stamp) (dir : DirectoryEntry) (offset : ℕ) :
    Below (s.traverseLast q now n dir offset) (s.traverseLast q now m dir offset) := by
  cases q with
  | dir => exact .ite (fun _ => .refl _) fun _ => .bind (printFrom_below h _) fun _ => .refl _
  | read pw =>
    exact .ite (fun _ => .refl _) fun _ => .bind (.refl _) fun _ => .ite (fun _ => .refl _) fun _ =>
      .ite (fun _ => .bind (.bind (printFileFrom_below h _ _) fun _ => .refl _) fun _ => .refl _) fun _ => .refl _
  | change c pw => exact .refl _

theorem traverseDirHelper_below (h : n ≤ m) (q : Query) (now : Stamp) (path : List CString) (dir : DirectoryEntry) :
    Below (s.traverseDirHelper q now n path dir) (s.traverseDirHelper q now m path dir) := by
  induction path generalizing dir with
  | nil => exact .refl _
  | cons name path ih =>
    rw [traverseDirHelper, traverseDirHelper]
    refine .bind (searchFrom_below h _) fun found => ?_
    rcases found with _ | ⟨dir, offset⟩
    · exact .refl _
    · exact .ite (fun _ => traverseLast_below h q now dir offset) fun _ => .ite (fun _ => ih dir) fun _ => .refl _

theorem copyFileFrom_below (h : n ≤ m) (s : FileSystem) (content : List UInt8) (c : Cursor) :
    Below (copyFileFrom n s content c) (copyFileFrom m s content c) := by
  induction h using fuel_induction generalizing s content c with
  | zero m => exact .error
  | succ n m _ ih =>
    cases content with
    | nil => exact .refl _
    | cons ch rest =>
      rw [copyFileFrom, copyFileFrom]
      refine .ite (fun _ => .bind (.refl _) fun _ => .ite (fun _ => ?_) fun _ => ih _ _ _) fun _ => ih _ _ _
      cases s.findFreeBlock with
      | none => exact .refl _
      | some b => exact ih _ _ _

theorem mkdirLast_below (h : n ≤ m) (target : Target) (now : Stamp) (dirEntry : DirectoryEntry) (name : CString)
    (found : Option (DirectoryEntry × ℕ)) :
    Below (s.mkdirLast target now n dirEntry name found) (s.mkdirLast target now m dirEntry name found) := by
  match found, target with
  | some _, .dir => exact .refl _
  | some (dir, offset), .file linuxFile pw =>
    refine .bind (.refl _) fun _ => .ite (fun _ => .refl _) fun _ => .ite (fun _ => ?_) fun _ => .refl _
    cases linuxFile with
    | none => exact .refl _
    | some linuxFile => exact .bind (copyFileFrom_below h _ _ _) fun _ => .refl _
  | none, .dir => exact .bind (addFrom_below h _ _ _ _) fun _ => .refl _
  | none, .file none _ => exact .refl _
  | none, .file (some linuxFile) _ =>
    refine .bind (addFrom_below h _ _ _ _) fun ⟨s, insertion⟩ => ?_
    cases insertion with
    | inserted e => exact .bind (copyFileFrom_below h _ _ _) fun _ => .refl _
    | refused | failed => exact .refl _

theorem mkdirHelper_below (h : n ≤ m) (target : Target) (clock : ℕ → Stamp) (index : ℕ) (path : List CString)
    (dirEntry : DirectoryEntry) :
    Below (s.mkdirHelper target clock n index path dirEntry) (s.mkdirHelper target clock m index path dirEntry) := by
  induction path generalizing index dirEntry with
  | nil => exact .refl _
  | cons name path ih =>
    rw [mkdirHelper, mkdirHelper]
    refine .bind (searchFrom_below h _) fun found => .ite (fun _ => mkdirLast_below h _ _ _ _ _) fun _ => ?_
    rcases found with _ | ⟨dir, offset⟩
    · exact .refl _
    · exact .ite (fun _ => .bind (ih _ _) fun _ => .refl _) fun _ => .refl _

end FileSystem

namespace Image

variable {n m : ℕ}

theorem traverseFileOrDir_below (h : n ≤ m) (image : Image) (path : List CString) (q : Query) (now : Stamp) :
    Below (image.traverseFileOrDir path q now n) (image.traverseFileOrDir path q now m) := by
  cases path with
  | nil => exact .refl _
  | cons name path =>
    refine .ite (fun _ => ?_) fun _ => FileSystem.traverseDirHelper_below h _ _ _ _
    cases q with
    | dir => exact .bind (FileSystem.printFrom_below h _) fun _ => .refl _
    | read pw | change c pw => exact .refl _

theorem mkdirEntry_below (h : n ≤ m) (image : Image) (path : List CString) (target : Target) (clock : ℕ → Stamp) :
    Below (image.mkdirEntry path target clock n) (image.mkdirEntry path target clock m) := by
  cases path with
  | nil => exact .refl _
  | cons name path =>
    exact .ite (fun _ => .refl _) fun _ => .bind (FileSystem.mkdirHelper_below h _ _ _ _ _) fun _ => .refl _

end Image

end GtuOs.FatFileSystem

import GtuOs.FatFileSystem.Keeping
import GtuOs.Lib.Namespace

/-!
# The commands on namespaces

What the commands are for, without blocks, chains and tables: a namespace of directories and files
(`StoredFile`), which `mkdir`, `write`, `chmod` and `addpw` change at one path, and of which `dir` and `read`
tell (`Serves`). A command is refused without an effect: a query, or a `write` to a file, only where it may not
be answered, or overwritten; a new directory or file may find no place.

Nothing is ever removed, but by a `write` to a directory, which puts a file in its place.
-/

namespace GtuOs.FatFileSystem

/-- The date and the time of day, as an entry has them. -/
structure Moment where
  time : UInt16
  date : UInt16

/-- The time of creation of a stamp. -/
def Stamp.created (now : Stamp) : Moment := ⟨now.createTime, now.createDate⟩

/-- The time of an update of a stamp. -/
def Stamp.updated (now : Stamp) : Moment := ⟨now.updateTime, now.updateDate⟩

/-- A file, as its users know it. -/
structure StoredFile where
  content : List UInt8
  isReadable : Bool
  isWritable : Bool
  /-- The password that is required, if one is. -/
  password : Option (List UInt8)
  created : Moment
  updated : Moment

/-- Directories, with the times of their creation, and files. -/
abbrev Files := Namespace CString Moment StoredFile

namespace StoredFile

/-- The password given, if one is required, is that of the file. -/
def Opens (f : StoredFile) (pw : Option CString) : Prop :=
  ∀ p ∈ f.password, pw.map CString.chars = some p

/-- A file of Linux as a new file. -/
def ofLinux (linuxFile : LinuxFile) (now : Stamp) : StoredFile where
  content := linuxFile.content
  isReadable := linuxFile.isReadable
  isWritable := linuxFile.isWritable
  password := none
  created := now.created
  updated := now.updated

/-- The file of Linux that `read` makes. -/
def toLinux (f : StoredFile) : LinuxFile := ⟨f.content, f.isReadable, f.isWritable⟩

/-- `chmod` gives or takes the permission that the first letter names; a second letter does not matter. -/
def chmod (f : StoredFile) (isPlus : Bool) (letter : UInt8) : Option StoredFile :=
  if letter = letterR then some { f with isReadable := isPlus }
  else if letter = letterW then some { f with isWritable := isPlus }
  else none

/-- `chmod` and `addpw`, if the argument is accepted. -/
def change (f : StoredFile) : Change → Option StoredFile
  | .chmod mods =>
    match mods.chars with
    | [sign, letter] | [sign, letter, _] =>
      if sign = plus then f.chmod true letter else if sign = minus then f.chmod false letter else none
    | _ => none
  | .addpw newPwd =>
    if newPwd.chars.length = 0 ∨ newPwd.chars.length > passwordSize - 1 then none
    else some { f with password := some newPwd.chars }

end StoredFile

/-- The time of creation. -/
def createdAt : Item Moment StoredFile → Moment
  | .dir d => d
  | .file f => f.created

/-- What is there may be overwritten. -/
def Allows (pw : Option CString) : Item Moment StoredFile → Prop
  | .dir _ => True
  | .file f => f.Opens pw ∧ f.isWritable

/-- A listing tells of the item. -/
def Tells (x : Listing) : Item Moment StoredFile → Prop
  | .dir d => x.isFile = false ∧ x.createTime = decodeFatTime d.time ∧ x.createDate = decodeFatDate d.date
  | .file f => x.isFile = true ∧ x.createTime = decodeFatTime f.created.time ∧
    x.createDate = decodeFatDate f.created.date ∧ x.updateTime = decodeFatTime f.updated.time ∧
    x.updateDate = decodeFatDate f.updated.date ∧ x.size.toNat = f.content.length ∧ x.isReadable = f.isReadable ∧
    x.isWritable = f.isWritable ∧ x.passwordProtection = f.password.isSome

/-- The listings are those of the directory at the path: one for each name in it, and no others. -/
structure Lists (ns : Files) (path : List CString) (listings : List Listing) : Prop where
  nodup : (listings.map Listing.fileName).Nodup
  mem_iff : ∀ name : CString, name.chars ∈ listings.map Listing.fileName ↔ (ns (path ++ [name])).isSome
  tells : ∀ x ∈ listings, ∃ name item, x.fileName = name.chars ∧ ns (path ++ [name]) = some item ∧ Tells x item

/-- The query may be answered. -/
def Granted (ns : Files) (path : List CString) : Query → Prop
  | .dir => ∃ d, ns path = some (.dir d)
  | .read pw => ∃ f, ns path = some (.file f) ∧ f.Opens pw ∧ f.isReadable
  | .change c pw => ∃ f, ns path = some (.file f) ∧ f.Opens pw ∧ (f.change c).isSome

/-- What a command does to a namespace, with its output and whether it is accepted. -/
inductive Serves (clock : ℕ → Stamp) : Command → Files → Files → Output → Bool → Prop
  | mkdir {path : List CString} {ns : Files} : path ≠ [] → ns path = none → ns.IsDir path.dropLast →
    Serves clock (.make .dir path) ns (ns.put path (.dir (clock (path.length - 1)).created)) .none true
  | write {path : List CString} {ns : Files} {linuxFile : LinuxFile} {pw : Option CString} : path ≠ [] →
    ns path = none → ns.IsDir path.dropLast →
    Serves clock (.make (.file (some linuxFile) pw) path) ns
      (ns.put path (.file (.ofLinux linuxFile (clock (path.length - 1))))) .none true
  /-- What is overwritten keeps the time of its creation, and no password. -/
  | overwrite {path : List CString} {ns : Files} {linuxFile : LinuxFile} {pw : Option CString}
    {item : Item Moment StoredFile} : ns path = some item → Allows pw item →
    Serves clock (.make (.file (some linuxFile) pw) path) ns
      (ns.put path (.file { StoredFile.ofLinux linuxFile (clock (path.length - 1)) with created := createdAt item })) .none true
  | dir {path : List CString} {ns : Files} {listings : List Listing} : ¬IsRoot path → Granted ns path .dir →
    Lists ns path listings → Serves clock (.ask .dir path) ns ns (.listed listings) true
  | root {path : List CString} {ns : Files} {listings : List Listing} : IsRoot path → Lists ns [] listings →
    Serves clock (.ask .dir path) ns ns (.listed listings) false
  | read {path : List CString} {ns : Files} {f : StoredFile} {pw : Option CString} : ¬IsRoot path →
    ns path = some (.file f) → f.Opens pw → f.isReadable →
    Serves clock (.ask (.read pw) path) ns ns (.copied f.toLinux) true
  | change {path : List CString} {ns : Files} {f f' : StoredFile} {c : Change} {pw : Option CString} : ¬IsRoot path →
    ns path = some (.file f) → f.Opens pw → f.change c = some f' →
    Serves clock (.ask (.change c pw) path) ns (ns.put path (.file { f' with updated := (clock 0).updated })) .none true
  | refused {c : Command} {ns : Files} :
    (∀ q path, c = .ask q path → ¬IsRoot path → ¬Granted ns path q) →
    (∀ linuxFile pw path f, c = .make (.file (some linuxFile) pw) path → ¬IsRoot path → ns path = some (.file f) →
      ¬(f.Opens pw ∧ f.isWritable)) →
    Serves clock c ns ns .none false

/-- The commands on namespaces, from an empty one on. -/
def files : System Files Event where
  init ns := ns = .empty
  step ns e ns' := ∃ accepted, Serves e.clock e.command ns ns' e.output accepted ∧
    (e.command.Goes → (e.printed = [] ↔ accepted))

variable {clock : ℕ → Stamp} {c : Command} {ns ns' : Files} {output : Output} {accepted : Bool}

/-- What is anywhere stays in a directory. -/
theorem Serves.wellFormed (h : Serves clock c ns ns' output accepted) (hns : ns.WellFormed) : ns'.WellFormed := by
  have hne : ∀ {path item}, ns path = some item → path ≠ [] := by
    rintro path item hitem rfl
    cases hitem.symm.trans hns.root
  cases h with
  | mkdir hpath _ hdir => exact hns.put hpath hdir
  | write hpath _ hdir => exact hns.put hpath hdir
  | overwrite hitem _ => exact hns.put (hne hitem) (hns.isDir_dropLast hitem)
  | dir _ _ _ | root _ _ | read _ _ _ _ | refused _ _ => exact hns
  | change _ hf _ _ => exact hns.put (hne hf) (hns.isDir_dropLast hf)

theorem wellFormed_files (h : files.Reachable ns) : ns.WellFormed :=
  h.invariant (by rintro _ rfl; exact Namespace.wellFormed_empty) fun _ _ _ _ hns hstep => by
    obtain ⟨accepted, hserves, -⟩ := hstep
    exact hserves.wellFormed hns

end GtuOs.FatFileSystem

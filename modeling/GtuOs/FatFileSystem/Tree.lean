import GtuOs.FatFileSystem.Reusing
import GtuOs.FatFileSystem.Capacity
import GtuOs.FatFileSystem.Changing

/-!
# The tree of directories

What a file system stores is a tree (`Tree`): the records of the root directory, with the content of
every file and the records of every directory below it. A file system holds a tree
(`Tree.HeldBy`) if the tables and the chains of its directories and files are there. What only
changes other blocks than those of the tree keeps it (`Tree.HeldBy.keeps`).

A path is resolved name by name (`Tree.resolve`), as `search_name_in_dir` does it
(`FileSystem.lookup_of_split`).
-/

namespace GtuOs.FatFileSystem

/-- The records of a directory: a file with its chain and its content, and a directory with its chain and
    the records in it. -/
inductive Tree
  | nil
  | passive (r : Record) (rest : Tree)
  | file (r : Record) (l : List ℕ) (content : List UInt8) (rest : Tree)
  | dir (r : Record) (l : List ℕ) (sub rest : Tree)

/-- What a path leads to. -/
inductive Node
  | file (r : Record) (l : List ℕ) (content : List UInt8)
  | dir (r : Record) (l : List ℕ) (sub : Tree)

/-- The record. -/
def Node.record : Node → Record
  | file r _ _ => r
  | dir r _ _ => r

/-- The chain of its own blocks. -/
def Node.chain : Node → List ℕ
  | file _ l _ => l
  | dir _ l _ => l

/-- The tree with the node before the others. -/
def Node.cons : Node → Tree → Tree
  | file r l content, t => .file r l content t
  | dir r l sub, t => .dir r l sub t

namespace DirectoryEntry

/-- The entry is one of a file. -/
def IsFile (e : DirectoryEntry) : Prop :=
  checkAttribute e.attributes FatFileSystem.file ∧ ¬checkAttribute e.attributes directory

instance (e : DirectoryEntry) : Decidable e.IsFile := inferInstanceAs (Decidable (_ ∧ _))

/-- The entry is one of a directory. -/
def IsDirectory (e : DirectoryEntry) : Prop :=
  checkAttribute e.attributes directory ∧ ¬checkAttribute e.attributes FatFileSystem.file

instance (e : DirectoryEntry) : Decidable e.IsDirectory := inferInstanceAs (Decidable (_ ∧ _))

end DirectoryEntry

namespace Tree

/-- The records of the one after those of the other. -/
def append : Tree → Tree → Tree
  | nil, t => t
  | passive r rest, t => passive r (rest.append t)
  | file r l content rest, t => file r l content (rest.append t)
  | dir r l sub rest, t => dir r l sub (rest.append t)

instance : Append Tree := ⟨append⟩

theorem passive_append (r : Record) (rest t : Tree) : passive r rest ++ t = passive r (rest ++ t) := rfl

theorem file_append (r : Record) (l : List ℕ) (content : List UInt8) (rest t : Tree) :
    file r l content rest ++ t = file r l content (rest ++ t) := rfl

theorem dir_append (r : Record) (l : List ℕ) (sub rest t : Tree) :
    dir r l sub rest ++ t = dir r l sub (rest ++ t) := rfl

/-- The table of the directory. -/
def records : Tree → List Record
  | nil => []
  | passive r rest => r :: rest.records
  | file r _ _ rest => r :: rest.records
  | dir r _ _ rest => r :: rest.records

/-- The blocks of all files and directories. -/
def blocks : Tree → List ℕ
  | nil => []
  | passive _ rest => rest.blocks
  | file _ l _ rest => l ++ rest.blocks
  | dir _ l sub rest => l ++ (sub.blocks ++ rest.blocks)

end Tree

/-- The blocks of the file, or of the directory and everything below it. -/
def Node.blocks : Node → List ℕ
  | file _ l _ => l
  | dir _ l sub => l ++ sub.blocks

namespace Tree

variable {t t₁ t₂ : Tree} {name : CString}

theorem records_append (t₁ t₂ : Tree) : (t₁ ++ t₂).records = t₁.records ++ t₂.records := by
  induction t₁ with
  | nil => rfl
  | passive r rest ih => exact congrArg (r :: ·) ih
  | file r _ _ rest ih => exact congrArg (r :: ·) ih
  | dir r _ _ rest _ ih => exact congrArg (r :: ·) ih

theorem blocks_append (t₁ t₂ : Tree) : (t₁ ++ t₂).blocks = t₁.blocks ++ t₂.blocks := by
  induction t₁ with
  | nil => rfl
  | passive r rest ih => exact ih
  | file r l _ rest ih => rw [file_append, blocks, blocks, ih, List.append_assoc]
  | dir r l sub rest _ ih => rw [dir_append, blocks, blocks, ih, List.append_assoc, List.append_assoc]

theorem records_split (t₁ : Tree) (n : Node) (t₂ : Tree) :
    (t₁ ++ n.cons t₂).records = t₁.records ++ n.record :: t₂.records := by
  rw [records_append]
  cases n <;> rfl

theorem blocks_split (t₁ : Tree) (n : Node) (t₂ : Tree) :
    (t₁ ++ n.cons t₂).blocks = t₁.blocks ++ (n.blocks ++ t₂.blocks) := by
  rw [blocks_append]
  cases n with
  | file r l content => rfl
  | dir r l sub => rw [Node.cons, blocks, Node.blocks, List.append_assoc]

/-- The blocks of a node are some of those of its table. -/
theorem blocks_sublist_split (t₁ : Tree) (n : Node) (t₂ : Tree) : n.blocks.Sublist (t₁ ++ n.cons t₂).blocks := by
  rw [blocks_split]
  exact (List.sublist_append_left _ _).trans (List.sublist_append_right _ _)

/-- Where a node is replaced, no other blocks come in but its own. -/
theorem blocks_replace {P : ℕ → Prop} {n n' : Node} {b : ℕ} (h : ∀ b ∈ n'.blocks, b ∈ n.blocks ∨ P b)
    (hb : b ∈ (t₁ ++ n'.cons t₂).blocks) : b ∈ (t₁ ++ n.cons t₂).blocks ∨ P b := by
  rw [blocks_split] at hb ⊢
  rcases List.mem_append.1 hb with hb | hb
  · exact .inl (List.mem_append_left _ hb)
  rcases List.mem_append.1 hb with hb | hb
  · exact (h b hb).imp_left fun hb => List.mem_append_right _ (List.mem_append_left _ hb)
  · exact .inl (List.mem_append_right _ (List.mem_append_right _ hb))

/-! ## All nodes -/

/-- The files and directories, at any depth, are such. -/
def All (P : Node → Prop) : Tree → Prop
  | nil => True
  | passive _ rest => rest.All P
  | file r l content rest => P (.file r l content) ∧ rest.All P
  | dir r l sub rest => P (.dir r l sub) ∧ sub.All P ∧ rest.All P

end Tree

/-- The node, and those below it, are such. -/
def Node.All (P : Node → Prop) : Node → Prop
  | file r l content => P (.file r l content)
  | dir r l sub => P (.dir r l sub) ∧ sub.All P

namespace Tree

variable {P : Node → Prop} {t t₁ t₂ : Tree} {name : CString}

theorem all_append : (t₁ ++ t₂).All P ↔ t₁.All P ∧ t₂.All P := by
  induction t₁ with
  | nil => exact ⟨fun h => ⟨trivial, h⟩, fun h => h.2⟩
  | passive r rest ih => exact ih
  | file r l content rest ih => rw [file_append, All, All, ih, and_assoc]
  | dir r l sub rest _ ih => rw [dir_append, All, All, ih, and_assoc, and_assoc]

theorem all_split {n : Node} : (t₁ ++ n.cons t₂).All P ↔ t₁.All P ∧ n.All P ∧ t₂.All P := by
  rw [all_append]
  cases n with
  | file r l content => rfl
  | dir r l sub => rw [Node.cons, All, Node.All, and_assoc]

/-! ## Names -/

/-- What the name stands for. -/
def find (name : CString) : Tree → Option Node
  | nil => none
  | passive _ rest => rest.find name
  | file r l content rest => if r.IsFor name then some (.file r l content) else rest.find name
  | dir r l sub rest => if r.IsFor name then some (.dir r l sub) else rest.find name

/-- What a path leads to. -/
def resolve : List CString → Tree → Option Node
  | [], _ => none
  | [name], t => t.find name
  | name :: name' :: path, t =>
    match t.find name with
    | some (.dir _ _ sub) => sub.resolve (name' :: path)
    | _ => none

theorem find_append (name : CString) (t₁ t₂ : Tree) :
    (t₁ ++ t₂).find name = (t₁.find name).or (t₂.find name) := by
  induction t₁ with
  | nil => rfl
  | passive r rest ih => exact ih
  | file r l content rest ih =>
    rw [file_append, find, find]
    split_ifs
    · rfl
    · exact ih
  | dir r l sub rest _ ih =>
    rw [dir_append, find, find]
    split_ifs
    · rfl
    · exact ih

/-- The first record with the name. -/
theorem exists_of_find {n : Node} (h : t.find name = some n) :
    ∃ t₁ t₂, t = t₁ ++ n.cons t₂ ∧ t₁.find name = none ∧ n.record.IsFor name := by
  induction t with
  | nil => nomatch h
  | passive r rest ih =>
    obtain ⟨t₁, t₂, rfl, hnone, hfor⟩ := ih h
    exact ⟨passive r t₁, t₂, rfl, hnone, hfor⟩
  | file r l content rest ih =>
    rw [find] at h
    split_ifs at h with hr
    · obtain rfl := Option.some.inj h
      exact ⟨nil, rest, rfl, rfl, hr⟩
    · obtain ⟨t₁, t₂, rfl, hnone, hfor⟩ := ih h
      exact ⟨file r l content t₁, t₂, rfl, by rw [find, if_neg hr, hnone], hfor⟩
  | dir r l sub rest _ ih =>
    rw [find] at h
    split_ifs at h with hr
    · obtain rfl := Option.some.inj h
      exact ⟨nil, rest, rfl, rfl, hr⟩
    · obtain ⟨t₁, t₂, rfl, hnone, hfor⟩ := ih h
      exact ⟨dir r l sub t₁, t₂, rfl, by rw [find, if_neg hr, hnone], hfor⟩

theorem find_cons {n : Node} (h : n.record.IsFor name) (t : Tree) : (n.cons t).find name = some n := by
  cases n with
  | file r l content => exact if_pos h
  | dir r l sub => exact if_pos h

theorem find_split {n : Node} (h : t₁.find name = none) (hn : n.record.IsFor name) (t₂ : Tree) :
    (t₁ ++ n.cons t₂).find name = some n := by
  rw [find_append, h, find_cons hn]
  rfl

/-- What leads on from a path is a directory. -/
theorem resolve_cons (name : CString) {path : List CString} (hpath : path ≠ []) {n : Node} :
    t.resolve (name :: path) = some n ↔ ∃ r l sub, t.find name = some (.dir r l sub) ∧ sub.resolve path = some n := by
  obtain ⟨name', path, rfl⟩ := List.exists_cons_of_ne_nil hpath
  rw [resolve]
  constructor
  · intro h
    cases hfind : t.find name with
    | none =>
      rw [hfind] at h
      nomatch h
    | some m =>
      rw [hfind] at h
      cases m with
      | file r l content => nomatch h
      | dir r l sub => exact ⟨r, l, sub, rfl, h⟩
  · rintro ⟨r, l, sub, hfind, h⟩
    rw [hfind]
    exact h

/-- In a directory on the path. -/
theorem resolve_inside {path : List CString} {r : Record} {l : List ℕ} {sub : Tree} (hpath : path ≠ []) (hnone : t₁.find name = none)
    (hfor : r.IsFor name) : (t₁ ++ (Node.dir r l sub).cons t₂).resolve (name :: path) = sub.resolve path := by
  obtain ⟨name', path, rfl⟩ := List.exists_cons_of_ne_nil hpath
  have hfind : (t₁ ++ (Node.dir r l sub).cons t₂).find name = some (.dir r l sub) :=
    find_split (n := .dir r l sub) hnone hfor t₂
  rw [resolve, hfind]

theorem All.find {n : Node} (h : t.All P) (hfind : t.find name = some n) : n.All P := by
  obtain ⟨t₁, t₂, rfl, -⟩ := exists_of_find hfind
  exact (all_split.1 h).2.1

theorem All.resolve {path : List CString} {n : Node} (h : t.All P) (hres : t.resolve path = some n) : n.All P := by
  induction path generalizing t with
  | nil => nomatch hres
  | cons name path ih =>
    rcases eq_or_ne path [] with rfl | hpath
    · exact h.find hres
    · obtain ⟨r, l, sub, hfind, hsub⟩ := (resolve_cons name hpath).1 hres
      exact ih (h.find hfind).2 hsub

end Tree

/-! ## The tree in the file -/

namespace FileSystem

variable {s s' : FileSystem} {r : Record} {l : List ℕ} {content : List UInt8} {rs : List Record} {B : Set ℕ}

/-- The record is one of a file, with this chain and content. -/
structure StoresFile (s : FileSystem) (r : Record) (l : List ℕ) (content : List UInt8) : Prop where
  active : r.Active
  name_eq : r.name = r.string ++ [0]
  isFile : r.entry.IsFile
  hasPassword : r.entry.HasPassword
  chained : s.Chained r.entry.firstBlockIndex l
  ne_nil : l ≠ []
  length_eq : content.length = r.entry.size.toNat
  length_le : content.length ≤ l.length * s.blockSize
  content_eq : ∀ k < content.length, s.content l k = content.getD k 0

/-- The record is one of a directory, with this chain and table. -/
structure StoresDir (s : FileSystem) (r : Record) (l : List ℕ) (rs : List Record) : Prop where
  active : r.Active
  name_eq : r.name = r.string ++ [0]
  isDirectory : r.entry.IsDirectory
  hasPassword : r.entry.HasPassword
  table : s.Table r.entry.firstBlockIndex l rs

theorem StoresFile.keeps (h : s.StoresFile r l content) (hk : s.Keeps s' B)
    (hl : ∀ b ∈ l, s.dataStart ≤ b ∧ b ∉ B) : s'.StoresFile r l content :=
  { h with
    chained := hk.chained h.chained fun b hb => (hl b hb).2
    length_le := by
      rw [hk.blockSize_eq]
      exact h.length_le
    content_eq := fun k hlt => (hk.content hl (lt_of_lt_of_le hlt h.length_le)).trans (h.content_eq k hlt) }

theorem StoresDir.keeps (h : s.StoresDir r l rs) (hk : s.Keeps s' B)
    (hl : ∀ b ∈ l, s.dataStart ≤ b ∧ b ∉ B) : s'.StoresDir r l rs :=
  { h with table := hk.table h.table hl }

end FileSystem

namespace Tree

variable {s s' : FileSystem} {t t₁ t₂ : Tree} {B : Set ℕ} {b : ℕ} {name : CString}

/-- The file system `s` holds the tree. -/
def HeldBy (s : FileSystem) : Tree → Prop
  | nil => True
  | passive r rest => ¬r.Active ∧ rest.HeldBy s
  | file r l content rest => s.StoresFile r l content ∧ rest.HeldBy s
  | dir r l sub rest => s.StoresDir r l sub.records ∧ sub.HeldBy s ∧ rest.HeldBy s

theorem heldBy_append : (t₁ ++ t₂).HeldBy s ↔ t₁.HeldBy s ∧ t₂.HeldBy s := by
  induction t₁ with
  | nil => exact ⟨fun h => ⟨trivial, h⟩, fun h => h.2⟩
  | passive r rest ih => rw [passive_append, HeldBy, HeldBy, ih, and_assoc]
  | file r l content rest ih => rw [file_append, HeldBy, HeldBy, ih, and_assoc]
  | dir r l sub rest _ ih => rw [dir_append, HeldBy, HeldBy, ih, and_assoc, and_assoc]

end Tree

/-- The file system `s` holds the file or directory. -/
def Node.HeldBy (s : FileSystem) : Node → Prop
  | file r l content => s.StoresFile r l content
  | dir r l sub => s.StoresDir r l sub.records ∧ sub.HeldBy s

namespace Node

variable {s : FileSystem} {n : Node}

theorem HeldBy.hasPassword (h : n.HeldBy s) : n.record.entry.HasPassword := by
  cases n with
  | file r l content => exact FileSystem.StoresFile.hasPassword h
  | dir r l sub => exact h.1.hasPassword

theorem HeldBy.name_eq (h : n.HeldBy s) : n.record.name = n.record.string ++ [0] := by
  cases n with
  | file r l content => exact FileSystem.StoresFile.name_eq h
  | dir r l sub => exact h.1.name_eq

theorem HeldBy.chained (h : n.HeldBy s) : s.Chained n.record.entry.firstBlockIndex n.chain := by
  cases n with
  | file r l content => exact FileSystem.StoresFile.chained h
  | dir r l sub => exact h.1.table.chained

theorem HeldBy.ne_nil (h : n.HeldBy s) : n.chain ≠ [] := by
  cases n with
  | file r l content => exact FileSystem.StoresFile.ne_nil h
  | dir r l sub => exact h.1.table.ne_nil

theorem chain_sublist (n : Node) : n.chain.Sublist n.blocks := by
  cases n with
  | file r l content => exact .refl _
  | dir r l sub => exact List.sublist_append_left _ _

end Node

namespace Tree

variable {s s' : FileSystem} {t t₁ t₂ : Tree} {B : Set ℕ} {b : ℕ} {name : CString}

theorem heldBy_split {n : Node} : (t₁ ++ n.cons t₂).HeldBy s ↔ t₁.HeldBy s ∧ n.HeldBy s ∧ t₂.HeldBy s := by
  rw [heldBy_append]
  cases n with
  | file r l content => rfl
  | dir r l sub => rw [Node.cons, HeldBy, Node.HeldBy, and_assoc]

namespace HeldBy

/-- A tree is kept with its blocks. -/
theorem keeps (h : t.HeldBy s) (hk : s.Keeps s' B) (ht : ∀ b ∈ t.blocks, s.dataStart ≤ b ∧ b ∉ B) :
    t.HeldBy s' := by
  induction t with
  | nil => trivial
  | passive r rest ih => exact ⟨h.1, ih h.2 ht⟩
  | file r l content rest ih =>
    exact ⟨h.1.keeps hk fun b hb => ht b (List.mem_append_left _ hb),
      ih h.2 fun b hb => ht b (List.mem_append_right _ hb)⟩
  | dir r l sub rest ihsub ih =>
    exact ⟨h.1.keeps hk fun b hb => ht b (List.mem_append_left _ hb),
      ihsub h.2.1 fun b hb => ht b (List.mem_append_right _ (List.mem_append_left _ hb)),
      ih h.2.2 fun b hb => ht b (List.mem_append_right _ (List.mem_append_right _ hb))⟩

/-- The blocks of a tree are taken. -/
theorem ne_empty (h : t.HeldBy s) (hb : b ∈ t.blocks) : b < numBlocks ∧ s.fat b ≠ fatEntryEmpty := by
  have hchain : ∀ {i l}, s.Chained i l → b ∈ l → b < numBlocks ∧ s.fat b ≠ fatEntryEmpty :=
    fun hc hb => ⟨hc.isChain.lt b hb, hc.isChain.ne_empty hb⟩
  induction t with
  | nil => nomatch hb
  | passive r rest ih => exact ih h.2 hb
  | file r l content rest ih => exact (List.mem_append.1 hb).elim (hchain h.1.chained) (ih h.2)
  | dir r l sub rest ihsub ih =>
    rcases List.mem_append.1 hb with hb | hb
    · exact hchain h.1.table.chained hb
    · exact (List.mem_append.1 hb).elim (ihsub h.2.1) (ih h.2.2)

/-- What holds of all that is held. -/
theorem all {P : Node → Prop} (h : t.HeldBy s) (hP : ∀ n : Node, n.HeldBy s → P n) : t.All P := by
  induction t with
  | nil => trivial
  | passive r rest ih => exact ih h.2
  | file r l content rest ih => exact ⟨hP _ h.1, ih h.2⟩
  | dir r l sub rest ihsub ih => exact ⟨hP (.dir r l sub) ⟨h.1, h.2.1⟩, ihsub h.2.1, ih h.2.2⟩

/-- The names of a table are those of the tree. -/
theorem find_eq_none_iff (h : t.HeldBy s) : t.find name = none ↔ ∀ r ∈ t.records, ¬r.IsFor name := by
  induction t with
  | nil => simp [find, records]
  | passive r rest ih =>
    have hr : ¬r.IsFor name := fun hr => h.1 hr.1
    rw [find, records, ih h.2, List.forall_mem_cons, and_iff_right hr]
  | file r l content rest ih =>
    rw [find, records, List.forall_mem_cons, ← ih h.2]
    by_cases hr : r.IsFor name <;> simp [hr]
  | dir r l sub rest _ ih =>
    rw [find, records, List.forall_mem_cons, ← ih h.2.2]
    by_cases hr : r.IsFor name <;> simp [hr]

theorem resolve {path : List CString} {n : Node} (h : t.HeldBy s) (hres : t.resolve path = some n) :
    n.HeldBy s := by
  induction path generalizing t with
  | nil => nomatch hres
  | cons name path ih =>
    have hfind : ∀ {m}, t.find name = some m → m.HeldBy s := fun hfind => by
      obtain ⟨t₁, t₂, rfl, -⟩ := exists_of_find hfind
      exact (heldBy_split.1 h).2.1
    rcases eq_or_ne path [] with rfl | hpath
    · exact hfind hres
    · obtain ⟨r, l, sub, hdir, hsub⟩ := (resolve_cons name hpath).1 hres
      exact ih (hfind hdir).2 hsub

end HeldBy

end Tree

namespace FileSystem

variable {s : FileSystem} {l : List ℕ} {p : ℕ} {rs rs' : List Record} {name : CString} {t t₁ t₂ : Tree}

theorem lookup_append (h : ∀ r ∈ rs, ¬r.IsFor name) :
    s.lookup l p (rs ++ rs') name = s.lookup l (endOf s.blockSize p rs) rs' name := by
  induction rs generalizing p with
  | nil => rfl
  | cons r rs ih =>
    rw [List.cons_append, lookup_cons_of_neg (h r List.mem_cons_self),
      ih fun r hr => h r (List.mem_cons_of_mem _ hr)]
    rfl

/-- A name that is not in the tree is not found. -/
theorem lookup_of_find_none (ht : t.HeldBy s) (h : t.find name = none) :
    s.lookup l p t.records name = none := by
  rw [← List.append_nil t.records, lookup_append (ht.find_eq_none_iff.1 h)]
  rfl

/-- A name that is in the tree is found. -/
theorem lookup_of_split {n : Node} {u : Tree} (ht : t₁.HeldBy s) (h : t₁.find name = none)
    (hn : n.record.IsFor name) : s.lookup l p (t₁ ++ n.cons u).records name = some (n.record.entry,
      Memory.blockAddr s.blockSize l (slot s.blockSize (endOf s.blockSize p t₁.records))) := by
  rw [Tree.records_append, lookup_append (ht.find_eq_none_iff.1 h)]
  cases n with
  | file r l content => exact lookup_cons_of_pos hn
  | dir r l sub => exact lookup_cons_of_pos hn

end FileSystem

end GtuOs.FatFileSystem

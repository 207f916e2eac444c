import GtuOs.FatFileSystem.Starting

/-!
# What becomes of files and directories

A command on a path changes what is at the end of it, and what is below a directory that is
overwritten is lost. Everything else stays where it is: a directory is still one, and a file has its
content, and its record but for the flag of the last one (`Moves.fate`).

What a path leads to is found name by name, through `search_name_in_dir` (`FileSystem.Resolves`);
where there is a tree, that is what the path leads to in it (`FileSystem.HasTree.resolves_iff`).
-/

namespace GtuOs.FatFileSystem

/-- A directory that is still one, and a file as it has been. -/
inductive Node.Stays : Node → Node → Prop
  | file {r r' : Record} {l : List ℕ} {content : List UInt8} : r' = r ∨ r' = r.unflag →
    Stays (.file r l content) (.file r' l content)
  | dir {r r' : Record} {l : List ℕ} {sub sub' : Tree} : Stays (.dir r l sub) (.dir r' l sub')

theorem Node.Stays.refl (n : Node) : n.Stays n := by
  cases n with
  | file r l content => exact .file (.inl rfl)
  | dir r l sub => exact .dir

theorem Node.Stays.unflag (n : Node) : n.Stays n.unflag := by
  cases n with
  | file r l content => exact .file (.inr rfl)
  | dir r l sub => exact .dir

/-- What becomes of the node `n`, to which the path `p` leads in `t`, where a command on the path `q`
    makes `t'` of `t`, and changes what is at the end of `q` by `P`. -/
inductive Fate (P : Node → Node → Prop) (t t' : Tree) (q : List CString) : List CString → Node → Prop
  | stays {p : List CString} {n n' : Node} : t'.resolve p = some n' → n.Stays n' → Fate P t t' q p n
  | ends {n n' : Node} : t.resolve q = some n → t'.resolve q = some n' → P n n' → Fate P t t' q q n
  /-- The directory at the end of `q` is changed as a whole. -/
  | below {p : List CString} {n d' : Node} {r : Record} {l : List ℕ} {sub : Tree} : p ≠ [] →
    t.resolve q = some (.dir r l sub) → t'.resolve q = some d' → P (.dir r l sub) d' →
    Fate P t t' q (q ++ p) n

/-- A record has one name. -/
theorem Record.IsFor.unique {r : Record} {name name' : CString} (h : r.IsFor name) (h' : r.IsFor name') :
    name = name' := by
  obtain ⟨chars, noNul⟩ := name
  obtain ⟨chars', noNul'⟩ := name'
  obtain rfl : chars = chars' := h.2.symm.trans h'.2
  rfl

namespace Tree

variable {t t' t₁ t₂ : Tree} {name name' : CString} {n n₀ n' : Node} {p path : List CString}
  {P : Node → Node → Prop} {k : ℕ} {touch : ℕ → Record → Record}

/-! ## Paths -/

/-- Where a path leads depends on its first name. -/
theorem resolve_congr (h : t'.find name = t.find name) : t'.resolve (name :: path) = t.resolve (name :: path) := by
  cases path with
  | nil => exact h
  | cons name' path => rw [resolve, resolve, h]

theorem find_cons_of_neg (h : ¬n.record.IsFor name) (t : Tree) : (n.cons t).find name = t.find name := by
  cases n with
  | file r l content => exact if_neg h
  | dir r l sub => exact if_neg h

/-- Another name is not concerned. -/
theorem find_replace (hn : n.record.IsFor name) (hn' : n'.record.IsFor name) (hne : name' ≠ name) :
    (t₁ ++ n'.cons t₂).find name' = (t₁ ++ n.cons t₂).find name' := by
  rw [find_append, find_append, find_cons_of_neg fun h => hne (h.unique hn'),
    find_cons_of_neg fun h => hne (h.unique hn)]

/-- What is at the end of the path, before and after. -/
theorem ends_of_along {Q : List CString → Tree → Tree → Prop} {R : Option Node → Option Node → Prop}
    (halong : Along touch Q k path t t') (htouch : ∀ k r name, r.IsFor name → (touch k r).IsFor name)
    (hQ : ∀ path t t', Q path t t' → R (t.resolve path) (t'.resolve path)) :
    R (t.resolve path) (t'.resolve path) := by
  induction halong with
  | here hq => exact hQ _ _ _ hq
  | inside hpath hnone hfor _ ih =>
    rw [resolve_inside hpath hnone hfor, resolve_inside hpath hnone (htouch _ _ _ hfor)]
    exact ih

/-! ## Fates -/

/-- Where a node is replaced. -/
theorem fate_replace (hnone : t₁.find name = none) (hn₀ : n₀.record.IsFor name) (hn' : n'.record.IsFor name)
    (hP : P n₀ n') (hres : (t₁ ++ n₀.cons t₂).resolve p = some n) :
    Fate P (t₁ ++ n₀.cons t₂) (t₁ ++ n'.cons t₂) [name] p n := by
  have hbefore : (t₁ ++ n₀.cons t₂).resolve [name] = some n₀ := find_split hnone hn₀ t₂
  have hafter : (t₁ ++ n'.cons t₂).resolve [name] = some n' := find_split hnone hn' t₂
  cases p with
  | nil => cases hres
  | cons name' p =>
    by_cases hname : name' = name
    · subst hname
      rcases eq_or_ne p [] with rfl | hp
      · obtain rfl := Option.some.inj (hbefore.symm.trans hres)
        exact .ends hbefore hafter hP
      · obtain ⟨r, l, sub, hdir, -⟩ := (resolve_cons name' hp).1 hres
        obtain rfl := Option.some.inj (hbefore.symm.trans hdir)
        exact .below hp hbefore hafter hP
    · exact .stays ((resolve_congr (find_replace hn₀ hn' hname)).trans hres) (.refl n)

/-- Where a node is added. -/
theorem fate_add {q : List CString} (t₂ : Tree) (hres : t.resolve p = some n) : Fate P t (t.kept ++ t₂) q p n := by
  have hfind : ∀ {name m}, t.find name = some m → (t.kept ++ t₂).find name = some m.unflag := fun h => by
    rw [find_append, find_kept, h]
    rfl
  cases p with
  | nil => cases hres
  | cons name p =>
    rcases eq_or_ne p [] with rfl | hp
    · exact .stays (hfind hres) (.unflag n)
    · obtain ⟨r, l, sub, hdir, hsub⟩ := (resolve_cons name hp).1 hres
      exact .stays ((resolve_cons name hp).2 ⟨r.unflag, l, sub, hfind hdir, hsub⟩) (.refl n)

/-- Along the path. The induction is on the path, and carries the fates below the directory that it
    leads into. -/
theorem fate_of_along {Q : List CString → Tree → Tree → Prop} (halong : Along touch Q k path t t')
    (htouch : ∀ k r name, r.IsFor name → (touch k r).IsFor name)
    (hQ : ∀ path t t', Q path t t' → ∀ p n, t.resolve p = some n → Fate P t t' path p n)
    (hres : t.resolve p = some n) : Fate P t t' path p n := by
  induction halong generalizing p n with
  | here hq => exact hQ _ _ _ hq _ _ hres
  | @inside k name path r l sub sub' t₁ t₂ hpath hnone hfor _ ih =>
    have hfor' := htouch k r name hfor
    cases p with
    | nil => cases hres
    | cons name' p =>
      by_cases hname : name' = name
      swap
      · have hother : (t₁ ++ (Node.dir (touch k r) l sub').cons t₂).find name' =
            (t₁ ++ (Node.dir r l sub).cons t₂).find name' := find_replace (n := .dir r l sub) hfor hfor' hname
        exact .stays ((resolve_congr hother).trans hres) (.refl n)
      subst hname
      rcases eq_or_ne p [] with rfl | hp
      · -- The directory itself, which is touched.
        have hdir : (t₁ ++ (Node.dir r l sub).cons t₂).resolve [name'] = some (.dir r l sub) :=
          find_split (n := .dir r l sub) hnone hfor t₂
        obtain rfl := Option.some.inj (hdir.symm.trans hres)
        exact .stays (find_split (n := .dir (touch k r) l sub') hnone hfor' t₂) .dir
      · rw [resolve_inside hp hnone hfor] at hres
        cases ih hres with
        | stays h hstays => exact .stays ((resolve_inside hp hnone hfor').trans h) hstays
        | ends h h' hP =>
          exact .ends ((resolve_inside hp hnone hfor).trans h) ((resolve_inside hp hnone hfor').trans h') hP
        | below hne h h' hP =>
          exact .below hne ((resolve_inside hpath hnone hfor).trans h) ((resolve_inside hpath hnone hfor').trans h') hP

end Tree

/-! ## Commands -/

/-- What an accepted command makes of what is at the end of its path. -/
inductive Edits (now : Stamp) : Command → Node → Node → Prop
  | overwritten {path : List CString} {n : Node} {r' : Record} {linuxFile : LinuxFile} {pw : Option CString} :
    n.record.entry.Opens pw → checkAttribute n.record.entry.attributes writePermission →
    Edits now (.make (.file (some linuxFile) pw) path) n (.file r' n.chain linuxFile.content)
  | changed {path : List CString} {r r' : Record} {l : List ℕ} {content : List UInt8} {c : Change}
    {pw : Option CString} {e' : DirectoryEntry} : r.entry.Opens pw → c.apply r.entry = some e' →
    r'.entry = e'.updateEntryTime now →
    Edits now (.ask (.change c pw) path) (.file r l content) (.file r' l content)

/-- The touch does not change the name. -/
theorem Record.IsFor.mkdirTouch {r : Record} {name : CString} (h : r.IsFor name) (res : ℤ) (clock : ℕ → Stamp)
    (k : ℕ) : (mkdirTouch res clock k r).IsFor name := by
  rw [FatFileSystem.mkdirTouch]
  split_ifs
  · exact h
  · exact h

/-- A changed entry is as active as before. -/
theorem Record.IsFor.change {r r' : Record} {name : CString} {c : Change} {e' : DirectoryEntry} {now : Stamp}
    (h : r.IsFor name) (happly : c.apply r.entry = some e') (hentry : r'.entry = e'.updateEntryTime now)
    (hname : r'.name = r.name) : r'.IsFor name := by
  refine ⟨?_, ?_⟩
  · rw [Active, hentry, Change.apply_eq happly]
    exact h.1
  · rw [string, hname]
    exact h.2

/-- What becomes of a file or a directory after a command. -/
theorem Moves.fate {P : Outcome → Prop} {clock : ℕ → Stamp} {c : Command} {t t' : Tree} {sb sb' : Superblock}
    {output : Output} {accepted : Bool} {p : List CString} {n : Node}
    (h : Moves P clock c t sb t' sb' output accepted) (hres : t.resolve p = some n) :
    Fate (Edits (clock 0) c) t t' c.path p n := by
  cases h with
  | @make target path _ _ _ res out _ halong =>
    show Fate _ t t' path p n
    -- The edits are those of the whole command, wherever the induction on the path is.
    refine Tree.fate_of_along halong (fun k r name hfor => hfor.mkdirTouch res clock k)
      (fun q t t' hacts p n hres => ?_) hres
    cases hacts with
    | refused _ | unopened _ | miscounted _ => exact .stays hres (.refl n)
    | directory _ _ _ _ _ | file _ _ _ _ _ => exact Tree.fate_add _ hres
    | overwritten htarget hnone hfor hopens hwrite hfor' _ _ =>
      subst htarget
      exact Tree.fate_replace hnone hfor hfor' (.overwritten hopens hwrite) hres
  | @ask q path _ _ _ _ _ halong =>
    show Fate _ t t' path p n
    refine Tree.fate_of_along halong (fun _ _ _ hfor => hfor) (fun q t t' hwalks p n hres => ?_) hres
    cases hwalks with
    | refused | listed _ _ | copied _ _ _ _ => exact .stays hres (.refl n)
    | changed hq hnone hfor hopens happly hentry hname =>
      subst hq
      exact Tree.fate_replace hnone hfor (hfor.change happly hentry hname) (.changed hopens happly hentry) hres
  | root _ => exact .stays hres (.refl n)

/-! ## Paths in the file -/

namespace Node

variable {s : FileSystem} {n : Node}

/-- The kind of an entry is that of the node. -/
theorem HeldBy.isFile_iff (h : n.HeldBy s) : n.record.entry.IsFile ↔ ∃ r l content, n = .file r l content := by
  cases n with
  | file r l content => exact iff_of_true (FileSystem.StoresFile.isFile h) ⟨r, l, content, rfl⟩
  | dir r l sub => exact iff_of_false (fun hfile => hfile.2 h.1.isDirectory.1) (by simp)

theorem HeldBy.isDirectory_iff (h : n.HeldBy s) : n.record.entry.IsDirectory ↔ ∃ r l sub, n = .dir r l sub := by
  cases n with
  | file r l content =>
    have hfile : s.StoresFile r l content := h
    exact iff_of_false (fun hdir => hfile.isFile.2 hdir.1) (by simp)
  | dir r l sub => exact iff_of_true h.1.isDirectory ⟨r, l, sub, rfl⟩

end Node

namespace FileSystem

variable {s : FileSystem} {dir e : DirectoryEntry} {l : List ℕ} {t : Tree} {path : List CString} {name : CString}

/-- The path leads, name by name, from the directory to the entry. -/
inductive Resolves (s : FileSystem) : DirectoryEntry → List CString → DirectoryEntry → Prop
  | last {dir e : DirectoryEntry} {name : CString} {offset : ℕ} :
    Settles (s.searchNameInDir dir name) (.ok (some (e, offset))) → Resolves s dir [name] e
  | cons {dir dir' e : DirectoryEntry} {name : CString} {path : List CString} {offset : ℕ} :
    Settles (s.searchNameInDir dir name) (.ok (some (dir', offset))) → checkAttribute dir'.attributes directory →
    Resolves s dir' path e → Resolves s dir (name :: path) e

theorem Resolves.ne_nil (h : s.Resolves dir path e) : path ≠ [] := by
  cases h with
  | last _ => exact List.cons_ne_nil _ _
  | cons _ _ _ => exact List.cons_ne_nil _ _

/-- A path leads to one entry. -/
theorem Resolves.unique {e' : DirectoryEntry} (h : s.Resolves dir path e) (h' : s.Resolves dir path e') : e = e' := by
  induction h with
  | last hset =>
    cases h' with
    | last hset' => exact (Prod.mk.inj (Option.some.inj (Except.ok.inj (hset.unique hset')))).1
    | cons _ _ hres => cases hres
  | cons hset _ hres ih =>
    cases h' with
    | last _ => cases hres
    | cons hset' _ hres' =>
      obtain ⟨rfl, -⟩ := Prod.mk.inj (Option.some.inj (Except.ok.inj (hset.unique hset')))
      exact ih hres'

/-- The walk comes to the entry that the path leads to. -/
theorem Resolves.traverseDirHelper {q : Query} {now : Stamp} {x : FileSystem × Output} (h : s.Resolves dir path e)
    (hlast : ∀ offset, Settles (fun fuel => s.traverseLast q now fuel e offset) (.ok x)) :
    Settles (fun fuel => s.traverseDirHelper q now fuel path dir) (.ok x) := by
  induction h with
  | @last _ _ _ offset hset =>
    refine settles_traverseDirHelper hset ((hlast offset).congr fun fuel => ?_)
    rw [traverseFound, if_pos rfl]
  | cons hset hdir hres ih =>
    refine settles_traverseDirHelper hset ((ih hlast).congr fun fuel => ?_)
    rw [traverseFound, if_neg hres.ne_nil, if_pos hdir]

/-- A name is found where it is in the tree. -/
theorem HasTree.search_iff (h : s.HasTree dir.firstBlockIndex l t) :
    (∃ offset, Settles (s.searchNameInDir dir name) (.ok (some (e, offset)))) ↔
      ∃ n, t.find name = some n ∧ n.record.entry = e := by
  obtain ⟨found, hset, hfind⟩ := h.searchNameInDir name
  constructor
  · rintro ⟨offset, hset'⟩
    obtain rfl := Except.ok.inj (hset.unique hset')
    exact Option.map_eq_some_iff.1 hfind.symm
  · rintro ⟨n, hn, rfl⟩
    rw [hn] at hfind
    obtain ⟨⟨e, offset⟩, rfl, rfl⟩ := Option.map_eq_some_iff.1 hfind
    exact ⟨offset, hset⟩

/-- A path leads where it does in the tree. -/
theorem HasTree.resolves_iff (h : s.HasTree dir.firstBlockIndex l t) :
    s.Resolves dir path e ↔ ∃ n, t.resolve path = some n ∧ n.record.entry = e := by
  -- The path is walked along in the file and in the tree, name by name.
  induction path generalizing dir l t with
  | nil =>
    constructor
    · intro hres
      cases hres
    · rintro ⟨n, hn, -⟩
      cases hn
  | cons name path ih =>
    constructor
    · intro hres
      cases hres with
      | last hset => exact h.search_iff.1 ⟨_, hset⟩
      | cons hset hdir hres =>
        obtain ⟨m, hm, rfl⟩ := h.search_iff.1 ⟨_, hset⟩
        obtain ⟨t₁, t₂, rfl, -⟩ := Tree.exists_of_find hm
        obtain ⟨-, hheld, -⟩ := Tree.heldBy_split.1 h.heldBy
        cases m with
        | file r l' content => exact absurd hdir (StoresFile.isFile hheld).2
        | dir r l' sub =>
          obtain ⟨n, hn, rfl⟩ := (ih h.subtree).1 hres
          exact ⟨n, (Tree.resolve_cons name hres.ne_nil).2 ⟨r, l', sub, hm, hn⟩, rfl⟩
    · rintro ⟨n, hn, rfl⟩
      rcases eq_or_ne path [] with rfl | hpath
      · obtain ⟨offset, hset⟩ := h.search_iff.2 ⟨n, hn, rfl⟩
        exact .last hset
      · obtain ⟨r, l', sub, hdir, hsub⟩ := (Tree.resolve_cons name hpath).1 hn
        obtain ⟨offset, hset⟩ := h.search_iff.2 ⟨_, hdir, rfl⟩
        obtain ⟨t₁, t₂, rfl, -⟩ := Tree.exists_of_find hdir
        obtain ⟨-, hheld, -⟩ := Tree.heldBy_split.1 h.heldBy
        exact .cons hset hheld.1.isDirectory.1 ((ih h.subtree).2 ⟨n, hsub, rfl⟩)

end FileSystem

namespace Image

variable {image : Image} {l : List ℕ} {t : Tree} {path : List CString} {e : DirectoryEntry} {content : List UInt8}

/-- The path leads from the root directory to the entry. -/
def Resolves (image : Image) (path : List CString) (e : DirectoryEntry) : Prop :=
  image.load.Resolves image.load.sb.rootDir path e

/-- The path leads to the entry of a file with this content. -/
structure HasFile (image : Image) (path : List CString) (e : DirectoryEntry) (content : List UInt8) : Prop where
  resolves : image.Resolves path e
  isFile : e.IsFile
  length_eq : content.length = e.size.toNat
  stored : ∃ l, image.load.Chained e.firstBlockIndex l ∧ ∀ k < content.length, image.load.content l k = content.getD k 0

theorem HasTree.resolves_iff (h : image.HasTree l t) :
    image.Resolves path e ↔ ∃ n, t.resolve path = some n ∧ n.record.entry = e :=
  h.hasTree.resolves_iff

/-- The files are those of the tree. -/
theorem HasTree.hasFile_iff (h : image.HasTree l t) :
    image.HasFile path e content ↔ ∃ r l, t.resolve path = some (.file r l content) ∧ r.entry = e := by
  constructor
  · rintro ⟨hres, hfile, hlen, l', hchain, hcontent⟩
    obtain ⟨n, hn, rfl⟩ := h.resolves_iff.1 hres
    have hheld := h.hasTree.heldBy.resolve hn
    cases n with
    | dir r l sub => exact absurd hheld.1.isDirectory.1 hfile.2
    | file r l content' =>
      have hstores : image.load.StoresFile r l content' := hheld
      obtain rfl := hstores.chained.isChain.unique hchain.isChain
      have hlen' : content'.length = content.length := hstores.length_eq.trans hlen.symm
      have heq : content' = content := List.ext_getElem hlen' fun k hk hk' => by
        have heq := (hstores.content_eq k hk).symm.trans (hcontent k hk')
        rwa [List.getD_eq_getElem _ _ hk, List.getD_eq_getElem _ _ hk'] at heq
      exact ⟨r, l, heq ▸ hn, rfl⟩
  · rintro ⟨r, l', hn, rfl⟩
    have hstores : image.load.StoresFile r l' content := h.hasTree.heldBy.resolve hn
    exact ⟨h.resolves_iff.2 ⟨_, hn, rfl⟩, hstores.isFile, hstores.length_eq, l', hstores.chained, hstores.content_eq⟩

/-! ### In one image -/

/-- What is found in the root directory passes the test. -/
def finds (image : Image) (name : CString) (P : DirectoryEntry → Bool) : Bool :=
  yields (image.load.searchNameInDir image.load.sb.rootDir name 10) fun found => found.any fun x => P x.1

theorem exists_of_finds {name : CString} {P : DirectoryEntry → Bool} (h : image.finds name P = true) :
    ∃ e, image.Resolves [name] e ∧ P e = true := by
  obtain ⟨found, hset, hP⟩ := Settles.of_yields (fun _ _ h => FileSystem.searchFrom_below h _) h
  cases found with
  | none => cases hP
  | some x => exact ⟨x.1, .last hset, hP⟩

end Image

/-- A content of one block and one byte. -/
def longFile : LinuxFile := ⟨List.replicate 513 1, true, true⟩

end GtuOs.FatFileSystem

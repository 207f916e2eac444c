import GtuOs.FatFileSystem.Namespaces
import GtuOs.FatFileSystem.Passwords
import Mathlib.Data.List.TakeWhile

/-!
# The namespace of a tree

What the paths lead to in a tree is a namespace (`Tree.items`). Where the tree changes at the end of a path,
so does the namespace (`Tree.items_of_along`). The names in each directory are distinct (`Tree.Distinct`), so a
listing tells of all that the namespace has there (`Tree.lists`).
-/

namespace GtuOs.FatFileSystem

namespace DirectoryEntry

/-- The time of creation. -/
def created (e : DirectoryEntry) : Moment := ⟨e.createTime, e.createDate⟩

/-- The file that the entry and the content stand for. -/
def stored (e : DirectoryEntry) (content : List UInt8) : StoredFile where
  content
  isReadable := checkAttribute e.attributes readPermission
  isWritable := checkAttribute e.attributes writePermission
  password := if checkAttribute e.attributes passwordEnabled then some e.password else none
  created := e.created
  updated := ⟨e.updateTime, e.updateDate⟩

theorem opens_stored {e : DirectoryEntry} {content : List UInt8} {pw : Option CString} :
    (e.stored content).Opens pw ↔ e.Opens pw := by
  rw [StoredFile.Opens, stored, Opens]
  dsimp only
  split_ifs with h <;> simp [h]

end DirectoryEntry

/-- The name of the record. -/
def Record.fileName (r : Record) : CString := ⟨r.string, fun h0 => by simpa using List.mem_takeWhile_imp h0⟩

namespace Node

/-- What the node is. -/
def item : Node → Item Moment StoredFile
  | file r _ content => .file (r.entry.stored content)
  | dir r _ _ => .dir r.entry.created

/-- What is in the node. -/
def sub : Node → Tree
  | file _ _ _ => .nil
  | dir _ _ sub => sub

variable {n : Node}

@[simp] theorem item_unflag : n.unflag.item = n.item := by
  cases n <;> rfl

@[simp] theorem sub_unflag : n.unflag.sub = n.sub := by
  cases n <;> rfl

theorem createdAt_item : createdAt n.item = n.record.entry.created := by
  cases n <;> rfl

variable {s : FileSystem} {name : CString}

theorem HeldBy.active (h : n.HeldBy s) : n.record.Active := by
  cases n with
  | file r l content => exact FileSystem.StoresFile.active h
  | dir r l sub => exact h.1.active

theorem HeldBy.isFor_iff (h : n.HeldBy s) : name.chars = n.record.string ↔ n.record.IsFor name := by
  rw [Record.IsFor, and_iff_right h.active, eq_comm]

/-- The listing of a node tells of it. -/
theorem HeldBy.tells (h : n.HeldBy s) : Tells (n.record.entry.listing n.record.string) n.item := by
  cases n with
  | file r l content =>
    have hfile : s.StoresFile r l content := h
    refine ⟨hfile.isFile.1, rfl, rfl, rfl, rfl, hfile.length_eq.symm, rfl, rfl, ?_⟩
    simp only [Node.record, DirectoryEntry.listing, DirectoryEntry.stored]
    split_ifs with h <;> simp [h]
  | dir r l sub =>
    exact ⟨by simpa [DirectoryEntry.listing, Node.record] using h.1.isDirectory.2, rfl, rfl⟩

end Node

namespace Tree

/-- The namespace. -/
def items (t : Tree) : Files := fun path => (t.resolve path).map Node.item

variable {s : FileSystem} {t t' t₁ t₂ sub sub' : Tree} {name name' : CString} {n n' : Node} {r r' : Record}
  {l : List ℕ} {path : List CString} {item : Item Moment StoredFile} {k : ℕ} {touch : ℕ → Record → Record}

theorem items_empty (h : ∀ name, t.find name = none) : t.items = .empty := by
  funext path
  rcases path with _ | ⟨name, path⟩
  · rfl
  · rcases eq_or_ne path [] with rfl | hpath
    · exact congrArg (Option.map Node.item) (h name)
    · rw [items, Option.map_eq_none_iff.2 (Option.eq_none_iff_forall_ne_some.2 fun m hm => ?_)]
      · rfl
      · obtain ⟨r, l, sub, hfind, -⟩ := (resolve_cons name hpath).1 hm
        cases (h name).symm.trans hfind

/-- Below a name are what it stands for and what is in that. -/
theorem under_items (t : Tree) (name : CString) : t.items.under name = fun p =>
    (t.find name).bind fun n => if p = [] then some n.item else n.sub.items p := by
  funext p
  rcases p with _ | ⟨name', p⟩
  · exact Option.map_eq_bind
  · rw [Namespace.under, items, resolve]
    rcases t.find name with _ | n
    · rfl
    · cases n with
      | file r l content => exact (congrFun (items_empty fun _ => rfl) _).symm
      | dir r l sub => rfl

/-- The same item, with the same in it. -/
theorem under_items_congr (h : (t'.find name).map (fun n => (n.item, n.sub)) = (t.find name).map fun n => (n.item, n.sub)) :
    t'.items.under name = t.items.under name := by
  rw [under_items, under_items]
  funext p
  rcases hfind : t.find name with _ | n <;> rcases hfind' : t'.find name with _ | n' <;>
    simp only [hfind, hfind', Option.map_none, Option.map_some, reduceCtorEq, Option.some.injEq, Prod.mk.injEq] at h
  · rfl
  · simp only [Option.bind_some, h]

/-- What a name stands for is replaced by what has nothing in it. -/
theorem under_items_put (h : t'.find name = some n) (hsub : n.sub.items = .empty) :
    t'.items.under name = (t.items.under name).put [] n.item := by
  rw [under_items, h]
  funext p
  rcases eq_or_ne p [] with rfl | hp
  · rw [Namespace.put_self]
    rfl
  · rw [Namespace.put_of_ne List.nil_prefix hp, Option.bind_some, if_neg hp, hsub]
    rfl

theorem items_add (hnone : t.find name = none) (hfor : n.record.IsFor name) (hsub : n.sub.items = .empty) :
    (t.kept ++ n.cons .nil).items = t.items.put [name] n.item := by
  have hkept : t.kept.find name = none := by rw [find_kept, hnone]; rfl
  refine Namespace.eq_put_cons rfl (fun name' hne => under_items_congr ?_)
    (under_items_put (find_split hkept hfor .nil) hsub)
  have hother : (n.cons .nil).find name' = none := find_cons_of_neg (fun h => hne (h.unique hfor)) .nil
  rw [find_append, find_kept, hother, Option.or_none, Option.map_map]
  simp [Function.comp_def]

theorem items_replace (hnone : t₁.find name = none) (hfor : n.record.IsFor name) (hfor' : n'.record.IsFor name)
    (hsub : n'.sub.items = .empty) : (t₁ ++ n'.cons t₂).items = (t₁ ++ n.cons t₂).items.put [name] n'.item :=
  Namespace.eq_put_cons rfl
    (fun _ hne => under_items_congr (congrArg (Option.map fun n : Node => (n.item, n.sub)) (find_replace hfor hfor' hne)))
    (under_items_put (find_split hnone hfor' t₂) hsub)

/-- A directory on the path, in which something is put. -/
theorem items_inside (hpath : path ≠ []) (hnone : t₁.find name = none) (hfor : r.IsFor name) (hfor' : r'.IsFor name)
    (hcreated : r'.entry.created = r.entry.created) (hsub : sub'.items = sub.items.put path item) :
    (t₁ ++ (Node.dir r' l sub').cons t₂).items = (t₁ ++ (Node.dir r l sub).cons t₂).items.put (name :: path) item := by
  refine Namespace.eq_put_cons rfl (fun name' hne => under_items_congr ?_) ?_
  · exact congrArg (Option.map fun n : Node => (n.item, n.sub)) (find_replace (n := .dir r l sub) hfor hfor' hne)
  · have hbefore := find_split (n := .dir r l sub) hnone hfor t₂
    have hafter := find_split (n := .dir r' l sub') hnone hfor' t₂
    rw [under_items, under_items, hbefore, hafter]
    funext p
    simp only [Option.bind_some, Node.item, Node.sub, hcreated, hsub, Namespace.put]
    by_cases hp : p = []
    · subst hp
      simp [hpath, hpath.symm]
    · simp [hp]

theorem items_inside_eq (hnone : t₁.find name = none) (hfor : r.IsFor name) (hfor' : r'.IsFor name)
    (hcreated : r'.entry.created = r.entry.created) (hsub : sub'.items = sub.items) :
    (t₁ ++ (Node.dir r' l sub').cons t₂).items = (t₁ ++ (Node.dir r l sub).cons t₂).items := by
  refine Namespace.ext_under rfl fun name' => ?_
  by_cases hne : name' = name
  · subst hne
    have hbefore := find_split (n := .dir r l sub) hnone hfor t₂
    have hafter := find_split (n := .dir r' l sub') hnone hfor' t₂
    rw [under_items, under_items, hbefore, hafter]
    funext p
    simp only [Option.bind_some, Node.item, Node.sub, hcreated, hsub]
  · exact under_items_congr (congrArg (Option.map fun n : Node => (n.item, n.sub))
      (find_replace (n := .dir r l sub) hfor hfor' hne))

/-- Along a path at whose end something is put. -/
theorem items_of_along {Q : List CString → Tree → Tree → Prop} (halong : Along touch Q k path t t')
    (htouch : ∀ k r name, r.IsFor name → (touch k r).IsFor name)
    (hcreated : ∀ k r, (touch k r).entry.created = r.entry.created)
    (hQ : ∀ path t t', Q path t t' → path ≠ [] ∧ ∃ item, t'.items = t.items.put path item) :
    path ≠ [] ∧ ∃ item, t'.items = t.items.put path item := by
  induction halong with
  | here hq => exact hQ _ _ _ hq
  | inside hpath hnone hfor _ ih =>
    obtain ⟨-, item, hitem⟩ := ih
    exact ⟨List.cons_ne_nil _ _, item, items_inside hpath hnone hfor (htouch _ _ _ hfor) (hcreated _ _) hitem⟩

/-- Along a path at whose end nothing changes. -/
theorem items_eq_of_along {Q : List CString → Tree → Tree → Prop} (halong : Along touch Q k path t t')
    (htouch : ∀ k r name, r.IsFor name → (touch k r).IsFor name)
    (hcreated : ∀ k r, (touch k r).entry.created = r.entry.created)
    (hQ : ∀ path t t', Q path t t' → t'.items = t.items) : t'.items = t.items := by
  induction halong with
  | here hq => exact hQ _ _ _ hq
  | inside _ hnone hfor _ ih => exact items_inside_eq hnone hfor (htouch _ _ _ hfor) (hcreated _ _) ih

/-- What is anywhere is in a directory. -/
theorem wellFormed_items (t : Tree) : t.items.WellFormed := by
  refine ⟨rfl, fun path name item h => ?_⟩
  induction path generalizing t with
  | nil => exact .inl rfl
  | cons name' path ih =>
    obtain ⟨m, hm, rfl⟩ := Option.map_eq_some_iff.1 h
    obtain ⟨r, l, sub, hfind, hsub⟩ := (resolve_cons name' (List.append_ne_nil_of_right_ne_nil path (by simp))).1 hm
    rcases eq_or_ne path [] with rfl | hpath
    · exact .inr ⟨_, congrArg (Option.map Node.item) hfind⟩
    · obtain ⟨d, hd⟩ := (ih sub (congrArg (Option.map Node.item) hsub)).resolve_left hpath
      obtain ⟨m', hm', hd⟩ := Option.map_eq_some_iff.1 hd
      exact .inr ⟨d, Option.map_eq_some_iff.2 ⟨m', (resolve_cons name' hpath).2 ⟨r, l, sub, hfind, hm'⟩, hd⟩⟩

/-! ## Listings -/

/-- The names in the directory. -/
def names : Tree → List (List UInt8)
  | nil => []
  | passive _ rest => rest.names
  | file r _ _ rest => r.string :: rest.names
  | dir r _ _ rest => r.string :: rest.names

/-- The names in each directory are distinct. -/
def Distinct (t : Tree) : Prop := t.names.Nodup ∧ t.All fun n => n.sub.names.Nodup

theorem names_append : (t₁ ++ t₂).names = t₁.names ++ t₂.names := by
  induction t₁ with
  | nil => rfl
  | passive r rest ih => exact ih
  | file r l content rest ih => exact congrArg (r.string :: ·) ih
  | dir r l sub rest _ ih => exact congrArg (r.string :: ·) ih

theorem names_split : (t₁ ++ n.cons t₂).names = t₁.names ++ n.record.string :: t₂.names := by
  rw [names_append]
  cases n <;> rfl

theorem names_kept : t.kept.names = t.names := by
  induction t with
  | nil => rfl
  | passive r rest ih =>
    rw [kept]
    split_ifs
    · exact ih
    · exact ih
  | file r l content rest ih => exact congrArg (r.string :: ·) ih
  | dir r l sub rest _ ih => exact congrArg (r.string :: ·) ih

/-- The names are those that stand for something. -/
theorem mem_names_iff (ht : t.HeldBy s) : name.chars ∈ t.names ↔ (t.find name).isSome := by
  induction t with
  | nil => simp [names, find]
  | passive r rest ih => exact ih ht.2
  | file r l content rest ih =>
    have hfor : name.chars = r.string ↔ r.IsFor name := Node.HeldBy.isFor_iff (n := .file r l content) ht.1
    have ih := ih ht.2
    rw [names, find, List.mem_cons, ih, hfor]
    split_ifs with h <;> simp [h]
  | dir r l sub rest _ ih =>
    have hfor : name.chars = r.string ↔ r.IsFor name :=
      Node.HeldBy.isFor_iff (n := .dir r l sub) ⟨ht.1, ht.2.1⟩
    have ih := ih ht.2.2
    rw [names, find, List.mem_cons, ih, hfor]
    split_ifs with h <;> simp [h]

theorem fileNames_listings (ht : t.HeldBy s) : (FileSystem.listings t.records).map Listing.fileName = t.names := by
  induction t with
  | nil => rfl
  | passive r rest ih =>
    rw [records, FileSystem.listings_cons, FileSystem.listings_of_passive ht.1]
    exact ih ht.2
  | file r l content rest ih =>
    have hact : r.Active := Node.HeldBy.active (n := .file r l content) ht.1
    rw [records, FileSystem.listings_cons, FileSystem.listings_of_active hact, List.map_append, ih ht.2]
    rfl
  | dir r l sub rest _ ih =>
    have hact : r.Active := ht.1.active
    rw [records, FileSystem.listings_cons, FileSystem.listings_of_active hact, List.map_append, ih ht.2.2]
    rfl

/-- Each listing is that of a node. -/
theorem mem_listings {x : Listing} (ht : t.HeldBy s) (hx : x ∈ FileSystem.listings t.records) :
    ∃ (t₁ : Tree) (n : Node) (t₂ : Tree), t = t₁ ++ n.cons t₂ ∧ x = n.record.entry.listing n.record.string := by
  induction t with
  | nil => exact absurd hx List.not_mem_nil
  | passive r rest ih =>
    rw [records, FileSystem.listings_cons, FileSystem.listings_of_passive ht.1] at hx
    obtain ⟨t₁, n, t₂, rfl, h⟩ := ih ht.2 hx
    exact ⟨passive r t₁, n, t₂, rfl, h⟩
  | file r l content rest ih =>
    have hact : r.Active := Node.HeldBy.active (n := .file r l content) ht.1
    rw [records, FileSystem.listings_cons, FileSystem.listings_of_active hact] at hx
    rcases List.mem_cons.1 hx with rfl | hx
    · exact ⟨nil, .file r l content, rest, rfl, rfl⟩
    · obtain ⟨t₁, n, t₂, rfl, h⟩ := ih ht.2 hx
      exact ⟨file r l content t₁, n, t₂, rfl, h⟩
  | dir r l sub rest _ ih =>
    have hact : r.Active := ht.1.active
    rw [records, FileSystem.listings_cons, FileSystem.listings_of_active hact] at hx
    rcases List.mem_cons.1 hx with rfl | hx
    · exact ⟨nil, .dir r l sub, rest, rfl, rfl⟩
    · obtain ⟨t₁, n, t₂, rfl, h⟩ := ih ht.2.2 hx
      exact ⟨dir r l sub t₁, n, t₂, rfl, h⟩

/-- A directory is listed. -/
theorem lists (ht : t.HeldBy s) (hnodup : t.names.Nodup) : Lists t.items [] (FileSystem.listings t.records) := by
  refine ⟨(fileNames_listings ht).symm ▸ hnodup, fun name => ?_, fun x hx => ?_⟩
  · rw [fileNames_listings ht, mem_names_iff ht, List.nil_append, items, Option.isSome_map]
    rfl
  · obtain ⟨t₁, n, t₂, rfl, rfl⟩ := mem_listings ht hx
    obtain ⟨ht₁, hn, -⟩ := heldBy_split.1 ht
    let name : CString := n.record.fileName
    have hnot : ¬(t₁.find name).isSome := fun h => by
      rw [names_split] at hnodup
      exact (List.nodup_append.1 hnodup).2.2 _ ((mem_names_iff ht₁).2 h) _ List.mem_cons_self rfl
    have hfind := find_split (Option.not_isSome_iff_eq_none.1 hnot) (hn.isFor_iff.1 rfl) t₂
    exact ⟨name, n.item, rfl, congrArg (Option.map Node.item) hfind, hn.tells⟩

/-- What is in a directory. -/
theorem items_append {q : List CString} (h : t.resolve path = some (.dir r l sub)) (hq : q ≠ []) :
    t.items (path ++ q) = sub.items q := by
  induction path generalizing t with
  | nil => cases h
  | cons name path ih =>
    rcases eq_or_ne path [] with rfl | hpath
    · have hfind : t.find name = some (.dir r l sub) := h
      refine (congrFun (under_items t name) q).trans ?_
      rw [hfind, Option.bind_some, if_neg hq]
      rfl
    · obtain ⟨r', l', sub', hfind, hsub⟩ := (resolve_cons name hpath).1 h
      rw [← ih hsub]
      refine (congrFun (under_items t name) (path ++ q)).trans ?_
      rw [hfind, Option.bind_some, if_neg (List.append_ne_nil_of_right_ne_nil path hq)]
      rfl

theorem lists_of_resolve (ht : t.HeldBy s) (hdistinct : t.Distinct) (h : t.resolve path = some (.dir r l sub)) :
    Lists t.items path (FileSystem.listings sub.records) := by
  have hall := hdistinct.2.resolve h
  have hlists := lists (ht.resolve h).2 hall.1
  have happend : ∀ name, t.items (path ++ [name]) = sub.items ([] ++ [name]) := fun name =>
    items_append h (List.cons_ne_nil name [])
  refine ⟨hlists.nodup, fun name => ?_, fun x hx => ?_⟩
  · rw [happend]
    exact hlists.mem_iff name
  · obtain ⟨name, item, hname, hitem, htells⟩ := hlists.tells x hx
    exact ⟨name, item, hname, (happend name).trans hitem, htells⟩

/-! ## Distinct names -/

theorem Distinct.of_along {Q : List CString → Tree → Tree → Prop} (halong : Along touch Q k path t t')
    (htouch : ∀ k r name, r.IsFor name → (touch k r).IsFor name)
    (hQ : ∀ path t t', Q path t t' → t.HeldBy s → t.Distinct → t'.Distinct) (ht : t.HeldBy s) (h : t.Distinct) :
    t'.Distinct := by
  induction halong with
  | here hq => exact hQ _ _ _ hq ht h
  | @inside k name path r l sub sub' t₁ t₂ hpath hnone hfor _ ih =>
    obtain ⟨hnodup, hall⟩ := h
    obtain ⟨h₁, ⟨hsub, hbelow⟩, h₂⟩ := all_split.1 hall
    obtain ⟨hsub', hbelow'⟩ := ih (heldBy_split.1 ht).2.1.2 ⟨hsub, hbelow⟩
    refine ⟨?_, all_split.2 ⟨h₁, ⟨hsub', hbelow'⟩, h₂⟩⟩
    have hstring : (touch k r).string = r.string := (htouch k r name hfor).2.trans hfor.2.symm
    rw [names_split] at hnodup ⊢
    simpa only [Node.record, hstring] using hnodup

theorem Distinct.add (ht : t.HeldBy s) (h : t.Distinct) (hnone : t.find name = none) (hfor : n.record.IsFor name)
    (hn : n.All fun n => n.sub.names.Nodup) : (t.kept ++ n.cons .nil).Distinct := by
  have hkept : t.kept.All fun n => n.sub.names.Nodup := All.kept h.2 fun n hn => by rwa [Node.sub_unflag]
  refine ⟨?_, all_split.2 ⟨hkept, hn, trivial⟩⟩
  have hnew : n.record.string ∉ t.names := by
    rw [hfor.2, mem_names_iff ht, hnone]
    exact Bool.false_ne_true
  rw [names_split, names_kept]
  exact List.nodup_append.2 ⟨h.1, List.nodup_singleton _, fun a ha b hb => by
    obtain rfl := List.mem_singleton.1 hb
    exact fun heq => hnew (heq ▸ ha)⟩

theorem Distinct.replace (h : (t₁ ++ n.cons t₂).Distinct) (hfor : n.record.IsFor name) (hfor' : n'.record.IsFor name)
    (hn' : n'.All fun n => n.sub.names.Nodup) : (t₁ ++ n'.cons t₂).Distinct := by
  obtain ⟨hnodup, hall⟩ := h
  obtain ⟨h₁, -, h₂⟩ := all_split.1 hall
  refine ⟨?_, all_split.2 ⟨h₁, hn', h₂⟩⟩
  rw [names_split, hfor.2] at hnodup
  rwa [names_split, hfor'.2]

end Tree

/-- The names stay distinct. -/
theorem Moves.distinct {s : FileSystem} {P : Outcome → Prop} {clock : ℕ → Stamp} {c : Command} {t t' : Tree}
    {sb sb' : Superblock} {output : Output} {accepted : Bool} (h : Moves P clock c t sb t' sb' output accepted)
    (ht : t.HeldBy s) (hdistinct : t.Distinct) : t'.Distinct := by
  cases h with
  | make _ halong =>
    refine .of_along halong (fun k r name hfor => hfor.mkdirTouch _ _ k) (fun path t t' hacts ht hd => ?_) ht hdistinct
    cases hacts with
    | refused _ | unopened _ | miscounted _ => exact hd
    | @directory name _ r b _ hnone hfor _ _ =>
      exact hd.add (n := .dir r [b] _) ht hnone hfor ⟨List.nodup_nil, trivial⟩
    | @file name _ r b linuxFile _ _ hnone hfor _ _ =>
      exact hd.add (n := .file r [b] linuxFile.content) ht hnone hfor List.nodup_nil
    | @overwritten name t₁ t₂ n r' linuxFile _ _ _ hfor _ _ hfor' _ _ =>
      have hfile : (Node.file r' n.chain linuxFile.content).All fun n => n.sub.names.Nodup := List.nodup_nil
      exact hd.replace hfor hfor' hfile
  | ask halong =>
    refine .of_along halong (fun _ _ _ hfor => hfor) (fun path t t' hwalks ht hd => ?_) ht hdistinct
    cases hwalks with
    | refused | listed _ _ | copied _ _ _ _ => exact hd
    | @changed name t₁ t₂ r r' l content _ _ _ _ _ hfor _ happly hentry hname =>
      have hfile : (Node.file r' l content).All fun n => n.sub.names.Nodup := List.nodup_nil
      exact hd.replace (n := .file r l content) hfor (hfor.change happly hentry hname) hfile
  | root _ => exact hdistinct

end GtuOs.FatFileSystem

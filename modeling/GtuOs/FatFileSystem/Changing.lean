import GtuOs.FatFileSystem.Command
import GtuOs.FatFileSystem.Inserting

/-!
# `chmod` and `addpw`

On an image whose directories have well-formed tables (`Image.WellFormed`), `chmod` and `addpw` end,
and change no byte but those of one header (`Image.changes_frame`): that of the file the path leads to
(`FileSystem.Leads`), if there is one, the password passes (`DirectoryEntry.Opens`) and the
argument is accepted.
-/

namespace GtuOs.FatFileSystem

variable {e e' dir : DirectoryEntry} {pw : Option CString} {newPwd : CString} {c : Change} {now : Stamp}

/-! ## Passwords -/

namespace DirectoryEntry

/-- The password of the entry. -/
def password (e : DirectoryEntry) : List UInt8 := e.pwBytes.takeWhile (· ≠ 0)

/-- The password given, if one is required, is that of the entry. -/
def Opens (e : DirectoryEntry) (pw : Option CString) : Prop :=
  checkAttribute e.attributes passwordEnabled → pw.map CString.chars = some e.password

instance (e : DirectoryEntry) (pw : Option CString) : Decidable (e.Opens pw) :=
  inferInstanceAs (Decidable (_ → _))

/-- A password that is required is a string. -/
def HasPassword (e : DirectoryEntry) : Prop :=
  checkAttribute e.attributes passwordEnabled → 0 ∈ e.pwBytes

theorem wrongPassword_eq (h : e.HasPassword) (pw : Option CString) :
    e.wrongPassword pw = .ok (decide ¬e.Opens pw) := by
  rw [wrongPassword.eq_def]
  by_cases henabled : checkAttribute e.attributes passwordEnabled
  · have hopens : e.Opens pw ↔ pw.map CString.chars = some e.password := forall_prop_of_true henabled
    rw [if_pos henabled]
    cases pw with
    | none =>
      have hnot : ¬e.Opens none := fun ho => nomatch hopens.1 ho
      exact congrArg _ (decide_eq_true hnot).symm
    | some p =>
      have hchars : e.password = p.chars ↔ e.Opens (some p) := by
        rw [hopens, Option.map_some, Option.some_inj, eq_comm]
      dsimp only
      rw [strcmp_eq p.noNul (h henabled), ← password]
      simp only [hchars, decide_not]
      rfl
  · rw [if_neg henabled]
    have hopens : e.Opens pw := fun he => absurd he henabled
    exact congrArg _ (decide_eq_false (not_not.2 hopens)).symm

/-- The password that has been copied. -/
theorem pwBytes_copyPassword (h : newPwd.chars.length < passwordSize) :
    ∃ rest, (dir.copyPassword newPwd).pwBytes = newPwd.chars ++ 0 :: rest := by
  refine ⟨(dir.copyPassword newPwd).pwBytes.drop (newPwd.chars.length + 1), ?_⟩
  have hlen : (dir.copyPassword newPwd).pwBytes.length = passwordSize := List.length_ofFn
  refine List.ext_getElem ?_ fun i hi hi' => ?_
  · simp only [List.length_append, List.length_cons, List.length_drop, hlen]
    omega
  · rcases Nat.lt_trichotomy i newPwd.chars.length with hlt | rfl | hgt
    · rw [List.getElem_append_left hlt]
      simp [pwBytes, copyPassword, hlt]
    · rw [List.getElem_append_right le_rfl]
      simp [pwBytes, copyPassword]
    · rw [List.getElem_append_right hgt.le]
      obtain ⟨j, rfl⟩ := Nat.exists_eq_add_of_lt hgt
      simp [Nat.add_assoc, Nat.add_comm 1]

theorem opens_copyPassword (h : newPwd.chars.length < passwordSize) :
    (dir.copyPassword newPwd).HasPassword ∧ ∀ pw, (dir.copyPassword newPwd).Opens pw ↔ pw = some newPwd := by
  obtain ⟨rest, hrest⟩ : ∃ rest, (dir.copyPassword newPwd).pwBytes = newPwd.chars ++ 0 :: rest :=
    pwBytes_copyPassword h
  have hpassword : (dir.copyPassword newPwd).password = newPwd.chars := by
    rw [password, hrest, List.takeWhile_append_of_pos, List.takeWhile_cons_of_neg (by simp),
      List.append_nil]
    intro c hc
    exact decide_eq_true fun h0 => newPwd.noNul (h0 ▸ hc)
  have henabled : checkAttribute (dir.copyPassword newPwd).attributes passwordEnabled := by
    have h : ∀ a, checkAttribute (setAttribute a passwordEnabled) passwordEnabled = true :=
      forall_uint8 (by decide +kernel)
    exact h _
  refine ⟨fun _ => ?_, fun pw => ?_⟩
  · rw [hrest]
    exact List.mem_append_right _ List.mem_cons_self
  · constructor
    · intro ho
      obtain ⟨⟨chars, noNul⟩, rfl, hp⟩ := Option.map_eq_some_iff.1 (ho henabled)
      obtain rfl : chars = newPwd.chars := hp.trans hpassword
      rfl
    · rintro rfl _
      exact congrArg some hpassword.symm

end DirectoryEntry

/-- A change is one of the attributes and the password. -/
theorem Change.apply_eq (h : c.apply e = some e') :
    e' = { e with attributes := e'.attributes, pw := e'.pw } := by
  cases c with
  | chmod mods =>
    have hset : ∀ (d d' : DirectoryEntry) isPlus c, d.setPermission isPlus c = some d' →
        d' = { d with attributes := d'.attributes } := by
      intro d d' isPlus c h
      rw [DirectoryEntry.setPermission] at h
      split_ifs at h <;> cases h <;> rfl
    rw [apply, DirectoryEntry.setPermissionGivenFromCommand] at h
    dsimp only at h
    split_ifs at h
    · obtain ⟨d, hd, hd'⟩ := Option.bind_eq_some_iff.1 h
      rw [hset _ _ _ _ hd', hset _ _ _ _ hd]
    · obtain ⟨d, -, hd'⟩ := Option.bind_eq_some_iff.1 h
      cases hd'
    · obtain ⟨d, hd, hd'⟩ := Option.bind_eq_some_iff.1 h
      obtain rfl := Option.some.inj hd'
      rw [hset _ _ _ _ hd]
  | addpw newPwd =>
    rw [apply] at h
    split_ifs at h
    obtain rfl := Option.some.inj h
    rfl

/-! ## Paths -/

namespace FileSystem

variable {s : FileSystem} {i : UInt16} {l l' : List ℕ} {rs rs' : List Record} {r : Record} {p q offset : ℕ}
  {name : CString} {path : List CString} {D : Set UInt16}

/-- The path leads, name by name, from the directory with the first block `i` to the entry whose
    header is at an offset. -/
inductive Leads (s : FileSystem) : UInt16 → List CString → DirectoryEntry → ℕ → Prop
  | last {i : UInt16} {l : List ℕ} {rs : List Record} {name : CString} {e : DirectoryEntry} {offset : ℕ} :
    s.Table i l rs → s.lookup l 0 rs name = some (e, offset) → Leads s i [name] e offset
  | cons {i : UInt16} {l : List ℕ} {rs : List Record} {name : CString} {path : List CString}
    {dir e : DirectoryEntry} {offset offset' : ℕ} :
    s.Table i l rs → s.lookup l 0 rs name = some (dir, offset) → checkAttribute dir.attributes directory →
    Leads s dir.firstBlockIndex path e offset' → Leads s i (name :: path) e offset'

/-- An active entry is a directory out of `D`, or a file. -/
def Proper (D : Set UInt16) (e : DirectoryEntry) : Prop :=
  checkAttribute e.attributes directory ∧ ¬checkAttribute e.attributes file ∧ e.firstBlockIndex ∈ D ∨
    checkAttribute e.attributes file ∧ ¬checkAttribute e.attributes directory ∧ e.HasPassword

/-- The directories `D` have tables, of files and of directories out of `D`. -/
def Directories (s : FileSystem) (D : Set UInt16) : Prop :=
  ∀ i ∈ D, ∃ l rs, s.Table i l rs ∧ ∀ r ∈ rs, r.Active → Proper D r.entry

theorem mem_placed_iff {bs : ℕ} : (q, r) ∈ placed bs p rs ↔
    ∃ rs₁ rs₂, rs = rs₁ ++ r :: rs₂ ∧ q = slot bs (endOf bs p rs₁) := by
  induction rs generalizing p with
  | nil => simp [placed]
  | cons x rs ih =>
    rw [placed, List.mem_cons, ih]
    constructor
    · rintro (heq | ⟨rs₁, rs₂, rfl, rfl⟩)
      · obtain ⟨rfl, rfl⟩ := Prod.mk.inj heq
        exact ⟨[], rs, rfl, rfl⟩
      · exact ⟨x :: rs₁, rs₂, rfl, rfl⟩
    · rintro ⟨rs₁, rs₂, heq, rfl⟩
      cases rs₁ with
      | nil =>
        obtain ⟨rfl, rfl⟩ := List.cons.inj heq
        exact .inl rfl
      | cons y rs₁ =>
        obtain ⟨rfl, rfl⟩ := List.cons.inj heq
        exact .inr ⟨rs₁, rs₂, rfl, rfl⟩

/-- What is found is a record of the table. -/
theorem lookup_eq_some (h : s.lookup l 0 rs name = some (e, offset)) :
    ∃ rs₁ r rs₂, rs = rs₁ ++ r :: rs₂ ∧ r.IsFor name ∧ e = r.entry ∧
      offset = Memory.blockAddr s.blockSize l (slot s.blockSize (endOf s.blockSize 0 rs₁)) := by
  obtain ⟨⟨q, r⟩, hfind, heq⟩ := Option.map_eq_some_iff.1 h
  obtain ⟨rfl, rfl⟩ := Prod.mk.inj heq
  obtain ⟨rs₁, rs₂, hrs, rfl⟩ := mem_placed_iff.1 (List.mem_of_find?_eq_some hfind)
  exact ⟨rs₁, r, rs₂, hrs, of_decide_eq_true (List.find?_some (p := fun q : ℕ × Record => decide (q.2.IsFor name)) hfind),
    rfl, rfl⟩

namespace Table

/-- The result of a search does not depend on how the table is described. -/
theorem lookup_unique (h : s.Table i l rs) (h' : s.Table i l' rs') (name : CString) :
    s.lookup l 0 rs name = s.lookup l' 0 rs' name := by
  let d : DirectoryEntry := { lastDirIndicatorEntry with firstBlockIndex := i }
  have hsearch : Settles (s.searchNameInDir d name) (.ok (s.lookup l 0 rs name)) := h.searchNameInDir name
  have hsearch' : Settles (s.searchNameInDir d name) (.ok (s.lookup l' 0 rs' name)) := h'.searchNameInDir name
  exact Except.ok.inj (hsearch.unique hsearch')

/-- The header of a record in the file. -/
theorem header (h : s.Table i l (rs ++ r :: rs')) :
    let q := slot s.blockSize (endOf s.blockSize 0 rs)
    q < l.length * s.blockSize ∧ q % s.blockSize + DirectoryEntry.sizeof ≤ s.blockSize ∧
      DirectoryEntry.load s.disk (Memory.blockAddr s.blockSize l q) = r.entry := by
  intro q
  obtain ⟨-, hbytes, hle, -⟩ := Laid.append_iff.1 h.laid
  have hmod := slot_mod h.header_le (endOf s.blockSize 0 rs)
  have hsize : DirectoryEntry.sizeof ≤ r.size := Nat.le_add_right ..
  have hpos : 0 < DirectoryEntry.sizeof := by decide
  refine ⟨by omega, hmod, DirectoryEntry.load_of_bytes fun k hk => ?_⟩
  rw [← r.bytes_header hk, ← hbytes k (by omega), content, Memory.stream, Memory.blockAddr_add (by omega)]

/-- The header is in the file. -/
theorem header_le_length (h : s.Table i l (rs ++ r :: rs')) :
    Memory.blockAddr s.blockSize l (slot s.blockSize (endOf s.blockSize 0 rs)) +
      DirectoryEntry.sizeof ≤ s.length := by
  obtain ⟨hlt, hmod, -⟩ := h.header
  have hb := h.chained.inFile _ (Memory.getD_mem (Memory.div_lt_of_lt hlt))
  simp only [Memory.blockAddr]
  omega

end Table

namespace Leads

theorem unique {offset' : ℕ} (h : s.Leads i path e offset) (h' : s.Leads i path e' offset') :
    e = e' ∧ offset = offset' := by
  induction h with
  | last ht hl =>
    cases h' with
    | last ht' hl' =>
      rw [ht.lookup_unique ht', hl'] at hl
      exact (Prod.mk.inj (Option.some.inj hl)).imp Eq.symm Eq.symm
    | cons _ _ _ hpath => nomatch hpath
  | cons ht hl _ hpath ih =>
    cases h' with
    | last _ _ => nomatch hpath
    | cons ht' hl' _ hpath' =>
      rw [ht.lookup_unique ht', hl'] at hl
      obtain ⟨rfl, rfl⟩ := Prod.mk.inj (Option.some.inj hl)
      exact ih hpath'

/-- The entry is in the file. -/
theorem header (h : s.Leads i path e offset) :
    DirectoryEntry.load s.disk offset = e ∧ offset + DirectoryEntry.sizeof ≤ s.length := by
  induction h with
  | last ht hl =>
    obtain ⟨rs₁, r, rs₂, rfl, -, rfl, rfl⟩ := lookup_eq_some hl
    exact ⟨ht.header.2.2, ht.header_le_length⟩
  | cons _ _ _ _ ih => exact ih

end Leads

/-! ## The walk -/

/-- The path leads to a file, whose password passes, and the change is accepted. -/
structure Allows (s : FileSystem) (i : UInt16) (path : List CString) (c : Change) (pw : Option CString)
    (e : DirectoryEntry) (offset : ℕ) (e' : DirectoryEntry) : Prop where
  leads : s.Leads i path e offset
  isFile : checkAttribute e.attributes file
  opens : e.Opens pw
  apply : c.apply e = some e'

/-- What becomes of the file, `dirEntry` being the directory that the walk is in. -/
inductive Changed (s : FileSystem) (i : UInt16) (path : List CString) (c : Change) (pw : Option CString)
    (now : Stamp) : FileSystem → Prop
  | same {m : Message} : (∀ e offset e', ¬s.Allows i path c pw e offset e') →
    Changed s i path c pw now (s.print m)
  | written {e e' : DirectoryEntry} {offset : ℕ} : s.Allows i path c pw e offset e' →
    Changed s i path c pw now (s.writeEntry offset (e'.updateEntryTime now))

/-- The last entry of the path. -/
theorem changeEntry_spec (hproper : Proper D e) (hleads : s.Leads i path e offset) (c : Change)
    (pw : Option CString) (now : Stamp) :
    ∃ s', s.changeEntry e offset c pw now = .ok s' ∧ s.Changed i path c pw now s' := by
  rw [changeEntry]
  rcases hproper with ⟨hdir, hfile, -⟩ | ⟨hfile, hdir, hpw⟩
  · rw [if_pos hdir]
    refine ⟨_, rfl, .same fun e' offset' e'' h => hfile ?_⟩
    rw [(hleads.unique h.leads).1]
    exact h.isFile
  rw [if_neg hdir, DirectoryEntry.wrongPassword_eq hpw]
  by_cases hopens : e.Opens pw
  swap
  · refine ⟨s.print .wrongPassword, if_pos (decide_eq_true hopens), .same fun e' offset' e'' h => hopens ?_⟩
    rw [(hleads.unique h.leads).1]
    exact h.opens
  cases happly : c.apply e with
  | none =>
    refine ⟨s.print c.refusal, if_neg (by simpa using hopens), .same fun e' offset' e'' h => ?_⟩
    have hsome := h.apply
    rw [← (hleads.unique h.leads).1, happly] at hsome
    nomatch hsome
  | some e' => exact ⟨_, if_neg (by simpa using hopens), .written ⟨hleads, hfile, hopens, happly⟩⟩

/-- After the search for the first name of the path. -/
def traverseFound (s : FileSystem) (q : Query) (now : Stamp) (fuel : ℕ) (name : CString)
    (path : List CString) : Option (DirectoryEntry × ℕ) → Except Fault (FileSystem × Output)
  | none => .ok (s.print (.doesNotExist name), .none)
  | some (dir, offset) =>
    if path = [] then s.traverseLast q now fuel dir offset
    else if checkAttribute dir.attributes directory then s.traverseDirHelper q now fuel path dir
    else .ok (s.print .nameNotADirectory, .none)

theorem settles_traverseDirHelper {dirEntry : DirectoryEntry} {found : Option (DirectoryEntry × ℕ)}
    {q : Query} {x : FileSystem × Output}
    (hsearch : Settles (s.searchNameInDir dirEntry name) (.ok found))
    (hx : Settles (fun fuel => s.traverseFound q now fuel name path found) (.ok x)) :
    Settles (fun fuel => s.traverseDirHelper q now fuel (name :: path) dirEntry) (.ok x) := by
  refine (hsearch.bind (g := fun fuel => s.traverseFound q now fuel name path) hx).congr fun fuel => ?_
  rw [traverseDirHelper]
  rfl

theorem traverseDirHelper_spec (h : s.Directories D) {dirEntry : DirectoryEntry}
    (hi : dirEntry.firstBlockIndex ∈ D) (path : List CString) (c : Change) (pw : Option CString)
    (now : Stamp) :
    ∃ s', Settles (fun fuel => s.traverseDirHelper (.change c pw) now fuel path dirEntry) (.ok (s', .none)) ∧
      s.Changed dirEntry.firstBlockIndex path c pw now s' := by
  induction path generalizing dirEntry with
  | nil => exact ⟨_, Settles.const _, .same fun _ _ _ h => nomatch h.leads⟩
  | cons name path ih =>
    obtain ⟨l, rs, ht, hrs⟩ := h _ hi
    have hsearch := ht.searchNameInDir name
    -- The entry that any such path leads to first.
    have hfirst : ∀ {e offset}, s.Leads dirEntry.firstBlockIndex (name :: path) e offset →
        (path = [] ∧ s.lookup l 0 rs name = some (e, offset)) ∨
          ∃ dir o, s.lookup l 0 rs name = some (dir, o) ∧ checkAttribute dir.attributes directory ∧
            s.Leads dir.firstBlockIndex path e offset := by
      intro e offset hleads
      cases hleads with
      | last ht' hl' => exact .inl ⟨rfl, (ht.lookup_unique ht' name).trans hl'⟩
      | cons ht' hl' hdir hpath => exact .inr ⟨_, _, (ht.lookup_unique ht' name).trans hl', hdir, hpath⟩
    cases hlookup : s.lookup l 0 rs name with
    | none =>
      rw [hlookup] at hsearch
      refine ⟨_, settles_traverseDirHelper hsearch (Settles.const _), .same fun e offset e' hallows => ?_⟩
      rcases hfirst hallows.leads with ⟨-, hl⟩ | ⟨dir, o, hl, -⟩ <;> nomatch hlookup.symm.trans hl
    | some found =>
      obtain ⟨dir, offset⟩ := found
      obtain ⟨rs₁, r, rs₂, rfl, hr, rfl, rfl⟩ := lookup_eq_some hlookup
      have hproper := hrs r (by simp) hr.1
      rw [hlookup] at hsearch
      cases path with
      | nil =>
        obtain ⟨s', hs', hchanged⟩ := changeEntry_spec hproper (.last ht hlookup) c pw now
        refine ⟨s', settles_traverseDirHelper hsearch ((Settles.const _).congr fun fuel => ?_), hchanged⟩
        rw [traverseFound, if_pos rfl, traverseLast, hs']
        rfl
      | cons name' path =>
        have hcons := List.cons_ne_nil name' path
        rcases hproper with ⟨hdir, -, hmem⟩ | ⟨-, hdir, -⟩
        · obtain ⟨s', hset, hchanged⟩ := ih hmem
          refine ⟨s', settles_traverseDirHelper hsearch (hset.congr fun fuel => by
            rw [traverseFound, if_neg hcons, if_pos hdir]), ?_⟩
          cases hchanged with
          | same hnone =>
            refine .same fun e offset e' hallows => ?_
            rcases hfirst hallows.leads with ⟨hnil, -⟩ | ⟨dir, o, hl, -, hpath⟩
            · nomatch hnil
            · obtain ⟨rfl, -⟩ := Prod.mk.inj (Option.some.inj (hlookup.symm.trans hl))
              exact hnone e offset e' { hallows with leads := hpath }
          | written hallows =>
            exact .written { hallows with leads := .cons ht hlookup hdir hallows.leads }
        · refine ⟨_, settles_traverseDirHelper hsearch ((Settles.const _).congr fun fuel => by
            rw [traverseFound, if_neg hcons, if_neg hdir]), .same fun e offset e' hallows => ?_⟩
          rcases hfirst hallows.leads with ⟨hnil, -⟩ | ⟨dir, o, hl, hd, -⟩
          · nomatch hnil
          · obtain ⟨rfl, -⟩ := Prod.mk.inj (Option.some.inj (hlookup.symm.trans hl))
            exact hdir hd

end FileSystem

/-! ## The commands -/

namespace Image

variable {image image' : Image} {path : List CString}

/-- The directories, the root first, have well-formed tables. -/
def WellFormed (image : Image) : Prop :=
  ∃ D, image.load.sb.rootDir.firstBlockIndex ∈ D ∧ image.load.Directories D

/-- The path, which is not that of the root, leads to a file whose password passes, and the change is
    accepted. -/
def Allows (image : Image) (path : List CString) (c : Change) (pw : Option CString) (e : DirectoryEntry)
    (offset : ℕ) (e' : DirectoryEntry) : Prop :=
  (∀ name ∈ path.head?, name.chars ≠ [slash]) ∧
    image.load.Allows image.load.sb.rootDir.firstBlockIndex path c pw e offset e'

/-- Only the header of the file that the path leads to changes, if the change is allowed, and of it
    only the members that are changed. -/
structure ChangesOnly (image image' : Image) (path : List CString) (c : Change) (pw : Option CString)
    (now : Stamp) : Prop where
  unchanged : (∀ e offset e', ¬image.Allows path c pw e offset e') → image' = image
  frame : ∀ e offset e', image.Allows path c pw e offset e' → image'.length = image.length ∧
    ∀ a, a < offset ∨ offset + DirectoryEntry.sizeof ≤ a → image'.disk a = image.disk a
  header : ∀ e offset e', image.Allows path c pw e offset e' → DirectoryEntry.load image.disk offset = e ∧
    DirectoryEntry.load image'.disk offset =
      { e with
        attributes := e'.attributes
        pw := e'.pw
        updateTime := now.updateTime
        updateDate := now.updateDate }
  /-- A new password is the one that passes. -/
  password : ∀ newPwd, c = .addpw newPwd → ∀ e offset e', image.Allows path c pw e offset e' →
    ∀ q, (DirectoryEntry.load image'.disk offset).wrongPassword q = .ok (decide (q ≠ some newPwd))

/-- What has been written is what was to change. -/
theorem changesOnly_of_changed {s' : FileSystem} (hroot : ∀ name ∈ path.head?, name.chars ≠ [slash])
    (h : image.load.Changed image.load.sb.rootDir.firstBlockIndex path c pw now s') :
    image.ChangesOnly s'.toImage path c pw now := by
  cases h with
  | same hnone =>
    have hnot : ∀ e offset e', ¬image.Allows path c pw e offset e' := fun e offset e' h =>
      hnone e offset e' h.2
    exact ⟨fun _ => rfl, fun _ _ _ h => absurd h (hnot _ _ _), fun _ _ _ h => absurd h (hnot _ _ _),
      fun _ _ _ _ _ h => absurd h (hnot _ _ _)⟩
  | @written e e' offset hallows =>
    obtain ⟨hload, hlen⟩ := hallows.leads.header
    have hwrite : (image.load.writeEntry offset (e'.updateEntryTime now)) =
        { image.load with
          disk := image.disk.store offset DirectoryEntry.sizeof (e'.updateEntryTime now).bytes } :=
      FileSystem.write_eq hlen
    -- A change that is allowed is this one.
    have honly : ∀ e₁ offset₁ e₁', image.Allows path c pw e₁ offset₁ e₁' →
        e₁ = e ∧ offset₁ = offset ∧ e₁' = e' := by
      rintro e₁ offset₁ e₁' ⟨-, h⟩
      obtain ⟨rfl, rfl⟩ := h.leads.unique hallows.leads
      exact ⟨rfl, rfl, Option.some.inj (h.apply.symm.trans hallows.apply)⟩
    have hafter : DirectoryEntry.load (image.load.writeEntry offset (e'.updateEntryTime now)).disk offset =
        e'.updateEntryTime now := by
      rw [hwrite]
      exact DirectoryEntry.load_of_bytes fun k hk => Memory.store_add hk
    refine ⟨fun hnone => absurd ⟨hroot, hallows⟩ (hnone e offset e'), fun e₁ offset₁ e₁' h => ?_,
      fun e₁ offset₁ e₁' h => ?_, fun newPwd hc e₁ offset₁ e₁' h q => ?_⟩
    · obtain ⟨rfl, rfl, rfl⟩ := honly _ _ _ h
      rw [hwrite]
      exact ⟨rfl, fun a ha => Memory.store_of_not_mem ha⟩
    · obtain ⟨rfl, rfl, rfl⟩ := honly _ _ _ h
      refine ⟨hload, hafter.trans ?_⟩
      rw [DirectoryEntry.updateEntryTime, Change.apply_eq hallows.apply]
    · obtain ⟨rfl, rfl, rfl⟩ := honly _ _ _ h
      subst hc
      have happly := hallows.apply
      rw [Change.apply] at happly
      split_ifs at happly with hlen'
      obtain rfl := Option.some.inj happly
      have hlt : newPwd.chars.length < passwordSize := by
        simp only [passwordSize] at hlen' ⊢
        omega
      obtain ⟨hhas, hopens⟩ : (e₁.copyPassword newPwd).HasPassword ∧
          ∀ q, (e₁.copyPassword newPwd).Opens q ↔ q = some newPwd := DirectoryEntry.opens_copyPassword hlt
      rw [hafter]
      refine (DirectoryEntry.wrongPassword_eq (e := e₁.copyPassword newPwd) hhas q).trans ?_
      exact congrArg _ (decide_eq_decide.2 (not_congr (hopens q)))

theorem traverseFileOrDir_spec (h : image.WellFormed) (path : List CString) (c : Change)
    (pw : Option CString) (now : Stamp) :
    ∃ s', Settles (image.traverseFileOrDir path (.change c pw) now) (.ok (s', .none)) ∧
      image.ChangesOnly s'.toImage path c pw now := by
  obtain ⟨D, hroot, hD⟩ := h
  have hsame : (∀ e offset e', ¬image.Allows path c pw e offset e') →
      image.ChangesOnly image.load.toImage path c pw now := fun hnone =>
    ⟨fun _ => rfl, fun _ _ _ h => absurd h (hnone _ _ _), fun _ _ _ h => absurd h (hnone _ _ _),
      fun _ _ _ _ _ h => absurd h (hnone _ _ _)⟩
  cases path with
  | nil => exact ⟨image.load, Settles.const _, hsame fun e offset e' h => nomatch h.2.leads⟩
  | cons name path =>
    by_cases hslash : name.chars = [slash]
    · refine ⟨image.load, (Settles.const _).congr fun fuel => if_pos hslash, hsame fun e offset e' h => ?_⟩
      exact h.1 name rfl hslash
    · obtain ⟨s', hset, hchanged⟩ := FileSystem.traverseDirHelper_spec hD hroot (name :: path) c pw now
      refine ⟨s', hset.congr fun fuel => if_neg hslash, changesOnly_of_changed ?_ hchanged⟩
      rintro name' ⟨⟩
      exact hslash

/-- **The frame of `chmod` and `addpw`.** They end, and change only the header of the file that
    the path leads to. -/
theorem changes_frame (h : image.WellFormed) (path : List CString) (pw : Option CString) (now : Stamp) :
    (∀ mods, ∃ s', Settles (image.chmodCommand path mods pw now) (.ok (s', .none)) ∧
      image.ChangesOnly s'.toImage path (.chmod mods) pw now) ∧
    ∀ newPwd, ∃ s', Settles (image.addpwCommand path newPwd pw now) (.ok (s', .none)) ∧
      image.ChangesOnly s'.toImage path (.addpw newPwd) pw now :=
  ⟨fun mods => traverseFileOrDir_spec h path (.chmod mods) pw now,
    fun newPwd => traverseFileOrDir_spec h path (.addpw newPwd) pw now⟩

end Image

/-! A file `a` in the root directory, with the password `k`. -/

/-- The record of the file. -/
def lockedRecord : Record where
  entry := { lastDirIndicatorEntry with
    entrySize := 34, isActiveEntry := 1, firstBlockIndex := 26
    attributes := readPermission ||| passwordEnabled ||| file
    pw := fun i => if i.val = 0 then 107 else 0 }
  name := [97, 0]
  entrySize_eq := rfl
  terminated _ := by decide

/-- The image. -/
def lockedImage : Image :=
  ((FileSystem.newFile.allocate lockedRecord.entry 26).writeRecord 12800 lockedRecord).toImage

theorem rootDir_lockedImage : lockedImage.load.sb.rootDir.firstBlockIndex = 25 := by
  decide +kernel

theorem table_lockedImage : lockedImage.load.Table 25 [25] [lockedRecord] := by
  have hend : lockedImage.load.fat 25 = fatEntryEnd := by decide +kernel
  exact ⟨⟨by decide +kernel, ⟨⟨by decide, by decide, hend⟩, by decide +kernel⟩,
    ⟨by decide +kernel, by decide +kernel, trivial⟩⟩, .inl ⟨by decide, rfl⟩⟩

theorem wellFormed_lockedImage : lockedImage.WellFormed := by
  refine ⟨{25}, rootDir_lockedImage, fun i hi => ⟨[25], [lockedRecord], ?_, fun r hr _ => ?_⟩⟩
  · obtain rfl := Set.mem_singleton_iff.1 hi
    exact table_lockedImage
  · obtain rfl := List.mem_singleton.1 hr
    exact .inr ⟨by decide, by decide, fun _ => by decide⟩

/-- The name of the file, its password, and another one. -/
def lockedName : CString := ⟨[97], by decide⟩

def oldPassword : CString := ⟨[107], by decide⟩

def otherPassword : CString := ⟨[113], by decide⟩

/-- With the password of the file, another one is set. -/
theorem allows_lockedImage : ∃ e', lockedImage.Allows [lockedName] (.addpw otherPassword) (some oldPassword)
    lockedRecord.entry 12800 e' := by
  have hlookup : lockedImage.load.lookup [25] 0 [lockedRecord] lockedName = some (lockedRecord.entry, 12800) := by
    have hplace : Memory.blockAddr lockedImage.load.blockSize [25] (slot lockedImage.load.blockSize 0) = 12800 := by
      decide +kernel
    rw [FileSystem.lookup_cons_of_pos (by decide), hplace]
  have hleads : lockedImage.load.Leads lockedImage.load.sb.rootDir.firstBlockIndex [lockedName]
      lockedRecord.entry 12800 := by
    rw [rootDir_lockedImage]
    exact .last table_lockedImage hlookup
  refine ⟨_, ?_, ⟨hleads, by decide, ?_, rfl⟩⟩
  · rintro name ⟨⟩
    decide
  · decide

/-- Another password is set, and only the header of the file changes. -/
theorem changes_frame_lockedImage : ∃ s' : FileSystem,
    Settles (lockedImage.addpwCommand [lockedName] otherPassword (some oldPassword) ⟨0, 0, 0, 0⟩) (.ok (s', .none)) ∧
      (∀ a, a < 12800 ∨ 12800 + DirectoryEntry.sizeof ≤ a → s'.disk a = lockedImage.disk a) ∧
      (DirectoryEntry.load s'.disk 12800).wrongPassword (some oldPassword) = .ok true ∧
      (DirectoryEntry.load s'.disk 12800).wrongPassword (some otherPassword) = .ok false := by
  obtain ⟨e', hallows⟩ := allows_lockedImage
  obtain ⟨s', hset, hchanges⟩ := (Image.changes_frame wellFormed_lockedImage _ _ _).2 otherPassword
  refine ⟨s', hset, (hchanges.frame _ _ _ hallows).2, ?_, ?_⟩
  · exact hchanges.password _ rfl _ _ _ hallows (some oldPassword)
  · exact hchanges.password _ rfl _ _ _ hallows (some otherPassword)

end GtuOs.FatFileSystem

import GtuOs.FatFileSystem.Items
import GtuOs.FatFileSystem.Refusing

/-!
# The image as a namespace

The commands on images do what the commands on namespaces do (`commands_refines`): after any run
of them that reaches no defect, the image shows the namespace (`Image.Shows`) that the same
commands, with the same outputs and refusals, have led to from the empty one.

The simulation relates an image to the namespace of its tree (`Image.Represents`). A command that is
accepted puts its item at the end of its path (`Image.HasTree.serves_make`,
`Image.HasTree.serves_ask`), and one that may be accepted by the namespace is, where no
new place is needed (`Image.HasTree.granted`, `Image.HasTree.overwritten`).
-/

namespace GtuOs.FatFileSystem

/-! ## Entries -/

section

variable {e e' : DirectoryEntry} {content : List UInt8} {c : Change} {now : Stamp} {linuxFile : LinuxFile}
  {name : CString}

/-- Setting a permission. -/
theorem checkAttribute_setAttribute (a : UInt8) :
    (checkAttribute (setAttribute a readPermission) readPermission = true ∧
      checkAttribute (setAttribute a readPermission) writePermission = checkAttribute a writePermission ∧
      checkAttribute (setAttribute a readPermission) passwordEnabled = checkAttribute a passwordEnabled) ∧
    checkAttribute (setAttribute a writePermission) writePermission = true ∧
      checkAttribute (setAttribute a writePermission) readPermission = checkAttribute a readPermission ∧
      checkAttribute (setAttribute a writePermission) passwordEnabled = checkAttribute a passwordEnabled := by
  revert a
  exact forall_uint8 (by decide +kernel)

/-- Removing a permission. -/
theorem checkAttribute_removeAttribute (a : UInt8) :
    (checkAttribute (removeAttribute a readPermission) readPermission = false ∧
      checkAttribute (removeAttribute a readPermission) writePermission = checkAttribute a writePermission ∧
      checkAttribute (removeAttribute a readPermission) passwordEnabled = checkAttribute a passwordEnabled) ∧
    checkAttribute (removeAttribute a writePermission) writePermission = false ∧
      checkAttribute (removeAttribute a writePermission) readPermission = checkAttribute a readPermission ∧
      checkAttribute (removeAttribute a writePermission) passwordEnabled = checkAttribute a passwordEnabled := by
  revert a
  exact forall_uint8 (by decide +kernel)

/-- Enabling the password. -/
theorem checkAttribute_passwordEnabled (a : UInt8) :
    checkAttribute (setAttribute a passwordEnabled) passwordEnabled = true ∧
      checkAttribute (setAttribute a passwordEnabled) readPermission = checkAttribute a readPermission ∧
      checkAttribute (setAttribute a passwordEnabled) writePermission = checkAttribute a writePermission := by
  revert a
  exact forall_uint8 (by decide +kernel)

theorem setPermission_stored (isPlus : Bool) (letter : UInt8) :
    (e.setPermission isPlus letter).map (·.stored content) = (e.stored content).chmod isPlus letter := by
  obtain ⟨⟨h₁, h₂, h₃⟩, h₄, h₅, h₆⟩ := checkAttribute_setAttribute e.attributes
  obtain ⟨⟨h₁', h₂', h₃'⟩, h₄', h₅', h₆'⟩ := checkAttribute_removeAttribute e.attributes
  rw [DirectoryEntry.setPermission, StoredFile.chmod]
  by_cases hread : letter = letterR
  · rw [if_pos hread, if_pos hread]
    cases isPlus <;>
      simp [DirectoryEntry.stored, DirectoryEntry.created, DirectoryEntry.password, DirectoryEntry.pwBytes, *]
  · rw [if_neg hread, if_neg hread]
    by_cases hwrite : letter = letterW
    · rw [if_pos hwrite, if_pos hwrite]
      cases isPlus <;>
        simp [DirectoryEntry.stored, DirectoryEntry.created, DirectoryEntry.password, DirectoryEntry.pwBytes, *]
    · rw [if_neg hwrite, if_neg hwrite]
      rfl

/-- A permission that is set twice. -/
theorem setPermission_twice (isPlus : Bool) (letter : UInt8) :
    ((e.setPermission isPlus letter).bind fun e => e.setPermission isPlus letter).map (·.stored content) =
      (e.stored content).chmod isPlus letter := by
  have hidem : ∀ f f' : StoredFile, f.chmod isPlus letter = some f' → f'.chmod isPlus letter = some f' := by
    intro f f' h
    rw [StoredFile.chmod] at h ⊢
    split_ifs at h ⊢
    · obtain rfl := Option.some.inj h
      rfl
    · obtain rfl := Option.some.inj h
      rfl
  have hset : (e.setPermission isPlus letter).map (·.stored content) = (e.stored content).chmod isPlus letter :=
    setPermission_stored isPlus letter
  rcases hfirst : e.setPermission isPlus letter with _ | e'
  · rw [hfirst] at hset
    exact hset
  · rw [hfirst] at hset
    rw [Option.bind_some, setPermission_stored, ← hset]
    exact hidem _ _ hset.symm

/-- The file after `chmod` or `addpw`. -/
theorem change_stored (e : DirectoryEntry) (content : List UInt8) (c : Change) :
    (c.apply e).map (·.stored content) = (e.stored content).change c := by
  cases c with
  | chmod mods =>
    rw [Change.apply, StoredFile.change]
    obtain ⟨chars, hnoNul⟩ := mods
    rcases chars with _ | ⟨sign, _ | ⟨letter, letters⟩⟩
    · rfl
    · rfl
    · rw [setPermissionGivenFromCommand_cons]
      have hminus : minus ≠ plus := by decide
      rcases letters with _ | ⟨d, _ | ⟨d', letters⟩⟩
      · by_cases hplus : sign = plus
        · subst hplus
          simpa using setPermission_stored true letter
        · by_cases hsign : sign = minus
          · subst hsign
            simpa [hminus] using setPermission_stored false letter
          · simp [hplus, hsign]
      · by_cases hplus : sign = plus
        · subst hplus
          simpa using setPermission_twice true letter
        · by_cases hsign : sign = minus
          · subst hsign
            simpa [hminus] using setPermission_twice false letter
          · simp [hplus, hsign]
      · -- Four characters or more are no mode.
        simp
  | addpw newPwd =>
    rw [Change.apply, StoredFile.change]
    split_ifs with hlen
    · rfl
    · have hlt : newPwd.chars.length < passwordSize := by
        simp only [passwordSize] at hlen ⊢
        omega
      obtain ⟨h₁, h₂, h₃⟩ := checkAttribute_passwordEnabled e.attributes
      obtain ⟨rest, hrest⟩ : ∃ rest, (e.copyPassword newPwd).pwBytes = newPwd.chars ++ 0 :: rest :=
        DirectoryEntry.pwBytes_copyPassword hlt
      have hpassword : (e.copyPassword newPwd).password = newPwd.chars := by
        rw [DirectoryEntry.password, hrest, List.takeWhile_append_of_pos, List.takeWhile_cons_of_neg (by simp),
          List.append_nil]
        exact fun c hc => decide_eq_true fun h0 => newPwd.noNul (h0 ▸ hc)
      have hattr : (e.copyPassword newPwd).attributes = setAttribute e.attributes passwordEnabled := rfl
      simp only [Option.map_some, DirectoryEntry.stored, hattr, h₁, h₂, h₃, hpassword]
      rfl

/-- The attributes that a file of Linux gives. -/
theorem checkAttribute_newFileEntry (name : CString) (now : Stamp) (linuxFile : LinuxFile) :
    checkAttribute (FileSystem.newFileEntry name now linuxFile).attributes readPermission = linuxFile.isReadable ∧
      checkAttribute (FileSystem.newFileEntry name now linuxFile).attributes writePermission = linuxFile.isWritable ∧
      checkAttribute (FileSystem.newFileEntry name now linuxFile).attributes passwordEnabled = false := by
  have hcheck : ∀ isReadable isWritable,
      let e := FileSystem.newFileEntry FileSystem.newName ⟨0, 0, 0, 0⟩ ⟨[], isReadable, isWritable⟩
      checkAttribute e.attributes readPermission = isReadable ∧ checkAttribute e.attributes writePermission = isWritable ∧
        checkAttribute e.attributes passwordEnabled = false := by decide
  exact hcheck linuxFile.isReadable linuxFile.isWritable

/-- The file of an entry with these attributes. -/
theorem stored_eq {created updated : Moment} (name : CString) (now : Stamp)
    (hattr : e.attributes = (FileSystem.newFileEntry name now linuxFile).attributes) (hcreated : e.created = created)
    (hupdated : (⟨e.updateTime, e.updateDate⟩ : Moment) = updated) :
    e.stored linuxFile.content = ⟨linuxFile.content, linuxFile.isReadable, linuxFile.isWritable, none, created, updated⟩ := by
  obtain ⟨hr, hw, hpw⟩ := checkAttribute_newFileEntry name now linuxFile
  simp [DirectoryEntry.stored, hattr, hr, hw, hpw, hcreated, hupdated]

end

/-! ## Where something is made -/

/-- What is at the end of the path of an accepted `mkdir` or `write`, before and after. -/
def EndsAs (o o' : Option Node) : Target → Prop
  | .dir => o = none ∧ ∃ r l sub, o' = some (.dir r l sub)
  | .file none _ => False
  | .file (some linuxFile) pw =>
    (∀ n, o = some n → n.record.entry.Opens pw ∧ checkAttribute n.record.entry.attributes writePermission) ∧
      ∃ r l, o' = some (.file r l linuxFile.content)

section

variable {t t' : Tree} {target : Target} {res : ℤ} {out : Outcome} {clock : ℕ → Stamp} {path : List CString} {k : ℕ}

theorem mkdirTouch_created (res : ℤ) (clock : ℕ → Stamp) (k : ℕ) (r : Record) :
    (mkdirTouch res clock k r).entry.created = r.entry.created := by
  rw [mkdirTouch]
  split_ifs <;> rfl

theorem Acts.endsAs (h : Acts target path t t' res out) (hacc : out.accepted) :
    EndsAs (t.resolve path) (t'.resolve path) target := by
  have hkept : ∀ {name}, t.find name = none → t.kept.find name = none := fun hnone => by
    rw [Tree.find_kept, hnone]
    rfl
  cases h with
  | refused _ | unopened _ | miscounted _ => cases hacc
  | @directory name _ r b htarget hnone hfor _ _ =>
    subst htarget
    exact ⟨hnone, r, _, _, Tree.find_split (n := .dir r [b] _) (hkept hnone) hfor .nil⟩
  | @file name _ r b linuxFile pw htarget hnone hfor _ _ =>
    subst htarget
    refine ⟨fun n hn => ?_, r, _, Tree.find_split (n := .file r [b] _) (hkept hnone) hfor .nil⟩
    cases hnone.symm.trans hn
  | @overwritten name t₁ t₂ n r' linuxFile pw htarget hnone hfor hopens hwrite hfor' _ _ =>
    subst htarget
    refine ⟨fun m hm => ?_, r', _, Tree.find_split (n := .file r' n.chain _) hnone hfor' t₂⟩
    obtain rfl := Option.some.inj ((Tree.find_split hnone hfor t₂).symm.trans hm)
    exact ⟨hopens, hwrite⟩

/-- One item is put at the path of an accepted command. -/
theorem Acts.items_put (h : Acts target path t t' res out) (hacc : out.accepted) :
    path ≠ [] ∧ ∃ item, t'.items = t.items.put path item := by
  cases h with
  | refused _ | unopened _ | miscounted _ => cases hacc
  | @directory name _ r b htarget hnone hfor _ _ =>
    exact ⟨List.cons_ne_nil _ _, _, Tree.items_add (n := .dir r [b] _) hnone hfor (Tree.items_empty fun _ => rfl)⟩
  | @file name _ r b linuxFile pw htarget hnone hfor _ _ =>
    exact ⟨List.cons_ne_nil _ _, _, Tree.items_add (n := .file r [b] _) hnone hfor (Tree.items_empty fun _ => rfl)⟩
  | @overwritten name t₁ t₂ n r' linuxFile pw htarget hnone hfor _ _ hfor' _ _ =>
    have hempty : (Node.file r' n.chain linuxFile.content).sub.items = .empty := Tree.items_empty fun _ => rfl
    exact ⟨List.cons_ne_nil _ _, _, Tree.items_replace hnone hfor hfor' hempty⟩

theorem Acts.items_eq (h : Acts target path t t' res out) (hacc : out.accepted = false) : t'.items = t.items := by
  cases h with
  | refused _ | unopened _ | miscounted _ => rfl
  | directory _ _ _ _ _ | file _ _ _ _ _ | overwritten _ _ _ _ _ _ _ _ => cases hacc

/-- An accepted command on the namespaces of the trees. -/
theorem serves_of_along (halong : Along (mkdirTouch res clock) (fun path t t' => Acts target path t t' res out) 0 path t t')
    (hacc : out.accepted) (hmade : FileSystem.Made target (clock (path.length - 1)) path t t') :
    Serves clock (.make target path) t.items t'.items .none true := by
  obtain ⟨hpath, item, hitems⟩ := Tree.items_of_along halong (fun k r name hfor => hfor.mkdirTouch res clock k)
    (mkdirTouch_created res clock) fun _ _ _ hacts => hacts.items_put hacc
  have hends : EndsAs (t.resolve path) (t'.resolve path) target :=
    Tree.ends_of_along (R := fun o o' => EndsAs o o' target) halong (fun k r name hfor => hfor.mkdirTouch res clock k)
      fun _ _ _ hacts => hacts.endsAs hacc
  obtain ⟨name, n, -, hn, hmakes⟩ := hmade
  have hput : t'.items path = some item := by rw [hitems, Namespace.put_self]
  obtain rfl : n.item = item := Option.some.inj ((congrArg (Option.map Node.item) hn).symm.trans hput)
  -- The directory of what is made was there before.
  have hdir : t.items.IsDir path.dropLast := by
    refine (t'.wellFormed_items.isDir_dropLast hput).imp_right fun ⟨d, hd⟩ => ⟨d, ?_⟩
    rw [hitems, Namespace.put_of_apart] at hd
    · exact hd
    · intro hpre
      have hlen := hpre.length_le
      rw [List.length_dropLast] at hlen
      have hpos := List.length_pos_of_ne_nil hpath
      omega
  rw [hitems]
  match target with
  | .dir =>
    obtain ⟨hnone, r, l, sub, hr⟩ := hends
    obtain rfl := Option.some.inj (hn.symm.trans hr)
    obtain ⟨b, hb⟩ := hmakes
    have hcreated : r.entry.created = (clock (path.length - 1)).created := congrArg DirectoryEntry.created hb
    rw [Node.item, hcreated]
    exact .mkdir hpath (congrArg (Option.map Node.item) hnone) hdir
  | .file none pw => exact hends.elim
  | .file (some linuxFile) pw =>
    obtain ⟨hallows, r, l, hr⟩ := hends
    obtain rfl := Option.some.inj (hn.symm.trans hr)
    rw [Node.item]
    rcases hold : t.resolve path with _ | m
    · rw [hold] at hmakes
      obtain ⟨b, hb⟩ := hmakes
      have hb : r.entry = _ := hb
      have hstored : r.entry.stored linuxFile.content = .ofLinux linuxFile (clock (path.length - 1)) :=
        stored_eq name (clock (path.length - 1)) (by rw [hb]) (by rw [hb]; rfl) (by rw [hb]; rfl)
      rw [hstored]
      exact .write hpath (congrArg (Option.map Node.item) hold) hdir
    · rw [hold] at hmakes
      have hb : r.entry = FileSystem.overwrittenEntry m.record.entry name (clock (path.length - 1)) linuxFile := hmakes
      have hstored : r.entry.stored linuxFile.content =
          { StoredFile.ofLinux linuxFile (clock (path.length - 1)) with created := m.record.entry.created } :=
        stored_eq name (clock (path.length - 1)) (by rw [hb]; rfl) (by rw [hb]; rfl) (by rw [hb]; rfl)
      rw [hstored, ← Node.createdAt_item]
      refine .overwrite (congrArg (Option.map Node.item) hold) ?_
      obtain ⟨hopens, hwrite⟩ := hallows m hold
      cases m with
      | file r' l' content => exact ⟨DirectoryEntry.opens_stored.2 hopens, hwrite⟩
      | dir r' l' sub => trivial

end

/-! ## What may be overwritten -/

namespace FileSystem

variable {s : FileSystem} {i : UInt16} {l : List ℕ} {t : Tree} {n : Node} {path : List CString} {name : CString}
  {linuxFile : LinuxFile} {pw : Option CString}

theorem HasTree.endsIn_of_resolve (ht : s.HasTree i l t) (h : t.resolve path = some n) :
    ∃ j l' sub name, s.EndsIn i path l' sub.records name ∧ s.HasTree j l' sub ∧ sub.find name = some n := by
  induction path generalizing i l t with
  | nil => cases h
  | cons name path ih =>
    rcases eq_or_ne path [] with rfl | hpath
    · exact ⟨i, l, t, name, .last ht.table, ht, h⟩
    · obtain ⟨r, l', sub, hfind, hsub⟩ := (Tree.resolve_cons name hpath).1 h
      obtain ⟨t₁, t₂, rfl, hnone, hfor⟩ := Tree.exists_of_find hfind
      obtain ⟨ht₁, hheld, -⟩ := Tree.heldBy_split.1 ht.heldBy
      obtain ⟨j, l'', sub', name', hends, htree, hname⟩ := ih ht.subtree hsub
      exact ⟨j, l'', sub', name', .cons ht.table (lookup_of_split ht₁ hnone hfor) hheld.1.isDirectory.1 hends, htree,
        hname⟩

theorem HasTree.mkdirLast_overwrites (ht : s.HasTree i l t) (hs : s.Consistent) (hfind : t.find name = some n)
    (hopens : n.record.entry.Opens pw) (hwrite : checkAttribute n.record.entry.attributes writePermission)
    (hle : linuxFile.content.length ≤ s.blockSize) (dir : DirectoryEntry) (now : Stamp) :
    ∃ s', Settles (fun fuel => s.mkdirLast (.file (some linuxFile) pw) now fuel dir name (s.lookup l 0 t.records name))
      (.ok (s', linuxFile.content.length)) ∧ s'.printed = s.printed := by
  obtain ⟨t₁, t₂, rfl, hnone, hfor⟩ := Tree.exists_of_find hfind
  obtain ⟨ht₁, hn, -⟩ := Tree.heldBy_split.1 ht.heldBy
  obtain ⟨s', t', res, out, hset, -, hbecomes, -, -, -, hacc, rfl⟩ := overwriteFile_spec now hs ht hnone hfor hopens
    hwrite hle
  refine ⟨s', hset.congr fun fuel => ?_, hbecomes.printed.2 hacc⟩
  rw [lookup_of_split ht₁ hnone hfor, mkdirLast, DirectoryEntry.wrongPassword_eq hn.hasPassword]
  exact (if_neg (by simpa using hopens)).trans (if_pos hwrite)

end FileSystem

namespace Image

variable {image image' : Image} {l : List ℕ} {t : Tree} {n : Node} {path : List CString} {q : Query}
  {linuxFile : LinuxFile} {pw : Option CString} {clock : ℕ → Stamp} {output : Output} {printed : List Message}

/-- A `write` to what may be overwritten is accepted. -/
theorem HasTree.overwritten (h : image.HasTree l t)
    (hharmless : image.Harmless (.make (.file (some linuxFile) pw) path)) (hroot : ¬IsRoot path)
    (hn : t.resolve path = some n) (hopens : n.record.entry.Opens pw)
    (hwrite : checkAttribute n.record.entry.attributes writePermission)
    (hstep : commands.step image ⟨.make (.file (some linuxFile) pw) path, clock, output, printed⟩ image') :
    printed = [] := by
  obtain ⟨j, l', sub, name, hends, htree, hfind⟩ := h.hasTree.endsIn_of_resolve hn
  have hle : linuxFile.content.length ≤ image.load.blockSize := by
    have hlast := hharmless hroot _ _ _ hends
    obtain ⟨t₁, t₂, rfl, hnone, hfor⟩ := Tree.exists_of_find hfind
    obtain ⟨ht₁, -, -⟩ := Tree.heldBy_split.1 htree.heldBy
    rw [FileSystem.Harmless.eq_def, FileSystem.lookup_of_split ht₁ hnone hfor] at hlast
    exact hlast hopens hwrite
  have hlast : ∀ (dir : DirectoryEntry) (index : ℕ), image.load.Table dir.firstBlockIndex l' sub.records → ∃ s₁,
      Settles (fun fuel => image.load.mkdirLast (.file (some linuxFile) pw) (clock index) fuel dir name
        (image.load.lookup l' 0 sub.records name)) (.ok (s₁, (linuxFile.content.length : ℤ))) ∧ s₁.printed = [] := by
    intro dir index htable
    have htree' : image.load.HasTree dir.firstBlockIndex l' sub := { htree with table := htable }
    exact htree'.mkdirLast_overwrites h.consistent hfind hopens hwrite hle dir (clock index)
  have hroot' : image.load.sb.rootDir.firstBlockIndex = image.load.sb.rootDir.firstBlockIndex := rfl
  obtain ⟨s₁, hset, hprinted⟩ := hends.mkdirHelper (fun s => s.printed = []) 0 hroot' (fun _ _ _ h => h) hlast
  obtain ⟨name', names, rfl⟩ := List.exists_cons_of_ne_nil hends.ne_nil
  have hentry := settles_mkdirEntry (isRoot_cons.not.1 hroot) hset
  rw [if_neg (by omega)] at hentry
  obtain ⟨s, hset', hp, -⟩ := hstep
  obtain ⟨rfl, -⟩ := Prod.mk.inj (Except.ok.inj (hset'.unique (settles_exec_make hentry)))
  exact hp.symm.trans hprinted

end Image

/-! ## Queries -/

/-- What is at the end of the path of a query that is answered, before and after. -/
inductive Replies (q : Query) (now : Stamp) : Option Node → Option Node → Output → Prop
  | dir {r : Record} {l : List ℕ} {sub : Tree} : q = .dir →
    Replies q now (some (.dir r l sub)) (some (.dir r l sub)) (.listed (FileSystem.listings sub.records))
  | read {r : Record} {l : List ℕ} {content : List UInt8} {pw : Option CString} : q = .read pw → r.entry.Opens pw →
    checkAttribute r.entry.attributes readPermission →
    Replies q now (some (.file r l content)) (some (.file r l content)) (.copied (r.entry.stored content).toLinux)
  | change {r r' : Record} {l : List ℕ} {content : List UInt8} {c : Change} {pw : Option CString}
    {e' : DirectoryEntry} : q = .change c pw → r.entry.Opens pw → c.apply r.entry = some e' →
    r'.entry = e'.updateEntryTime now → Replies q now (some (.file r l content)) (some (.file r' l content)) .none

section

variable {s : FileSystem} {t t' : Tree} {q : Query} {now : Stamp} {clock : ℕ → Stamp} {path : List CString}
  {output : Output} {accepted : Bool} {c : Change} {pw : Option CString}

theorem Walks.replies (h : Walks q now path t t' output accepted) (hacc : accepted = true) :
    Replies q now (t.resolve path) (t'.resolve path) output := by
  cases h with
  | refused => cases hacc
  | listed hq hfind =>
    rw [Tree.resolve, hfind]
    exact .dir hq
  | copied hq hfind hopens hread =>
    rw [Tree.resolve, hfind]
    exact .read hq hopens hread
  | @changed name t₁ t₂ r r' l content c pw e' hq hnone hfor hopens happly hentry hname =>
    have hbefore : (t₁ ++ (Node.file r l content).cons t₂).find name = some (.file r l content) :=
      Tree.find_split (n := .file r l content) hnone hfor t₂
    have hafter : (t₁ ++ (Node.file r' l content).cons t₂).find name = some (.file r' l content) :=
      Tree.find_split (n := .file r' l content) hnone (hfor.change happly hentry hname) t₂
    rw [Tree.resolve, Tree.resolve, hbefore, hafter]
    exact .change hq hopens happly hentry

/-- Only an accepted change has an effect. -/
theorem Walks.items_eq (h : Walks q now path t t' output accepted) (hq : accepted = true → ∀ c pw, q ≠ .change c pw) :
    t'.items = t.items := by
  cases h with
  | refused | listed _ _ | copied _ _ _ _ => rfl
  | changed hchange _ _ _ _ _ _ => exact absurd hchange (hq rfl _ _)

theorem Walks.items_put (h : Walks (.change c pw) now path t t' output accepted) (hacc : accepted = true) :
    path ≠ [] ∧ ∃ item, t'.items = t.items.put path item := by
  cases h with
  | refused => cases hacc
  | listed hq _ | copied hq _ _ _ => cases hq
  | @changed name t₁ t₂ r r' l content _ _ e' _ hnone hfor _ happly hentry hname =>
    have hempty : (Node.file r' l content).sub.items = .empty := Tree.items_empty fun _ => rfl
    exact ⟨List.cons_ne_nil _ _, _, Tree.items_replace (n := .file r l content) hnone hfor
      (hfor.change happly hentry hname) hempty⟩

theorem Walks.output_eq (h : Walks q now path t t' output false) : output = .none := by
  cases h with
  | refused => rfl

/-- The file after a change. -/
theorem stored_updateEntryTime (e : DirectoryEntry) (content : List UInt8) (now : Stamp) :
    (e.updateEntryTime now).stored content = { e.stored content with updated := now.updated } := rfl

/-- A query that is answered, on the namespaces of the trees. -/
theorem serves_of_walks
    (halong : Along (fun _ r => r) (fun path t t' => Walks q (clock 0) path t t' output true) 0 path t t')
    (hroot : ¬IsRoot path) (ht : t.HeldBy s) (hdistinct : t.Distinct) :
    Serves clock (.ask q path) t.items t'.items output true := by
  have hreplies : Replies q (clock 0) (t.resolve path) (t'.resolve path) output :=
    Tree.ends_of_along (R := fun o o' => Replies q (clock 0) o o' output) halong (fun _ _ _ hfor => hfor)
      fun _ _ _ hwalks => hwalks.replies rfl
  have hsame : (∀ c pw, q ≠ .change c pw) → t'.items = t.items := fun hq =>
    Tree.items_eq_of_along halong (fun _ _ _ hfor => hfor) (fun _ _ => rfl) fun _ _ _ hwalks => hwalks.items_eq fun _ => hq
  generalize ho : t.resolve path = o at hreplies
  generalize ho' : t'.resolve path = o' at hreplies
  cases hreplies with
  | @dir r l sub hq =>
    subst hq
    rw [hsame (by simp)]
    exact .dir hroot ⟨_, congrArg (Option.map Node.item) ho⟩ (Tree.lists_of_resolve ht hdistinct ho)
  | @read r l content pw hq hopens hread =>
    subst hq
    rw [hsame (by simp)]
    exact .read hroot (congrArg (Option.map Node.item) ho) (DirectoryEntry.opens_stored.2 hopens) hread
  | @change r r' l content c pw e' hq hopens happly hentry =>
    subst hq
    obtain ⟨-, item, hitems⟩ := Tree.items_of_along halong (fun _ _ _ hfor => hfor) (fun _ _ => rfl)
      fun _ _ _ hwalks => hwalks.items_put rfl
    have hput : t'.items path = some item := by rw [hitems, Namespace.put_self]
    obtain rfl := Option.some.inj ((congrArg (Option.map Node.item) ho').symm.trans hput)
    have hchange : (r.entry.stored content).change c = some (e'.stored content) := by
      rw [← change_stored, happly]
      rfl
    rw [hitems, Node.item, hentry, stored_updateEntryTime]
    exact .change hroot (congrArg (Option.map Node.item) ho) (DirectoryEntry.opens_stored.2 hopens) hchange

end

/-- The node of a file. -/
theorem exists_of_items {t : Tree} {path : List CString} {f : StoredFile} (hf : t.items path = some (.file f)) :
    ∃ r l content, t.resolve path = some (.file r l content) ∧ f = r.entry.stored content := by
  obtain ⟨n, hn, hitem⟩ := Option.map_eq_some_iff.1 hf
  cases n with
  | file r l content => exact ⟨r, l, content, hn, (Item.file.inj hitem).symm⟩
  | dir r l sub => cases hitem

/-- The walk comes to the entry that the path leads to. -/
theorem FileSystem.Resolves.exists_traverseDirHelper {s : FileSystem} {dir e : DirectoryEntry} {path : List CString}
    {q : Query} {now : Stamp} {P : FileSystem × Output → Prop} (h : s.Resolves dir path e)
    (hlast : ∀ offset, ∃ x, Settles (fun fuel => s.traverseLast q now fuel e offset) (.ok x) ∧ P x) :
    ∃ x, Settles (fun fuel => s.traverseDirHelper q now fuel path dir) (.ok x) ∧ P x := by
  induction h with
  | @last _ _ _ offset hset =>
    obtain ⟨x, hx, hP⟩ := hlast offset
    refine ⟨x, settles_traverseDirHelper hset (hx.congr fun fuel => ?_), hP⟩
    rw [traverseFound, if_pos rfl]
  | cons hset hdir hres ih =>
    obtain ⟨x, hx, hP⟩ := ih hlast
    refine ⟨x, settles_traverseDirHelper hset (hx.congr fun fuel => ?_), hP⟩
    rw [traverseFound, if_neg hres.ne_nil, if_pos hdir]

namespace Image

variable {image image' : Image} {l : List ℕ} {t : Tree} {n : Node} {path : List CString} {q : Query}
  {clock : ℕ → Stamp} {output : Output} {printed : List Message}

/-- The walk of a query. -/
theorem HasTree.ask_step (h : image.HasTree l t) (hsingle : t.Single) (hpath : path ≠ []) (hroot : ¬IsRoot path)
    (hstep : commands.step image ⟨.ask q path, clock, output, printed⟩ image') :
    ∃ t' accepted, Along (fun _ r => r) (fun path t t' => Walks q (clock 0) path t t' output accepted) 0 path t t' ∧
      image'.HasTree l t' ∧ (printed = [] ↔ accepted = true) := by
  obtain ⟨s', t', out, accepted, hset, halong, hanswers⟩ := FileSystem.traverseDirHelper_tree h.consistent h.hasTree q
    (clock 0) 0 path fun r l content hres => hsingle.length_le h.hasTree.heldBy hres
  obtain ⟨name, names, rfl⟩ := List.exists_cons_of_ne_nil hpath
  have hexec : Settles (image.exec (.ask q (name :: names)) clock) (.ok (s', out)) := by
    rw [exec_ask]
    exact hset.congr fun fuel => if_neg (isRoot_cons.not.1 hroot)
  obtain ⟨s, hset', rfl, rfl⟩ := hstep
  obtain ⟨rfl, rfl⟩ := Prod.mk.inj (Except.ok.inj (hset'.unique hexec))
  exact ⟨t', accepted, halong, .of_stored hanswers.consistent (hanswers.sb ▸ hanswers.hasTree), hanswers.printed⟩

/-- A query of the root directory, or without a path. -/
theorem HasTree.ask_root (h : image.HasTree l t) (hroot : path = [] ∨ IsRoot path)
    (hstep : commands.step image ⟨.ask q path, clock, output, printed⟩ image') :
    image'.HasTree l t ∧ (q = .dir ∧ IsRoot path ∧ output = .listed (FileSystem.listings t.records) ∨
      (IsRoot path → q ≠ .dir) ∧ output = .none) := by
  obtain ⟨s, hset, -, rfl⟩ := hstep
  have hexec : ∃ out, Settles (image.exec (.ask q path) clock) (.ok (image.load, out)) ∧
      (q = .dir ∧ IsRoot path ∧ out = .listed (FileSystem.listings t.records) ∨ (IsRoot path → q ≠ .dir) ∧ out = .none) := by
    rw [exec_ask]
    rcases path with _ | ⟨name, names⟩
    · exact ⟨.none, Settles.const _, .inr ⟨by simp [IsRoot], rfl⟩⟩
    · have hslash : name.chars = [slash] := isRoot_cons.1 (hroot.resolve_left (List.cons_ne_nil _ _))
      cases q with
      | dir =>
        refine ⟨_, ?_, .inl ⟨rfl, isRoot_cons.2 hslash, rfl⟩⟩
        exact (h.hasTree.table.printEntriesInDirectory.bind_const fun listings =>
          .ok (image.load, Output.listed listings)).congr fun fuel => if_pos hslash
      | read pw | change c pw =>
        exact ⟨.none, (Settles.const _).congr fun fuel => if_pos hslash, .inr ⟨by simp, rfl⟩⟩
  obtain ⟨out, hexec, hout⟩ := hexec
  obtain ⟨rfl, rfl⟩ := Prod.mk.inj (Except.ok.inj (hset.unique hexec))
  exact ⟨h.self.1, hout⟩

/-- A query that may be answered is. -/
theorem HasTree.granted (h : image.HasTree l t) (hsingle : t.Single) (hroot : ¬IsRoot path)
    (hgranted : Granted t.items path q)
    (hstep : commands.step image ⟨.ask q path, clock, output, printed⟩ image') : printed = [] := by
  -- The walk comes to the entry, where no message is printed.
  have hanswer : ∀ {n : Node}, t.resolve path = some n → (∀ offset, ∃ x : FileSystem × Output,
      Settles (fun fuel => image.load.traverseLast q (clock 0) fuel n.record.entry offset) (.ok x) ∧
        x.1.printed = []) → printed = [] := by
    intro n hn hlast
    have hres : image.Resolves path n.record.entry := h.resolves_iff.2 ⟨n, hn, rfl⟩
    obtain ⟨x, hset, hx⟩ := FileSystem.Resolves.exists_traverseDirHelper hres hlast
    obtain ⟨name, names, rfl⟩ := List.exists_cons_of_ne_nil (FileSystem.Resolves.ne_nil hres)
    have hexec : Settles (image.exec (.ask q (name :: names)) clock) (.ok x) := by
      rw [exec_ask]
      exact hset.congr fun fuel => if_neg (isRoot_cons.not.1 hroot)
    obtain ⟨s, hset', hp, -⟩ := hstep
    obtain rfl := Except.ok.inj (hset'.unique hexec)
    exact hp.symm.trans hx
  cases q with
  | dir =>
    obtain ⟨d, hd⟩ := hgranted
    obtain ⟨n, hn, hitem⟩ := Option.map_eq_some_iff.1 hd
    cases n with
    | file r l content => cases hitem
    | dir r l' sub =>
      have hdir := (h.hasTree.heldBy.resolve hn).1
      refine hanswer hn fun offset => ⟨(image.load, .listed (FileSystem.listings sub.records)), ?_, rfl⟩
      exact (hdir.table.printEntriesInDirectory.bind_const fun listings =>
        .ok (image.load, Output.listed listings)).congr fun fuel => if_neg hdir.isDirectory.2
  | read pw =>
    obtain ⟨f, hf, hopens, hread⟩ := hgranted
    obtain ⟨r, l', content, hn, rfl⟩ := exists_of_items hf
    have hstores : image.load.StoresFile r l' content := h.hasTree.heldBy.resolve hn
    exact hanswer hn fun offset => ⟨_, hstores.copied h.consistent.geometry (hsingle.length_le h.hasTree.heldBy hn)
      (DirectoryEntry.opens_stored.1 hopens) hread (clock 0) offset, rfl⟩
  | change c pw =>
    obtain ⟨f, hf, hopens, hchange⟩ := hgranted
    obtain ⟨r, l', content, hn, rfl⟩ := exists_of_items hf
    have hstores : image.load.StoresFile r l' content := h.hasTree.heldBy.resolve hn
    rw [← change_stored, Option.isSome_map] at hchange
    obtain ⟨e', he'⟩ := Option.isSome_iff_exists.1 hchange
    refine hanswer hn fun offset => ⟨(image.load.writeEntry offset (e'.updateEntryTime (clock 0)), .none),
      (Settles.const _).congr fun fuel => ?_, rfl⟩
    have hentry : image.load.changeEntry r.entry offset c pw (clock 0) =
        .ok (image.load.writeEntry offset (e'.updateEntryTime (clock 0))) := by
      rw [FileSystem.changeEntry, if_neg hstores.isFile.2, DirectoryEntry.wrongPassword_eq hstores.hasPassword]
      refine (if_neg (by simpa using DirectoryEntry.opens_stored.1 hopens)).trans ?_
      rw [he']
    rw [FileSystem.traverseLast]
    dsimp only [Node.record]
    rw [hentry]
    rfl

/-! ## The simulation -/

/-- The image represents the namespace of its tree. -/
def Represents (image : Image) (ns : Files) : Prop :=
  ∃ l t, image.HasTree l t ∧ t.Single ∧ t.Distinct ∧ ns = t.items

/-- What the entries of the image tell is the namespace. -/
def Shows (image : Image) (ns : Files) : Prop :=
  (∀ path d, ns path = some (.dir d) ↔ ∃ e, image.Resolves path e ∧ e.IsDirectory ∧ e.created = d) ∧
    ∀ path f, ns path = some (.file f) ↔ ∃ e, image.HasFile path e f.content ∧ e.stored f.content = f

theorem HasTree.shows (h : image.HasTree l t) : image.Shows t.items := by
  refine ⟨fun path d => ?_, fun path f => ?_⟩
  · constructor
    · intro hd
      obtain ⟨n, hn, hitem⟩ := Option.map_eq_some_iff.1 hd
      cases n with
      | file r l content => cases hitem
      | dir r l sub =>
        have hdir := (h.hasTree.heldBy.resolve hn).1
        exact ⟨r.entry, h.resolves_iff.2 ⟨_, hn, rfl⟩, hdir.isDirectory, Item.dir.inj hitem⟩
    · rintro ⟨e, hres, hdir, rfl⟩
      obtain ⟨n, hn, rfl⟩ := h.resolves_iff.1 hres
      obtain ⟨r, l, sub, rfl⟩ := (h.hasTree.heldBy.resolve hn).isDirectory_iff.1 hdir
      exact congrArg (Option.map Node.item) hn
  · constructor
    · intro hf
      obtain ⟨r, l', content, hn, rfl⟩ := exists_of_items hf
      exact ⟨r.entry, h.hasFile_iff.2 ⟨r, l', hn, rfl⟩, rfl⟩
    · rintro ⟨e, hfile, hf⟩
      obtain ⟨r, l', hn, rfl⟩ := h.hasFile_iff.1 hfile
      exact (congrArg (Option.map Node.item) hn).trans (congrArg (fun f => some (Item.file f)) hf)

/-- A `mkdir` or `write` is one on the namespace. -/
theorem HasTree.serves_make {target : Target} (h : image.HasTree l t) (hsingle : t.Single) (hdistinct : t.Distinct)
    (hharmless : image.Harmless (.make target path))
    (hstep : commands.step image ⟨.make target path, clock, output, printed⟩ image') :
    ∃ ns, files.step t.items ⟨.make target path, clock, output, printed⟩ ns ∧ image'.Represents ns := by
  obtain ⟨t', accepted, hmoves, h', hsingle', hprinted, hmade⟩ := h.step_made hsingle hharmless hstep
  have hdistinct' := hmoves.distinct h.hasTree.heldBy hdistinct
  refine ⟨t'.items, ⟨accepted, ?_, hprinted⟩, l, t', h', hsingle', hdistinct', rfl⟩
  have hmade := hmade target path rfl
  change Moves _ clock (.make target path) _ _ _ _ output accepted at hmoves
  generalize hsb : image'.load.sb = sb' at hmoves
  cases hmoves with
  | @make _ _ _ _ _ res out _ halong =>
    by_cases hacc : out.accepted = true
    · rw [hacc]
      exact serves_of_along halong hacc (hmade hacc)
    · rw [Bool.not_eq_true] at hacc
      have hitems : t'.items = t.items := Tree.items_eq_of_along halong (fun k r name hfor => hfor.mkdirTouch res clock k)
        (mkdirTouch_created res clock) fun _ _ _ hacts => hacts.items_eq hacc
      rw [hitems, hacc]
      refine .refused (by simp) ?_
      rintro linuxFile pw path f ⟨rfl, rfl⟩ hroot hitem ⟨hopens, hwrite⟩
      obtain ⟨r, l', content, hn, rfl⟩ := exists_of_items hitem
      have hnil := h.overwritten hharmless hroot hn (DirectoryEntry.opens_stored.1 hopens) hwrite hstep
      have hgoes : path ≠ [] := by
        rintro rfl
        cases hn
      exact absurd ((hprinted hgoes).1 hnil) (by simp [hacc])

/-- A query is one on the namespace. -/
theorem HasTree.serves_ask (h : image.HasTree l t) (hsingle : t.Single) (hdistinct : t.Distinct)
    (hstep : commands.step image ⟨.ask q path, clock, output, printed⟩ image') :
    ∃ ns, files.step t.items ⟨.ask q path, clock, output, printed⟩ ns ∧ image'.Represents ns := by
  by_cases hroot : path = [] ∨ IsRoot path
  · -- Nothing changes.
    obtain ⟨h', hout⟩ := h.ask_root hroot hstep
    have hnot : ¬Command.Goes (.ask q path) := fun hgoes => hroot.elim hgoes.1 hgoes.2
    refine ⟨t.items, ⟨false, ?_, fun hgoes => absurd hgoes hnot⟩, l, t, h', hsingle, hdistinct, rfl⟩
    rcases hout with ⟨rfl, hr, rfl⟩ | ⟨hq, rfl⟩
    · exact .root hr (Tree.lists h.hasTree.heldBy hdistinct.1)
    · refine .refused ?_ (by simp)
      rintro q path ⟨rfl, rfl⟩ hr hgranted
      obtain rfl := hroot.resolve_right hr
      cases q with
      | dir =>
        obtain ⟨d, hd⟩ := hgranted
        cases hd
      | read pw | change c pw =>
        obtain ⟨f, hf, -⟩ := hgranted
        cases hf
  · obtain ⟨hpath, hroot⟩ := not_or.1 hroot
    obtain ⟨t', accepted, halong, h', hprinted⟩ := h.ask_step hsingle hpath hroot hstep
    have hmoves : Moves (fun _ => True) clock (.ask q path) t image.load.sb t' image.load.sb output accepted := .ask halong
    refine ⟨t'.items, ⟨accepted, ?_, fun _ => hprinted⟩, l, t', h', hmoves.single hsingle,
      hmoves.distinct h.hasTree.heldBy hdistinct, rfl⟩
    cases accepted with
    | true => exact serves_of_walks halong hroot h.hasTree.heldBy hdistinct
    | false =>
      have hitems : t'.items = t.items := Tree.items_eq_of_along halong (fun _ _ _ hfor => hfor) (fun _ _ => rfl)
        fun _ _ _ hwalks => hwalks.items_eq (by simp)
      obtain ⟨_, _, _, hwalks⟩ := halong.exists
      rw [hitems, hwalks.output_eq]
      refine .refused ?_ (by simp)
      rintro q path ⟨rfl, rfl⟩ hr hgranted
      exact Bool.false_ne_true (hprinted.1 (h.granted hsingle hr hgranted hstep))

end Image

/-- Each command on an image that reaches no defect is one on the namespace that the image represents. -/
theorem commands_simulates :
    (commands.restrict fun image e => image.Harmless e.command).Simulates files some Image.Represents := by
  rintro image _ ⟨c, clock, output, printed⟩ image' ⟨l, t, h, hsingle, hdistinct, rfl⟩ ⟨hharmless, hstep⟩
  cases c with
  | make target path => exact h.serves_make hsingle hdistinct hharmless hstep
  | ask q path => exact h.serves_ask hsingle hdistinct hstep

/-- **The commands refine those on namespaces.** After any run of commands that reach no defect, the image
    shows the namespace to which the same commands lead, with the same outputs and refusals, from the empty one. -/
theorem commands_refines {g : Garbage} {now : Stamp} {is1024 : Bool} (hg : g.Clean is1024) {events : List Event}
    {image : Image}
    (hruns : (commands.restrict fun image e => image.Harmless e.command).Runs (createFilesystem g now is1024) events image) :
    ∃ ns, files.Runs .empty events ns ∧ ns.WellFormed ∧ image.Shows ns := by
  obtain ⟨l, h⟩ := hasTree_createFilesystem hg now
  have hempty : (createFilesystem g now is1024).Represents .empty :=
    ⟨l, emptyTree, h, trivial, ⟨List.nodup_nil, trivial⟩, (Tree.items_empty fun _ => rfl).symm⟩
  obtain ⟨ns, hns, l, t, htree, -, -, rfl⟩ := commands_simulates.runs hempty hruns
  rw [List.filterMap_some] at hns
  exact ⟨t.items, hns, wellFormed_files ((System.Reachable.init rfl).steps hns.steps), htree.shows⟩

/-- A directory is made. -/
theorem commands_refines_newImage : ∃ events ns image, events ≠ [] ∧ files.Runs .empty events ns ∧ ns.WellFormed ∧
    Image.Shows image ns := by
  have hharmless : newImage.Harmless (.make .dir [FileSystem.newName]) :=
    harmless_newImage .dir hasPlace_newImage
  have heval : yields (newImage.exec (.make .dir [FileSystem.newName]) stopped 10) (fun _ => true) = true := by
    decide +kernel
  obtain ⟨s, output, hstep, -⟩ := Image.step_of_yields _ _ _ _ heval
  have hruns : (commands.restrict fun image e => image.Harmless e.command).Runs newImage
      ([] ++ [⟨.make .dir [FileSystem.newName], stopped, output, s.printed⟩]) s.toImage :=
    .step .refl ⟨hharmless, hstep⟩
  obtain ⟨ns, hns, hwell, hshows⟩ := commands_refines clean_zero hruns
  exact ⟨_, ns, s.toImage, List.cons_ne_nil _ _, hns, hwell, hshows⟩

end GtuOs.FatFileSystem

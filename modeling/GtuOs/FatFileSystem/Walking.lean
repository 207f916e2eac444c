import GtuOs.FatFileSystem.Growing

/-!
# `dir`, `read`, `chmod` and `addpw` on the tree

What `traverse_dir_helper` does on a consistent file system with a tree: at the end of the path, a
directory is listed, a file is copied, or the header of a file is changed, or nothing is done
(`Walks`).
-/

namespace GtuOs.FatFileSystem

variable {e e' : DirectoryEntry} {c : Change}

/-! ## Changes -/

/-- The permissions are not the password, nor do they tell a file from a directory. -/
theorem DirectoryEntry.setPermission_keeps {isPlus : Bool} {letter : UInt8}
    (h : e.setPermission isPlus letter = some e') : e'.pw = e.pw ∧ ∀ permission,
      permission = passwordEnabled ∨ permission = directory ∨ permission = file →
        checkAttribute e'.attributes permission = checkAttribute e.attributes permission := by
  have hset : ∀ p, p = readPermission ∨ p = writePermission → ∀ permission,
      permission = passwordEnabled ∨ permission = directory ∨ permission = file → ∀ a,
        checkAttribute (setAttribute a p) permission = checkAttribute a permission ∧
          checkAttribute (removeAttribute a p) permission = checkAttribute a permission := by
    rintro _ (rfl | rfl) _ (rfl | rfl | rfl) <;> exact forall_uint8 (by decide +kernel)
  rw [setPermission] at h
  split_ifs at h <;> obtain rfl := Option.some.inj h
  all_goals refine ⟨rfl, fun permission hp => ?_⟩
  · exact (hset _ (.inl rfl) _ hp _).1
  · exact (hset _ (.inl rfl) _ hp _).2
  · exact (hset _ (.inr rfl) _ hp _).1
  · exact (hset _ (.inr rfl) _ hp _).2

theorem DirectoryEntry.setPermissionGivenFromCommand_keeps {mods : CString}
    (h : e.setPermissionGivenFromCommand mods = some e') : e'.pw = e.pw ∧ ∀ permission,
      permission = passwordEnabled ∨ permission = directory ∨ permission = file →
        checkAttribute e'.attributes permission = checkAttribute e.attributes permission := by
  rw [setPermissionGivenFromCommand] at h
  dsimp only at h
  split_ifs at h
  · obtain ⟨e₁, h₁, h₂⟩ := Option.bind_eq_some_iff.1 h
    obtain ⟨hpw₁, hkeep₁⟩ := setPermission_keeps h₁
    obtain ⟨hpw₂, hkeep₂⟩ := setPermission_keeps h₂
    exact ⟨hpw₂.trans hpw₁, fun p hp => (hkeep₂ p hp).trans (hkeep₁ p hp)⟩
  · obtain ⟨e₁, -, h₂⟩ := Option.bind_eq_some_iff.1 h
    cases h₂
  · obtain ⟨e₁, h₁, h₂⟩ := Option.bind_eq_some_iff.1 h
    obtain rfl := Option.some.inj h₂
    exact setPermission_keeps h₁

/-- A file is still a file, and has a password if it needs one. -/
theorem Change.apply_isFile (h : c.apply e = some e') (hfile : e.IsFile) (hpw : e.HasPassword) :
    e'.IsFile ∧ e'.HasPassword := by
  cases c with
  | chmod mods =>
    obtain ⟨hkeep, hattr⟩ := DirectoryEntry.setPermissionGivenFromCommand_keeps h
    have hbytes : e'.pwBytes = e.pwBytes := congrArg List.ofFn hkeep
    rw [DirectoryEntry.IsFile, DirectoryEntry.HasPassword, hattr _ (.inr (.inr rfl)), hattr _ (.inr (.inl rfl)),
      hattr _ (.inl rfl), hbytes]
    exact ⟨hfile, hpw⟩
  | addpw newPwd =>
    rw [apply] at h
    split_ifs at h with hlen
    obtain rfl := Option.some.inj h
    have hset : ∀ permission, permission = directory ∨ permission = file → ∀ a,
        checkAttribute (setAttribute a passwordEnabled) permission = checkAttribute a permission := by
      rintro _ (rfl | rfl) <;> exact forall_uint8 (by decide +kernel)
    have hlt : newPwd.chars.length < passwordSize := by
      simp only [passwordSize] at hlen ⊢
      omega
    refine ⟨?_, (DirectoryEntry.opens_copyPassword hlt).1⟩
    have hfile' := hfile
    rw [DirectoryEntry.IsFile, ← hset _ (.inr rfl), ← hset _ (.inl rfl)] at hfile'
    exact hfile'

/-! ## The end of the path -/

/-- What a query does at the end of the path, and whether it is accepted. -/
inductive Walks (q : Query) (now : Stamp) : List CString → Tree → Tree → Output → Bool → Prop
  | refused {path : List CString} {t : Tree} : Walks q now path t t .none false
  | listed {name : CString} {t : Tree} {r : Record} {l : List ℕ} {sub : Tree} : q = .dir →
    t.find name = some (.dir r l sub) → Walks q now [name] t t (.listed (FileSystem.listings sub.records)) true
  | copied {name : CString} {t : Tree} {r : Record} {l : List ℕ} {content : List UInt8} {pw : Option CString} :
    q = .read pw → t.find name = some (.file r l content) → r.entry.Opens pw →
    checkAttribute r.entry.attributes readPermission →
    Walks q now [name] t t (.copied ⟨content, checkAttribute r.entry.attributes readPermission,
      checkAttribute r.entry.attributes writePermission⟩) true
  | changed {name : CString} {t₁ t₂ : Tree} {r r' : Record} {l : List ℕ} {content : List UInt8} {c : Change}
    {pw : Option CString} {e' : DirectoryEntry} : q = .change c pw → t₁.find name = none → r.IsFor name →
    r.entry.Opens pw → c.apply r.entry = some e' → r'.entry = e'.updateEntryTime now → r'.name = r.name →
    Walks q now [name] (t₁ ++ (Node.file r l content).cons t₂) (t₁ ++ (Node.file r' l content).cons t₂) .none true

namespace FileSystem

variable {s s' : FileSystem} {i : UInt16} {l l' : List ℕ} {t t' t₁ t₂ : Tree} {name : CString}
  {dir : DirectoryEntry} {r : Record} {content : List UInt8} {n : Node}

/-- The file system `s'` after a query on a directory with the tree `t`, which has become `t'`. -/
structure Answers (s s' : FileSystem) (i : UInt16) (l : List ℕ) (t t' : Tree) (accepted : Bool) : Prop where
  consistent : s'.Consistent
  hasTree : s'.HasTree i l t'
  keeps : s.Keeps s' {b | b ∈ l ++ t.blocks}
  blocks : t'.blocks = t.blocks
  sb : s'.sb = s.sb
  fat : s'.fat = s.fat
  printed : s'.printed = s.printed ↔ accepted

theorem HasTree.answers (ht : s.HasTree i l t) (hs : s.Consistent) : s.Answers s i l t t true :=
  ⟨hs, ht, .refl _ _, rfl, rfl, rfl, iff_of_true rfl rfl⟩

theorem HasTree.answers_print (ht : s.HasTree i l t) (hs : s.Consistent) (m : Message) :
    s.Answers (s.print m) i l t t false :=
  ⟨hs.print m, ht.keeps (keeps_print s m) fun _ _ => Set.notMem_empty _,
    (keeps_print s m).mono (Set.empty_subset _), rfl, rfl, rfl,
    iff_of_false (print_printed_ne s m) Bool.false_ne_true⟩

/-- A file whose header is changed. -/
theorem changeEntry_tree (hs : s.Consistent) (ht : s.HasTree i l (t₁ ++ (Node.file r l' content).cons t₂))
    (hnone : t₁.find name = none) (hfor : r.IsFor name) (c : Change) (pw : Option CString) (now : Stamp) :
    ∃ s' t' accepted, s.changeEntry r.entry
        (Memory.blockAddr s.blockSize l (slot s.blockSize (endOf s.blockSize 0 t₁.records))) c pw now = .ok s' ∧
      Walks (.change c pw) now [name] (t₁ ++ (Node.file r l' content).cons t₂) t' .none accepted ∧
      s.Answers s' i l (t₁ ++ (Node.file r l' content).cons t₂) t' accepted := by
  obtain ⟨-, hfile, -⟩ := Tree.heldBy_split.1 ht.heldBy
  have hfile : s.StoresFile r l' content := hfile
  rw [changeEntry, if_neg hfile.isFile.2, DirectoryEntry.wrongPassword_eq hfile.hasPassword]
  by_cases hopens : r.entry.Opens pw
  swap
  · exact ⟨_, _, false, if_pos (decide_eq_true hopens), .refused, ht.answers_print hs .wrongPassword⟩
  cases happly : c.apply r.entry with
  | none => exact ⟨_, _, false, if_neg (by simpa using hopens), .refused, ht.answers_print hs c.refusal⟩
  | some e' =>
    -- The new header has the same size, place and blocks.
    have heq := Change.apply_eq happly
    obtain ⟨hisFile, hpw⟩ := Change.apply_isFile happly hfile.isFile hfile.hasPassword
    have hentry : (e'.updateEntryTime now).entrySize = r.entry.entrySize := by rw [heq]; rfl
    have hact : (e'.updateEntryTime now).isActiveEntry = r.entry.isActiveEntry := by rw [heq]; rfl
    have hlast : (e'.updateEntryTime now).isLastEntry = r.entry.isLastEntry := by rw [heq]; rfl
    have hfirst : (e'.updateEntryTime now).firstBlockIndex = r.entry.firstBlockIndex := by rw [heq]; rfl
    have hsize : (e'.updateEntryTime now).size = r.entry.size := by rw [heq]; rfl
    let r' : Record := ⟨e'.updateEntryTime now, r.name, hentry ▸ r.entrySize_eq, hact ▸ r.terminated⟩
    have hheld : (Node.file r' l' content).HeldBy s :=
      { hfile with
        active := by rw [Record.Active, hact]; exact hfile.active
        isFile := hisFile
        hasPassword := hpw
        chained := by rw [hfirst]; exact hfile.chained
        length_eq := by rw [hsize]; exact hfile.length_eq }
    obtain ⟨hk, hst, htree⟩ := ht.rewrite hs (.file r' l' content) rfl
      (iff_of_eq (congrArg (fun isLastEntry : UInt8 => isLastEntry ≠ 0) hlast)) (List.Sublist.refl _) hheld
    have hwalks : Walks (.change c pw) now [name] (t₁ ++ (Node.file r l' content).cons t₂)
        (t₁ ++ (Node.file r' l' content).cons t₂) .none true :=
      .changed rfl hnone hfor hopens happly rfl rfl
    refine ⟨_, _, true, if_neg (by simpa using hopens), hwalks, hs.of_keeps hk hst rfl rfl, htree, ?_, ?_, rfl, rfl,
      iff_of_true rfl rfl⟩
    · exact hk.mono fun b hb => List.mem_append_left _ hb
    · rw [Tree.blocks_split, Tree.blocks_split]
      rfl

/-- What `read` does with a file, after the checks. -/
theorem StoresFile.traverseLast_read (h : s.StoresFile r l content) (pw : Option CString) (now : Stamp) (fuel offset : ℕ) :
    s.traverseLast (.read pw) now fuel r.entry offset =
      if r.entry.Opens pw then
        if checkAttribute r.entry.attributes readPermission then
          s.printFile r.entry fuel >>= fun linuxFile => .ok (s, .copied linuxFile)
        else .ok (s.print .noPermissionToRead, .none)
      else .ok (s.print .wrongPassword, .none) := by
  refine (if_neg h.isFile.2).trans ?_
  rw [DirectoryEntry.wrongPassword_eq h.hasPassword]
  by_cases hopens : r.entry.Opens pw
  · rw [if_pos hopens]
    exact if_neg (by simpa using hopens)
  · rw [if_neg hopens]
    exact if_pos (decide_eq_true hopens)

/-- A file that is copied. -/
theorem StoresFile.copied (h : s.StoresFile r l content) (hs : s.Geometry) (hle : content.length ≤ s.blockSize)
    {pw : Option CString} (hopens : r.entry.Opens pw) (hread : checkAttribute r.entry.attributes readPermission)
    (now : Stamp) (offset : ℕ) :
    Settles (fun fuel => s.traverseLast (.read pw) now fuel r.entry offset) (.ok (s, .copied ⟨content,
      checkAttribute r.entry.attributes readPermission, checkAttribute r.entry.attributes writePermission⟩)) := by
  refine ((h.printFile hs hle).bind_const fun linuxFile => .ok (s, Output.copied linuxFile)).congr fun fuel => ?_
  exact (h.traverseLast_read pw now fuel offset).trans ((if_pos hopens).trans (if_pos hread))

/-- The node at the end of the path. -/
theorem traverseLast_tree (hs : s.Consistent) (ht : s.HasTree i l (t₁ ++ n.cons t₂))
    (hnone : t₁.find name = none) (hfor : n.record.IsFor name)
    (hsmall : ∀ r l content, n = .file r l content → content.length ≤ s.blockSize) (q : Query) (now : Stamp) :
    ∃ s' t' out accepted, Settles (fun fuel => s.traverseLast q now fuel n.record.entry
        (Memory.blockAddr s.blockSize l (slot s.blockSize (endOf s.blockSize 0 t₁.records)))) (.ok (s', out)) ∧
      Walks q now [name] (t₁ ++ n.cons t₂) t' out accepted ∧ s.Answers s' i l (t₁ ++ n.cons t₂) t' accepted := by
  obtain ⟨-, hn, -⟩ := Tree.heldBy_split.1 ht.heldBy
  have hfind := Tree.find_split hnone hfor t₂
  -- One case for each kind of node and of query, as the checks of the source.
  cases n with
  | dir r l' sub =>
    obtain ⟨hdir, -⟩ := hn
    cases q with
    | dir =>
      refine ⟨s, _, _, true, ?_, .listed rfl hfind, ht.answers hs⟩
      refine (hdir.table.printEntriesInDirectory.bind_const fun listings =>
        .ok (s, Output.listed listings)).congr fun fuel => ?_
      exact if_neg hdir.isDirectory.2
    | read pw =>
      exact ⟨_, _, _, false, (Settles.const _).congr fun fuel => if_pos hdir.isDirectory.1, .refused,
        ht.answers_print hs .notAFile⟩
    | change c pw =>
      have hstep : s.changeEntry r.entry (Memory.blockAddr s.blockSize l
          (slot s.blockSize (endOf s.blockSize 0 t₁.records))) c pw now = .ok (s.print .notAFile) :=
        if_pos hdir.isDirectory.1
      refine ⟨_, _, _, false, (Settles.const _).congr fun fuel => ?_, .refused, ht.answers_print hs .notAFile⟩
      rw [traverseLast]
      dsimp only [Node.record]
      rw [hstep]
      rfl
  | file r l' content =>
    have hfile : s.StoresFile r l' content := hn
    cases q with
    | dir =>
      exact ⟨_, _, _, false, (Settles.const _).congr fun fuel => if_pos hfile.isFile.1, .refused,
        ht.answers_print hs .notADirectory⟩
    | read pw =>
      by_cases hopens : r.entry.Opens pw
      swap
      · refine ⟨_, _, _, false, (Settles.const _).congr fun fuel => ?_, .refused,
          ht.answers_print hs .wrongPassword⟩
        exact (hfile.traverseLast_read pw now fuel _).trans (if_neg hopens)
      by_cases hread : checkAttribute r.entry.attributes readPermission
      swap
      · refine ⟨_, _, _, false, (Settles.const _).congr fun fuel => ?_, .refused,
          ht.answers_print hs .noPermissionToRead⟩
        exact (hfile.traverseLast_read pw now fuel _).trans ((if_pos hopens).trans (if_neg hread))
      exact ⟨s, _, _, true, hfile.copied hs.geometry (hsmall r l' content rfl) hopens hread now _,
        .copied rfl hfind hopens hread, ht.answers hs⟩
    | change c pw =>
      obtain ⟨s', t', accepted, hset, hwalks, hanswers⟩ := changeEntry_tree hs ht hnone hfor c pw now
      refine ⟨s', t', .none, accepted, (Settles.const _).congr fun fuel => ?_, hwalks, hanswers⟩
      rw [traverseLast]
      dsimp only [Node.record]
      rw [hset]
      rfl

/-- The walk along the path. -/
theorem traverseDirHelper_tree (hs : s.Consistent) (ht : s.HasTree dir.firstBlockIndex l t) (q : Query)
    (now : Stamp) (index : ℕ) (path : List CString)
    (hsmall : ∀ r l content, t.resolve path = some (.file r l content) → content.length ≤ s.blockSize) :
    ∃ s' t' out accepted, Settles (fun fuel => s.traverseDirHelper q now fuel path dir) (.ok (s', out)) ∧
      Along (fun _ r => r) (fun path t t' => Walks q now path t t' out accepted) index path t t' ∧
      s.Answers s' dir.firstBlockIndex l t t' accepted := by
  induction path generalizing dir l t index with
  | nil =>
    exact ⟨_, t, .none, false, Settles.const _, .here .refused, ht.answers_print hs .directoryCannotFound⟩
  | cons name path ih =>
    have hsearch := ht.table.searchNameInDir name
    cases hfind : t.find name with
    | none =>
      rw [lookup_of_find_none ht.heldBy hfind] at hsearch
      exact ⟨_, t, .none, false, settles_traverseDirHelper hsearch (Settles.const _), .here .refused,
        ht.answers_print hs (.doesNotExist name)⟩
    | some n =>
      obtain ⟨t₁, t₂, rfl, hnone, hfor⟩ := Tree.exists_of_find hfind
      obtain ⟨ht₁, hn, -⟩ := Tree.heldBy_split.1 ht.heldBy
      rw [lookup_of_split ht₁ hnone hfor] at hsearch
      cases path with
      | nil =>
        obtain ⟨s', t', out, accepted, hset, hwalks, hanswers⟩ := traverseLast_tree hs ht hnone hfor
          (fun r l content heq => hsmall r l content (hfind.trans (congrArg some heq))) q now
        refine ⟨s', t', out, accepted, settles_traverseDirHelper hsearch (hset.congr fun fuel => ?_),
          .here hwalks, hanswers⟩
        rw [traverseFound, if_pos rfl]
      | cons name' path =>
        have hcons := List.cons_ne_nil name' path
        cases n with
        | file r l' content =>
          have hfile : s.StoresFile r l' content := hn
          refine ⟨_, _, .none, false, settles_traverseDirHelper hsearch ((Settles.const _).congr fun fuel => ?_),
            .here .refused, ht.answers_print hs .nameNotADirectory⟩
          rw [traverseFound, if_neg hcons]
          exact if_neg hfile.isFile.2
        | dir r l' sub =>
          obtain ⟨hdir, -⟩ := hn
          -- The directory is left as it is, around what happens below it.
          obtain ⟨s', sub', out, accepted, hset, halong, hanswers⟩ := ih ht.subtree (index + 1) fun r₁ l₁ content hres =>
            hsmall r₁ l₁ content (by rw [Tree.resolve, hfind]; exact hres)
          refine ⟨s', _, out, accepted, settles_traverseDirHelper hsearch (hset.congr fun fuel => ?_),
            .inside hcons hnone hfor halong, hanswers.consistent, ht.inside hanswers.keeps (fun b hb => .inl hb) hanswers.hasTree
              (fun b hb => .inl (hanswers.blocks ▸ hb)), ?_, ?_, hanswers.sb, hanswers.fat, hanswers.printed⟩
          · rw [traverseFound, if_neg hcons]
            exact if_pos hdir.isDirectory.1
          · exact hanswers.keeps.mono fun b hb =>
              List.mem_append_right _ ((Tree.blocks_sublist_split t₁ (.dir r l' sub) t₂).subset hb)
          · rw [Tree.blocks_split, Tree.blocks_split, Node.blocks, Node.blocks, hanswers.blocks]

end FileSystem

end GtuOs.FatFileSystem

import GtuOs.FatFileSystem.Starting

/-!
# Refused commands

A refused `mkdir` or `write` that reaches no defect of growing leaves all bytes as they are, but those of the
update times of the directories on the path, unless it is counted all the same
(`refused_timesOnly_iff`): a file of Linux that cannot be opened as one byte, and a directory for which there is not
enough capacity as a directory (`Image.Miscounts`).
-/

namespace GtuOs.FatFileSystem

namespace FileSystem

variable {s s' s₁ : FileSystem} {i : UInt16} {l l' : List ℕ} {t : Tree} {rs : List Record} {path : List CString}
  {name : CString} {dir e : DirectoryEntry} {offset : ℕ} {target : Target} {clock : ℕ → Stamp} {now : Stamp}

/-- With the table `rs` along `l`, in which the last name of the path is looked up, the refused command is counted. -/
def Miscounts (s : FileSystem) (target : Target) (l : List ℕ) (rs : List Record) (name : CString) : Prop :=
  match s.lookup l 0 rs name, target with
  | none, .dir => ¬s.Suffices l rs name
  | none, .file none _ => True
  | some (e, _), .file none pw => e.Opens pw ∧ checkAttribute e.attributes writePermission
  | _, _ => False

/-- What is counted is told. -/
theorem Miscounts.of_tells {out : Outcome} (hout : out = .unopened ∨ out = .miscounted)
    (h : s.Tells target l rs name out) : s.Miscounts target l rs name := by
  rw [Miscounts.eq_def]
  rcases hout with rfl | rfl
  · obtain ⟨pw, rfl, hchecked⟩ := h
    cases hlookup : s.lookup l 0 rs name with
    | none => trivial
    | some found => exact hchecked _ _ hlookup
  · obtain ⟨rfl, hnone, hnot⟩ := h
    rw [hnone]
    exact hnot

/-! ## The superblock -/

/-- A superblock that is written as it is stored. -/
theorem Consistent.writeSuperblock_eq (hs : s.Consistent) : s.writeSuperblock.toImage = s.toImage := by
  have hle := hs.geometry.superblock_le_length
  have hdisk : s.disk.store 0 Superblock.sizeof s.sb.bytes = s.disk := by
    funext a
    by_cases ha : a < Superblock.sizeof
    · rw [← Nat.zero_add a, Memory.store_add ha, ← hs.stored.superblock]
      exact Superblock.bytes_load ha
    · exact Memory.store_of_not_mem (.inr (by omega))
  rw [writeSuperblock, write_eq hle, hdisk]

/-! ## Along the path -/

/-- A directory that is found has a tree. -/
theorem HasTree.subtree_of_lookup (ht : s.HasTree i l t) (htable : s.Table i l' rs)
    (hlookup : s.lookup l' 0 rs name = some (dir, offset)) (hdir : checkAttribute dir.attributes directory) :
    ∃ l₁ sub, s.HasTree dir.firstBlockIndex l₁ sub := by
  obtain ⟨rfl, rfl⟩ := ht.table.unique htable
  cases hfind : t.find name with
  | none =>
    rw [lookup_of_find_none ht.heldBy hfind] at hlookup
    cases hlookup
  | some n =>
    obtain ⟨t₁, t₂, rfl, hnone, hfor⟩ := Tree.exists_of_find hfind
    obtain ⟨ht₁, hn, -⟩ := Tree.heldBy_split.1 ht.heldBy
    rw [lookup_of_split ht₁ hnone hfor] at hlookup
    obtain ⟨rfl, -⟩ := Prod.mk.inj (Option.some.inj hlookup)
    cases n with
    | file r l₁ content => exact absurd hdir (StoresFile.isFile hn).2
    | dir r l₁ sub => exact ⟨l₁, sub, ht.subtree⟩

/-- The entries that a path leads to are in the data blocks. -/
theorem HasTree.le_of_leads (ht : s.HasTree i l t) (h : s.Leads i path e offset) :
    s.dataStart * s.blockSize ≤ offset := by
  induction h generalizing l t with
  | @last i l₁ rs name e offset htable hlookup =>
    obtain ⟨rfl, rfl⟩ := ht.table.unique htable
    obtain ⟨rs₁, r, rs₂, hrs, -, -, rfl⟩ := lookup_eq_some hlookup
    rw [hrs] at htable
    have hmem := Memory.getD_mem (Memory.div_lt_of_lt htable.header.1)
    exact (Nat.mul_le_mul_right _ (ht.dataStart_le _ (List.mem_append_left _ hmem))).trans (Nat.le_add_right _ _)
  | cons htable hlookup hdir _ ih =>
    obtain ⟨l', sub, hsub⟩ := ht.subtree_of_lookup htable hlookup hdir
    exact ih hsub

/-- The directory that the path ends in has a tree. -/
theorem HasTree.endsIn (ht : s.HasTree i l t) (h : s.EndsIn i path l' rs name) :
    ∃ j sub, s.HasTree j l' sub ∧ sub.records = rs := by
  induction h generalizing l t with
  | last htable =>
    obtain ⟨rfl, rfl⟩ := ht.table.unique htable
    exact ⟨_, t, ht, rfl⟩
  | cons htable hlookup hdir _ ih =>
    obtain ⟨l₁, sub, hsub⟩ := ht.subtree_of_lookup htable hlookup hdir
    exact ih hsub

theorem EndsIn.ne_nil (h : s.EndsIn i path l rs name) : path ≠ [] := by
  cases h with
  | last _ => exact List.cons_ne_nil _ _
  | cons _ _ _ _ => exact List.cons_ne_nil _ _

/-- What is done with the last name comes back along the path. -/
theorem EndsIn.mkdirHelper {res : ℤ} (h : s.EndsIn i path l rs name) (P : FileSystem → Prop) (index : ℕ)
    (hi : dir.firstBlockIndex = i) (hP : ∀ s₁ offset e, P s₁ → P (s₁.writeEntry offset e))
    (hlast : ∀ dir' index', s.Table dir'.firstBlockIndex l rs → ∃ s₁,
      Settles (fun fuel => s.mkdirLast target (clock index') fuel dir' name (s.lookup l 0 rs name)) (.ok (s₁, res)) ∧
        P s₁) :
    ∃ s₁, Settles (fun fuel => s.mkdirHelper target clock fuel index path dir) (.ok (s₁, res)) ∧ P s₁ := by
  induction h generalizing dir index with
  | last htable =>
    subst hi
    obtain ⟨s₁, hset, hs₁⟩ := hlast dir index htable
    refine ⟨s₁, settles_mkdirHelper (htable.searchNameInDir _) (hset.congr fun fuel => ?_), hs₁⟩
    rw [mkdirFound.eq_def, if_pos rfl]
  | @cons i l₁ l₂ rs₁ rs₂ name name' path dir₁ offset htable hlookup hdir hends ih =>
    subst hi
    obtain ⟨s₁, hset, hs₁⟩ := ih (index + 1) rfl hlast
    have hsearch := htable.searchNameInDir name
    rw [hlookup] at hsearch
    have hstep := settles_mkdirHelper hsearch (settles_mkdirFound hends.ne_nil hdir hset)
    by_cases hres : res = -1
    · subst hres
      rw [if_pos rfl] at hstep
      exact ⟨s₁, hstep, hs₁⟩
    · rw [if_neg hres] at hstep
      exact ⟨_, hstep, hP _ _ _ hs₁⟩

/-! ## What is counted -/

/-- A Linux file that cannot be opened is one byte. -/
theorem HasTree.mkdirLast_unopened (ht : s.HasTree i l t) {pw : Option CString}
    (h : s.Miscounts (.file none pw) l t.records name) (dir : DirectoryEntry) (now : Stamp) :
    Settles (fun fuel => s.mkdirLast (.file none pw) now fuel dir name (s.lookup l 0 t.records name))
      (.ok (s.print .open, 1)) := by
  rw [Miscounts.eq_def] at h
  cases hfind : t.find name with
  | none =>
    rw [lookup_of_find_none ht.heldBy hfind]
    exact Settles.const _
  | some n =>
    obtain ⟨t₁, t₂, rfl, hnone, hfor⟩ := Tree.exists_of_find hfind
    obtain ⟨ht₁, hn, -⟩ := Tree.heldBy_split.1 ht.heldBy
    rw [lookup_of_split ht₁ hnone hfor] at h ⊢
    obtain ⟨hopens, hwrite⟩ := h
    refine (Settles.const _).congr fun fuel => ?_
    rw [mkdirLast, DirectoryEntry.wrongPassword_eq hn.hasPassword]
    exact (if_neg (by simpa using hopens)).trans (if_pos hwrite)

/-- A directory for which there is not enough capacity is counted. -/
theorem HasTree.createDirectory_refused (ht : s.HasTree dir.firstBlockIndex l t) (hs : s.Consistent)
    (hplace : s.HasPlace l t.records (newDirectory name now) name) (hnot : ¬s.Suffices l t.records name) :
    ∃ s₁, Settles (s.createDirectory dir name now) (.ok (s₁, 0)) ∧
      s₁.sb = { s.sb with numDirs := s.sb.numDirs + 1 } := by
  have hscan := hplace.bare.scanned ht.table.lastFlagged
  have hblocks : ∀ b ∈ l, s.dataStart ≤ b := fun b hb => ht.dataStart_le b (List.mem_append_left _ hb)
  have hsize : (newDirectory name now).entrySize.toNat = DirectoryEntry.sizeof + name.buffer.length :=
    newEntry_entrySize now hplace.lt
  have hpos : ∀ n, 0 < s.calculateTotalNumBlocksForEntry (newDirectory name now) n := fun n => by
    have hfile : ¬checkAttribute (newDirectory name now).attributes FatFileSystem.file :=
      (by decide : ¬checkAttribute (newDirectory newName ⟨0, 0, 0, 0⟩).attributes FatFileSystem.file)
    rw [calculateTotalNumBlocksForEntry, if_neg hfile]
    exact Nat.succ_pos _
  -- There is no free block, or the rest of the block is too short.
  have hrefused : Settles (s.addDirEntry dir (newDirectory name now) name)
      (.ok (s.print .notEnoughCapacity, .refused)) := by
    rcases Nat.lt_or_ge (slot s.blockSize (endOf s.blockSize 0 (kept t.records))) (l.length * s.blockSize) with hlt | hge
    · refine ht.table.addDirEntry_refused hscan hs.geometry hs.dataStart_le hblocks hsize hlt ?_
      by_cases hfree : s.findFreeBlock = none
      · rw [hs.numFreeBlocks, findFreeBlock_eq_none_iff.1 hfree]
        exact hpos _
      · by_contra hcap
        have hroom := (hplace.roomFor.resolve_left hfree).2.resolve_right hcap
        exact hnot ⟨hroom, Nat.not_lt.1 hcap⟩
    · have hfree : s.findFreeBlock = none := hplace.roomFor.resolve_right fun h => absurd h.1 (Nat.not_lt.2 hge)
      exact ht.table.addDirEntry_full hscan hsize hge hfree
  refine ⟨_, (hrefused.bind_const countDirectory).congr fun fuel => ?_,
    writeSuperblockAndFat_sb { s.print .notEnoughCapacity with sb := { s.sb with numDirs := s.sb.numDirs + 1 } }⟩
  rw [createDirectory]
  refine congrArg _ (funext fun x => ?_)
  obtain ⟨_, ins⟩ := x
  cases ins <;> rfl

/-! ## The update times -/

theorem TimesOnly.trans_eq (h : s.TimesOnly s₁ i path) (heq : s'.toImage = s₁.toImage) : s.TimesOnly s' i path :=
  ⟨(congrArg Image.length heq).trans h.length_eq, fun a ha =>
    (congrArg (fun image : Image => image.disk a) heq).trans (h.disk_eq a ha)⟩

/-- The update times are not in the superblock. -/
theorem TimesOnly.load_sb (h : s.TimesOnly s' i path) (hs : s.Consistent) (ht : s.HasTree i l t) :
    s'.toImage.load.sb = s.toImage.load.sb := by
  refine Superblock.load_congr fun k hk => h.disk_eq _ fun offset hon => .inl ?_
  obtain ⟨path₁, -, e, -, -, hleads, -⟩ := hon
  have hle := ht.le_of_leads hleads
  have hsup := hs.geometry.superblock_le
  have hstart : s.sb.blockNumberForSuperblock.toNat * s.blockSize ≤ s.dataStart * s.blockSize :=
    Nat.mul_le_mul_right _ (Nat.le_add_right _ _)
  omega

end FileSystem

namespace Image

variable {image image' : Image} {l : List ℕ} {t : Tree} {target : Target} {path : List CString}

/-- The command is refused, and counted all the same. -/
def Miscounts (image : Image) : Command → Prop
  | .make target path => ¬IsRoot path ∧ ∃ l rs name,
    image.load.EndsIn image.load.sb.rootDir.firstBlockIndex path l rs name ∧ image.load.Miscounts target l rs name
  | .ask _ _ => False

/-- No byte has changed but those of the update times of the directories on the path. -/
def TimesOnly (image image' : Image) (path : List CString) : Prop :=
  image.load.TimesOnly image'.load image.load.sb.rootDir.firstBlockIndex path

/-- A command that is not counted. -/
theorem HasTree.timesOnly (h : image.HasTree l t) (hharmless : image.Harmless (.make target path))
    (hclean : ¬image.Miscounts (.make target path)) (clock : ℕ → Stamp) :
    ∃ s', Settles (image.mkdirEntry path target clock) (.ok s') ∧
      (s'.printed ≠ [] → image.TimesOnly s'.toImage path) := by
  cases path with
  | nil => exact ⟨image.load, Settles.const _, fun h => absurd rfl h⟩
  | cons name path =>
    by_cases hslash : name.chars = [slash]
    · exact ⟨image.load.print .cannotCreateRoot, (Settles.const _).congr fun fuel => if_pos hslash,
        fun _ => .of_eq rfl⟩
    have hroot : ¬IsRoot (name :: path) := isRoot_cons.not.2 hslash
    obtain ⟨s₁, t', res, out, hset, halong, hbecomes, hreaches, hframe⟩ :=
      FileSystem.mkdirHelper_spec h.consistent h.hasTree target clock 0 (name :: path) (hharmless hroot)
    have hout : out ≠ .unopened ∧ out ≠ .miscounted := by
      rcases hreaches with rfl | ⟨l', rs, name', hends, htells⟩
      · exact ⟨by simp, by simp⟩
      · have hnot : ¬(out = .unopened ∨ out = .miscounted) := fun hout =>
          hclean ⟨hroot, l', rs, name', hends, .of_tells hout htells⟩
        exact not_or.1 hnot
    -- A message is one of a refusal, which adds no bytes.
    have hrefused : s₁.printed ≠ [] → out = .refused ∧ (res = 0 ∨ res = -1) := by
      intro hprinted
      have hacc : ¬out.accepted := fun hacc => hprinted (hbecomes.printed.2 hacc)
      obtain ⟨_, _, _, hacts⟩ := halong.exists
      cases out with
      | refused => exact ⟨rfl, hacts.res_of_refused⟩
      | unopened => exact absurd rfl hout.1
      | miscounted => exact absurd rfl hout.2
      | directory | file | overwritten e => exact absurd rfl hacc
    have hstep := settles_mkdirEntry hslash hset
    by_cases hres : res = -1
    · subst hres
      rw [if_pos rfl] at hstep
      exact ⟨s₁, hstep, fun hprinted => (hframe (hrefused hprinted).1).trans_eq rfl⟩
    · rw [if_neg hres] at hstep
      refine ⟨_, hstep, fun hprinted => ?_⟩
      obtain ⟨rfl, hzero⟩ := hrefused hprinted
      obtain rfl := hzero.resolve_right hres
      have hsame : s₁.sb.rootDir.size + UInt32.ofInt 0 = s₁.sb.rootDir.size := UInt32.add_zero _
      rw [hsame]
      exact (hframe rfl).trans_eq hbecomes.consistent.writeSuperblock_eq

/-- A command that is counted. -/
theorem HasTree.counts (h : image.HasTree l t) (hharmless : image.Harmless (.make target path))
    (hmiscounts : image.Miscounts (.make target path)) (clock : ℕ → Stamp) :
    ∃ s', Settles (image.mkdirEntry path target clock) (.ok s') ∧ s'.sb ≠ image.load.sb := by
  obtain ⟨hroot, l', rs, name', hends, hcounted⟩ := hmiscounts
  obtain ⟨j, sub, hsub, rfl⟩ := h.hasTree.endsIn hends
  -- What the last name comes to, in the superblock, goes on to the root.
  have hentry : ∀ (res : ℤ) (sb : Superblock), res ≠ -1 →
      { sb with rootDir := { sb.rootDir with size := sb.rootDir.size + UInt32.ofInt res } } ≠ image.load.sb →
      (∀ (dir : DirectoryEntry) (index : ℕ), image.load.Table dir.firstBlockIndex l' sub.records → ∃ s₁,
        Settles (fun fuel => image.load.mkdirLast target (clock index) fuel dir name'
          (image.load.lookup l' 0 sub.records name')) (.ok (s₁, res)) ∧ s₁.sb = sb) →
      ∃ s', Settles (image.mkdirEntry path target clock) (.ok s') ∧ s'.sb ≠ image.load.sb := by
    intro res sb hres hne hlast
    obtain ⟨s₁, hset, rfl⟩ := hends.mkdirHelper (fun s₁ => s₁.sb = sb) 0 rfl (fun _ _ _ heq => heq) hlast
    obtain ⟨name, path, rfl⟩ := List.exists_cons_of_ne_nil hends.ne_nil
    have hstep := settles_mkdirEntry (isRoot_cons.not.1 hroot) hset
    rw [if_neg hres] at hstep
    exact ⟨_, hstep, hne⟩
  cases target with
  | file linuxFile pw =>
    cases linuxFile with
    | some linuxFile =>
      rw [FileSystem.Miscounts.eq_def] at hcounted
      cases hlookup : image.load.lookup l' 0 sub.records name' with
      | none | some _ =>
        rw [hlookup] at hcounted
        exact hcounted.elim
    | none =>
      refine hentry 1 image.load.sb (by decide) (fun heq => ?_) fun dir index _ =>
        ⟨_, hsub.mkdirLast_unopened hcounted dir (clock index), rfl⟩
      have hsize : image.load.sb.rootDir.size + 1 = image.load.sb.rootDir.size :=
        congrArg (fun sb : Superblock => sb.rootDir.size) heq
      exact absurd (UInt32.add_eq_left.1 hsize) (by decide)
  | dir =>
    have hplace := hharmless hroot _ _ _ hends
    rw [FileSystem.Miscounts.eq_def] at hcounted
    rw [FileSystem.Harmless.eq_def] at hplace
    cases hlookup : image.load.lookup l' 0 sub.records name' with
    | some found =>
      rw [hlookup] at hcounted
      exact hcounted.elim
    | none =>
      rw [hlookup] at hcounted hplace
      refine hentry 0 { image.load.sb with numDirs := image.load.sb.numDirs + 1 } (by decide) (fun heq => ?_)
        fun dir index htable => ?_
      · have hdirs : image.load.sb.numDirs + 1 = image.load.sb.numDirs := congrArg Superblock.numDirs heq
        exact absurd (UInt16.add_eq_left.1 hdirs) (by decide)
      · have hdir : image.load.HasTree dir.firstBlockIndex l' sub := { hsub with table := htable }
        rw [hlookup]
        exact hdir.createDirectory_refused h.consistent (hplace.congr rfl rfl rfl) hcounted

end Image

/-- **Refused commands.** Where no defect of growing is reached, a refused `mkdir` or `write` changes no byte but those
    of the update times of the directories on the path exactly if it is not counted. -/
theorem refused_timesOnly_iff {image image' : Image} {l : List ℕ} {t : Tree} (h : image.HasTree l t) {e : Event}
    {target : Target} {path : List CString} (he : e.command = .make target path) (hharmless : image.Harmless e.command)
    (hstep : commands.step image e image') (hrefused : e.printed ≠ []) :
    image.TimesOnly image' path ↔ ¬image.Miscounts e.command := by
  obtain ⟨c, clock, output, printed⟩ := e
  obtain rfl : c = .make target path := he
  obtain ⟨s, hset, hprinted, rfl⟩ := hstep
  have hexec : ∀ {s' : FileSystem}, Settles (image.mkdirEntry path target clock) (.ok s') → s = s' := by
    intro s' hset'
    exact (Prod.mk.inj (Except.ok.inj (hset.unique (Image.settles_exec_make hset')))).1
  constructor
  · intro htimes hmiscounts
    obtain ⟨s', hset', hne⟩ := h.counts hharmless hmiscounts clock
    obtain ⟨s'', -, -, hset'', -, -, hsb, -⟩ := Image.mkdirEntry_spec h hharmless clock
    obtain rfl := hexec hset'
    obtain rfl := hexec hset''
    exact hne (hsb.symm.trans (htimes.load_sb h.consistent h.hasTree))
  · intro hclean
    obtain ⟨s', hset', htimes⟩ := h.timesOnly hharmless hclean clock
    obtain rfl := hexec hset'
    exact htimes fun hempty => hrefused (hprinted.symm.trans hempty)

/-- A directory in one that does not exist. -/
def mkdirNowhere : Command := .make .dir [FileSystem.newName, FileSystem.newName]

/-- It is refused on the way. -/
theorem refused_timesOnly_newImage : ∃ e image, commands.step newImage e image ∧ e.command = mkdirNowhere ∧
    e.printed ≠ [] ∧ newImage.TimesOnly image mkdirNowhere.path := by
  have hnowhere : ∀ l rs name, ¬newImage.load.EndsIn newImage.load.sb.rootDir.firstBlockIndex mkdirNowhere.path l rs
      name := by
    intro l rs name hends
    cases hends with
    | cons htable hlookup _ _ =>
      obtain ⟨rfl, rfl⟩ := htable.unique FileSystem.insertable_newFile.table
      cases hlookup.symm.trans lookup_newImage
  obtain ⟨l, h⟩ : ∃ l, newImage.HasTree l emptyTree := hasTree_createFilesystem clean_zero _
  have hharmless : newImage.Harmless mkdirNowhere := fun _ l rs name hends => absurd hends (hnowhere l rs name)
  have hclean : ¬newImage.Miscounts mkdirNowhere := by
    rintro ⟨-, l, rs, name, hends, -⟩
    exact hnowhere l rs name hends
  obtain ⟨s, output, hstep, hprinted⟩ := Image.step_of_yields newImage mkdirNowhere stopped
    (fun x => x.1.printed ≠ []) (n := 10) (by decide +kernel)
  have hprinted : s.printed ≠ [] := of_decide_eq_true hprinted
  exact ⟨_, _, hstep, rfl, hprinted, (refused_timesOnly_iff h rfl hharmless hstep hprinted).2 hclean⟩

/-- A Linux file that cannot be opened is counted in the size of the root directory. -/
theorem not_refused_timesOnly : ¬∀ image l t e target path image', Image.HasTree image l t →
    e.command = .make target path → commands.step image e image' → e.printed ≠ [] →
    image.TimesOnly image' path := by
  intro hall
  obtain ⟨l, h⟩ : ∃ l, newImage.HasTree l emptyTree := hasTree_createFilesystem clean_zero _
  have heval : yields (newImage.exec (.make (.file none none) [FileSystem.newName]) stopped 10) (fun x =>
      x.1.printed ≠ [] && x.1.toImage.load.sb.rootDir.size = 1) = true := by
    decide +kernel
  obtain ⟨s, _, hstep, heval⟩ := Image.step_of_yields _ _ _ _ heval
  obtain ⟨hprinted, hsize⟩ := Bool.and_eq_true_iff.1 heval
  have htimes := hall _ _ _ _ _ _ _ h rfl hstep (of_decide_eq_true hprinted)
  have hsb := htimes.load_sb h.consistent h.hasTree
  have hzero : newImage.load.toImage.load.sb.rootDir.size = 0 := by decide +kernel
  have hone : s.toImage.load.toImage.load.sb.rootDir.size = 1 := of_decide_eq_true hsize
  rw [hsb, hzero] at hone
  exact absurd hone (by decide)

end GtuOs.FatFileSystem

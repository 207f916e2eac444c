import GtuOs.FatFileSystem.Starting

/-!
# What is counted

The superblock counts the directories and the files of the tree, and every directory the
bytes of the files below it. `mkdir_helper` counts on its way back what has been added. It is right
unless a directory is counted that has been refused, or is overwritten (`commands_countsEntries`),
and unless a file of Linux cannot be opened, which counts as a byte, or something is overwritten whose
size has been counted before (`commands_countsSizes`).
-/

namespace GtuOs.FatFileSystem

namespace Tree

variable {f : Node → ℕ} {t t' t₁ t₂ : Tree} {k : ℕ} {path : List CString}

/-- The sum over all files and directories, at any depth. -/
def sum (f : Node → ℕ) : Tree → ℕ
  | nil => 0
  | passive _ rest => rest.sum f
  | file r l content rest => f (.file r l content) + rest.sum f
  | dir r l sub rest => f (.dir r l sub) + (sub.sum f + rest.sum f)

end Tree

/-- A file counts. -/
def Node.asFile : Node → ℕ
  | file _ _ _ => 1
  | dir _ _ _ => 0

/-- A directory counts. -/
def Node.asDir : Node → ℕ
  | file _ _ _ => 0
  | dir _ _ _ => 1

theorem Node.asFile_le (n : Node) : n.asFile ≤ 1 := by
  cases n
  · exact le_rfl
  · exact Nat.zero_le 1

theorem Node.asDir_le (n : Node) : n.asDir ≤ 1 := by
  cases n
  · exact Nat.zero_le 1
  · exact le_rfl

/-- The sum over the node and those below it. -/
def Node.sum (f : Node → ℕ) : Node → ℕ
  | file r l content => f (.file r l content)
  | dir r l sub => f (.dir r l sub) + sub.sum f

namespace Tree

variable {f g : Node → ℕ} {t t' t₁ t₂ : Tree} {k : ℕ} {path : List CString}

theorem sum_append : (t₁ ++ t₂).sum f = t₁.sum f + t₂.sum f := by
  induction t₁ with
  | nil => exact (Nat.zero_add _).symm
  | passive r rest ih => exact ih
  | file r l content rest ih => rw [file_append, sum, sum, ih, Nat.add_assoc]
  | dir r l sub rest _ ih => rw [dir_append, sum, sum, ih, Nat.add_assoc, Nat.add_assoc]

theorem sum_split {n : Node} : (t₁ ++ n.cons t₂).sum f = t₁.sum f + (n.sum f + t₂.sum f) := by
  rw [sum_append]
  cases n with
  | file r l content => rfl
  | dir r l sub => rw [Node.cons, sum, Node.sum, Nat.add_assoc]

/-- What a name stands for is a part of the sum. -/
theorem sum_le_of_find {name : CString} {n : Node} (h : t.find name = some n) : n.sum f ≤ t.sum f := by
  obtain ⟨t₁, t₂, rfl, -⟩ := exists_of_find h
  rw [sum_split]
  omega

theorem sum_kept (hf : ∀ n : Node, f n.unflag = f n) : t.kept.sum f = t.sum f := by
  induction t with
  | nil => rfl
  | passive r rest ih =>
    rw [kept]
    split_ifs
    · exact ih
    · exact ih
  | file r l content rest ih =>
    rw [kept, sum, sum, ih]
    exact congrArg (· + _) (hf (.file r l content))
  | dir r l sub rest _ ih =>
    rw [kept, sum, sum, ih]
    exact congrArg (· + _) (hf (.dir r l sub))

/-- What is at most as large for every node. -/
theorem All.sum_le (h : t.All fun n => f n ≤ g n) : t.sum f ≤ t.sum g := by
  induction t with
  | nil => exact le_rfl
  | passive r rest ih => exact ih h
  | file r l content rest ih => exact Nat.add_le_add h.1 (ih h.2)
  | dir r l sub rest ihsub ih => exact Nat.add_le_add h.1 (Nat.add_le_add (ihsub h.2.1) (ih h.2.2))

/-- The sum after a command, which adds `d` at the end of the path. -/
theorem sum_of_along {touch : ℕ → Record → Record} {Q : List CString → Tree → Tree → Prop} {d : ℕ}
    {s : FileSystem} (hf : ∀ k r l sub sub', f (.dir (touch k r) l sub') = f (.dir r l sub))
    (halong : Along touch Q k path t t')
    (hQ : ∀ path t t', Q path t t' → t.HeldBy s → t'.sum f = t.sum f + d) (ht : t.HeldBy s) :
    t'.sum f = t.sum f + d := by
  induction halong with
  | here hq => exact hQ _ _ _ hq ht
  | @inside k name path r l sub sub' t₁ t₂ _ _ _ _ ih =>
    obtain ⟨-, ⟨-, hsub⟩, -⟩ := heldBy_split.1 ht
    rw [sum_split, sum_split, Node.sum, Node.sum, hf k r l sub sub', ih hsub]
    omega

/-- The blocks of the tree, counted. -/
theorem length_blocks : t.blocks.length = t.sum fun n => n.chain.length := by
  induction t with
  | nil => rfl
  | passive r rest ih => exact ih
  | file r l content rest ih => rw [blocks, List.length_append, ih, sum, Node.chain]
  | dir r l sub rest ihsub ih =>
    rw [blocks, List.length_append, List.length_append, ihsub, ih, sum, Node.chain]

end Tree

namespace FileSystem

variable {s : FileSystem} {t : Tree} {i : UInt16} {l : List ℕ}

/-- The blocks are different. -/
theorem HasTree.length_blocks_le (h : s.HasTree i l t) : t.blocks.length ≤ numBlocks := by
  have hsub : t.blocks ⊆ List.range numBlocks := fun b hb => List.mem_range.2 (h.heldBy.ne_empty hb).1
  have hlen := (List.subperm_of_subset h.nodup.of_append_right hsub).length_le
  rwa [List.length_range] at hlen

/-- Every file and directory has a block of its own. -/
theorem HasTree.sum_le {f : Node → ℕ} (h : s.HasTree i l t) (hf : ∀ n, f n ≤ 1) : t.sum f ≤ numBlocks := by
  have hchain : t.All fun n => f n ≤ n.chain.length :=
    h.heldBy.all fun n hn => (hf n).trans (List.length_pos_of_ne_nil hn.ne_nil)
  exact hchain.sum_le.trans (t.length_blocks.symm.le.trans h.length_blocks_le)

end FileSystem

/-! ## Files and directories -/

/-- The number of new directories. -/
def Outcome.newDirs : Outcome → ℕ
  | directory => 1
  | _ => 0

/-- The number of new files. -/
def Outcome.newFiles : Outcome → ℕ
  | file => 1
  | _ => 0

namespace Tree

variable {t t' : Tree} {path : List CString} {s : FileSystem}

/-- The number of files. -/
def files (t : Tree) : ℕ := t.sum Node.asFile

/-- The number of directories. -/
def dirs (t : Tree) : ℕ := t.sum Node.asDir

/-- At the end of the path, unless a directory is overwritten. -/
theorem counts_of_acts {target : Target} {res : ℤ} {out : Outcome} (h : Acts target path t t' res out)
    (ht : t.HeldBy s) (hout : ∀ e, out = .overwritten e → e.IsFile) :
    t'.files = t.files + out.newFiles ∧ t'.dirs = t.dirs + out.newDirs := by
  have hkept : t.kept.files = t.files ∧ t.kept.dirs = t.dirs :=
    ⟨sum_kept fun n => by cases n <;> rfl, sum_kept fun n => by cases n <;> rfl⟩
  rw [files, dirs] at hkept
  cases h with
  | refused _ | unopened _ | miscounted _ => exact ⟨rfl, rfl⟩
  | directory _ _ _ _ _ | file _ _ _ _ _ =>
    rw [files, dirs, sum_split, sum_split, hkept.1, hkept.2]
    exact ⟨rfl, rfl⟩
  | @overwritten _ t₁ t₂ n _ _ _ _ _ _ _ _ _ _ _ =>
    have hfile := hout _ rfl
    obtain ⟨-, hn, -⟩ := heldBy_split.1 ht
    rw [files, files, dirs, dirs, sum_split, sum_split, sum_split, sum_split]
    cases n with
    | file r l content => exact ⟨rfl, rfl⟩
    | dir r l sub => exact absurd hfile.1 hn.1.isDirectory.2

theorem counts_of_walks {q : Query} {now : Stamp} {output : Output} {accepted : Bool}
    (h : Walks q now path t t' output accepted) : t'.files = t.files ∧ t'.dirs = t.dirs := by
  cases h with
  | refused | listed _ _ | copied _ _ _ _ => exact ⟨rfl, rfl⟩
  | changed _ _ _ _ _ _ _ =>
    rw [files, files, dirs, dirs, sum_split, sum_split, sum_split, sum_split]
    exact ⟨rfl, rfl⟩

end Tree

/-- What the counters of the superblock are. -/
structure CountsEntries (t : Tree) (sb : Superblock) : Prop where
  numFiles : sb.numFiles = .ofNat t.files
  numDirs : sb.numDirs = .ofNat (t.dirs + 1)

/-- The step: no directory is counted that is refused, and none is overwritten. -/
theorem CountsEntries.moves {s : FileSystem} {P : Outcome → Prop} {clock : ℕ → Stamp} {c : Command} {t t' : Tree}
    {sb sb' : Superblock} {output : Output} {accepted : Bool} (h : CountsEntries t sb)
    (hmoves : Moves P clock c t sb t' sb' output accepted)
    (hP : ∀ out, P out → out ≠ .miscounted ∧ ∀ e, out = .overwritten e → e.IsFile) (ht : t.HeldBy s) :
    CountsEntries t' sb' := by
  cases hmoves with
  | @make _ _ _ _ _ res out hout halong =>
    obtain ⟨hmis, hfile⟩ := hP out hout
    have hfiles : t'.files = t.files + out.newFiles :=
      Tree.sum_of_along (fun _ _ _ _ _ => rfl) halong (fun _ _ _ hacts ht => (Tree.counts_of_acts hacts ht hfile).1) ht
    have hdirs : t'.dirs = t.dirs + out.newDirs :=
      Tree.sum_of_along (fun _ _ _ _ _ => rfl) halong (fun _ _ _ hacts ht => (Tree.counts_of_acts hacts ht hfile).2) ht
    refine ⟨?_, ?_⟩
    · rw [hfiles]
      show (out.count sb).numFiles = _
      cases out with
      | file =>
        rw [Outcome.newFiles, UInt16.ofNat_add, ← h.numFiles]
        rfl
      | _ => exact h.numFiles
    · rw [hdirs]
      show (out.count sb).numDirs = _
      cases out with
      | directory =>
        rw [Outcome.newDirs, UInt16.ofNat_add, ← h.numDirs]
        rfl
      | miscounted => exact absurd rfl hmis
      | _ => exact h.numDirs
  | ask halong =>
    have hfiles : t'.files = t.files + 0 :=
      Tree.sum_of_along (fun _ _ _ _ _ => rfl) halong (fun _ _ _ hwalks _ => (Tree.counts_of_walks hwalks).1) ht
    have hdirs : t'.dirs = t.dirs + 0 :=
      Tree.sum_of_along (fun _ _ _ _ _ => rfl) halong (fun _ _ _ hwalks _ => (Tree.counts_of_walks hwalks).2) ht
    exact ⟨hfiles ▸ h.numFiles, hdirs ▸ h.numDirs⟩
  | root _ => exact h

/-! ### The counters of the superblock -/

namespace Image

/-- The superblock counts the directories, with the root, and the files of the tree. -/
def CountsEntries (image : Image) : Prop :=
  ∃ l t, image.HasTree l t ∧ image.load.sb.numDirs.toNat = t.dirs + 1 ∧ image.load.sb.numFiles.toNat = t.files

/-- A new directory is not refused for want of room, and no directory is overwritten. -/
def CountsRight (image : Image) : Command → Prop
  | .make target path => ¬IsRoot path → ∀ l rs name,
    image.load.EndsIn image.load.sb.rootDir.firstBlockIndex path l rs name →
      match image.load.lookup l 0 rs name, target with
      | none, .dir => image.load.Suffices l rs name
      | some (e, _), .file (some _) pw => e.Opens pw → checkAttribute e.attributes writePermission → e.IsFile
      | _, _ => True
  | .ask _ _ => True

theorem CountsRight.outcome {image : Image} {c : Command} {out : Outcome} (h : image.CountsRight c)
    (hout : image.Reaches out c) : out ≠ .miscounted ∧ ∀ e, out = .overwritten e → e.IsFile := by
  cases c with
  | ask q path => exact hout.elim
  | make target path =>
    obtain ⟨hroot, rfl | ⟨l, rs, name, hends, htells⟩⟩ := hout
    · exact ⟨nofun, nofun⟩
    by_cases hpath : IsRoot path
    · rw [hroot hpath]
      exact ⟨nofun, nofun⟩
    have hright := h hpath l rs name hends
    constructor
    · rintro rfl
      obtain ⟨rfl, hnone, hnot⟩ := htells
      rw [hnone] at hright
      exact hnot hright
    · rintro e rfl
      obtain ⟨linuxFile, pw, offset, rfl, hsome, hopens, hwrite⟩ := htells
      rw [hsome] at hright
      exact hright hopens hwrite

end Image

/-- **The counters of the superblock.** They are right in every run in which no directory is refused for
    want of room, and none is overwritten. -/
theorem commands_countsEntries {g : Garbage} {now : Stamp} {is1024 : Bool} (hg : g.Clean is1024) {image : Image}
    (hsteps : (commands.restrict fun image e => image.Harmless e.command ∧ image.CountsRight e.command).Steps
      (createFilesystem g now is1024) image) : image.CountsEntries := by
  obtain ⟨l, h⟩ := hasTree_createFilesystem hg now
  have hinit : CountsEntries emptyTree (createFilesystem g now is1024).load.sb := by
    rw [createFilesystem_eq, load_sb (sizes is1024)]
    exact ⟨rfl, rfl⟩
  obtain ⟨t, htree, -, hcounts⟩ := h.steps (I := CountsEntries) (fun image e hok => hok.1)
    (fun image l e t t' sb' accepted hok htree hmoves _ hinv =>
      hinv.moves hmoves (fun out hout => hok.2.outcome hout) htree.hasTree.heldBy) hsteps trivial hinit
  have hfiles : t.files ≤ 4096 := htree.hasTree.sum_le Node.asFile_le
  have hdirs : t.dirs ≤ 4096 := htree.hasTree.sum_le Node.asDir_le
  refine ⟨l, t, htree, ?_, ?_⟩
  · rw [hcounts.numDirs, UInt16.toNat_ofNat_of_lt' (by simp only [UInt16.size]; omega)]
  · rw [hcounts.numFiles, UInt16.toNat_ofNat_of_lt' (by simp only [UInt16.size]; omega)]

/-- A new directory in the root directory. -/
theorem commands_countsEntries_newImage : ∃ image,
    (commands.restrict fun image e => image.Harmless e.command ∧ image.CountsRight e.command).Steps
      newImage image ∧ image.load.sb.numDirs = 2 ∧ image.CountsEntries := by
  have hharmless : newImage.Harmless (.make .dir [FileSystem.newName]) :=
    harmless_newImage .dir hasPlace_newImage
  have hright : newImage.CountsRight (.make .dir [FileSystem.newName]) := fun _ l rs name hends => by
    obtain ⟨rfl, rfl, rfl⟩ := endsIn_newImage hends
    exact (⟨⟨by decide +kernel, by decide +kernel⟩, by decide +kernel⟩ :
      newImage.load.Suffices [25] [FileSystem.indicator] FileSystem.newName)
  obtain ⟨s, output, hstep, hdirs⟩ := Image.step_of_yields newImage (.make .dir [FileSystem.newName]) stopped
    (fun x => x.1.toImage.load.sb.numDirs = 2) (n := 10) (by decide +kernel)
  have hsteps : (commands.restrict fun image e => image.Harmless e.command ∧ image.CountsRight e.command).Steps
      newImage s.toImage := .step .refl ⟨⟨hharmless, hright⟩, hstep⟩
  exact ⟨s.toImage, hsteps, of_decide_eq_true hdirs, commands_countsEntries clean_zero hsteps⟩

/-- Writing over a directory. -/
def writeOver : Command := .make (.file (some ⟨[2], true, true⟩) none) [FileSystem.newName]

/-- What is found in the root directory, and what is counted. -/
def findsUncounted (image : Image) : Bool :=
  image.load.sb.numFiles = 0 ∧ yields (image.load.searchNameInDir image.load.sb.rootDir FileSystem.newName 10)
    fun found => found.map (fun x => decide x.1.IsFile) = some true

/-- A directory that is overwritten becomes a file that is not counted. -/
theorem not_countsEntries : ¬∀ image, commands.Reachable image → image.CountsEntries := by
  intro hall
  have heval : yields (newImage.exec (.make .dir [FileSystem.newName]) stopped 10) (fun x =>
      yields (x.1.toImage.exec writeOver stopped 10) fun y => findsUncounted y.1.toImage) = true := by
    decide +kernel
  obtain ⟨s, _, hstep, heval⟩ := Image.step_of_yields _ _ _ _ heval
  obtain ⟨s', _, hstep', heval⟩ := Image.step_of_yields _ _ _ _ heval
  obtain ⟨l, t, htree, -, hfiles⟩ := hall _ (.step (.step (.init ⟨_, _, _, rfl⟩) hstep) hstep')
  obtain ⟨hzero, hyields⟩ := of_decide_eq_true heval
  obtain ⟨found, hset, hfind⟩ := htree.hasTree.searchNameInDir FileSystem.newName
  obtain ⟨found', hset', hfile⟩ := Settles.of_yields (fun _ _ h => FileSystem.searchFrom_below h _) hyields
  obtain rfl := Except.ok.inj (hset.unique hset')
  have hsome := of_decide_eq_true hfile
  rw [← Function.comp_def (fun e : DirectoryEntry => decide e.IsFile) Prod.fst, ← Option.map_map, hfind,
    Option.map_map] at hsome
  obtain ⟨n, hn, hfile⟩ := Option.map_eq_some_iff.1 hsome
  have hle : n.sum Node.asFile ≤ t.files := Tree.sum_le_of_find hn
  rw [← hfiles, hzero] at hle
  cases n with
  | file r l content => exact absurd hle (Nat.not_succ_le_zero 0)
  | dir r l sub =>
    have hres : t.resolve [FileSystem.newName] = some (Node.dir r l sub) := hn
    have hheld : (Node.dir r l sub).HeldBy s'.toImage.load := htree.hasTree.heldBy.resolve hres
    exact hheld.1.isDirectory.2 (of_decide_eq_true hfile).1

/-! ## Sizes -/

/-- The size of a file. -/
def Node.bytes : Node → ℕ
  | file r _ _ => r.entry.size.toNat
  | dir _ _ _ => 0

/-- The number of bytes that `write` adds. -/
def Outcome.newBytes (target : Target) : Outcome → ℕ
  | file | overwritten _ =>
    match target with
    | .file (some linuxFile) _ => linuxFile.content.length
    | _ => 0
  | _ => 0

namespace Tree

/-- The sizes of the files below the directory, at any depth. -/
def bytes (t : Tree) : ℕ := t.sum Node.bytes

/-- Every directory has the size of the files below it. -/
def Sized (t : Tree) : Prop := t.All fun n =>
  match n with
  | .file _ _ _ => True
  | .dir r _ sub => r.entry.size = .ofNat sub.bytes

variable {t t' : Tree} {path : List CString} {s : FileSystem} {k : ℕ}

theorem sum_mul {f : Node → ℕ} {c : ℕ} : (t.sum fun n => f n * c) = t.sum f * c := by
  induction t with
  | nil => exact (Nat.zero_mul c).symm
  | passive r rest ih => exact ih
  | file r l content rest ih => rw [sum, sum, ih, Nat.add_mul]
  | dir r l sub rest ihsub ih => rw [sum, sum, ihsub, ih, Nat.add_mul, Nat.add_mul]

/-- The files fit in their blocks. -/
theorem bytes_le (ht : t.HeldBy s) : t.bytes ≤ t.blocks.length * s.blockSize := by
  rw [length_blocks, ← sum_mul]
  refine All.sum_le (ht.all fun n hn => ?_)
  cases n with
  | file r l content =>
    have hfile : s.StoresFile r l content := hn
    show r.entry.size.toNat ≤ l.length * s.blockSize
    rw [← hfile.length_eq]
    exact hfile.length_le
  | dir r l sub => exact Nat.zero_le _

/-- The bytes that are counted on the way back are those that have been added at the end of the path. -/
theorem sized_of_along {touch : ℕ → Record → Record} {Q : List CString → Tree → Tree → Prop} {d : ℕ}
    (halong : Along touch Q k path t t') (htouch : ∀ k r, (touch k r).entry.size = r.entry.size + .ofNat d)
    (hQ : ∀ path t t', Q path t t' → t.HeldBy s → t.bytes < 2 ^ 32 → t.Sized →
      t'.Sized ∧ t'.bytes = t.bytes + d)
    (ht : t.HeldBy s) (hlt : t.bytes < 2 ^ 32) (hsized : t.Sized) : t'.Sized ∧ t'.bytes = t.bytes + d := by
  induction halong with
  | here hq => exact hQ _ _ _ hq ht hlt hsized
  | @inside k name path r l sub sub' t₁ t₂ _ _ _ _ ih =>
    obtain ⟨-, ⟨-, hsub⟩, -⟩ := heldBy_split.1 ht
    obtain ⟨h₁, ⟨hsize, hsized⟩, h₂⟩ := all_split.1 hsized
    have hsublt : sub.bytes < 2 ^ 32 := by
      rw [bytes, sum_split, Node.sum] at hlt
      rw [bytes]
      omega
    obtain ⟨hsized', hbytes⟩ := ih hsub hsublt hsized
    refine ⟨all_split.2 ⟨h₁, ⟨?_, hsized'⟩, h₂⟩, ?_⟩
    · show (touch k r).entry.size = _
      rw [htouch, hbytes, UInt32.ofNat_add]
      exact congrArg (· + _) hsize
    · rw [bytes, bytes, sum_split, sum_split, Node.sum, Node.sum, Node.bytes, Node.bytes]
      rw [bytes, bytes] at hbytes
      omega

/-- The sizes do not wrap around. -/
theorem Sized.toNat (h : t.Sized) (hlt : t.bytes < 2 ^ 32) : t.All fun n =>
    match n with
    | .file _ _ _ => True
    | .dir r _ sub => r.entry.size.toNat = sub.bytes := by
  induction t with
  | nil => trivial
  | passive r rest ih => exact ih h hlt
  | file r l content rest ih =>
    rw [bytes, sum] at hlt
    exact ⟨trivial, ih h.2 (lt_of_le_of_lt (Nat.le_add_left _ _) hlt)⟩
  | dir r l sub rest ihsub ih =>
    rw [bytes, sum] at hlt
    have hsub : sub.bytes < 2 ^ 32 := by
      rw [bytes]
      omega
    have hrest : rest.bytes < 2 ^ 32 := by
      rw [bytes]
      omega
    refine ⟨?_, ihsub h.2.1 hsub, ih h.2.2 hrest⟩
    exact (congrArg UInt32.toNat h.1).trans (UInt32.toNat_ofNat_of_lt' hsub)

/-- At the end of the path, unless something is overwritten that has a size. -/
theorem sized_of_acts {target : Target} {res : ℤ} {out : Outcome} (h : Acts target path t t' res out)
    (hout : ∀ e, out = .overwritten e → e.size = 0) (ht : t.HeldBy s) (hlt : t.bytes < 2 ^ 32)
    (hsized : t.Sized) : t'.Sized ∧ t'.bytes = t.bytes + out.newBytes target := by
  have hkept : t.kept.Sized ∧ t.kept.bytes = t.bytes :=
    ⟨All.kept hsized fun n hn => by cases n <;> exact hn, sum_kept fun n => by cases n <;> rfl⟩
  cases h with
  | refused _ | unopened _ | miscounted _ => exact ⟨hsized, rfl⟩
  | directory htarget _ _ _ hsize =>
    refine ⟨all_split.2 ⟨hkept.1, ⟨hsize, trivial⟩, trivial⟩, ?_⟩
    rw [bytes, sum_split]
    exact congrArg (· + 0) hkept.2
  | file htarget _ _ _ hsize =>
    subst htarget
    refine ⟨all_split.2 ⟨hkept.1, trivial, trivial⟩, ?_⟩
    rw [Outcome.newBytes, hsize, bytes, sum_split]
    exact congrArg (· + _) hkept.2
  | @overwritten _ t₁ t₂ n r' linuxFile pw htarget _ _ _ _ _ _ hsize =>
    subst htarget
    obtain ⟨h₁, hn, h₂⟩ := all_split.1 hsized
    -- A file is as long as its size says, and so are the files of a directory together.
    have hzero : n.sum Node.bytes = 0 := by
      cases n with
      | file r l content => exact congrArg UInt32.toNat (hout _ rfl)
      | dir r l sub =>
        have hsub : UInt32.ofNat sub.bytes = 0 := hn.1.symm.trans (hout _ rfl)
        have hsublt : sub.bytes < 2 ^ 32 := by
          rw [bytes, sum_split, Node.sum] at hlt
          rw [bytes]
          omega
        have heq := congrArg UInt32.toNat hsub
        rw [UInt32.toNat_ofNat_of_lt' hsublt] at heq
        exact (Nat.zero_add _).trans heq
    refine ⟨all_split.2 ⟨h₁, trivial, h₂⟩, ?_⟩
    rw [Outcome.newBytes, hsize, bytes, bytes, sum_split, sum_split, hzero]
    show _ + (r'.entry.size.toNat + _) = _
    omega

theorem sized_of_walks {q : Query} {now : Stamp} {output : Output} {accepted : Bool}
    (h : Walks q now path t t' output accepted) (hsized : t.Sized) : t'.Sized ∧ t'.bytes = t.bytes := by
  cases h with
  | refused | listed _ _ | copied _ _ _ _ => exact ⟨hsized, rfl⟩
  | @changed _ t₁ t₂ r r' l content c pw e' _ _ _ _ happly hentry _ =>
    have hsize : r'.entry.size = r.entry.size := by
      rw [hentry, Change.apply_eq happly]
      rfl
    obtain ⟨h₁, -, h₂⟩ := all_split.1 hsized
    refine ⟨all_split.2 ⟨h₁, trivial, h₂⟩, ?_⟩
    rw [bytes, bytes, sum_split, sum_split]
    exact congrArg (fun v : UInt32 => _ + (v.toNat + _)) hsize

end Tree

/-- The sizes of the directories, with that of the root directory in the superblock. -/
structure CountsSizes (t : Tree) (sb : Superblock) : Prop where
  rootDir : sb.rootDir.size = .ofNat t.bytes
  sized : t.Sized

/-- The bytes that are counted. -/
theorem Acts.res_eq {target : Target} {path : List CString} {t t' : Tree} {res : ℤ} {out : Outcome}
    (h : Acts target path t t' res out) (hout : out ≠ .unopened) :
    res = -1 ∧ out.newBytes target = 0 ∨ res = out.newBytes target := by
  cases h with
  | refused hres =>
    rcases hres with rfl | rfl
    · exact .inr rfl
    · exact .inl ⟨rfl, rfl⟩
  | unopened _ => exact absurd rfl hout
  | miscounted _ | directory _ _ _ _ _ => exact .inr rfl
  | file htarget _ _ _ _ | overwritten htarget _ _ _ _ _ _ _ =>
    subst htarget
    exact .inr rfl

theorem ofInt_natCast (n : ℕ) : UInt32.ofInt n = .ofNat n := by
  have hmod : ((n : ℤ) % 2 ^ 32).toNat = n % 2 ^ 32 := by omega
  apply UInt32.toNat_inj.1
  rw [UInt32.ofInt, hmod, UInt32.toNat_ofNat', UInt32.toNat_ofNat', Nat.mod_mod]

/-- All files together are smaller than what an `int` counts. -/
theorem FileSystem.HasTree.bytes_lt {s : FileSystem} {i : UInt16} {l : List ℕ} {t : Tree} (h : s.HasTree i l t) :
    t.bytes < 2 ^ 32 := by
  have hbs : s.blockSize < 2 ^ 16 := s.sb.blockSize.toNat_lt
  calc t.bytes
    _ ≤ t.blocks.length * s.blockSize := Tree.bytes_le h.heldBy
    _ ≤ numBlocks * 2 ^ 16 := Nat.mul_le_mul h.length_blocks_le hbs.le
    _ < 2 ^ 32 := by decide

/-- The step: what is overwritten has no size, and no file is counted that cannot be opened. -/
theorem CountsSizes.moves {s : FileSystem} {P : Outcome → Prop} {clock : ℕ → Stamp} {c : Command} {t t' : Tree}
    {sb sb' : Superblock} {output : Output} {accepted : Bool} (h : CountsSizes t sb)
    (hmoves : Moves P clock c t sb t' sb' output accepted)
    (hP : ∀ out, P out → out ≠ .unopened ∧ ∀ e, out = .overwritten e → e.size = 0) (ht : t.HeldBy s)
    (hlt : t.bytes < 2 ^ 32) : CountsSizes t' sb' := by
  cases hmoves with
  | @make target _ _ _ _ res out hout halong =>
    obtain ⟨hopened, hsize⟩ := hP out hout
    obtain ⟨_, _, _, hacts⟩ := halong.exists
    -- The result that `mkdir_helper` gives back is what is added to the files.
    have hadd : ∀ e : DirectoryEntry, (e.addBytes res).size = e.size + .ofNat (out.newBytes target) := by
      intro e
      rw [DirectoryEntry.addBytes]
      rcases hacts.res_eq hopened with ⟨hres, hzero⟩ | hres
      · rw [if_pos hres, hzero]
        exact (UInt32.add_zero _).symm
      · rw [if_neg (by omega), hres, ofInt_natCast]
    have htouch : ∀ k r, (mkdirTouch res clock k r).entry.size = r.entry.size + .ofNat (out.newBytes target) := by
      intro k r
      rw [← hadd, mkdirTouch, DirectoryEntry.addBytes]
      split_ifs
      · rfl
      · rfl
    obtain ⟨hsized, hbytes⟩ := Tree.sized_of_along halong htouch
      (fun _ _ _ hacts => Tree.sized_of_acts hacts hsize) ht hlt h.sized
    refine ⟨?_, hsized⟩
    show (sb.rootDir.addBytes res).size = _
    rw [hbytes, hadd, UInt32.ofNat_add, h.rootDir]
  | ask halong =>
    obtain ⟨hsized, hbytes⟩ := Tree.sized_of_along (d := 0) halong (fun _ r => (UInt32.add_zero _).symm)
      (fun _ _ _ hwalks _ _ => Tree.sized_of_walks hwalks) ht hlt h.sized
    exact ⟨hbytes ▸ h.rootDir, hsized⟩
  | root _ => exact h

/-! ### The sizes of the directories -/

namespace Image

/-- Every directory, with the root directory, has the size of the files below it. -/
def CountsSizes (image : Image) : Prop :=
  ∃ l t, image.HasTree l t ∧ image.load.sb.rootDir.size.toNat = t.bytes ∧ t.All fun n =>
    match n with
    | .file _ _ _ => True
    | .dir r _ sub => r.entry.size.toNat = sub.bytes

/-- What `write` is to open on Linux can be opened, and what it overwrites has no size. -/
def SizesRight (image : Image) : Command → Prop
  | .make target path => ¬IsRoot path → ∀ l rs name,
    image.load.EndsIn image.load.sb.rootDir.firstBlockIndex path l rs name →
      match image.load.lookup l 0 rs name, target with
      | none, .file none _ => False
      | some (e, _), .file linuxFile pw =>
        e.Opens pw → checkAttribute e.attributes writePermission → linuxFile.isSome ∧ e.size = 0
      | _, _ => True
  | .ask _ _ => True

theorem SizesRight.outcome {image : Image} {c : Command} {out : Outcome} (h : image.SizesRight c)
    (hout : image.Reaches out c) : out ≠ .unopened ∧ ∀ e, out = .overwritten e → e.size = 0 := by
  cases c with
  | ask q path => exact hout.elim
  | make target path =>
    obtain ⟨hroot, rfl | ⟨l, rs, name, hends, htells⟩⟩ := hout
    · exact ⟨by simp, by simp⟩
    by_cases hpath : IsRoot path
    · rw [hroot hpath]
      exact ⟨by simp, by simp⟩
    have hright := h hpath l rs name hends
    constructor
    · rintro rfl
      obtain ⟨pw, rfl, hchecked⟩ := htells
      cases hlookup : image.load.lookup l 0 rs name with
      | none =>
        rw [hlookup] at hright
        exact hright
      | some found =>
        rw [hlookup] at hright
        obtain ⟨hopens, hwrite⟩ := hchecked _ _ hlookup
        exact absurd (hright hopens hwrite).1 Bool.false_ne_true
    · rintro e rfl
      obtain ⟨linuxFile, pw, offset, rfl, hsome, hopens, hwrite⟩ := htells
      rw [hsome] at hright
      exact (hright hopens hwrite).2

end Image

/-- **The sizes of the directories.** They are right in every run in which what `write` is to open can be
    opened, and what it overwrites has no size. -/
theorem commands_countsSizes {g : Garbage} {now : Stamp} {is1024 : Bool} (hg : g.Clean is1024) {image : Image}
    (hsteps : (commands.restrict fun image e => image.Harmless e.command ∧ image.SizesRight e.command).Steps
      (createFilesystem g now is1024) image) : image.CountsSizes := by
  obtain ⟨l, h⟩ := hasTree_createFilesystem hg now
  have hinit : CountsSizes emptyTree (createFilesystem g now is1024).load.sb := by
    rw [createFilesystem_eq, load_sb (sizes is1024)]
    exact ⟨rfl, trivial⟩
  obtain ⟨t, htree, -, hcounts⟩ := h.steps (I := CountsSizes) (fun image e hok => hok.1)
    (fun image l e t t' sb' accepted hok htree hmoves _ hinv =>
      hinv.moves hmoves (fun out hout => hok.2.outcome hout) htree.hasTree.heldBy htree.hasTree.bytes_lt)
    hsteps trivial hinit
  have hlt := htree.hasTree.bytes_lt
  refine ⟨l, t, htree, ?_, hcounts.sized.toNat hlt⟩
  rw [hcounts.rootDir, UInt32.toNat_ofNat_of_lt' hlt]

/-- A file of three bytes in the root directory. -/
theorem commands_countsSizes_newImage : ∃ image,
    (commands.restrict fun image e => image.Harmless e.command ∧ image.SizesRight e.command).Steps
      newImage image ∧ image.load.sb.rootDir.size = 3 ∧ image.CountsSizes := by
  let target : Target := .file (some ⟨[1, 2, 3], true, true⟩) none
  have hharmless : newImage.Harmless (.make target [FileSystem.newName]) :=
    harmless_newImage target ⟨hasPlace_newImage, .inl (by decide +kernel)⟩
  have hright : newImage.SizesRight (.make target [FileSystem.newName]) := fun _ l rs name hends => by
    obtain ⟨rfl, rfl, rfl⟩ := endsIn_newImage hends
    rw [lookup_newImage]
    trivial
  obtain ⟨s, output, hstep, hsize⟩ := Image.step_of_yields newImage (.make target [FileSystem.newName]) stopped
    (fun x => x.1.toImage.load.sb.rootDir.size = 3) (n := 10) (by decide +kernel)
  have hsteps : (commands.restrict fun image e => image.Harmless e.command ∧ image.SizesRight e.command).Steps
      newImage s.toImage := .step .refl ⟨⟨hharmless, hright⟩, hstep⟩
  exact ⟨s.toImage, hsteps, of_decide_eq_true hsize, commands_countsSizes clean_zero hsteps⟩

/-- Writing what cannot be opened. -/
def writeUnopened : Command := .make (.file none none) [FileSystem.newName]

/-- A file of Linux that cannot be opened counts as one byte. -/
theorem not_countsSizes : ¬∀ image, commands.Reachable image → image.CountsSizes := by
  intro hall
  obtain ⟨s, output, hstep, hsize⟩ := Image.step_of_yields newImage writeUnopened stopped
    (fun x => x.1.toImage.load.sb.rootDir.size = 1) (n := 10) (by decide +kernel)
  obtain ⟨l, t, htree, hroot, -⟩ := hall _ (.step (.init ⟨_, _, _, rfl⟩) hstep)
  obtain ⟨l₀, h₀⟩ : ∃ l, newImage.HasTree l emptyTree := hasTree_createFilesystem clean_zero _
  have hharmless : newImage.Harmless writeUnopened := harmless_newImage _ trivial
  obtain ⟨t', accepted, hmoves, htree', -, -⟩ := h₀.step trivial hharmless hstep
  -- Nothing is added.
  have hsame : t' = emptyTree := by
    generalize s.toImage.load.sb = sb' at hmoves
    generalize emptyTree = t₀ at hmoves ⊢
    cases hmoves with
    | make _ halong =>
      cases halong with
      | here hacts =>
        cases hacts with
        | refused _ | unopened _ => rfl
        | miscounted h | directory h _ _ _ _ | file h _ _ _ _ | overwritten h _ _ _ _ _ _ _ => cases h
      | inside hpath _ _ _ => exact absurd rfl hpath
  subst hsame
  obtain ⟨-, rfl⟩ := htree.hasTree.unique htree'.hasTree
  rw [of_decide_eq_true hsize] at hroot
  exact absurd hroot Nat.one_ne_zero

end GtuOs.FatFileSystem

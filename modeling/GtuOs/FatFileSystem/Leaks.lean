import GtuOs.FatFileSystem.Allocation
import GtuOs.FatFileSystem.Items
import GtuOs.FatFileSystem.Keeping

/-!
# No block is lost

Nothing is ever freed, so a block that is taken should be one of the superblock and the FAT, of the root
directory, or of a file or directory that a path leads to. It is in every run in which no
directory is overwritten (`commands_keepsBlocks`): what is below an overwritten directory keeps its
blocks, and no path leads there.

The number of free blocks goes down as the tree grows (`Tree.CountsBlocks`), so there is no block left
that could be lost.
-/

namespace GtuOs.FatFileSystem

/-- What happens at the end of the path is to what the whole path leads to. -/
theorem Along.resolve {touch : ℕ → Record → Record} {P : List CString → Tree → Tree → Prop} {k : ℕ}
    {path : List CString} {t t' : Tree} (h : Along touch P k path t t') :
    Along touch (fun p u u' => P p u u' ∧ u.resolve p = t.resolve path) k path t t' := by
  induction h with
  | here hP => exact .here ⟨hP, rfl⟩
  | inside hpath hnone hfor _ ih =>
    rw [Tree.resolve_inside hpath hnone hfor]
    exact .inside hpath hnone hfor ih

namespace Tree

/-- The number of files and directories. -/
def size (t : Tree) : ℕ := t.sum fun _ => 1

variable {t t' : Tree} {path : List CString} {s : FileSystem}

theorem Single.length_blocks (h : t.Single) : t.blocks.length = t.size := by
  induction t with
  | nil => rfl
  | passive r rest ih => exact ih h
  | file r l content rest ih =>
    have hl : l.length = 1 := h.1
    rw [blocks, List.length_append, hl, ih h.2, size, size, sum, Nat.add_comm]
  | dir r l sub rest ihsub ih =>
    have hl : l.length = 1 := h.1
    rw [blocks, List.length_append, List.length_append, hl, ihsub h.2.1, ih h.2.2, size, size, size, sum]

/-- What is behind another record. -/
theorem resolve_cons_of_distinct {n m : Node} (ht : t.HeldBy s) (hname : n.record.string ∉ t.names)
    (h : t.resolve path = some m) : (n.cons t).resolve path = some m := by
  cases path with
  | nil => cases h
  | cons name path =>
    obtain ⟨m₀, hm₀, -⟩ := exists_find_of_resolve h
    have hmem := (mem_names_iff ht).2 (Option.isSome_iff_exists.2 ⟨m₀, hm₀⟩)
    have hfor : ¬n.record.IsFor name := fun hfor => hname (hfor.2 ▸ hmem)
    rw [← h]
    exact resolve_congr (find_cons_of_neg hfor t)

/-- **Every block is that of a path.** -/
theorem exists_resolve_of_mem_blocks {b : ℕ} (ht : t.HeldBy s) (hdistinct : t.Distinct) (hb : b ∈ t.blocks) :
    ∃ p n, t.resolve p = some n ∧ b ∈ n.chain := by
  induction t with
  | nil => exact absurd hb List.not_mem_nil
  | passive r rest ih =>
    obtain ⟨p, n, hn, hbn⟩ := ih ht.2 hdistinct hb
    refine ⟨p, n, ?_, hbn⟩
    cases p with
    | nil => exact hn
    | cons name p =>
      have hskip : (passive r rest).find name = rest.find name := rfl
      exact (resolve_congr hskip).trans hn
  | file r l content rest ih =>
    have hheld : (Node.file r l content).HeldBy s := ht.1
    obtain ⟨hnot, hnodup⟩ := List.nodup_cons.1 hdistinct.1
    rcases List.mem_append.1 hb with hb | hb
    · exact ⟨[r.fileName], _, find_cons (hheld.isFor_iff.1 rfl) rest, hb⟩
    · obtain ⟨p, n, hn, hbn⟩ := ih ht.2 ⟨hnodup, hdistinct.2.2⟩ hb
      exact ⟨p, n, resolve_cons_of_distinct (n := .file r l content) ht.2 hnot hn, hbn⟩
  | dir r l sub rest ihsub ih =>
    have hheld : (Node.dir r l sub).HeldBy s := ⟨ht.1, ht.2.1⟩
    obtain ⟨hnot, hnodup⟩ := List.nodup_cons.1 hdistinct.1
    have hfind : (dir r l sub rest).find r.fileName = some (.dir r l sub) :=
      find_cons (hheld.isFor_iff.1 rfl) rest
    rcases List.mem_append.1 hb with hb | hb
    · exact ⟨[r.fileName], _, hfind, hb⟩
    rcases List.mem_append.1 hb with hb | hb
    · obtain ⟨p, n, hn, hbn⟩ := ihsub ht.2.1 ⟨hdistinct.2.1, hdistinct.2.2.1⟩ hb
      have hp : p ≠ [] := fun h => by
        subst h
        cases hn
      exact ⟨r.fileName :: p, n, (resolve_cons r.fileName hp).2 ⟨r, l, sub, hfind, hn⟩, hbn⟩
    · obtain ⟨p, n, hn, hbn⟩ := ih ht.2.2 ⟨hnodup, hdistinct.2.2.2⟩ hb
      exact ⟨p, n, resolve_cons_of_distinct (n := .dir r l sub) ht.2.2 hnot hn, hbn⟩

/-- At the end of the path, unless a directory is overwritten. -/
theorem size_of_acts {target : Target} {res : ℤ} {out : Outcome} (h : Acts target path t t' res out)
    (hfile : ∀ n, t.resolve path = some n → out = .overwritten n.record.entry → n.record.entry.IsFile)
    (ht : t.HeldBy s) : t'.size = t.size + (out.newDirs + out.newFiles) := by
  have hkept : t.kept.size = t.size := sum_kept fun n => by cases n <;> rfl
  rw [size] at hkept
  cases h with
  | refused _ | unopened _ | miscounted _ => rfl
  | directory _ _ _ _ _ | file _ _ _ _ _ =>
    rw [size, sum_split, hkept]
    rfl
  | @overwritten name t₁ t₂ n r' linuxFile _ _ hnone hfor _ _ _ _ _ =>
    have hisFile := hfile n (find_split hnone hfor t₂) rfl
    obtain ⟨-, hn, -⟩ := heldBy_split.1 ht
    rw [size, size, sum_split, sum_split]
    cases n with
    | file r l content => rfl
    | dir r l sub => exact absurd hisFile.1 hn.1.isDirectory.2

theorem size_of_walks {q : Query} {now : Stamp} {output : Output} {accepted : Bool}
    (h : Walks q now path t t' output accepted) : t'.size = t.size := by
  cases h with
  | refused | listed _ _ | copied _ _ _ _ => rfl
  | changed _ _ _ _ _ _ _ =>
    rw [size, size, sum_split, sum_split]
    rfl

/-- The free blocks are all but those of the superblock, the FAT, the root directory and the tree. -/
structure CountsBlocks (total : ℕ) (t : Tree) (sb : Superblock) : Prop where
  start : sb.blockNumberForSuperblock.toNat + sb.blockNumberForFat.toNat + 1 + total = numBlocks
  numFreeBlocks : sb.numFreeBlocks + .ofNat t.size = .ofNat total

end Tree

/-- The step. -/
theorem Tree.CountsBlocks.moves {s : FileSystem} {P : Outcome → Prop} {clock : ℕ → Stamp} {c : Command} {t t' : Tree}
    {sb sb' : Superblock} {output : Output} {accepted : Bool} {total : ℕ} (h : CountsBlocks total t sb)
    (hmoves : Moves P clock c t sb t' sb' output accepted)
    (hfile : ∀ n e, t.resolve c.path = some n → P (.overwritten e) → e = n.record.entry → e.IsFile) (ht : t.HeldBy s) :
    CountsBlocks total t' sb' := by
  cases hmoves with
  | @make _ _ _ _ _ res out hout halong =>
    have hsize : t'.size = t.size + (out.newDirs + out.newFiles) := by
      refine sum_of_along (fun _ _ _ _ _ => rfl) halong.resolve (fun path u u' hacts hu => ?_) ht
      obtain ⟨hacts, hres⟩ := hacts
      refine size_of_acts hacts (fun n hn heq => ?_) hu
      subst heq
      exact hfile n _ (hres.symm.trans hn) hout rfl
    have hsub : ∀ a b : UInt16, a - 1 + (b + 1) = a + b := fun a b => by
      rw [UInt16.add_comm b 1, ← UInt16.add_assoc, UInt16.sub_add_cancel]
    refine ⟨by cases out <;> exact h.start, ?_⟩
    rw [hsize, ← h.numFreeBlocks]
    cases out with
    | directory | file =>
      rw [UInt16.ofNat_add]
      exact hsub _ _
    | refused | unopened | miscounted | overwritten _ => rfl
  | ask halong =>
    have hsize : t'.size = t.size + 0 :=
      sum_of_along (fun _ _ _ _ _ => rfl) halong (fun _ _ _ hwalks _ => size_of_walks hwalks) ht
    exact ⟨h.start, hsize ▸ h.numFreeBlocks⟩
  | root _ => exact h

namespace Image

variable {image : Image} {l : List ℕ} {t : Tree}

/-- The block is one of the chain of what the path leads to. -/
def Owns (image : Image) (path : List CString) (b : ℕ) : Prop :=
  ∃ e l, image.Live path e ∧ IsChain image.load.fat e.firstBlockIndex l ∧ b ∈ l

/-- A data block is taken exactly if there is a path, and then one only, to what it is a block of. -/
def KeepsBlocks (image : Image) : Prop :=
  ∀ b, image.load.dataStart ≤ b → b < numBlocks →
    (image.load.fat b ≠ fatEntryEmpty ↔ ∃ path, image.Owns path b ∧ ∀ path', image.Owns path' b → path' = path)

/-- What is overwritten is a file. -/
theorem HasTree.isFile_of_spares {c : Command} {n : Node} {e : DirectoryEntry} (h : image.HasTree l t)
    (hspares : image.SparesDirectories c) (hn : t.resolve c.path = some n) (hreaches : image.Reaches (.overwritten e) c)
    (he : e = n.record.entry) : e.IsFile := by
  cases c with
  | ask q path => exact hreaches.elim
  | make target path =>
    rcases hreaches.2 with hrefused | ⟨l', rs, name, -, linuxFile, pw, offset, rfl, -, hopens, hwrite⟩
    · cases hrefused
    · exact hspares e (h.resolves_iff.2 ⟨n, hn, he.symm⟩) hopens hwrite

/-- As many blocks are taken as there are files and directories, so all that are not free are theirs. -/
theorem HasTree.mem_of_counts {total b : ℕ} (h : image.HasTree l t) (hsingle : t.Single)
    (hcounts : t.CountsBlocks total image.load.sb) (hb : image.load.dataStart ≤ b) (hlt : b < numBlocks)
    (hfat : image.load.fat b ≠ fatEntryEmpty) : b ∈ l ++ t.blocks := by
  let taken := (l ++ t.blocks).toFinset
  let free := (Finset.range numBlocks).filter fun b => image.load.fat b = fatEntryEmpty
  have htaken : taken.card = l.length + t.size := by
    rw [List.toFinset_card_of_nodup h.hasTree.nodup, List.length_append, hsingle.length_blocks]
  have hfree : image.load.sb.numFreeBlocks.toNat = free.card := by
    rw [h.consistent.numFreeBlocks, FileSystem.freeBlocks, FileSystem.countEmpty]
  have hdisjoint : Disjoint taken free := Finset.disjoint_left.2 fun c hc hc' =>
    (h.hasTree.ne_empty (List.mem_toFinset.1 hc)).2 (Finset.mem_filter.1 hc').2
  have hsub : taken ∪ free ⊆ Finset.Ico image.load.dataStart numBlocks := by
    intro c hc
    rw [Finset.mem_Ico]
    rcases Finset.mem_union.1 hc with hc | hc
    · have hc := List.mem_toFinset.1 hc
      exact ⟨h.hasTree.dataStart_le c hc, (h.hasTree.ne_empty hc).1⟩
    · obtain ⟨hc, hempty⟩ := Finset.mem_filter.1 hc
      exact ⟨h.consistent.dataStart_le c (Finset.mem_range.1 hc) hempty, Finset.mem_range.1 hc⟩
  -- The counter has not overflowed.
  have hsize : t.size ≤ numBlocks := h.hasTree.sum_le (f := fun _ => 1) fun _ => Nat.le_refl 1
  have hfreele : free.card ≤ numBlocks := (Finset.card_filter_le _ _).trans (Finset.card_range _).le
  have htotal : free.card + t.size = total := by
    have hstart := hcounts.start
    have hnum := congrArg UInt16.toNat hcounts.numFreeBlocks
    have hblocks : numBlocks = 4096 := rfl
    rw [UInt16.toNat_add, hfree, UInt16.toNat_ofNat', UInt16.toNat_ofNat'] at hnum
    omega
  have hl : 0 < l.length := List.length_pos_of_ne_nil h.hasTree.table.ne_nil
  have hall : taken ∪ free = Finset.Ico image.load.dataStart numBlocks := by
    refine Finset.eq_of_subset_of_card_le hsub ?_
    have hstart : image.load.dataStart + 1 + total = numBlocks := hcounts.start
    rw [Nat.card_Ico, Finset.card_union_of_disjoint hdisjoint, htaken]
    omega
  have hmem : b ∈ taken ∪ free := by
    rw [hall, Finset.mem_Ico]
    exact ⟨hb, hlt⟩
  rcases Finset.mem_union.1 hmem with hmem | hmem
  · exact List.mem_toFinset.1 hmem
  · exact absurd (Finset.mem_filter.1 hmem).2 hfat

theorem HasTree.keepsBlocks (h : image.HasTree l t) (hdistinct : t.Distinct)
    (hall : ∀ b, image.load.dataStart ≤ b → b < numBlocks → image.load.fat b ≠ fatEntryEmpty → b ∈ l ++ t.blocks) :
    image.KeepsBlocks := by
  intro b hb hlt
  constructor
  swap
  · rintro ⟨path, ⟨e, l', -, hchain, hmem⟩, -⟩
    exact hchain.ne_empty hmem
  intro hfat
  have howns : ∃ path, image.Owns path b := by
    rcases List.mem_append.1 (hall b hb hlt hfat) with hmem | hmem
    · exact ⟨[], _, l, .inl ⟨rfl, rfl⟩, h.hasTree.table.chained.isChain, hmem⟩
    · obtain ⟨p, n, hn, hbn⟩ := Tree.exists_resolve_of_mem_blocks h.hasTree.heldBy hdistinct hmem
      exact ⟨p, n.record.entry, n.chain, .inr (h.resolves_iff.2 ⟨n, hn, rfl⟩),
        (h.hasTree.heldBy.resolve hn).chained.isChain, hbn⟩
  obtain ⟨path, e, l₁, hlive, hchain, hmem⟩ := howns
  refine ⟨path, ⟨e, l₁, hlive, hchain, hmem⟩, ?_⟩
  rintro path' ⟨e', l₂, hlive', hchain', hmem'⟩
  by_contra hne
  exact h.soundAllocation.disjoint path' e' path e l₂ l₁ hlive' hlive hne hchain' hchain hmem' hmem

end Image

/-- **No block is lost.** After any run of commands that reach no defect and overwrite no directory, each data
    block that is taken is one of the root directory or of what exactly one path leads to. -/
theorem commands_keepsBlocks {g : Garbage} {now : Stamp} {is1024 : Bool} (hg : g.Clean is1024) {image : Image}
    (hsteps : (commands.restrict fun image e => image.Harmless e.command ∧ image.SparesDirectories e.command).Steps
      (createFilesystem g now is1024) image) : image.KeepsBlocks := by
  obtain ⟨l, h⟩ := hasTree_createFilesystem hg now
  have hinit : ∃ total, emptyTree.CountsBlocks total (createFilesystem g now is1024).load.sb := by
    have hroot := (sizes is1024).root_lt
    obtain ⟨-, hsup, hfat, -⟩ := toNat_sizes (sizes is1024)
    rw [createFilesystem_eq, load_sb (sizes is1024)]
    refine ⟨numBlocks - (_ + _ + 1), ?_, UInt16.add_zero _⟩
    show (UInt16.ofNat _).toNat + (UInt16.ofNat _).toNat + 1 + _ = _
    rw [hsup, hfat, Nat.add_sub_cancel' hroot]
  obtain ⟨total, hinit⟩ := hinit
  obtain ⟨t, htree, hsingle, hcounts, hdistinct⟩ := h.steps
    (I := fun t sb => t.CountsBlocks total sb ∧ t.Distinct) (fun image e hok => hok.1)
    (fun image l e t t' sb' accepted hok htree hmoves _ hinv =>
      ⟨hinv.1.moves hmoves (fun n e hn hreaches he => htree.isFile_of_spares hok.2 hn hreaches he) htree.hasTree.heldBy,
        hmoves.distinct htree.hasTree.heldBy hinv.2⟩) hsteps trivial ⟨hinit, List.nodup_nil, trivial⟩
  exact htree.keepsBlocks hdistinct fun b hb hlt hfat => htree.mem_of_counts hsingle hcounts hb hlt hfat

/-- A new directory takes a block. -/
theorem commands_keepsBlocks_newImage : ∃ image : Image,
    (image.load.fat 26 ≠ fatEntryEmpty ∧ image.load.dataStart ≤ 26) ∧ image.KeepsBlocks := by
  have hharmless : newImage.Harmless (.make .dir [FileSystem.newName]) :=
    harmless_newImage .dir hasPlace_newImage
  have hspares : newImage.SparesDirectories (.make .dir [FileSystem.newName]) := trivial
  obtain ⟨s, output, hstep, htaken⟩ := Image.step_of_yields newImage (.make .dir [FileSystem.newName]) stopped
    (fun x => x.1.toImage.load.fat 26 ≠ fatEntryEmpty ∧ x.1.toImage.load.dataStart ≤ 26) (n := 10)
    (by decide +kernel)
  have hsteps : (commands.restrict fun image e => image.Harmless e.command ∧ image.SparesDirectories e.command).Steps
      newImage s.toImage := .step .refl ⟨⟨hharmless, hspares⟩, hstep⟩
  exact ⟨s.toImage, of_decide_eq_true htaken, commands_keepsBlocks clean_zero hsteps⟩

end GtuOs.FatFileSystem

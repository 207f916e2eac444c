import GtuOs.FatFileSystem.Fate

/-!
# The allocation of blocks

The chains of all files and directories are apart, long enough, and in the range of the data blocks, and the free
blocks are counted (`Image.SoundAllocation`), where an image has a tree
(`Image.HasTree.soundAllocation`), and so after every run of `mkdir` and `write` that reaches no defect
(`make_soundAllocation`). A content of more than one block does not get its blocks
(`not_soundAllocation`).
-/

namespace GtuOs.FatFileSystem

namespace Tree

variable {t t₁ t₂ : Tree} {name name' : CString} {n m : Node} {p q : List CString}

theorem blocks_of_find (h : t.find name = some n) : n.blocks.Sublist t.blocks := by
  obtain ⟨t₁, t₂, rfl, -⟩ := exists_of_find h
  exact blocks_sublist_split t₁ n t₂

/-- What is below the first name of a path. -/
theorem exists_find_of_resolve (h : t.resolve (name :: p) = some n) :
    ∃ m, t.find name = some m ∧ n.blocks.Sublist m.blocks := by
  induction p generalizing t name with
  | nil => exact ⟨n, h, .refl _⟩
  | cons name' p ih =>
    obtain ⟨r, l, sub, hdir, hsub⟩ := (resolve_cons name (List.cons_ne_nil name' p)).1 h
    obtain ⟨m, hm, hle⟩ := ih hsub
    exact ⟨_, hdir, (hle.trans (blocks_of_find hm)).trans (List.sublist_append_right _ _)⟩

theorem blocks_of_resolve (h : t.resolve p = some n) : n.blocks.Sublist t.blocks := by
  cases p with
  | nil => cases h
  | cons name p =>
    obtain ⟨m, hm, hle⟩ := exists_find_of_resolve h
    exact hle.trans (blocks_of_find hm)

/-- Two names in a directory. -/
theorem disjoint_of_find (hnodup : t.blocks.Nodup) (hn : t.find name = some n) (hm : t.find name' = some m)
    (hne : name ≠ name') : n.blocks.Disjoint m.blocks := by
  obtain ⟨t₁, t₂, rfl, -, hfor⟩ := exists_of_find hn
  rw [blocks_split] at hnodup
  have hsplit := List.disjoint_of_nodup_append hnodup
  rw [find_append, find_cons_of_neg fun h => hne (hfor.unique h)] at hm
  rcases Option.or_eq_some_iff.1 hm with hm | ⟨-, hm⟩
  · exact fun b hb hb' => hsplit ((blocks_of_find hm).subset hb') (List.mem_append_left _ hb)
  · exact fun b hb hb' =>
      List.disjoint_of_nodup_append hnodup.of_append_right hb ((blocks_of_find hm).subset hb')

/-- Two paths. -/
theorem disjoint_of_resolve (hnodup : t.blocks.Nodup) (hp : t.resolve p = some n) (hq : t.resolve q = some m)
    (hne : p ≠ q) : n.chain.Disjoint m.chain := by
  induction p generalizing t q with
  | nil => cases hp
  | cons name p ih =>
    cases q with
    | nil => cases hq
    | cons name' q =>
      by_cases hname : name = name'
      swap
      · obtain ⟨n₀, hn₀, hlen⟩ := exists_find_of_resolve hp
        obtain ⟨m₀, hm₀, hlem⟩ := exists_find_of_resolve hq
        exact fun b hb hb' => disjoint_of_find hnodup hn₀ hm₀ hname ((n.chain_sublist.trans hlen).subset hb)
          ((m.chain_sublist.trans hlem).subset hb')
      subst hname
      -- A directory, and what is below it.
      have hbelow : ∀ {r l sub p n}, t.find name = some (.dir r l sub) → sub.resolve p = some n →
          l.Disjoint n.chain := by
        intro r l sub p n hdir hsub b hb hb'
        have hdisjoint : (l ++ sub.blocks).Nodup := (blocks_of_find hdir).nodup hnodup
        exact List.disjoint_of_nodup_append hdisjoint hb ((n.chain_sublist.trans (blocks_of_resolve hsub)).subset hb')
      rcases eq_or_ne p [] with rfl | hp'
      · have hq' : q ≠ [] := fun h => hne (by rw [h])
        obtain ⟨r, l, sub, hdir, hsub⟩ := (resolve_cons name hq').1 hq
        obtain rfl := Option.some.inj (hdir.symm.trans hp)
        exact hbelow hdir hsub
      obtain ⟨r, l, sub, hdir, hsub⟩ := (resolve_cons name hp').1 hp
      rcases eq_or_ne q [] with rfl | hq'
      · obtain rfl := Option.some.inj (hdir.symm.trans hq)
        exact (hbelow hdir hsub).symm
      obtain ⟨r', l', sub', hdir', hsub'⟩ := (resolve_cons name hq').1 hq
      obtain ⟨-, -, rfl⟩ := Node.dir.inj (Option.some.inj (hdir.symm.trans hdir'))
      have hdisjoint : (l ++ sub.blocks).Nodup := (blocks_of_find hdir).nodup hnodup
      exact ih hdisjoint.of_append_right hsub hsub' fun h => hne (by rw [h])

end Tree

namespace Image

variable {image image' : Image} {l : List ℕ} {t : Tree}

/-- The path leads to the entry; that of the root directory is empty. -/
def Live (image : Image) (path : List CString) (e : DirectoryEntry) : Prop :=
  path = [] ∧ e = image.load.sb.rootDir ∨ image.Resolves path e

/-- The number of blocks that a file takes. -/
def blocksFor (image : Image) (size : ℕ) : ℕ :=
  max 1 ((size + image.load.blockSize - 1) / image.load.blockSize)

/-- The chain of every file and directory ends, in the range of the data blocks, and takes as many blocks as its
    size; two chains are apart, and the free blocks are counted. -/
structure SoundAllocation (image : Image) : Prop where
  isChain : ∀ path e, image.Live path e → ∃ l, IsChain image.load.fat e.firstBlockIndex l ∧ l ≠ [] ∧ l.Nodup ∧
    ∀ b ∈ l, image.load.dataStart ≤ b ∧ b < numBlocks
  disjoint : ∀ path e path' e' l l', image.Live path e → image.Live path' e' → path ≠ path' →
    IsChain image.load.fat e.firstBlockIndex l → IsChain image.load.fat e'.firstBlockIndex l' → l.Disjoint l'
  blocksFor_le : ∀ path e l, image.Resolves path e → e.IsFile → IsChain image.load.fat e.firstBlockIndex l →
    image.blocksFor e.size.toNat ≤ l.length
  numFreeBlocks : image.load.sb.numFreeBlocks.toNat =
    ((Finset.range numBlocks).filter fun b => image.load.fat b = fatEntryEmpty).card

theorem HasTree.soundAllocation (h : image.HasTree l t) : image.SoundAllocation := by
  have hnodup := h.hasTree.nodup
  have hstart := h.hasTree.dataStart_le
  -- The chain of a live entry is that in the tree.
  have hlive : ∀ {path e}, image.Live path e → ∃ l', IsChain image.load.fat e.firstBlockIndex l' ∧ l' ≠ [] ∧
      ((path = [] ∧ l' = l) ∨ ∃ n, t.resolve path = some n ∧ n.chain = l') := by
    rintro path e (⟨rfl, rfl⟩ | hres)
    · exact ⟨l, h.hasTree.table.chained.isChain, h.hasTree.table.ne_nil, .inl ⟨rfl, rfl⟩⟩
    · obtain ⟨n, hn, rfl⟩ := h.resolves_iff.1 hres
      have hheld := h.hasTree.heldBy.resolve hn
      exact ⟨n.chain, hheld.chained.isChain, hheld.ne_nil, .inr ⟨n, hn, rfl⟩⟩
  have hbelow : ∀ {path n}, t.resolve path = some n → ∀ b ∈ n.chain, b ∈ t.blocks := fun hn b hb =>
    (Tree.blocks_of_resolve hn).subset ((Node.chain_sublist _).subset hb)
  refine ⟨fun path e he => ?_, fun path e path' e' l₁ l₂ he he' hne hl₁ hl₂ => ?_, fun path e l' hres hfile hl' => ?_, ?_⟩
  · obtain ⟨l', hchain, hne, hwhere⟩ := hlive he
    refine ⟨l', hchain, hne, hchain.nodup, fun b hb => ⟨hstart b ?_, hchain.lt b hb⟩⟩
    rcases hwhere with ⟨-, rfl⟩ | ⟨n, hn, rfl⟩
    · exact List.mem_append_left _ hb
    · exact List.mem_append_right _ (hbelow hn b hb)
  · obtain ⟨l₁', hchain₁, -, hwhere₁⟩ := hlive he
    obtain ⟨l₂', hchain₂, -, hwhere₂⟩ := hlive he'
    obtain rfl := hl₁.unique hchain₁
    obtain rfl := hl₂.unique hchain₂
    have hroot := List.disjoint_of_nodup_append hnodup
    rcases hwhere₁ with ⟨rfl, rfl⟩ | ⟨n, hn, rfl⟩
    · rcases hwhere₂ with ⟨rfl, -⟩ | ⟨m, hm, rfl⟩
      · exact absurd rfl hne
      · exact fun b hb hb' => hroot hb (hbelow hm b hb')
    · rcases hwhere₂ with ⟨rfl, rfl⟩ | ⟨m, hm, rfl⟩
      · exact fun b hb hb' => hroot hb' (hbelow hn b hb)
      · exact Tree.disjoint_of_resolve hnodup.of_append_right hn hm hne
  · obtain ⟨n, hn, rfl⟩ := h.resolves_iff.1 hres
    obtain ⟨r, l₁, content, rfl⟩ := (h.hasTree.heldBy.resolve hn).isFile_iff.1 hfile
    have hstores : image.load.StoresFile r l₁ content := h.hasTree.heldBy.resolve hn
    obtain rfl := hl'.unique hstores.chained.isChain
    have hle := hstores.length_le
    rw [hstores.length_eq] at hle
    have hpos : 0 < image.load.blockSize := lt_of_lt_of_le (by decide) h.consistent.geometry.header_le
    refine max_le (List.length_pos_of_ne_nil hstores.ne_nil) (Nat.le_of_lt_succ ((Nat.div_lt_iff_lt_mul hpos).2 ?_))
    rw [Nat.succ_mul]
    show r.entry.size.toNat + _ - 1 < _
    omega
  · rw [h.consistent.numFreeBlocks, FileSystem.freeBlocks, FileSystem.countEmpty]

/-- A step of a run of `mkdir` and `write`. The chains may be of any length. -/
theorem HasTree.make {e : Event} {target : Target} {path : List CString} (h : image.HasTree l t)
    (he : e.command = .make target path) (hharmless : image.Harmless e.command) (hstep : commands.step image e image') :
    ∃ t', image'.HasTree l t' := by
  obtain ⟨c, clock, output, printed⟩ := e
  obtain rfl : c = .make target path := he
  obtain ⟨s, hset, -, rfl⟩ := hstep
  obtain ⟨s', t', accepted, hset', -, h', -⟩ := mkdirEntry_spec h hharmless clock
  obtain ⟨rfl, -⟩ := Prod.mk.inj (Except.ok.inj (hset.unique (settles_exec_make hset')))
  exact ⟨t', h'⟩

end Image

/-- The command is `mkdir` or `write`. -/
def Command.IsMake (c : Command) : Prop := ∃ target path, c = .make target path

/-- **Allocation.** From any image with a tree, it is sound after every run of `mkdir` and `write` that reaches no
    defect. -/
theorem make_soundAllocation {image image' : Image} {l : List ℕ} {t : Tree} (h : image.HasTree l t)
    (hsteps : (commands.restrict fun image e => e.command.IsMake ∧ image.Harmless e.command).Steps image image') :
    image'.SoundAllocation := by
  obtain ⟨t', h'⟩ : ∃ t', image'.HasTree l t' := by
    induction hsteps with
    | refl => exact ⟨t, h⟩
    | step _ hstep ih =>
      obtain ⟨t₁, h₁⟩ := ih
      obtain ⟨⟨⟨target, path, he⟩, hharmless⟩, hstep⟩ := hstep
      exact h₁.make he hharmless hstep
  exact h'.soundAllocation

/-- A file of three bytes. -/
theorem make_soundAllocation_newImage : ∃ image : Image,
    (∃ e, image.Live [FileSystem.newName] e ∧ e.IsFile ∧ e.size = 3) ∧ image.SoundAllocation := by
  let target : Target := .file (some ⟨[1, 2, 3], true, true⟩) none
  have hharmless : newImage.Harmless (.make target [FileSystem.newName]) :=
    harmless_newImage target ⟨hasPlace_newImage, .inl (by decide +kernel)⟩
  have heval : yields (newImage.exec (.make target [FileSystem.newName]) stopped 10) (fun x =>
      x.1.toImage.finds FileSystem.newName fun e => e.IsFile ∧ e.size = 3) = true := by
    decide +kernel
  obtain ⟨s, output, hstep, hfinds⟩ := Image.step_of_yields _ _ _ _ heval
  obtain ⟨e, hres, he⟩ := Image.exists_of_finds hfinds
  obtain ⟨l, h⟩ : ∃ l, newImage.HasTree l emptyTree := hasTree_createFilesystem clean_zero _
  exact ⟨s.toImage, ⟨e, .inr hres, of_decide_eq_true he⟩,
    make_soundAllocation h (.step .refl ⟨⟨⟨target, _, rfl⟩, hharmless⟩, hstep⟩)⟩

set_option maxRecDepth 20000 in
/-- A content of one block and one byte gets one block. -/
theorem not_soundAllocation : ¬∀ image l t image', Image.HasTree image l t →
    (commands.restrict fun _ e => e.command.IsMake).Steps image image' → image'.SoundAllocation := by
  intro hall
  have heval : yields (newImage.exec (.make (.file (some longFile) none) [FileSystem.newName]) stopped 600) (fun x =>
      x.1.toImage.blocksFor 513 = 2 && x.1.toImage.finds FileSystem.newName fun e =>
        e.IsFile ∧ e.size = 513 ∧ x.1.toImage.load.fat e.firstBlockIndex.toNat = fatEntryEnd) = true := by
    decide +kernel
  obtain ⟨s, output, hstep, heval⟩ := Image.step_of_yields _ _ _ _ heval
  obtain ⟨hblocks, hfinds⟩ := Bool.and_eq_true_iff.1 heval
  obtain ⟨e, hres, he⟩ := Image.exists_of_finds hfinds
  obtain ⟨hfile, hsize, hend⟩ := of_decide_eq_true he
  obtain ⟨l₀, h₀⟩ : ∃ l, newImage.HasTree l emptyTree := hasTree_createFilesystem clean_zero _
  have hsound := hall _ _ _ _ h₀ (.step .refl ⟨⟨_, _, rfl⟩, hstep⟩)
  obtain ⟨l, hchain, hne, -⟩ := hsound.isChain _ e (.inr hres)
  have hle := hsound.blocksFor_le _ e l hres hfile hchain
  -- The chain ends after the first block.
  obtain ⟨b, l, rfl⟩ := List.exists_cons_of_ne_nil hne
  obtain ⟨rfl, -, hrest⟩ := hchain
  obtain rfl := hrest.eq_end_iff.1 hend
  have htwo : s.toImage.blocksFor e.size.toNat = 2 := by
    rw [hsize]
    exact of_decide_eq_true hblocks
  rw [htwo] at hle
  exact absurd hle (Nat.not_succ_le_self 1)

end GtuOs.FatFileSystem

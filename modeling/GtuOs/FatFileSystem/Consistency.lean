import GtuOs.FatFileSystem.Tree

/-!
# Consistent file systems

A file system is consistent (`FileSystem.Consistent`) if the superblock and the FAT are stored where the
superblock says, and the free blocks are among the data, and counted. A directory has a tree
(`FileSystem.HasTree`) if its table and everything below it are there, in different blocks; there is at
most one (`HasTree.unique`).

Three changes keep this: a change below one of the directories (`HasTree.inside`), a header written
again (`HasTree.rewrite`), and loading the image anew (`HasTree.load`).
-/

namespace GtuOs.FatFileSystem.FileSystem

variable {s s' : FileSystem} {i : UInt16} {l l' : List ℕ} {t t₁ t₂ sub sub' : Tree} {r : Record} {n n' : Node}
  {B : Set ℕ}

/-- The superblock and the FAT are stored, and the free blocks are blocks of the data, and counted. -/
structure Consistent (s : FileSystem) : Prop where
  geometry : s.Geometry
  stored : s.Stored
  dataStart_le : ∀ b < numBlocks, s.fat b = fatEntryEmpty → s.dataStart ≤ b
  numFreeBlocks : s.sb.numFreeBlocks.toNat = s.freeBlocks

/-- The directory with the first block `i` and the chain `l` has the tree `t`. -/
structure HasTree (s : FileSystem) (i : UInt16) (l : List ℕ) (t : Tree) : Prop where
  table : s.Table i l t.records
  heldBy : t.HeldBy s
  nodup : (l ++ t.blocks).Nodup
  dataStart_le : ∀ b ∈ l ++ t.blocks, s.dataStart ≤ b

/-- A file has one content. -/
theorem StoresFile.unique {content content' : List UInt8} (h : s.StoresFile r l content)
    (h' : s.StoresFile r l' content') : l = l' ∧ content = content' := by
  obtain rfl := h.chained.isChain.unique h'.chained.isChain
  refine ⟨rfl, List.ext_getElem (h.length_eq.trans h'.length_eq.symm) fun k hk hk' => ?_⟩
  have heq := (h.content_eq k hk).symm.trans (h'.content_eq k hk')
  rwa [List.getD_eq_getElem _ _ hk, List.getD_eq_getElem _ _ hk'] at heq

/-- The tree below a table is read off from the file. -/
theorem tree_unique {t' : Tree} (h : t.HeldBy s) (h' : t'.HeldBy s) (heq : t.records = t'.records) : t = t' := by
  -- The header of a record says what kind of node it belongs to, and where its blocks start.
  induction t generalizing t' with
  | nil => cases t' <;> first | rfl | nomatch heq
  | passive r rest ih =>
    cases t' with
    | nil => nomatch heq
    | passive r' rest' =>
      obtain ⟨rfl, hrest⟩ := List.cons.inj heq
      rw [ih h.2 h'.2 hrest]
    | file r' l content rest' =>
      obtain ⟨rfl, -⟩ := List.cons.inj heq
      exact absurd h'.1.active h.1
    | dir r' l sub rest' =>
      obtain ⟨rfl, -⟩ := List.cons.inj heq
      exact absurd h'.1.active h.1
  | file r l content rest ih =>
    cases t' with
    | nil => nomatch heq
    | passive r' rest' =>
      obtain ⟨rfl, -⟩ := List.cons.inj heq
      exact absurd h.1.active h'.1
    | file r' l' content' rest' =>
      obtain ⟨rfl, hrest⟩ := List.cons.inj heq
      obtain ⟨rfl, rfl⟩ := h.1.unique h'.1
      rw [ih h.2 h'.2 hrest]
    | dir r' l' sub rest' =>
      obtain ⟨rfl, -⟩ := List.cons.inj heq
      exact absurd h.1.isFile.1 h'.1.isDirectory.2
  | dir r l sub rest ihsub ih =>
    cases t' with
    | nil => nomatch heq
    | passive r' rest' =>
      obtain ⟨rfl, -⟩ := List.cons.inj heq
      exact absurd h.1.active h'.1
    | file r' l' content' rest' =>
      obtain ⟨rfl, -⟩ := List.cons.inj heq
      exact absurd h'.1.isFile.1 h.1.isDirectory.2
    | dir r' l' sub' rest' =>
      obtain ⟨rfl, hrest⟩ := List.cons.inj heq
      obtain ⟨rfl, hrecords⟩ := h.1.table.unique h'.1.table
      rw [ihsub h.2.1 h'.2.1 hrecords, ih h.2.2 h'.2.2 hrest]

namespace HasTree

/-- A directory has one tree. -/
theorem unique {t' : Tree} (h : s.HasTree i l t) (h' : s.HasTree i l' t') : l = l' ∧ t = t' := by
  obtain ⟨hl, hrecords⟩ := h.table.unique h'.table
  exact ⟨hl, tree_unique h.heldBy h'.heldBy hrecords⟩

theorem ne_empty (h : s.HasTree i l t) {b : ℕ} (hb : b ∈ l ++ t.blocks) :
    b < numBlocks ∧ s.fat b ≠ fatEntryEmpty := by
  rcases List.mem_append.1 hb with hb | hb
  · exact ⟨h.table.chained.isChain.lt b hb, h.table.chained.isChain.ne_empty hb⟩
  · exact h.heldBy.ne_empty hb

/-- Searching for a name. -/
theorem searchNameInDir {dir : DirectoryEntry} (h : s.HasTree dir.firstBlockIndex l t) (name : CString) :
    ∃ found, Settles (s.searchNameInDir dir name) (.ok found) ∧
      found.map Prod.fst = (t.find name).map fun n => n.record.entry := by
  refine ⟨_, h.table.searchNameInDir name, ?_⟩
  cases hfind : t.find name with
  | none =>
    rw [lookup_of_find_none h.heldBy hfind]
    rfl
  | some n =>
    obtain ⟨t₁, t₂, rfl, hnone, hfor⟩ := Tree.exists_of_find hfind
    rw [lookup_of_split (Tree.heldBy_split.1 h.heldBy).1 hnone hfor]
    rfl

theorem keeps (h : s.HasTree i l t) (hk : s.Keeps s' B) (hB : ∀ b ∈ l ++ t.blocks, b ∉ B) :
    s'.HasTree i l t where
  table := hk.table h.table fun b hb =>
    have hmem := List.mem_append_left _ hb
    ⟨h.dataStart_le b hmem, hB b hmem⟩
  heldBy := h.heldBy.keeps hk fun b hb =>
    have hmem := List.mem_append_right _ hb
    ⟨h.dataStart_le b hmem, hB b hmem⟩
  nodup := h.nodup
  dataStart_le b hb := hk.dataStart_eq ▸ h.dataStart_le b hb

theorem nodup_node (h : s.HasTree i l (t₁ ++ n.cons t₂)) : n.blocks.Nodup :=
  (Tree.blocks_sublist_split t₁ n t₂).nodup h.nodup.of_append_right

theorem dataStart_le_node (h : s.HasTree i l (t₁ ++ n.cons t₂)) {b : ℕ} (hb : b ∈ n.blocks) : s.dataStart ≤ b :=
  h.dataStart_le b (List.mem_append_right _ ((Tree.blocks_sublist_split t₁ n t₂).subset hb))

/-- A directory in the table. -/
theorem subtree (h : s.HasTree i l (t₁ ++ (Node.dir r l' sub).cons t₂)) :
    s.HasTree r.entry.firstBlockIndex l' sub := by
  obtain ⟨-, ⟨hdir, hsub⟩, -⟩ := Tree.heldBy_split.1 h.heldBy
  exact ⟨hdir.table, hsub, h.nodup_node, fun b hb => h.dataStart_le_node hb⟩

/-- A change of one of the files or directories, with the same record. -/
theorem replace (h : s.HasTree i l (t₁ ++ n.cons t₂)) (hk : s.Keeps s' B)
    (hB : ∀ b ∈ B, b ∈ n.blocks ∨ s.fat b = fatEntryEmpty) (hrecord : n'.record = n.record)
    (hn' : n'.HeldBy s') (hnodup : n'.blocks.Nodup) (hstart : ∀ b ∈ n'.blocks, s.dataStart ≤ b)
    (hblocks : ∀ b ∈ n'.blocks, b ∈ n.blocks ∨ s.fat b = fatEntryEmpty) :
    s'.HasTree i l (t₁ ++ n'.cons t₂) := by
  obtain ⟨ht₁, -, ht₂⟩ := Tree.heldBy_split.1 h.heldBy
  -- The other blocks, which are not those of the node.
  have hperm : ∀ n : Node, (l ++ (t₁ ++ n.cons t₂).blocks).Perm (n.blocks ++ (l ++ (t₁.blocks ++ t₂.blocks))) := by
    intro n
    rw [Tree.blocks_split]
    grind [List.perm_append_comm]
  obtain ⟨-, hrest, hapart⟩ := List.nodup_append'.1 ((hperm n).nodup_iff.1 h.nodup)
  have hother : ∀ b ∈ l ++ (t₁.blocks ++ t₂.blocks), s.dataStart ≤ b ∧ s.fat b ≠ fatEntryEmpty ∧ b ∉ B := by
    intro b hb
    have hmem := (hperm n).mem_iff.2 (List.mem_append_right _ hb)
    have hne := (h.ne_empty hmem).2
    exact ⟨h.dataStart_le b hmem, hne, fun hmemB => (hB b hmemB).elim (fun hsub => hapart hsub hb) hne⟩
  have htable := hk.table h.table fun b hb =>
    have hb := hother b (List.mem_append_left _ hb)
    ⟨hb.1, hb.2.2⟩
  have hheld : ∀ t : Tree, (∀ b ∈ t.blocks, b ∈ t₁.blocks ++ t₂.blocks) → t.HeldBy s → t.HeldBy s' := by
    intro t hsub ht
    refine ht.keeps hk fun b hb => ?_
    have hb := hother b (List.mem_append_right _ (hsub b hb))
    exact ⟨hb.1, hb.2.2⟩
  refine ⟨?_, Tree.heldBy_split.2 ⟨hheld t₁ (fun b hb => List.mem_append_left _ hb) ht₁, hn',
    hheld t₂ (fun b hb => List.mem_append_right _ hb) ht₂⟩, (hperm n').nodup_iff.2 ?_, fun b hb => ?_⟩
  · rw [Tree.records_split] at htable ⊢
    rw [hrecord]
    exact htable
  · refine List.nodup_append'.2 ⟨hnodup, hrest, fun b hb hb' => ?_⟩
    exact (hblocks b hb).elim (fun hb => hapart hb hb') (hother b hb').2.1
  · rw [hk.dataStart_eq]
    exact (List.mem_append.1 ((hperm n').mem_iff.1 hb)).elim (hstart b) fun hb => (hother b hb).1

/-- A change below a directory of the table. -/
theorem inside (h : s.HasTree i l (t₁ ++ (Node.dir r l' sub).cons t₂)) (hk : s.Keeps s' B)
    (hB : ∀ b ∈ B, b ∈ l' ++ sub.blocks ∨ s.fat b = fatEntryEmpty)
    (hsub' : s'.HasTree r.entry.firstBlockIndex l' sub')
    (hblocks : ∀ b ∈ sub'.blocks, b ∈ sub.blocks ∨ s.fat b = fatEntryEmpty) :
    s'.HasTree i l (t₁ ++ (Node.dir r l' sub').cons t₂) := by
  obtain ⟨-, ⟨hdir, -⟩, -⟩ := Tree.heldBy_split.1 h.heldBy
  refine h.replace hk hB rfl ⟨{ hdir with table := hsub'.table }, hsub'.heldBy⟩ hsub'.nodup (fun b hb => ?_)
    fun b hb => ?_
  · rw [← hk.dataStart_eq]
    exact hsub'.dataStart_le b hb
  · rcases List.mem_append.1 hb with hb | hb
    · exact .inl (List.mem_append_left _ hb)
    · exact (hblocks b hb).imp_left (List.mem_append_right _)

/-- The header of one of the records written again. -/
theorem rewrite (h : s.HasTree i l (t₁ ++ n.cons t₂)) (hs : s.Consistent) (n' : Node)
    (hname : n'.record.name = n.record.name) (hlast : n'.record.Last ↔ n.record.Last)
    (hblocks : n'.blocks.Sublist n.blocks) (hn' : n'.HeldBy s) :
    let s' := s.writeEntry
      (Memory.blockAddr s.blockSize l (slot s.blockSize (endOf s.blockSize 0 t₁.records))) n'.record.entry
    s.Keeps s' {b | b ∈ l} ∧ s'.Stored ∧ s'.HasTree i l (t₁ ++ n'.cons t₂) := by
  intro s'
  have htable := h.table
  have hnodup := h.nodup
  rw [Tree.records_split] at htable
  obtain ⟨hlt, hmod, -⟩ := htable.header
  have hstart : ∀ b ∈ l, s.dataStart ≤ b := fun b hb => h.dataStart_le b (List.mem_append_left _ hb)
  have hk : s.Keeps s' {b | b ∈ l} := keeps_writeChain hs.geometry htable.chained.isChain.lt hlt hmod
  obtain ⟨ht₁, -, ht₂⟩ := Tree.heldBy_split.1 h.heldBy
  have hsub : (l ++ (t₁ ++ n'.cons t₂).blocks).Sublist (l ++ (t₁ ++ n.cons t₂).blocks) := by
    rw [Tree.blocks_split, Tree.blocks_split]
    exact ((hblocks.append_right _).append_left _).append_left _
  have hheld : (t₁ ++ n'.cons t₂).HeldBy s' := by
    refine (Tree.heldBy_split.2 ⟨ht₁, hn', ht₂⟩).keeps hk fun b hb => ?_
    exact ⟨h.dataStart_le b (hsub.subset (List.mem_append_right _ hb)),
      fun hl => List.disjoint_of_nodup_append (hnodup.sublist hsub) hl hb⟩
  refine ⟨hk, hs.stored.writeChain hs.geometry hstart hlt,
    ⟨?_, hheld, hnodup.sublist hsub, fun b hb => hk.dataStart_eq ▸ h.dataStart_le b (hsub.subset hb)⟩⟩
  rw [Tree.records_split]
  exact ⟨htable.toLayout.writeEntry hs.geometry hname, htable.lastFlagged.replace hlast⟩

end HasTree

/-! ## Loading -/

theorem load_sb_eq (hst : s.Stored) : s.toImage.load.sb = s.sb := hst.superblock

theorem load_fat_eq (hs : s.Geometry) (hst : s.Stored) {b : ℕ} (hb : b < numBlocks) :
    s.toImage.load.fat b = s.fat b := by
  have hload : s.toImage.load.fat b = s.disk.load16
      (s.toImage.load.sb.fatIndex.toNat * s.toImage.load.sb.blockSize.toNat + 2 * b) := rfl
  rw [hload, load_sb_eq hst, hs.fatIndex_eq]
  exact hst.fat b hb

theorem keeps_load (hs : s.Geometry) (hst : s.Stored) : s.Keeps s.toImage.load {b | numBlocks ≤ b} := by
  have hsb := load_sb_eq hst
  exact ⟨congrArg _ hsb, congrArg _ hsb, congrArg _ hsb, congrArg _ hsb, rfl,
    fun b hb => load_fat_eq hs hst (Nat.not_le.1 hb), fun _ _ _ _ _ => rfl⟩

theorem freeBlocks_load (hs : s.Geometry) (hst : s.Stored) : s.toImage.load.freeBlocks = s.freeBlocks := by
  rw [freeBlocks, freeBlocks, countEmpty, countEmpty]
  refine congrArg Finset.card (Finset.filter_congr fun b hb => ?_)
  rw [load_fat_eq hs hst (Finset.mem_range.1 hb)]

/-- What is stored is loaded. -/
theorem Consistent.load (hs : s.Consistent) : s.toImage.load.Consistent := by
  have hk := keeps_load hs.geometry hs.stored
  have hsb := load_sb_eq hs.stored
  refine ⟨hk.geometry hs.geometry, ⟨rfl, fun b hb => ?_⟩, fun b hb hempty => ?_, ?_⟩
  · rw [load_fat_eq hs.geometry hs.stored hb, hsb, hk.blockSize_eq]
    exact hs.stored.fat b hb
  · rw [load_fat_eq hs.geometry hs.stored hb] at hempty
    rw [hk.dataStart_eq]
    exact hs.dataStart_le b hb hempty
  · rw [hsb, freeBlocks_load hs.geometry hs.stored]
    exact hs.numFreeBlocks

theorem HasTree.load (h : s.HasTree i l t) (hs : s.Consistent) : s.toImage.load.HasTree i l t :=
  h.keeps (keeps_load hs.geometry hs.stored) fun _ hb => Nat.not_le.2 (h.ne_empty hb).1

end GtuOs.FatFileSystem.FileSystem

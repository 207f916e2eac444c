import GtuOs.FatFileSystem.Consistency

/-!
# Adding to the tree

The entry that `add_dir_entry` adds to a table, and the block that it takes, make one more file or
directory of the tree (`Inserted.hasTree`). The other records are kept, only that the last one loses its flag
(`Tree.kept`).
-/

namespace GtuOs.FatFileSystem

/-- The node without the flag of its record. -/
def Node.unflag : Node → Node
  | file r l content => file r.unflag l content
  | dir r l sub => dir r.unflag l sub

namespace Tree

variable {s : FileSystem} {t : Tree} {name : CString}

/-- What stays of a directory when an entry is appended. -/
def kept : Tree → Tree
  | nil => nil
  | passive r rest => if r.Last then rest.kept else passive r.unflag rest.kept
  | file r l content rest => file r.unflag l content rest.kept
  | dir r l sub rest => dir r.unflag l sub rest.kept

theorem blocks_kept (t : Tree) : t.kept.blocks = t.blocks := by
  induction t with
  | nil => rfl
  | passive r rest ih =>
    rw [kept]
    split_ifs
    · exact ih
    · exact ih
  | file r l content rest ih => rw [kept, blocks, ih, blocks]
  | dir r l sub rest _ ih => rw [kept, blocks, ih, blocks]

/-- The table that stays. -/
theorem records_kept (h : t.HeldBy s) : t.kept.records = FatFileSystem.kept t.records := by
  have hcons : ∀ (r : Record) (rs : List Record), r.Active →
      FatFileSystem.kept (r :: rs) = r.unflag :: FatFileSystem.kept rs := by
    intro r rs hr
    rw [FatFileSystem.kept, List.filter_cons_of_pos (by simpa using .inl hr)]
    rfl
  induction t with
  | nil => rfl
  | passive r rest ih =>
    rw [kept, records, FatFileSystem.kept]
    split_ifs with hr
    · rw [List.filter_cons_of_neg (by simpa using ⟨h.1, hr⟩), ih h.2]
      rfl
    · rw [List.filter_cons_of_pos (by simpa using .inr hr), records, ih h.2]
      rfl
  | file r l content rest ih => rw [kept, records, records, hcons r _ h.1.active, ih h.2]
  | dir r l sub rest _ ih => rw [kept, records, records, hcons r _ h.1.active, ih h.2.2]

theorem HeldBy.kept (h : t.HeldBy s) : t.kept.HeldBy s := by
  induction t with
  | nil => trivial
  | passive r rest ih =>
    rw [Tree.kept]
    split_ifs
    · exact ih h.2
    · exact ⟨h.1, ih h.2⟩
  | file r l content rest ih => exact ⟨{ h.1 with }, ih h.2⟩
  | dir r l sub rest _ ih => exact ⟨{ h.1 with }, h.2.1, ih h.2.2⟩

/-- What the flag does not matter for stays. -/
theorem All.kept {P : Node → Prop} (h : t.All P) (hP : ∀ n : Node, P n → P n.unflag) : t.kept.All P := by
  induction t with
  | nil => trivial
  | passive r rest ih =>
    rw [Tree.kept]
    split_ifs
    · exact ih h
    · exact ih h
  | file r l content rest ih => exact ⟨hP _ h.1, ih h.2⟩
  | dir r l sub rest _ ih => exact ⟨hP _ h.1, h.2.1, ih h.2.2⟩

/-- The names stay. -/
theorem find_kept (t : Tree) (name : CString) : t.kept.find name = (t.find name).map Node.unflag := by
  have hfor : ∀ r : Record, r.unflag.IsFor name ↔ r.IsFor name := fun _ => Iff.rfl
  induction t with
  | nil => rfl
  | passive r rest ih =>
    rw [kept]
    split_ifs
    · exact ih
    · exact ih
  | file r l content rest ih =>
    rw [kept, find, find, ih]
    by_cases h : r.IsFor name
    · rw [if_pos h, if_pos ((hfor r).2 h)]
      rfl
    · rw [if_neg h, if_neg fun h' => h ((hfor r).1 h')]
  | dir r l sub rest _ ih =>
    rw [kept, find, find, ih]
    by_cases h : r.IsFor name
    · rw [if_pos h, if_pos ((hfor r).2 h)]
      rfl
    · rw [if_neg h, if_neg fun h' => h ((hfor r).1 h')]

end Tree

namespace FileSystem

variable {s s' : FileSystem} {i : UInt16} {l : List ℕ} {t : Tree} {e e' dir : DirectoryEntry}
  {fileName : CString} {b : ℕ} {olds : List Record} {n : Node} {r : Record}

namespace Inserted

/-- A block is taken. -/
theorem consistent (h : Inserted s s' i l olds e e' fileName b) (hs : s.Consistent) : s'.Consistent := by
  obtain ⟨hlt, hempty⟩ := findFreeBlock_spec h.findFreeBlock
  have hk := h.keeps
  refine ⟨hk.geometry hs.geometry, h.stored, fun c hc hcempty => ?_, ?_⟩
  · have hne : c ≠ b := by
      rintro rfl
      rw [h.fat, Function.update_self] at hcempty
      exact absurd hcempty (by decide)
    rw [h.fat, Function.update_of_ne hne] at hcempty
    rw [hk.dataStart_eq]
    exact hs.dataStart_le c hc hcempty
  · have hfree : s'.freeBlocks + 1 = s.freeBlocks := by
      rw [← freeBlocks_allocate (e := e) h.findFreeBlock]
      exact congrArg (· + 1) (freeBlocks_congr (h.fat.trans (allocate_fat s e b).symm))
    have hone : (1 : UInt16) ≤ s.sb.numFreeBlocks := by
      rw [UInt16.le_iff_toNat_le, hs.numFreeBlocks, ← hfree]
      exact Nat.le_add_left ..
    rw [h.sb, UInt16.toNat_sub_of_le _ _ hone, hs.numFreeBlocks, ← hfree]
    rfl

theorem chained (h : Inserted s s' i l olds e e' fileName b) (hs : s.Consistent) :
    s'.Chained e'.firstBlockIndex [b] := by
  obtain ⟨hlt, -⟩ := findFreeBlock_spec h.findFreeBlock
  have hgeo := h.keeps.geometry hs.geometry
  have hb : (UInt16.ofNat b).toNat = b :=
    UInt16.toNat_ofNat_of_lt' (lt_of_lt_of_le hlt (by decide))
  have hend : s'.fat b = fatEntryEnd := by rw [h.fat, Function.update_self]
  rw [h.entry]
  refine ⟨⟨hb, hlt, hend⟩, fun c hc => ?_⟩
  obtain rfl := List.mem_singleton.1 hc
  have hle := Nat.mul_le_mul_right s'.blockSize (Nat.succ_le_of_lt hlt)
  rw [Nat.succ_mul] at hle
  exact hle.trans hgeo.length_le

/-- The new entry is one more node of the tree. -/
theorem hasTree (h : Inserted s s' i l (kept t.records) e e' fileName b) (hs : s.Consistent)
    (ht : s.HasTree i l t) (hentry : n.record.entry = e') (hname : n.record.name = fileName.buffer)
    (hblocks : n.blocks = [b]) (hheld : n.HeldBy s') : s'.HasTree i l (t.kept ++ n.cons .nil) := by
  obtain ⟨hlt, hempty⟩ := findFreeBlock_spec h.findFreeBlock
  obtain ⟨r, hr, hrname, htable⟩ := h.table
  have heq : r = n.record := by
    obtain ⟨entry, name, h₁, h₂⟩ := r
    obtain rfl : entry = n.record.entry := hr.trans hentry.symm
    obtain rfl : name = n.record.name := hrname.trans hname.symm
    rfl
  -- The block was free, and so in no chain.
  have hnot : b ∉ l ++ t.blocks := fun hmem => (ht.ne_empty hmem).2 hempty
  have hapart := List.disjoint_of_nodup_append ht.nodup
  have hmem : l ++ (t.kept ++ n.cons .nil).blocks = l ++ t.blocks ++ [b] := by
    rw [Tree.blocks_split, Tree.blocks_kept, hblocks, List.append_assoc]
    rfl
  have hkept : t.kept.HeldBy s' := ht.heldBy.kept.keeps h.keeps fun c hc => by
    rw [Tree.blocks_kept] at hc
    refine ⟨ht.dataStart_le c (List.mem_append_right _ hc), ?_⟩
    rintro (hcl | rfl)
    · exact hapart hcl hc
    · exact hnot (List.mem_append_right _ hc)
  refine ⟨?_, Tree.heldBy_split.2 ⟨hkept, hheld, trivial⟩, ?_, fun c hc => ?_⟩
  · rw [Tree.records_split, Tree.records_kept ht.heldBy, ← heq]
    exact htable
  · rw [hmem]
    exact List.nodup_append'.2 ⟨ht.nodup, List.nodup_singleton b, List.disjoint_singleton.2 hnot⟩
  · rw [hmem] at hc
    rw [h.keeps.dataStart_eq]
    rcases List.mem_append.1 hc with hc | hc
    · exact ht.dataStart_le c hc
    · obtain rfl := List.mem_singleton.1 hc
      exact hs.dataStart_le c hlt hempty

end Inserted

end FileSystem

end GtuOs.FatFileSystem

import GtuOs.FatFileSystem.Tables

/-!
# Decoding directory tables

On a table (`FileSystem.Table`), `search_name_in_dir` ends and finds the first active record
with the name and the offset of its header, if there is one, and
`print_entries_in_directory` ends and lists the active records in order
(`Table.decoding`).
-/

namespace GtuOs.FatFileSystem

/-- Comparing with a string that ends within its array. -/
theorem strcmp_eq {chars buffer : List UInt8} (hc : 0 ∉ chars) (hb : 0 ∈ buffer) :
    strcmp chars buffer = .ok (decide (buffer.takeWhile (· ≠ 0) = chars)) := by
  induction buffer generalizing chars with
  | nil => exact absurd hb List.not_mem_nil
  | cons b buffer ih =>
    cases chars with
    | nil =>
      rw [strcmp]
      by_cases h : b = 0 <;> simp [h]
    | cons a chars =>
      have ha : a ≠ 0 := fun h => hc (h ▸ List.mem_cons_self)
      rw [strcmp]
      by_cases h : a = b
      · subst h
        have hb' : 0 ∈ buffer := (List.mem_cons.1 hb).resolve_left ha.symm
        rw [if_pos rfl, ih (fun h => hc (List.mem_cons_of_mem _ h)) hb',
          List.takeWhile_cons_of_pos (by simpa using ha)]
        simp
      · rw [if_neg h]
        refine congrArg _ (decide_eq_false fun heq => h ?_).symm
        by_cases hb0 : b = 0
        · simp [hb0] at heq
        · rw [List.takeWhile_cons_of_pos (by simpa using hb0)] at heq
          exact (List.cons.inj heq).1.symm

namespace FileSystem

variable {s : FileSystem} {l : List ℕ} {p : ℕ} {c : Cursor} {r : Record} {rs : List Record}
  {fileName : CString}

/-- The comparison with a record. -/
theorem compareName_eq :
    r.entry.compareName fileName r.name = .ok (decide (r.IsFor fileName)) := by
  rw [DirectoryEntry.compareName]
  by_cases h : r.entry.isActiveEntry ≠ 0
  · rw [if_pos h, strcmp_eq fileName.noNul (r.terminated h)]
    exact congrArg _ (decide_eq_decide.2 ⟨fun hs => ⟨h, hs⟩, fun hs => hs.2⟩)
  · rw [if_neg h]
    exact congrArg _ (decide_eq_false fun hs => h hs.1).symm

variable (s l) in
/-- The first active record with the name, and the offset of its header. -/
def lookup (p : ℕ) (rs : List Record) (fileName : CString) : Option (DirectoryEntry × ℕ) :=
  ((placed s.blockSize p rs).find? fun q => q.2.IsFor fileName).map fun q =>
    (q.2.entry, Memory.blockAddr s.blockSize l q.1)

theorem lookup_cons_of_pos (h : r.IsFor fileName) : s.lookup l p (r :: rs) fileName =
    some (r.entry, Memory.blockAddr s.blockSize l (slot s.blockSize p)) := by
  rw [lookup, placed, List.find?_cons_of_pos (by simpa using h)]
  rfl

theorem lookup_cons_of_neg (h : ¬r.IsFor fileName) : s.lookup l p (r :: rs) fileName =
    s.lookup l (slot s.blockSize p + r.size) rs fileName := by
  rw [lookup, placed, List.find?_cons_of_neg (by simpa using h)]
  rfl

/-- The search from the header of a record on. -/
theorem At.searchFrom_record (h : s.At l (slot s.blockSize p) c)
    (hrem : DirectoryEntry.sizeof ≤ c.remaining.toNat)
    (hl : Laid s.blockSize (l.length * s.blockSize) (s.content l) p (r :: rs))
    (hlast : LastFlagged (r :: rs))
    (ih : LastFlagged rs → ∀ c', s.At l (slot s.blockSize p + r.size) c' →
      Settles (fun fuel => s.searchFrom fileName fuel c')
        (.ok (s.lookup l (slot s.blockSize p + r.size) rs fileName))) :
    Settles (fun fuel => s.searchFrom fileName fuel c) (.ok (s.lookup l p (r :: rs) fileName)) := by
  have hoff := h.offset_eq (lt_of_lt_of_le (by decide) hrem)
  obtain ⟨hentry, c', hname, hat⟩ := h.readRecord hrem hl.1 hl.2.1
  by_cases hpassive : r.Last ∧ ¬r.Active
  · -- The name is not read.
    have hnot : ¬r.IsFor fileName := fun hfor => hpassive.2 hfor.1
    obtain ⟨-, rfl⟩ := hlast.resolve_right fun h => h.1 hpassive.1
    rw [lookup_cons_of_neg hnot]
    refine (Settles.const _).succ fun fuel => ?_
    rw [searchFrom, if_neg (by omega), hentry]
    exact if_pos ⟨hpassive.1, not_not.1 hpassive.2⟩
  -- Otherwise one more round of the loop: the header, and the name after it.
  have hstep : ∀ fuel, s.searchFrom fileName (fuel + 1) c =
      s.readFileName fuel r.entry.nameSize (c.advance DirectoryEntry.sizeof) >>= fun x =>
        r.entry.compareName fileName x.1 >>= fun isFound =>
          if isFound then .ok (some (r.entry, c.offset))
          else if r.entry.isLastEntry ≠ 0 then .ok none
          else s.searchFrom fileName fuel x.2 := by
    intro fuel
    rw [searchFrom, if_neg (by omega), hentry]
    exact if_neg fun hp : r.Last ∧ r.entry.isActiveEntry = 0 => hpassive ⟨hp.1, not_not.2 hp.2⟩
  refine Settles.succ (hname.bind ?_) hstep
  simp only [compareName_eq]
  by_cases hfor : r.IsFor fileName
  · rw [lookup_cons_of_pos hfor, ← hoff]
    exact (Settles.const _).congr fun fuel => by rw [decide_eq_true hfor]; rfl
  · rw [lookup_cons_of_neg hfor]
    rcases hlast with ⟨hL, rfl⟩ | ⟨hL, hlast⟩
    · refine (Settles.const _).congr fun fuel => ?_
      rw [decide_eq_false hfor]
      exact if_pos hL
    · refine (ih hlast c' hat).congr fun fuel => ?_
      rw [decide_eq_false hfor]
      exact if_neg hL

/-- The search from any place between two records on. -/
theorem At.searchFrom (h : s.At l p c) (hbs : DirectoryEntry.sizeof ≤ s.blockSize)
    (hl : Laid s.blockSize (l.length * s.blockSize) (s.content l) p rs) (hlast : LastFlagged rs) :
    Settles (fun fuel => s.searchFrom fileName fuel c) (.ok (s.lookup l p rs fileName)) := by
  refine h.walk (P := fun p rs c => Settles (fun fuel => s.searchFrom fileName fuel c)
    (.ok (s.lookup l p rs fileName))) (fun p rs c i hrem hi hend hP => ?_)
    (fun p r rs c hat hrem hl hlast ih => hat.searchFrom_record hrem hl hlast ih) hbs hl hlast
  refine hP.succ fun fuel => ?_
  rw [FileSystem.searchFrom, if_pos hrem, hi]
  exact if_neg hend

/-! ## Listing -/

/-- The listings of the active records. -/
def listings (rs : List Record) : List Listing :=
  (rs.filter Record.Active).map fun r => r.entry.listing r.string

/-- What is printed for a record. -/
theorem printEntry_eq : r.entry.printEntry r.name = .ok (listings [r]) := by
  rw [DirectoryEntry.printEntry, listings]
  by_cases h : r.entry.isActiveEntry ≠ 0
  · have hact : r.Active := h
    rw [if_pos h, cString, if_pos (r.terminated h), List.filter_cons_of_pos (by simpa using hact)]
    rfl
  · have hact : ¬r.Active := h
    rw [if_neg h, List.filter_cons_of_neg (by simpa using hact)]
    rfl

theorem listings_cons : listings (r :: rs) = listings [r] ++ listings rs := by
  rw [listings, ← List.singleton_append, List.filter_append, List.map_append]
  rfl

theorem listings_of_passive (h : ¬r.Active) : listings [r] = [] := by
  rw [listings, List.filter_cons_of_neg (by simpa using h)]
  rfl

theorem listings_of_active (h : r.Active) : listings [r] = [r.entry.listing r.string] := by
  rw [listings, List.filter_cons_of_pos (by simpa using h)]
  rfl

/-- The listing from the header of a record on. -/
theorem At.printFrom_record (h : s.At l (slot s.blockSize p) c)
    (hrem : DirectoryEntry.sizeof ≤ c.remaining.toNat)
    (hl : Laid s.blockSize (l.length * s.blockSize) (s.content l) p (r :: rs))
    (hlast : LastFlagged (r :: rs))
    (ih : LastFlagged rs → ∀ c', s.At l (slot s.blockSize p + r.size) c' →
      Settles (fun fuel => s.printFrom fuel c') (.ok (listings rs))) :
    Settles (fun fuel => s.printFrom fuel c) (.ok (listings (r :: rs))) := by
  obtain ⟨hentry, c', hname, hat⟩ := h.readRecord hrem hl.1 hl.2.1
  rw [listings_cons]
  by_cases hpassive : r.Last ∧ ¬r.Active
  · -- The name is not read.
    obtain ⟨-, rfl⟩ := hlast.resolve_right fun h => h.1 hpassive.1
    rw [listings_of_passive hpassive.2]
    refine (Settles.const _).succ fun fuel => ?_
    rw [printFrom, if_neg (by omega), hentry]
    exact if_pos ⟨hpassive.1, not_not.1 hpassive.2⟩
  -- Otherwise one more round of the loop: the header, and the name after it.
  have hstep : ∀ fuel, s.printFrom (fuel + 1) c =
      s.readFileName fuel r.entry.nameSize (c.advance DirectoryEntry.sizeof) >>= fun x =>
        r.entry.printEntry x.1 >>= fun printed =>
          if r.entry.isLastEntry ≠ 0 then .ok printed
          else s.printFrom fuel x.2 >>= fun rest => .ok (printed ++ rest) := by
    intro fuel
    rw [printFrom, if_neg (by omega), hentry]
    exact if_neg fun hp : r.Last ∧ r.entry.isActiveEntry = 0 => hpassive ⟨hp.1, not_not.2 hp.2⟩
  refine Settles.succ (hname.bind ?_) hstep
  simp only [printEntry_eq]
  rcases hlast with ⟨hL, rfl⟩ | ⟨hL, hlast⟩
  · refine (Settles.const _).congr fun fuel => ?_
    rw [show listings [] = [] from rfl, List.append_nil]
    exact if_pos hL
  · have hrest := (ih hlast c' hat).bind (g := fun _ rest => .ok (listings [r] ++ rest))
      (Settles.const _)
    exact hrest.congr fun fuel => if_neg hL

/-- The listing from any place between two records on. -/
theorem At.printFrom (h : s.At l p c) (hbs : DirectoryEntry.sizeof ≤ s.blockSize)
    (hl : Laid s.blockSize (l.length * s.blockSize) (s.content l) p rs) (hlast : LastFlagged rs) :
    Settles (fun fuel => s.printFrom fuel c) (.ok (listings rs)) := by
  refine h.walk (P := fun _ rs c => Settles (fun fuel => s.printFrom fuel c) (.ok (listings rs)))
    (fun p rs c i hrem hi hend hP => ?_)
    (fun p r rs c hat hrem hl hlast ih => hat.printFrom_record hrem hl hlast ih) hbs hl hlast
  refine hP.succ fun fuel => ?_
  rw [FileSystem.printFrom, if_pos hrem, hi]
  exact if_neg hend

/-! ## Tables -/

variable {dir : DirectoryEntry}

namespace Table

theorem searchNameInDir (h : s.Table dir.firstBlockIndex l rs) (fileName : CString) :
    Settles (s.searchNameInDir dir fileName) (.ok (s.lookup l 0 rs fileName)) :=
  (h.chained.at_seekBlock h.ne_nil).searchFrom h.header_le h.laid h.lastFlagged

theorem printEntriesInDirectory (h : s.Table dir.firstBlockIndex l rs) :
    Settles (s.printEntriesInDirectory dir) (.ok (listings rs)) :=
  (h.chained.at_seekBlock h.ne_nil).printFrom h.header_le h.laid h.lastFlagged

/-- **Decoding.** On the table of a directory, `search_name_in_dir` ends, and finds the
    first active record with the name and the offset of its header, if there is one;
    `print_entries_in_directory` ends, and lists exactly the active records in order. -/
theorem decoding (h : s.Table dir.firstBlockIndex l rs) :
    (∀ fileName, Settles (s.searchNameInDir dir fileName)
      (.ok (((placed s.blockSize 0 rs).find? fun q => q.2.IsFor fileName).map fun q =>
        (q.2.entry, Memory.blockAddr s.blockSize l q.1)))) ∧
    Settles (s.printEntriesInDirectory dir)
      (.ok ((rs.filter Record.Active).map fun r => r.entry.listing r.string)) :=
  ⟨h.searchNameInDir, h.printEntriesInDirectory⟩

end Table

/-! A directory of two blocks of 64 bytes, with a passive record whose name continues in the
second block, and a record `b` after it. -/

/-- The entries of the records. -/
def decodingEntry (entrySize : UInt32) (active last : UInt8) : DirectoryEntry :=
  { lastDirIndicatorEntry with entrySize, isActiveEntry := active, isLastEntry := last }

/-- The passive record. -/
def decodingPassive : Record :=
  ⟨decodingEntry 72 0 0, List.replicate 40 7, rfl, fun h => absurd rfl h⟩

/-- The record `b`. -/
def decodingActive : Record := ⟨decodingEntry 34 1 1, [98, 0], rfl, fun _ => by decide⟩

/-- The directory. -/
def decodingDir : DirectoryEntry := { lastDirIndicatorEntry with firstBlockIndex := 3 }

/-- The file, whose block 3 is continued in block 2. -/
def decodingFile : FileSystem where
  disk a :=
    let p := if 192 ≤ a then a - 192 else a - 64
    if p < 72 then decodingPassive.bytes p else decodingActive.bytes (p - 72)
  length := 256
  sb := createSuperblock ⟨fun _ => 0, 0, 0⟩ ⟨0, 0, 0, 0⟩ 64 0 0
  fat := fun b => if b = 3 then 2 else fatEntryEnd
  printed := []

/-- The record is found after the end of the name, in block 2. -/
theorem decoding_decodingFile :
    Settles (decodingFile.searchNameInDir decodingDir ⟨[98], by decide⟩)
      (.ok (some (decodingActive.entry, 136))) ∧
    Settles (decodingFile.printEntriesInDirectory decodingDir)
      (.ok [decodingActive.entry.listing [98]]) := by
  have htable : decodingFile.Table decodingDir.firstBlockIndex [3, 2] [decodingPassive, decodingActive] := by
    refine ⟨⟨by decide, ⟨⟨rfl, by decide, rfl, by decide, rfl⟩, by decide⟩,
      ⟨?_, by decide, ?_, by decide, trivial⟩⟩, .inr ⟨by decide, .inl ⟨by decide, rfl⟩⟩⟩
    · decide +kernel
    · decide +kernel
  obtain ⟨hsearch, hprint⟩ := Table.decoding htable
  exact ⟨hsearch _, hprint⟩

end FileSystem

end GtuOs.FatFileSystem

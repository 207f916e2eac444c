import GtuOs.FatFileSystem.Contents

/-!
# `mkdir` and `write` on the tree

What `mkdir_helper` does on a consistent file system with a tree, as long as it reaches no defect
of the code (`FileSystem.Harmless`): the directories on the path are touched, and at its end
something is added to the tree, or a file is overwritten, or nothing is done (`Acts`, `Along`).
-/

namespace GtuOs.FatFileSystem

/-- What `mkdir` or `write` comes to. -/
inductive Outcome
  /-- Nothing is done. -/
  | refused
  /-- The file of Linux cannot be opened, which is taken for one byte. -/
  | unopened
  /-- There is not enough capacity for a directory, which is counted all the same. -/
  | miscounted
  | directory
  | file
  /-- The content of the entry `e` is overwritten, be it a file or a directory. -/
  | overwritten (e : DirectoryEntry)

namespace Outcome

/-- The command is accepted. -/
def accepted : Outcome → Bool
  | refused | unopened | miscounted => false
  | directory | file | overwritten _ => true

/-- What is counted in the superblock. -/
def count : Outcome → Superblock → Superblock
  | refused, sb | unopened, sb | overwritten _, sb => sb
  | miscounted, sb => { sb with numDirs := sb.numDirs + 1 }
  | directory, sb => { sb with numFreeBlocks := sb.numFreeBlocks - 1, numDirs := sb.numDirs + 1 }
  | file, sb => { sb with numFreeBlocks := sb.numFreeBlocks - 1, numFiles := sb.numFiles + 1 }

end Outcome

/-- What happens at the end of a path, with the bytes that are counted. -/
inductive Acts (target : Target) : List CString → Tree → Tree → ℤ → Outcome → Prop
  | refused {path : List CString} {t : Tree} {res : ℤ} : res = 0 ∨ res = -1 → Acts target path t t res .refused
  | unopened {name : CString} {t : Tree} {pw : Option CString} : target = .file none pw →
    Acts target [name] t t 1 .unopened
  | miscounted {name : CString} {t : Tree} : target = .dir → Acts target [name] t t 0 .miscounted
  | directory {name : CString} {t : Tree} {r : Record} {b : ℕ} : target = .dir → t.find name = none →
    r.IsFor name → r.entry.IsDirectory → r.entry.size = 0 →
    Acts target [name] t (t.kept ++ (Node.dir r [b] (.passive FileSystem.indicator .nil)).cons .nil) 0 .directory
  | file {name : CString} {t : Tree} {r : Record} {b : ℕ} {linuxFile : LinuxFile} {pw : Option CString} :
    target = .file (some linuxFile) pw → t.find name = none → r.IsFor name → r.entry.IsFile →
    linuxFile.content.length = r.entry.size.toNat →
    Acts target [name] t (t.kept ++ (Node.file r [b] linuxFile.content).cons .nil) linuxFile.content.length .file
  | overwritten {name : CString} {t₁ t₂ : Tree} {n : Node} {r' : Record} {linuxFile : LinuxFile}
    {pw : Option CString} : target = .file (some linuxFile) pw → t₁.find name = none → n.record.IsFor name →
    n.record.entry.Opens pw → checkAttribute n.record.entry.attributes writePermission →
    r'.IsFor name → r'.entry.IsFile → linuxFile.content.length = r'.entry.size.toNat →
    Acts target [name] (t₁ ++ n.cons t₂) (t₁ ++ (Node.file r' n.chain linuxFile.content).cons t₂)
      linuxFile.content.length (.overwritten n.record.entry)

/-- What happens along a path: the directories on it, numbered from `k` on, are touched, and `P` holds at
    its end, or where it breaks off. -/
inductive Along (touch : ℕ → Record → Record) (P : List CString → Tree → Tree → Prop) :
    ℕ → List CString → Tree → Tree → Prop
  | here {k : ℕ} {path : List CString} {t t' : Tree} : P path t t' → Along touch P k path t t'
  | inside {k : ℕ} {name : CString} {path : List CString} {r : Record} {l : List ℕ}
    {sub sub' t₁ t₂ : Tree} : path ≠ [] → t₁.find name = none → r.IsFor name →
    Along touch P (k + 1) path sub sub' →
    Along touch P k (name :: path) (t₁ ++ (Node.dir r l sub).cons t₂)
      (t₁ ++ (Node.dir (touch k r) l sub').cons t₂)

/-- What is done at the end of the path. -/
theorem Along.exists {touch : ℕ → Record → Record} {P : List CString → Tree → Tree → Prop} {k : ℕ}
    {path : List CString} {t t' : Tree} (h : Along touch P k path t t') : ∃ path t t', P path t t' := by
  induction h with
  | here h => exact ⟨_, _, _, h⟩
  | inside _ _ _ _ ih => exact ih

theorem Acts.res_of_refused {target : Target} {path : List CString} {t t' : Tree} {res : ℤ}
    (h : Acts target path t t' res .refused) : res = 0 ∨ res = -1 := by
  cases h with
  | refused h => exact h

/-- The record of a directory after `res` bytes have been added below it. -/
def Record.touch (res : ℤ) (now : Stamp) (r : Record) : Record :=
  { r with entry := { r.entry with size := r.entry.size + UInt32.ofInt res }.updateEntryTime now }

/-- The touch of `mkdir_helper`, which ends at once after a failure. -/
def mkdirTouch (res : ℤ) (clock : ℕ → Stamp) (k : ℕ) (r : Record) : Record :=
  if res = -1 then r else r.touch res (clock k)

namespace FileSystem

/-- The file system `s'` after a command on a directory with the tree `t`, which has become `t'`. -/
structure Becomes (s s' : FileSystem) (i : UInt16) (l : List ℕ) (t t' : Tree) (out : Outcome) : Prop where
  consistent : s'.Consistent
  hasTree : s'.HasTree i l t'
  keeps : s.Keeps s' {b | b ∈ l ++ t.blocks ∨ s.fat b = fatEntryEmpty}
  blocks : ∀ b ∈ t'.blocks, b ∈ t.blocks ∨ s.fat b = fatEntryEmpty
  sb : s'.sb = out.count s.sb
  printed : s'.printed = s.printed ↔ out.accepted

/-! ## New entries -/

/-- The new entry of `mkdir`. -/
def newDirectory (name : CString) (now : Stamp) : DirectoryEntry :=
  { newEntry name now with
    attributes := setAttribute (setAttribute (setAttribute 0 readPermission) writePermission) directory }

/-- The new entry of `write`. -/
def newFileEntry (name : CString) (now : Stamp) (linuxFile : LinuxFile) : DirectoryEntry :=
  { newEntry name now with attributes := setAttribute 0 file }.describe linuxFile

/-- The entry of a file that is overwritten. -/
def overwrittenEntry (dir : DirectoryEntry) (name : CString) (now : Stamp) (linuxFile : LinuxFile) :
    DirectoryEntry :=
  ({ newEntry name now with attributes := setAttribute 0 file }.overwrite dir).describe linuxFile

/-- The entry that is made for the target where there was `old`. -/
def Makes (name : CString) (now : Stamp) (old : Option Node) (e : DirectoryEntry) : Target → Prop
  | .dir => ∃ b, e = { newDirectory name now with isLastEntry := 1, firstBlockIndex := b }
  | .file none _ => False
  | .file (some linuxFile) _ =>
    match old with
    | none => ∃ b, e = { newFileEntry name now linuxFile with isLastEntry := 1, firstBlockIndex := b }
    | some n => e = overwrittenEntry n.record.entry name now linuxFile

/-- The entry that is made at the end of a path. -/
def Made (target : Target) (now : Stamp) (path : List CString) (t t' : Tree) : Prop :=
  ∃ name n, path.getLast? = some name ∧ t'.resolve path = some n ∧
    Makes name now (t.resolve path) n.record.entry target

/-- A new directory with the name is not refused: it has room in the chain of the table, and there are as many free
    blocks as are counted for it, at least the one for itself. -/
structure Suffices (s : FileSystem) (l : List ℕ) (rs : List Record) (name : CString) : Prop where
  hasRoom : s.HasRoom l (slot s.blockSize (endOf s.blockSize 0 (kept rs))) name.buffer.length
  capacity : s.estimateAt (kept rs) (newDirectory name ⟨0, 0, 0, 0⟩) ≤ s.sb.numFreeBlocks.toNat

/-- What the outcome tells about the last name of the path, which is looked up in the table `rs` along `l`. -/
def Tells (s : FileSystem) (target : Target) (l : List ℕ) (rs : List Record) (name : CString) : Outcome → Prop
  | .refused => True
  | .unopened => ∃ pw, target = .file none pw ∧ ∀ e offset, s.lookup l 0 rs name = some (e, offset) →
    e.Opens pw ∧ checkAttribute e.attributes writePermission
  | .miscounted => target = .dir ∧ s.lookup l 0 rs name = none ∧ ¬s.Suffices l rs name
  | .directory => target = .dir ∧ s.lookup l 0 rs name = none
  | .file => ∃ linuxFile pw, target = .file (some linuxFile) pw ∧ s.lookup l 0 rs name = none
  | .overwritten e => ∃ linuxFile pw offset, target = .file (some linuxFile) pw ∧
    s.lookup l 0 rs name = some (e, offset) ∧ e.Opens pw ∧ checkAttribute e.attributes writePermission

/-- There is a place at the end of the table for a new entry with the name. -/
structure HasPlace (s : FileSystem) (l : List ℕ) (rs : List Record) (e : DirectoryEntry) (name : CString) :
    Prop where
  lt : DirectoryEntry.sizeof + name.buffer.length < 2 ^ 32
  bare : Bare rs
  roomFor : s.RoomFor l (kept rs) e name

variable {s s' t₀ : FileSystem} {i : UInt16} {l : List ℕ} {t t' : Tree} {out : Outcome} {name : CString}
  {dir e : DirectoryEntry} {now : Stamp} {linuxFile : LinuxFile} {pw : Option CString} {B : Set ℕ}

/-- The counters of the superblock are stored with the FAT. -/
theorem Consistent.writeCounters (hs : s.Consistent) (numFiles numDirs : UInt16) :
    let s' := { s with sb := { s.sb with numFiles, numDirs } }.writeSuperblockAndFat
    s'.Consistent ∧ s.Keeps s' ∅ ∧ s'.sb = { s.sb with numFiles, numDirs } ∧ s'.fat = s.fat ∧
      s'.printed = s.printed := by
  intro s'
  let s₁ : FileSystem := { s with sb := { s.sb with numFiles, numDirs } }
  have hgeo : s₁.Geometry := ⟨⟨hs.geometry.superblock_le, hs.geometry.fat_le⟩, hs.geometry.header_le,
    hs.geometry.fatIndex_eq, hs.geometry.dataStart_le, hs.geometry.length_le⟩
  have hk₁ : s.Keeps s₁ ∅ := ⟨rfl, rfl, rfl, rfl, rfl, fun _ _ => rfl, fun _ _ _ _ _ => rfl⟩
  have hk : s.Keeps s' ∅ := (hk₁.trans (keeps_writeSuperblockAndFat hgeo)).mono (Set.union_self _).subset
  have hsb : s'.sb = { s.sb with numFiles, numDirs } := writeSuperblockAndFat_sb s₁
  have hfat : s'.fat = s.fat := writeSuperblockAndFat_fat s₁
  have hprinted : s'.printed = s.printed := by
    simp only [s', writeSuperblockAndFat, writeSuperblock, write]
  refine ⟨⟨hk.geometry hs.geometry, stored_writeSuperblockAndFat hgeo.toRegions, fun b hb hempty => ?_, ?_⟩,
    hk, hsb, hfat, hprinted⟩
  · rw [hk.dataStart_eq]
    exact hs.dataStart_le b hb (hfat ▸ hempty)
  · rw [hsb, freeBlocks_congr hfat]
    exact hs.numFreeBlocks

/-- A message does not matter. -/
theorem Consistent.print (hs : s.Consistent) (m : Message) : (s.print m).Consistent :=
  ⟨⟨⟨hs.geometry.superblock_le, hs.geometry.fat_le⟩, hs.geometry.header_le,
    hs.geometry.fatIndex_eq, hs.geometry.dataStart_le, hs.geometry.length_le⟩,
    ⟨hs.stored.superblock, hs.stored.fat⟩, hs.dataStart_le,
    hs.numFreeBlocks.trans (freeBlocks_congr (s := s) (t := s.print m) rfl).symm⟩

theorem keeps_print (s : FileSystem) (m : Message) : s.Keeps (s.print m) ∅ :=
  ⟨rfl, rfl, rfl, rfl, rfl, fun _ _ => rfl, fun _ _ _ _ _ => rfl⟩

theorem print_printed_ne (s : FileSystem) (m : Message) : (s.print m).printed ≠ s.printed := by
  intro h
  simp [FileSystem.print] at h

/-- A message is all there is. -/
theorem HasTree.becomes_print (ht : s.HasTree i l t) (hs : s.Consistent) (m : Message) (hout : ¬out.accepted)
    (hcount : out.count s.sb = s.sb) : s.Becomes (s.print m) i l t t out :=
  ⟨hs.print m, ht.keeps (keeps_print s m) fun _ _ => Set.notMem_empty _, (keeps_print s m).mono (Set.empty_subset _),
    fun _ hb => .inl hb, hcount.symm, iff_of_false (print_printed_ne s m) hout⟩

/-- The name of a new record. -/
theorem string_of_name {r : Record} (h : r.name = name.buffer) :
    r.string = name.chars ∧ r.name = r.string ++ [0] := by
  have hstring : r.string = name.chars := by
    rw [Record.string, h, CString.buffer, List.takeWhile_append_of_pos, List.takeWhile_cons_of_neg (by simp),
      List.append_nil]
    intro c hc
    exact decide_eq_true fun h0 => name.noNul (h0 ▸ hc)
  exact ⟨hstring, by rw [hstring, h, CString.buffer]⟩

theorem newEntry_entrySize (now : Stamp) (h : DirectoryEntry.sizeof + name.buffer.length < 2 ^ 32) :
    (newEntry name now).entrySize.toNat = DirectoryEntry.sizeof + name.buffer.length := by
  have hlen : DirectoryEntry.sizeof + name.chars.length + 1 = DirectoryEntry.sizeof + name.buffer.length := by
    rw [CString.buffer, List.length_append]
    rfl
  rw [newEntry, hlen]
  exact UInt32.toNat_ofNat_of_lt' h

/-- What follows the insertion of a directory. -/
def countDirectory : FileSystem × Insertion → Except Fault (FileSystem × ℤ)
  | (s, .failed) => .ok (s, -1)
  | (s, _) => .ok ({ s with sb := { s.sb with numDirs := s.sb.numDirs + 1 } }.writeSuperblockAndFat, 0)

/-- A counter that is written with the FAT does not touch the tree. -/
theorem Inserted.becomes {s₁ : FileSystem} {e' : DirectoryEntry} {b : ℕ} {n : Node}
    (h : Inserted s s₁ i l (kept t.records) e e' name b) (hs : s.Consistent) (ht : s.HasTree i l t)
    (hentry : n.record.entry = e') (hname : n.record.name = name.buffer) (hblocks : n.blocks = [b])
    (hheld : n.HeldBy s₁) (hk : s₁.Keeps s' ∅) (hs' : s'.Consistent) (hsb : s'.sb = out.count s.sb)
    (hprinted : s'.printed = s₁.printed) (hout : out.accepted) :
    s.Becomes s' i l t (t.kept ++ n.cons .nil) out := by
  obtain ⟨-, hempty⟩ := findFreeBlock_spec h.findFreeBlock
  have htree := h.hasTree hs ht hentry hname hblocks hheld
  refine ⟨hs', htree.keeps hk fun _ _ => Set.notMem_empty _, (h.keeps.trans hk).mono ?_, fun c hc => ?_, hsb,
    iff_of_true (hprinted.trans h.printed) hout⟩
  · rintro c ((hc | rfl) | hc)
    · exact .inl (List.mem_append_left _ hc)
    · exact .inr hempty
    · exact hc.elim
  · rw [Tree.blocks_split, Tree.blocks_kept, hblocks] at hc
    rcases List.mem_append.1 hc with hc | hc
    · exact .inl hc
    · obtain rfl | hc := List.mem_cons.1 hc
      · exact .inr hempty
      · nomatch hc

theorem createDirectory_spec (hs : s.Consistent) (ht : s.HasTree dir.firstBlockIndex l t)
    (hnone : t.find name = none) (hplace : s.HasPlace l t.records (newDirectory name now) name) :
    ∃ s' t' res out, Settles (s.createDirectory dir name now) (.ok (s', res)) ∧
      Acts .dir [name] t t' res out ∧ s.Becomes s' dir.firstBlockIndex l t t' out ∧
      s.Tells .dir l t.records name out ∧ (out = .refused → s'.toImage = s.toImage) ∧
      (out.accepted → Made .dir now [name] t t') := by
  have hlookup := s.lookup_of_find_none (l := l) (p := 0) ht.heldBy hnone
  have hblocks : ∀ b ∈ l, s.dataStart ≤ b := fun b hb => ht.dataStart_le b (List.mem_append_left _ hb)
  have hsize : (newDirectory name now).entrySize.toNat = DirectoryEntry.sizeof + name.buffer.length :=
    newEntry_entrySize now hplace.lt
  obtain ⟨⟨s₁, ins⟩, hset, hadds⟩ := ht.table.addDirEntry_of_roomFor (hplace.bare.scanned ht.table.lastFlagged)
    hs.geometry hs.dataStart_le hblocks hsize hplace.roomFor
  have hbind : Settles (s.createDirectory dir name now) (countDirectory (s₁, ins)) := by
    refine (hset.bind_const countDirectory).congr fun fuel => ?_
    rw [createDirectory]
    refine congrArg _ (funext fun x => ?_)
    obtain ⟨_, ins⟩ := x
    cases ins <;> rfl
  cases hadds with
  | refused _ =>
    -- There would have been room, and a block.
    have hnot : ¬s.Suffices l t.records name := fun hsuf => by
      obtain ⟨x, hset', hadds'⟩ := ht.table.addDirEntry_of_hasRoom (hplace.bare.scanned ht.table.lastFlagged)
        hs.geometry hs.dataStart_le hblocks hsize hsuf.hasRoom
      have heq := Except.ok.inj (hset.unique hset')
      cases hadds' with
      | refused hlt => exact absurd hlt (Nat.not_lt.2 hsuf.capacity)
      | failed _ _ => cases congrArg Prod.snd heq
      | inserted _ _ => cases congrArg Prod.snd heq
    obtain ⟨hcons, hk, hsb, hfat, hprinted⟩ := (hs.print .notEnoughCapacity).writeCounters
      s.sb.numFiles (s.sb.numDirs + 1)
    have hk' := ((keeps_print s .notEnoughCapacity).trans hk).mono (Set.union_self _).subset
    exact ⟨_, t, 0, .miscounted, hbind, .miscounted rfl, ⟨hcons, ht.keeps hk' fun _ _ => Set.notMem_empty _,
      hk'.mono (Set.empty_subset _), fun _ hb => .inl hb, hsb,
      iff_of_false (fun h => print_printed_ne s _ (hprinted.symm.trans h)) Bool.false_ne_true⟩,
      ⟨rfl, hlookup, hnot⟩, by simp, fun hacc => absurd hacc Bool.false_ne_true⟩
  | failed _ => exact ⟨_, t, -1, .refused, hbind, .refused (.inr rfl), ht.becomes_print hs _ Bool.false_ne_true rfl,
      trivial, fun _ => rfl, fun hacc => absurd hacc Bool.false_ne_true⟩
  | @inserted s₁ e' b hins =>
    obtain ⟨r, hentry, hname, -⟩ := hins.table
    obtain ⟨hstring, hname_eq⟩ := string_of_name hname
    have hcons₁ := hins.consistent hs
    obtain ⟨hcons, hk, hsb, hfat, hprinted⟩ := hcons₁.writeCounters s₁.sb.numFiles (s₁.sb.numDirs + 1)
    have hattributes : r.entry.attributes = (newDirectory name now).attributes := by
      rw [hentry, hins.entry]
    have hact : r.Active := by
      rw [Record.Active, hentry, hins.entry]
      exact (by decide : (1 : UInt8) ≠ 0)
    have hdir : r.entry.IsDirectory := by
      rw [DirectoryEntry.IsDirectory, hattributes]
      exact (by decide : DirectoryEntry.IsDirectory (newDirectory newName ⟨0, 0, 0, 0⟩))
    have hpw : r.entry.HasPassword := fun h => by
      rw [hattributes] at h
      exact absurd h (by decide : ¬checkAttribute (newDirectory newName ⟨0, 0, 0, 0⟩).attributes
        passwordEnabled)
    have htable : s₁.Table r.entry.firstBlockIndex [b] [indicator] := by
      rw [hentry]
      exact hins.newTable (by decide : checkAttribute (newDirectory newName ⟨0, 0, 0, 0⟩).attributes
        directory)
    have hsize : r.entry.size = 0 := by
      rw [hentry, hins.entry]
      rfl
    refine ⟨_, _, 0, .directory, hbind, .directory (r := r) (b := b) rfl hnone ⟨hact, hstring⟩ hdir hsize,
      hins.becomes hs ht hentry hname rfl ⟨⟨hact, hname_eq, hdir, hpw, htable⟩, by decide, trivial⟩ hk hcons
        ?_ hprinted rfl, ⟨rfl, hlookup⟩, by simp, fun _ => ?_⟩
    · rw [hsb, hins.sb]
      rfl
    · have hkept : t.kept.find name = none := by rw [Tree.find_kept, hnone]; rfl
      exact ⟨name, _, rfl, Tree.find_split (n := .dir r [b] _) hkept ⟨hact, hstring⟩ .nil, .ofNat b,
        hentry.trans hins.entry⟩

/-- The attributes of a new file. -/
theorem newFileEntry_attributes (name : CString) (now : Stamp) (linuxFile : LinuxFile) :
    (newFileEntry name now linuxFile).IsFile ∧
      ¬checkAttribute (newFileEntry name now linuxFile).attributes passwordEnabled := by
  have hcheck : ∀ isReadable isWritable, let e := newFileEntry newName ⟨0, 0, 0, 0⟩ ⟨[], isReadable, isWritable⟩
      e.IsFile ∧ ¬checkAttribute e.attributes passwordEnabled := by decide
  exact hcheck linuxFile.isReadable linuxFile.isWritable

/-- What follows the insertion of a file. -/
def countFile (linuxFile : LinuxFile) (fuel : ℕ) : FileSystem × Insertion → Except Fault (FileSystem × ℤ)
  | (s, .inserted e) => do
    let s ← { s with sb := { s.sb with numFiles := s.sb.numFiles + 1 } }.writeSuperblockAndFat.copyFileFromLinux
      e linuxFile fuel
    .ok (s, e.size.toInt32.toInt)
  | (s, _) => .ok (s, -1)

/-- A size that fits in a block. -/
theorem toInt_size {n : ℕ} (h : n ≤ s.blockSize) : (UInt32.ofNat n).toInt32.toInt = n ∧ (UInt32.ofNat n).toNat = n := by
  have hlt : s.blockSize < 65536 := s.sb.blockSize.toNat_lt
  have hnat : (UInt32.ofNat n).toNat = n := UInt32.toNat_ofNat_of_lt' (by simp only [UInt32.size]; omega)
  have hint : (UInt32.ofNat n).toInt32 = Int32.ofNat n := rfl
  rw [hint]
  exact ⟨Int32.toInt_ofNat_of_lt (by omega), hnat⟩

/-- Copying a content to a file of the tree. -/
theorem HasTree.copies {r : Record} {l' : List ℕ} {content content' : List UInt8} {t₁ t₂ : Tree}
    (ht : s.HasTree i l (t₁ ++ (Node.file r l' content).cons t₂)) (h : s.Copies s' r l' content') :
    s'.HasTree i l (t₁ ++ (Node.file r l' content').cons t₂) :=
  ht.replace h.keeps (fun _ hb => .inl hb) rfl h.storesFile ht.nodup_node (fun _ hb => ht.dataStart_le_node hb)
    fun _ hb => .inl hb

/-- What changes neither the FAT nor the number of free blocks. -/
theorem Consistent.of_keeps (hs : s.Consistent) (hk : s.Keeps s' B) (hst : s'.Stored) (hfat : s'.fat = s.fat)
    (hfree : s'.sb.numFreeBlocks = s.sb.numFreeBlocks) : s'.Consistent := by
  refine ⟨hk.geometry hs.geometry, hst, fun b hb hempty => ?_, ?_⟩
  · rw [hk.dataStart_eq]
    exact hs.dataStart_le b hb (hfat ▸ hempty)
  · rw [hfree, freeBlocks_congr hfat]
    exact hs.numFreeBlocks

theorem Copies.consistent {r : Record} {content : List UInt8} (h : s.Copies s' r l content) (hs : s.Consistent) :
    s'.Consistent :=
  hs.of_keeps h.keeps h.stored h.fat (congrArg Superblock.numFreeBlocks h.sb)

theorem createFile_spec (hs : s.Consistent) (ht : s.HasTree dir.firstBlockIndex l t)
    (hnone : t.find name = none) (hplace : s.HasPlace l t.records (newFileEntry name now linuxFile) name)
    (hle : linuxFile.content.length ≤ s.blockSize ∨ s.Lacks (kept t.records) (newFileEntry name now linuxFile)) :
    ∃ s' t' res out, Settles (s.createFile dir name (some linuxFile) now) (.ok (s', res)) ∧
      Acts (.file (some linuxFile) pw) [name] t t' res out ∧ s.Becomes s' dir.firstBlockIndex l t t' out ∧
      s.Tells (.file (some linuxFile) pw) l t.records name out ∧ (out = .refused → s'.toImage = s.toImage) ∧
      (out.accepted → Made (.file (some linuxFile) pw) now [name] t t') := by
  have hlookup := s.lookup_of_find_none (l := l) (p := 0) ht.heldBy hnone
  have hsize : (newFileEntry name now linuxFile).entrySize.toNat = DirectoryEntry.sizeof + name.buffer.length :=
    newEntry_entrySize now hplace.lt
  have hscan := hplace.bare.scanned ht.table.lastFlagged
  have hblocks : ∀ b ∈ l, s.dataStart ≤ b := fun b hb => ht.dataStart_le b (List.mem_append_left _ hb)
  obtain ⟨⟨s₁, ins⟩, hset, hadds⟩ := ht.table.addDirEntry_of_roomFor hscan hs.geometry hs.dataStart_le hblocks hsize
    hplace.roomFor
  have hbind : ∀ {x}, Settles (fun fuel => countFile linuxFile fuel (s₁, ins)) x →
      Settles (s.createFile dir name (some linuxFile) now) x := by
    intro x hx
    refine (hset.bind (g := countFile linuxFile) hx).congr fun fuel => ?_
    rw [createFile]
    refine congrArg _ (funext fun x => ?_)
    obtain ⟨_, ins⟩ := x
    cases ins <;> rfl
  cases hadds with
  | refused _ | failed _ =>
    exact ⟨_, t, -1, .refused, hbind (Settles.const _), .refused (.inr rfl),
      ht.becomes_print hs _ Bool.false_ne_true rfl, trivial, fun _ => rfl, fun hacc => absurd hacc Bool.false_ne_true⟩
  | @inserted s₁ e' b hins =>
    obtain ⟨r, hentry, hname, -⟩ := hins.table
    obtain ⟨hstring, hname_eq⟩ := string_of_name hname
    obtain ⟨hlt, hempty⟩ := findFreeBlock_spec hins.findFreeBlock
    obtain ⟨hfile, hpw⟩ := newFileEntry_attributes name now linuxFile
    have hle : linuxFile.content.length ≤ s.blockSize := hle.resolve_right fun hlacks =>
      ht.table.not_inserted_of_lacks hscan hs.geometry hs.dataStart_le hblocks hsize hplace.roomFor hlacks hset hins
    obtain ⟨hint, hnat⟩ := toInt_size hle
    have hr : r.entry = { newFileEntry name now linuxFile with isLastEntry := 1, firstBlockIndex := .ofNat b } :=
      hentry.trans hins.entry
    have hact : r.Active := by
      rw [Record.Active, hr]
      exact (by decide : (1 : UInt8) ≠ 0)
    have hrsize : r.entry.size = .ofNat linuxFile.content.length := by
      rw [hr]
      rfl
    have hbs := hins.keeps.blockSize_eq
    -- The block as it is before the content is copied.
    have hstores : s₁.StoresFile r [b] (bytesAt (s₁.content [b]) 0 linuxFile.content.length) :=
      { active := hact
        name_eq := hname_eq
        isFile := by rw [hr]; exact hfile
        hasPassword := by rw [hr]; exact fun h => absurd h hpw
        chained := by rw [hentry]; exact hins.chained hs
        ne_nil := List.cons_ne_nil _ _
        length_eq := by rw [length_bytesAt, hrsize, hnat]
        length_le := by rw [length_bytesAt, List.length_singleton, Nat.one_mul, hbs]; exact hle
        content_eq := fun k hk => by
          rw [length_bytesAt] at hk
          rw [List.getD_eq_getElem _ _ (by rw [length_bytesAt]; exact hk)]
          simp [bytesAt] }
    have hcons₁ := hins.consistent hs
    obtain ⟨hcons, hk, hsb, hfat, hprinted⟩ := hcons₁.writeCounters (s₁.sb.numFiles + 1) s₁.sb.numDirs
    have hcount := hsb.trans (show _ = Outcome.file.count s.sb by
      rw [hins.sb]
      rfl)
    have hbecomes := hins.becomes (n := .file r [b] _) hs ht hentry hname rfl hstores hk hcons hcount hprinted rfl
    have hstart : ∀ c ∈ [b], s₁.dataStart ≤ c := fun c hc => by
      obtain rfl := List.mem_singleton.1 hc
      rw [hins.keeps.dataStart_eq]
      exact hs.dataStart_le c hlt hempty
    have hstores₂ := hstores.keeps hk fun c hc => ⟨hstart c hc, Set.notMem_empty c⟩
    obtain ⟨s', hcopy, hcopies⟩ := hstores₂.copyFileFromLinux hcons.geometry hcons.stored
      (fun c hc => hk.dataStart_eq ▸ hstart c hc) (by rw [hrsize, hnat]) (by rw [hk.blockSize_eq, hbs]; exact hle)
    rw [hentry] at hcopy
    have hres : e'.size.toInt32.toInt = linuxFile.content.length := by
      rw [← hentry, hrsize]
      exact hint
    refine ⟨s', _, linuxFile.content.length, .file, hbind ?_,
      .file (r := r) (b := b) rfl hnone ⟨hact, hstring⟩ (by rw [hr]; exact hfile) (by rw [hrsize, hnat]),
      ⟨hcopies.consistent hcons, hbecomes.hasTree.copies hcopies, ?_, ?_, hcopies.sb.trans hbecomes.sb, ?_⟩,
      ⟨linuxFile, pw, rfl, hlookup⟩, by simp, fun _ => ?_⟩
    · rw [← hres]
      exact hcopy.bind_const fun s => .ok (s, e'.size.toInt32.toInt)
    · refine (hbecomes.keeps.trans hcopies.keeps).mono ?_
      rintro c (hc | hc)
      · exact hc
      · obtain rfl := List.mem_singleton.1 hc
        exact .inr hempty
    · intro c hc
      rw [Tree.blocks_split] at hc
      refine hbecomes.blocks c ?_
      rw [Tree.blocks_split]
      exact hc
    · rw [hcopies.printed]
      exact hbecomes.printed
    · have hkept : t.kept.find name = none := by rw [Tree.find_kept, hnone]; rfl
      refine ⟨name, _, rfl, Tree.find_split (n := .file r [b] _) hkept ⟨hact, hstring⟩ .nil, ?_⟩
      rw [show t.resolve [name] = none from hnone]
      exact ⟨.ofNat b, hr⟩

/-! ## Overwriting -/

theorem overwriteFile_spec {n : Node} {t₁ t₂ : Tree} (now : Stamp) (hs : s.Consistent)
    (ht : s.HasTree i l (t₁ ++ n.cons t₂))
    (hnone : t₁.find name = none) (hr : n.record.IsFor name) (hopens : n.record.entry.Opens pw)
    (hwrite : checkAttribute n.record.entry.attributes writePermission)
    (hle : linuxFile.content.length ≤ s.blockSize) :
    ∃ s' t' res out, Settles (s.overwriteFile n.record.entry
        (Memory.blockAddr s.blockSize l (slot s.blockSize (endOf s.blockSize 0 t₁.records))) name
        (some linuxFile) now) (.ok (s', res)) ∧
      Acts (.file (some linuxFile) pw) [name] (t₁ ++ n.cons t₂) t' res out ∧
      s.Becomes s' i l (t₁ ++ n.cons t₂) t' out ∧
      s.Tells (.file (some linuxFile) pw) l (t₁ ++ n.cons t₂).records name out ∧
      (out = .refused → s'.toImage = s.toImage) ∧
      (out.accepted → Made (.file (some linuxFile) pw) now [name] (t₁ ++ n.cons t₂) t') ∧
      out.accepted ∧ res = linuxFile.content.length := by
  obtain ⟨ht₁, hn, -⟩ := Tree.heldBy_split.1 ht.heldBy
  obtain ⟨hisFile, hpw⟩ := newFileEntry_attributes name now linuxFile
  obtain ⟨hint, hnat⟩ := toInt_size hle
  have hname : n.record.name = name.buffer := by
    rw [hn.name_eq, hr.2]
    rfl
  have hsize : (overwrittenEntry n.record.entry name now linuxFile).entrySize.toNat =
      DirectoryEntry.sizeof + n.record.name.length := by
    rw [hname]
    refine newEntry_entrySize now ?_
    rw [← hname, ← n.record.entrySize_eq]
    exact n.record.entry.entrySize.toNat_lt
  let r' : Record :=
    ⟨overwrittenEntry n.record.entry name now linuxFile, n.record.name, hsize, fun _ => n.record.terminated hr.1⟩
  have hact : r'.Active := (by decide : (1 : UInt8) ≠ 0)
  have hle' : linuxFile.content.length ≤ n.chain.length * s.blockSize :=
    hle.trans (Nat.le_mul_of_pos_left _ (List.length_pos_of_ne_nil hn.ne_nil))
  -- The blocks as they are before the content is copied.
  have hstores : s.StoresFile r' n.chain (bytesAt (s.content n.chain) 0 linuxFile.content.length) :=
    { active := hact
      name_eq := hn.name_eq
      isFile := hisFile
      hasPassword := fun h => absurd h hpw
      chained := hn.chained
      ne_nil := hn.ne_nil
      length_eq := by rw [length_bytesAt]; exact hnat.symm
      length_le := by rw [length_bytesAt]; exact hle'
      content_eq := fun k hk => by
        rw [length_bytesAt] at hk
        rw [List.getD_eq_getElem _ _ (by rw [length_bytesAt]; exact hk)]
        simp [bytesAt] }
  obtain ⟨hk, hst, htree⟩ := ht.rewrite hs (.file r' n.chain _) rfl Iff.rfl n.chain_sublist hstores
  have hcons := hs.of_keeps hk hst rfl rfl
  have hstores' : StoresFile _ r' n.chain _ := (Tree.heldBy_split.1 htree.heldBy).2.1
  have hmem : ∀ c ∈ n.chain, c ∈ (t₁ ++ n.cons t₂).blocks := fun c hc =>
    (Tree.blocks_sublist_split t₁ n t₂).subset (n.chain_sublist.subset hc)
  obtain ⟨s', hcopy, hcopies⟩ := hstores'.copyFileFromLinux hcons.geometry hst
    (fun c hc => hk.dataStart_eq ▸ ht.dataStart_le c (List.mem_append_right _ (hmem c hc))) hnat.symm
    (hk.blockSize_eq ▸ hle)
  refine ⟨s', _, linuxFile.content.length, .overwritten n.record.entry, ?_,
    .overwritten rfl hnone hr hopens hwrite ⟨hact, hr.2⟩ hisFile hnat.symm,
    ⟨hcopies.consistent hcons, htree.copies hcopies, (hk.trans hcopies.keeps).mono ?_, fun c hc => .inl ?_,
      hcopies.sb, iff_of_true hcopies.printed rfl⟩,
    ⟨linuxFile, pw, _, rfl, lookup_of_split ht₁ hnone hr, hopens, hwrite⟩, by simp, fun _ => ?_, rfl, rfl⟩
  · refine (hcopy.bind_const fun s => .ok (s, (linuxFile.content.length : ℤ))).congr fun fuel => ?_
    rw [← hint]
    rfl
  · rintro c (hc | hc)
    · exact .inl (List.mem_append_left _ hc)
    · exact .inl (List.mem_append_right _ (hmem c hc))
  · refine (Tree.blocks_replace (n := n) (P := fun _ => False) (fun b hb => .inl ?_) hc).resolve_right id
    exact n.chain_sublist.subset hb
  · refine ⟨name, _, rfl, Tree.find_split (n := .file r' n.chain _) hnone ⟨hact, hr.2⟩ t₂, ?_⟩
    rw [show (t₁ ++ n.cons t₂).resolve [name] = some n from Tree.find_split hnone hr t₂]
    rfl

/-! ## The end of the path -/

/-- With the table `rs` along `l`, in which the last name of the path is looked up, the command
    reaches no defect: a new entry has its place, and a content that is written fits in a block. -/
def Harmless (s : FileSystem) (target : Target) (l : List ℕ) (rs : List Record) (name : CString) : Prop :=
  match s.lookup l 0 rs name, target with
  | none, .dir => s.HasPlace l rs (newDirectory name ⟨0, 0, 0, 0⟩) name
  | none, .file (some linuxFile) _ => s.HasPlace l rs (newFileEntry name ⟨0, 0, 0, 0⟩ linuxFile) name ∧
      (linuxFile.content.length ≤ s.blockSize ∨ s.Lacks (kept rs) (newFileEntry name ⟨0, 0, 0, 0⟩ linuxFile))
  | some (e, _), .file (some linuxFile) pw => e.Opens pw → checkAttribute e.attributes writePermission →
      linuxFile.content.length ≤ s.blockSize
  | _, _ => True

/-- The place does not depend on the clock. -/
theorem HasPlace.congr {rs : List Record} {e' : DirectoryEntry} (h : s.HasPlace l rs e name)
    (hsize : e'.size = e.size) (hentry : e'.entrySize = e.entrySize) (hattr : e'.attributes = e.attributes) :
    s.HasPlace l rs e' name := by
  refine ⟨h.lt, h.bare, ?_⟩
  have hroom := h.roomFor
  simp only [RoomFor, estimateAt, calculateTotalNumBlocksForEntry, calculateTotalNumBlocksForFile] at hroom ⊢
  rw [hsize, hentry, hattr]
  exact hroom

theorem Lacks.congr {olds : List Record} {e' : DirectoryEntry} (h : s.Lacks olds e) (hsize : e'.size = e.size)
    (hentry : e'.entrySize = e.entrySize) (hattr : e'.attributes = e.attributes) : s.Lacks olds e' := by
  simp only [Lacks, estimateAt, calculateTotalNumBlocksForEntry, calculateTotalNumBlocksForFile] at h ⊢
  rw [hsize, hentry, hattr]
  exact h

theorem mkdirLast_spec (hs : s.Consistent) (ht : s.HasTree dir.firstBlockIndex l t) (target : Target)
    (now : Stamp) (hharmless : s.Harmless target l t.records name) :
    ∃ s' t' res out,
      Settles (fun fuel => s.mkdirLast target now fuel dir name (s.lookup l 0 t.records name)) (.ok (s', res)) ∧
        Acts target [name] t t' res out ∧ s.Becomes s' dir.firstBlockIndex l t t' out ∧
        s.Tells target l t.records name out ∧ (out = .refused → s'.toImage = s.toImage) ∧
        (out.accepted → Made target now [name] t t') := by
  rw [Harmless.eq_def] at hharmless
  cases hfind : t.find name with
  | none =>
    have hlookup := s.lookup_of_find_none (l := l) (p := 0) ht.heldBy hfind
    rw [hlookup] at hharmless ⊢
    match target with
    | .dir =>
      exact createDirectory_spec hs ht hfind (hharmless.congr rfl rfl rfl)
    | .file none pw =>
      exact ⟨_, t, 1, .unopened, Settles.const _, .unopened rfl, ht.becomes_print hs .open Bool.false_ne_true rfl,
        ⟨pw, rfl, fun e offset h => nomatch hlookup.symm.trans h⟩, nofun, fun hacc => absurd hacc Bool.false_ne_true⟩
    | .file (some linuxFile) pw =>
      exact createFile_spec hs ht hfind (hharmless.1.congr rfl rfl rfl)
        (hharmless.2.imp_right fun hlacks => hlacks.congr rfl rfl rfl)
  | some n =>
    obtain ⟨t₁, t₂, rfl, hnone, hfor⟩ := Tree.exists_of_find hfind
    obtain ⟨ht₁, hn, -⟩ := Tree.heldBy_split.1 ht.heldBy
    have hlookup := s.lookup_of_split (l := l) (p := 0) (u := t₂) ht₁ hnone hfor
    -- A message, and nothing else.
    have hrefused : ∀ (m : Message) (res : ℤ), res = 0 ∨ res = -1 → ∃ out,
        Acts target [name] (t₁ ++ n.cons t₂) (t₁ ++ n.cons t₂) res out ∧
          s.Becomes (s.print m) dir.firstBlockIndex l (t₁ ++ n.cons t₂) (t₁ ++ n.cons t₂) out ∧
          s.Tells target l (t₁ ++ n.cons t₂).records name out ∧
          (out = .refused → (s.print m).toImage = s.toImage) ∧
          (out.accepted → Made target now [name] (t₁ ++ n.cons t₂) (t₁ ++ n.cons t₂)) := fun m res hres =>
      ⟨.refused, .refused hres, ht.becomes_print hs m Bool.false_ne_true rfl, trivial, fun _ => rfl,
        fun hacc => absurd hacc Bool.false_ne_true⟩
    rw [hlookup] at hharmless ⊢
    match target with
    | .dir =>
      obtain ⟨out, h⟩ := hrefused .alreadyExists 0 (.inl rfl)
      exact ⟨_, _, 0, out, Settles.const _, h⟩
    | .file linuxFile pw =>
      by_cases hopens : n.record.entry.Opens pw
      swap
      · obtain ⟨out, h⟩ := hrefused .wrongPassword (-1) (.inr rfl)
        refine ⟨_, _, -1, out, (Settles.const _).congr fun fuel => ?_, h⟩
        rw [mkdirLast, DirectoryEntry.wrongPassword_eq hn.hasPassword]
        exact if_pos (decide_eq_true hopens)
      by_cases hwrite : checkAttribute n.record.entry.attributes writePermission
      swap
      · obtain ⟨out, h⟩ := hrefused .noWritePermission 0 (.inl rfl)
        refine ⟨_, _, 0, out, (Settles.const _).congr fun fuel => ?_, h⟩
        rw [mkdirLast, DirectoryEntry.wrongPassword_eq hn.hasPassword]
        exact (if_neg (by simpa using hopens)).trans (if_neg hwrite)
      have hstep : ∀ fuel, s.mkdirLast (.file linuxFile pw) now fuel dir name (some (n.record.entry,
          Memory.blockAddr s.blockSize l (slot s.blockSize (endOf s.blockSize 0 t₁.records)))) =
          s.overwriteFile n.record.entry (Memory.blockAddr s.blockSize l
            (slot s.blockSize (endOf s.blockSize 0 t₁.records))) name linuxFile now fuel := fun fuel => by
        rw [mkdirLast, DirectoryEntry.wrongPassword_eq hn.hasPassword]
        exact (if_neg (by simpa using hopens)).trans (if_pos hwrite)
      match linuxFile with
      | none =>
        refine ⟨_, _, 1, .unopened, (Settles.const _).congr hstep, .unopened rfl,
          ht.becomes_print hs .open Bool.false_ne_true rfl, ⟨pw, rfl, fun e offset h => ?_⟩, nofun,
          fun hacc => absurd hacc Bool.false_ne_true⟩
        obtain ⟨rfl, -⟩ := Prod.mk.inj (Option.some.inj (hlookup.symm.trans h))
        exact ⟨hopens, hwrite⟩
      | some linuxFile =>
        obtain ⟨s', t', res, out, hset, hacts, hbecomes, htells, hframe, hmade, -⟩ :=
          overwriteFile_spec now hs ht hnone hfor hopens hwrite (hharmless hopens hwrite)
        exact ⟨s', t', res, out, hset.congr hstep, hacts, hbecomes, htells, hframe, hmade⟩

/-! ## The path -/

/-- The path leads through directories to the directory with the table `rs` along the chain; the last
    name is left. -/
inductive EndsIn (s : FileSystem) : UInt16 → List CString → List ℕ → List Record → CString → Prop
  | last {i : UInt16} {l : List ℕ} {rs : List Record} {name : CString} : s.Table i l rs →
    EndsIn s i [name] l rs name
  | cons {i : UInt16} {l l' : List ℕ} {rs rs' : List Record} {name name' : CString} {path : List CString}
    {dir : DirectoryEntry} {offset : ℕ} : s.Table i l rs → s.lookup l 0 rs name = some (dir, offset) →
    checkAttribute dir.attributes directory → EndsIn s dir.firstBlockIndex path l' rs' name' →
    EndsIn s i (name :: path) l' rs' name'

/-- The command comes to the outcome where its path ends, or is refused on the way. -/
def Reaches (s : FileSystem) (target : Target) (i : UInt16) (path : List CString) (out : Outcome) : Prop :=
  out = .refused ∨ ∃ l rs name, s.EndsIn i path l rs name ∧ s.Tells target l rs name out

/-- A directory on the path, before its last name, has its header at the offset. -/
def OnPath (s : FileSystem) (i : UInt16) (path : List CString) (offset : ℕ) : Prop :=
  ∃ path₁ path₂ e, path = path₁ ++ path₂ ∧ path₂ ≠ [] ∧ s.Leads i path₁ e offset ∧
    checkAttribute e.attributes directory

/-- No byte has changed but those of the update times of the directories on the path. -/
structure TimesOnly (s s' : FileSystem) (i : UInt16) (path : List CString) : Prop where
  length_eq : s'.length = s.length
  disk_eq : ∀ a, (∀ offset, s.OnPath i path offset → a < offset + 22 ∨ offset + 26 ≤ a) → s'.disk a = s.disk a

theorem TimesOnly.of_eq {i : UInt16} {path : List CString} (h : s'.toImage = s.toImage) : s.TimesOnly s' i path :=
  ⟨congrArg Image.length h, fun a _ => congrArg (fun image : Image => image.disk a) h⟩

/-- The command reaches no defect where its path ends. -/
def HarmlessAt (s : FileSystem) (i : UInt16) (path : List CString) (target : Target) : Prop :=
  ∀ l rs name, s.EndsIn i path l rs name → s.Harmless target l rs name

/-- What `mkdir_helper` does after the search for the first name. -/
def mkdirFound (s : FileSystem) (target : Target) (clock : ℕ → Stamp) (fuel index : ℕ) (name : CString)
    (path : List CString) (dirEntry : DirectoryEntry) (found : Option (DirectoryEntry × ℕ)) :
    Except Fault (FileSystem × ℤ) :=
  if path = [] then s.mkdirLast target (clock index) fuel dirEntry name found
  else match found with
  | none => .ok (s.print (.doesNotExist name), 0)
  | some (dir, offset) =>
    if checkAttribute dir.attributes directory then do
      let (s, res) ← s.mkdirHelper target clock fuel (index + 1) path dir
      if res = -1 then .ok (s, -1)
      else .ok (s.writeEntry offset
        ({ dir with size := dir.size + UInt32.ofInt res }.updateEntryTime (clock index)), res)
    else .ok (s.print .nameNotADirectory, 0)

theorem settles_mkdirHelper {target : Target} {clock : ℕ → Stamp} {index : ℕ} {path : List CString}
    {found : Option (DirectoryEntry × ℕ)} {x : FileSystem × ℤ}
    (hsearch : Settles (s.searchNameInDir dir name) (.ok found))
    (hx : Settles (fun fuel => s.mkdirFound target clock fuel index name path dir found) (.ok x)) :
    Settles (fun fuel => s.mkdirHelper target clock fuel index (name :: path) dir) (.ok x) := by
  refine (hsearch.bind (g := fun fuel => s.mkdirFound target clock fuel index name path dir) hx).congr
    fun fuel => ?_
  rw [mkdirHelper]
  rfl

/-- After the recursion, the directory is touched. -/
theorem settles_mkdirFound {target : Target} {clock : ℕ → Stamp} {index offset : ℕ} {path : List CString}
    {found : DirectoryEntry} {s₁ : FileSystem} {res : ℤ} (hpath : path ≠ [])
    (hdir : checkAttribute found.attributes directory)
    (hset : Settles (fun fuel => s.mkdirHelper target clock fuel (index + 1) path found) (.ok (s₁, res))) :
    Settles (fun fuel => s.mkdirFound target clock fuel index name path dir (some (found, offset)))
      (.ok (if res = -1 then (s₁, -1) else (s₁.writeEntry offset
        ({ found with size := found.size + UInt32.ofInt res }.updateEntryTime (clock index)), res))) := by
  let g : FileSystem × ℤ → Except Fault (FileSystem × ℤ) := fun x =>
    if x.2 = -1 then .ok (x.1, -1)
    else .ok (x.1.writeEntry offset
      ({ found with size := found.size + UInt32.ofInt x.2 }.updateEntryTime (clock index)), x.2)
  have hstep : Settles (fun fuel => s.mkdirFound target clock fuel index name path dir (some (found, offset)))
      (g (s₁, res)) :=
    (hset.bind_const g).congr fun fuel => (if_neg hpath).trans (if_pos hdir)
  rw [apply_ite Except.ok]
  exact hstep

/-- The times are four bytes of an entry. -/
theorem bytes_updateEntryTime {k : ℕ} (h : k < 22 ∨ 26 ≤ k) : (e.updateEntryTime now).bytes k = e.bytes k := by
  simp only [DirectoryEntry.bytes, DirectoryEntry.updateEntryTime]
  rcases h with h | h
  · rw [if_pos h, if_pos h]
  · have hnot : ∀ n, n ≤ 26 → ¬k < n := fun n hn => by omega
    rw [if_neg (hnot 22 (by decide)), if_neg (hnot 24 (by decide)), if_neg (hnot 26 le_rfl), if_neg (hnot 22 (by decide)),
      if_neg (hnot 24 (by decide)), if_neg (hnot 26 le_rfl)]

/-- The touch of a directory on the path, where nothing is added. -/
theorem TimesOnly.touch {s₁ : FileSystem} {t₁ t₂ : Tree} {r : Record} {l' : List ℕ} {sub sub' : Tree}
    {path : List CString} (h : s.TimesOnly s₁ r.entry.firstBlockIndex path) (hpath : path ≠ [])
    (ht : s.HasTree i l (t₁ ++ (Node.dir r l' sub).cons t₂)) (hnone : t₁.find name = none) (hfor : r.IsFor name)
    (hs₁ : s₁.HasTree i l (t₁ ++ (Node.dir r l' sub').cons t₂)) (hbs : s₁.blockSize = s.blockSize)
    (now : Stamp) :
    s.TimesOnly (s₁.writeEntry (Memory.blockAddr s.blockSize l (slot s.blockSize (endOf s.blockSize 0 t₁.records)))
      (r.touch 0 now).entry) i (name :: path) := by
  obtain ⟨ht₁, hn, -⟩ := Tree.heldBy_split.1 ht.heldBy
  have hdir : checkAttribute r.entry.attributes directory := hn.1.isDirectory.1
  have hlookup := s.lookup_of_split (l := l) (p := 0) (n := .dir r l' sub) (u := t₂) ht₁ hnone hfor
  have htable := hs₁.table
  rw [Tree.records_split] at htable
  have hload := htable.header.2.2
  have hle := htable.header_le_length
  rw [hbs] at hload hle
  have hentry : (r.touch 0 now).entry = r.entry.updateEntryTime now := by
    rw [Record.touch, show UInt32.ofInt 0 = 0 from rfl, UInt32.add_zero]
  refine ⟨?_, fun a ha => ?_⟩
  · rw [writeEntry, write_eq hle]
    exact h.length_eq
  · have hrest : s₁.disk a = s.disk a := by
      refine h.disk_eq a fun offset hon => ha offset ?_
      obtain ⟨path₁, path₂, e, rfl, hne, hleads, he⟩ := hon
      exact ⟨name :: path₁, path₂, e, rfl, hne, .cons ht.table hlookup hdir hleads, he⟩
    have hhere := ha _ ⟨[name], path, r.entry, rfl, hpath, .last ht.table hlookup, hdir⟩
    rw [writeEntry, write_eq hle, ← hrest]
    -- In the header, only the times differ from what was there.
    by_cases hmem : Memory.blockAddr s.blockSize l (slot s.blockSize (endOf s.blockSize 0 t₁.records)) ≤ a ∧
      a < Memory.blockAddr s.blockSize l (slot s.blockSize (endOf s.blockSize 0 t₁.records)) + DirectoryEntry.sizeof
    · obtain ⟨k, rfl⟩ := Nat.exists_eq_add_of_le hmem.1
      have hk : k < DirectoryEntry.sizeof := Nat.lt_of_add_lt_add_left hmem.2
      refine (Memory.store_add hk).trans ?_
      rw [hentry, bytes_updateEntryTime (by omega)]
      exact (congrArg (fun e => DirectoryEntry.bytes e k) hload).symm.trans (DirectoryEntry.bytes_load hk)
    · exact Memory.store_of_not_mem (by omega)

/-- The walk along the path, with the entry that is made at its end. -/
theorem mkdirHelper_made (hs : s.Consistent) (ht : s.HasTree dir.firstBlockIndex l t) (target : Target)
    (clock : ℕ → Stamp) (index : ℕ) (path : List CString)
    (hharmless : s.HarmlessAt dir.firstBlockIndex path target) :
    ∃ s' t' res out,
      Settles (fun fuel => s.mkdirHelper target clock fuel index path dir) (.ok (s', res)) ∧
        Along (mkdirTouch res clock) (fun path t t' => Acts target path t t' res out) index path t t' ∧
        s.Becomes s' dir.firstBlockIndex l t t' out ∧ s.Reaches target dir.firstBlockIndex path out ∧
        (out = .refused → s.TimesOnly s' dir.firstBlockIndex path) ∧
        (out.accepted → Made target (clock (index + (path.length - 1))) path t t') := by
  -- A message, and nothing else.
  have hrefused : ∀ {i l t} (path : List CString) (m : Message), s.HasTree i l t →
      Along (mkdirTouch 0 clock) (fun path t t' => Acts target path t t' 0 .refused) index path t t ∧
        s.Becomes (s.print m) i l t t .refused ∧ s.Reaches target i path .refused ∧
        (Outcome.refused = .refused → s.TimesOnly (s.print m) i path) ∧
        (Outcome.refused.accepted → Made target (clock (index + (path.length - 1))) path t t) := fun path m ht =>
    ⟨.here (.refused (.inl rfl)), ht.becomes_print hs m Bool.false_ne_true rfl, .inl rfl, fun _ => .of_eq rfl,
      fun hacc => absurd hacc Bool.false_ne_true⟩
  induction path generalizing dir l t index with
  | nil => exact ⟨_, t, 0, .refused, Settles.const _, hrefused [] .directoryCannotFound ht⟩
  | cons name path ih =>
    have hsearch := ht.table.searchNameInDir name
    rcases eq_or_ne path [] with rfl | hpath
    · obtain ⟨s', t', res, out, hset, hacts, hbecomes, htells, hframe, hmade⟩ := mkdirLast_spec hs ht target (clock index)
        (hharmless _ _ _ (.last ht.table))
      refine ⟨s', t', res, out, settles_mkdirHelper hsearch (hset.congr fun fuel => ?_), .here hacts, hbecomes,
        .inr ⟨_, _, _, .last ht.table, htells⟩, fun hout => .of_eq (hframe hout), hmade⟩
      rw [mkdirFound.eq_def, if_pos rfl]
    cases hfind : t.find name with
    | none =>
      rw [lookup_of_find_none ht.heldBy hfind] at hsearch
      exact ⟨_, t, 0, .refused, settles_mkdirHelper hsearch ((Settles.const _).congr fun fuel => if_neg hpath),
        hrefused _ (.doesNotExist name) ht⟩
    | some n =>
      obtain ⟨t₁, t₂, rfl, hnone, hfor⟩ := Tree.exists_of_find hfind
      obtain ⟨ht₁, hn, -⟩ := Tree.heldBy_split.1 ht.heldBy
      have hlookup := s.lookup_of_split (l := l) (p := 0) (u := t₂) ht₁ hnone hfor
      rw [hlookup] at hsearch
      cases n with
      | file r l' content =>
        have hfile : s.StoresFile r l' content := hn
        refine ⟨_, _, 0, .refused, settles_mkdirHelper hsearch ((Settles.const _).congr fun fuel => ?_),
          hrefused _ .nameNotADirectory ht⟩
        exact (if_neg hpath).trans (if_neg hfile.isFile.2)
      | dir r l' sub =>
        obtain ⟨hdir, -⟩ := hn
        obtain ⟨s₁, sub', res, out, hset, halong, hbecomes, hreaches, hframe, hmade⟩ := ih ht.subtree (index + 1)
          (fun l'' rs name' hends => hharmless _ _ _ (.cons ht.table hlookup hdir.isDirectory.1 hends))
          fun path m ht => ⟨.here (.refused (.inl rfl)), (hrefused path m ht).2.1, .inl rfl, fun _ => .of_eq rfl,
            fun hacc => absurd hacc Bool.false_ne_true⟩
        have hstep := settles_mkdirHelper hsearch (settles_mkdirFound hpath hdir.isDirectory.1 hset)
        have hinside := ht.inside hbecomes.keeps (fun b hb => hb) hbecomes.hasTree hbecomes.blocks
        have hreaches' : s.Reaches target _ (name :: path) out := hreaches.imp_right fun ⟨l'', rs, name', hends, htells⟩ =>
          ⟨l'', rs, name', .cons ht.table hlookup hdir.isDirectory.1 hends, htells⟩
        have hmem : ∀ b, b ∈ l' ++ sub.blocks → b ∈ l ++ (t₁ ++ (Node.dir r l' sub).cons t₂).blocks := fun b hb =>
          List.mem_append_right _ ((Tree.blocks_sublist_split t₁ (.dir r l' sub) t₂).subset hb)
        have hblocks : ∀ r', ∀ b ∈ (t₁ ++ (Node.dir r' l' sub').cons t₂).blocks,
            b ∈ (t₁ ++ (Node.dir r l' sub).cons t₂).blocks ∨ s.fat b = fatEntryEmpty := by
          intro r' b hb
          refine Tree.blocks_replace (n := .dir r l' sub) (P := (s.fat · = fatEntryEmpty)) (fun b hb => ?_) hb
          rcases List.mem_append.1 hb with hb | hb
          · exact .inl (List.mem_append_left _ hb)
          · exact (hbecomes.blocks b hb).imp_left (List.mem_append_right _)
        have hkeeps := hbecomes.keeps.mono fun b hb => hb.imp_left (hmem b)
        have halong' : Along (mkdirTouch res clock) _ index (name :: path) (t₁ ++ (Node.dir r l' sub).cons t₂)
            (t₁ ++ (Node.dir (mkdirTouch res clock index r) l' sub').cons t₂) :=
          .inside hpath hnone hfor halong
        -- What is made below the directory is at the end of the path.
        have hmade' : ∀ r', r'.IsFor name → out.accepted → Made target (clock (index + path.length)) (name :: path)
            (t₁ ++ (Node.dir r l' sub).cons t₂) (t₁ ++ (Node.dir r' l' sub').cons t₂) := by
          intro r' hfor' hacc
          obtain ⟨name', n, hlast, hn, hmakes⟩ := hmade hacc
          refine ⟨name', n, (List.getLast?_cons_of_ne_nil hpath).trans hlast,
            (Tree.resolve_inside hpath hnone hfor').trans hn, ?_⟩
          rw [Tree.resolve_inside (r := r) hpath hnone hfor]
          have hlen : index + 1 + (path.length - 1) = index + path.length := by
            have hpos := List.length_pos_of_ne_nil hpath
            omega
          rwa [hlen] at hmakes
        by_cases hres : res = -1
        · subst hres
          rw [mkdirTouch, if_pos rfl] at halong'
          rw [if_pos rfl] at hstep
          refine ⟨s₁, _, -1, out, hstep, halong',
            ⟨hbecomes.consistent, hinside, hkeeps, hblocks r, hbecomes.sb, hbecomes.printed⟩, hreaches',
            fun hout => ?_, hmade' r hfor⟩
          have hframe := hframe hout
          refine ⟨hframe.length_eq, fun a ha => hframe.disk_eq a fun offset hon => ha offset ?_⟩
          obtain ⟨path₁, path₂, e, rfl, hne, hleads, he⟩ := hon
          exact ⟨name :: path₁, path₂, e, rfl, hne, .cons ht.table hlookup hdir.isDirectory.1 hleads, he⟩
        · rw [mkdirTouch, if_neg hres] at halong'
          rw [if_neg hres] at hstep
          obtain ⟨-, ⟨hdir₁, hsub₁⟩, -⟩ := Tree.heldBy_split.1 hinside.heldBy
          obtain ⟨hk, hst, htree⟩ := hinside.rewrite hbecomes.consistent
            (.dir (r.touch res (clock index)) l' sub') rfl Iff.rfl (List.Sublist.refl _)
            ⟨{ hdir₁ with }, hsub₁⟩
          rw [hbecomes.keeps.blockSize_eq] at hk hst htree
          refine ⟨_, _, res, out, hstep, halong',
            ⟨hbecomes.consistent.of_keeps hk hst rfl rfl, htree, (hkeeps.trans hk).mono ?_, hblocks _,
              hbecomes.sb, hbecomes.printed⟩, hreaches', fun hout => ?_, hmade' _ hfor⟩
          · rintro b (hb | hb)
            · exact hb
            · exact .inl (List.mem_append_left _ hb)
          · subst hout
            obtain ⟨_, _, _, hacts⟩ := halong.exists
            obtain rfl := hacts.res_of_refused.resolve_right hres
            exact (hframe rfl).touch hpath ht hnone hfor hinside hbecomes.keeps.blockSize_eq _

/-- The walk along the path. -/
theorem mkdirHelper_spec (hs : s.Consistent) (ht : s.HasTree dir.firstBlockIndex l t) (target : Target)
    (clock : ℕ → Stamp) (index : ℕ) (path : List CString)
    (hharmless : s.HarmlessAt dir.firstBlockIndex path target) :
    ∃ s' t' res out,
      Settles (fun fuel => s.mkdirHelper target clock fuel index path dir) (.ok (s', res)) ∧
        Along (mkdirTouch res clock) (fun path t t' => Acts target path t t' res out) index path t t' ∧
        s.Becomes s' dir.firstBlockIndex l t t' out ∧ s.Reaches target dir.firstBlockIndex path out ∧
        (out = .refused → s.TimesOnly s' dir.firstBlockIndex path) := by
  obtain ⟨s', t', res, out, hset, halong, hbecomes, hreaches, hframe, -⟩ :=
    mkdirHelper_made hs ht target clock index path hharmless
  exact ⟨s', t', res, out, hset, halong, hbecomes, hreaches, hframe⟩

end FileSystem

end GtuOs.FatFileSystem

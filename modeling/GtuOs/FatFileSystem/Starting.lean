import GtuOs.FatFileSystem.Stepping
import Mathlib.Order.Interval.Finset.Nat

/-!
# The first image

Unless the memory has held `FAT_ENTRY_EMPTY` in one of the two entries that are not set
(`Garbage.Clean`), the image made by `create_filesystem` is consistent, and its root directory is
empty (`hasTree_createFilesystem`).
-/

namespace GtuOs.FatFileSystem

/-- The two entries of the FAT that `create_filesystem` does not set are not `FAT_ENTRY_EMPTY`. -/
def Garbage.Clean (g : Garbage) (is1024 : Bool) : Prop :=
  g.fat ((if is1024 then 5 else 9) - 1) ≠ fatEntryEmpty ∧
    g.fat ((if is1024 then 5 else 9) + (if is1024 then 8 else 16) - 1) ≠ fatEntryEmpty

/-- The tree of a new image. -/
def emptyTree : Tree := .passive FileSystem.indicator .nil

theorem FileSystem.le_length_write {s : FileSystem} {p n : ℕ} {f : ℕ → UInt8} (h : p ≤ s.length ∨ n ≠ 0) :
    p + n ≤ (s.write p n f).length := by
  rw [write]
  dsimp only
  split_ifs <;> omega

section

variable {bs superblocks fatBlocks : ℕ} {g : Garbage} {now : Stamp} (h : Sizes bs superblocks fatBlocks)
include h

/-- All blocks are in the file. -/
theorem le_length_created : numBlocks * bs ≤ (created g now bs superblocks fatBlocks).length := by
  have hroot := h.root_lt
  have hheader := h.header_le
  let s₁ := (initial g now bs superblocks fatBlocks).writeSuperblockAndFat.writeEntry
    ((superblocks + fatBlocks) * bs) lastDirIndicatorEntry
  let s₂ := s₁.write ((superblocks + fatBlocks) * bs + DirectoryEntry.sizeof) (bs - DirectoryEntry.sizeof) fun _ => 0
  have h₁ : (superblocks + fatBlocks) * bs + DirectoryEntry.sizeof ≤ s₁.length :=
    FileSystem.le_length_write (.inr (by decide))
  have h₂ : (superblocks + fatBlocks) * bs + bs ≤ s₂.length := by
    have hle := FileSystem.le_length_write (n := bs - DirectoryEntry.sizeof) (f := fun _ => 0) (.inl h₁)
    rwa [Nat.add_assoc, Nat.add_sub_cancel' hheader] at hle
  have h₃ := FileSystem.le_length_write (n := (numBlocks - (superblocks + fatBlocks + 1)) * bs) (f := fun _ => 0)
    (.inl h₂)
  calc numBlocks * bs
    _ = (superblocks + fatBlocks) * bs + bs + (numBlocks - (superblocks + fatBlocks + 1)) * bs := by
      rw [← Nat.succ_mul, ← Nat.add_mul, Nat.add_sub_cancel' hroot]
    _ ≤ _ := h₃

/-- The root directory is empty. -/
theorem disk_created {k : ℕ} (hk : k < DirectoryEntry.sizeof) :
    (created g now bs superblocks fatBlocks).disk ((superblocks + fatBlocks) * bs + k) =
      lastDirIndicatorEntry.bytes k := by
  have hheader := h.header_le
  have hk' : (superblocks + fatBlocks) * bs + k < (superblocks + fatBlocks) * bs + DirectoryEntry.sizeof :=
    Nat.add_lt_add_left hk _
  have hdisk : (created g now bs superblocks fatBlocks).disk =
      (((initial g now bs superblocks fatBlocks).writeSuperblockAndFat.disk.store ((superblocks + fatBlocks) * bs)
        DirectoryEntry.sizeof lastDirIndicatorEntry.bytes).store
          ((superblocks + fatBlocks) * bs + DirectoryEntry.sizeof) (bs - DirectoryEntry.sizeof) fun _ => 0).store
            ((superblocks + fatBlocks) * bs + bs) ((numBlocks - (superblocks + fatBlocks + 1)) * bs) fun _ => 0 := rfl
  rw [hdisk, Memory.store_of_not_mem (.inl (lt_of_lt_of_le hk' (Nat.add_le_add_left hheader _))),
    Memory.store_of_not_mem (.inl hk'), Memory.store_add hk]

theorem blockSize_created : (created g now bs superblocks fatBlocks).blockSize = bs := (toNat_sizes h).1

theorem dataStart_created : (created g now bs superblocks fatBlocks).dataStart = superblocks + fatBlocks := by
  obtain ⟨-, hsup, hfat, -⟩ := toNat_sizes h
  show (UInt16.ofNat superblocks).toNat + (UInt16.ofNat fatBlocks).toNat = _
  rw [hsup, hfat]

theorem geometry_created : (created g now bs superblocks fatBlocks).Geometry := by
  have hregions := regions_initial h g now
  refine ⟨⟨hregions.1, hregions.2⟩, ?_, rfl, ?_, ?_⟩
  · rw [blockSize_created h]
    exact h.header_le
  · rw [dataStart_created h]
    exact h.root_lt.le
  · rw [blockSize_created h]
    exact le_length_created h

variable (h₁ : g.fat (superblocks - 1) ≠ fatEntryEmpty) (h₂ : g.fat (superblocks + fatBlocks - 1) ≠ fatEntryEmpty)
include h₁ h₂

theorem consistent_created : (created g now bs superblocks fatBlocks).Consistent := by
  have hempty : ∀ b < numBlocks, (created g now bs superblocks fatBlocks).fat b = fatEntryEmpty ↔
      superblocks + fatBlocks < b := fun b hb => createFat_eq_empty_iff hb h₁ h₂
  refine ⟨geometry_created h, stored_created h g now, fun b hb hfree => ?_, ?_⟩
  · rw [dataStart_created h]
    exact ((hempty b hb).1 hfree).le
  · have hnum : (UInt16.ofNat (numBlocks - (superblocks + fatBlocks + 1))).toNat =
        numBlocks - (superblocks + fatBlocks + 1) :=
      UInt16.toNat_ofNat_of_lt' (lt_of_le_of_lt (Nat.sub_le _ _) (by decide))
    refine hnum.trans ?_
    have hfilter : (Finset.range numBlocks).filter (fun b => (created g now bs superblocks fatBlocks).fat b =
        fatEntryEmpty) = Finset.Ioo (superblocks + fatBlocks) numBlocks := by
      ext b
      rw [Finset.mem_filter, Finset.mem_range, Finset.mem_Ioo, and_comm]
      exact and_congr_left fun hb => hempty b hb
    rw [FileSystem.freeBlocks, FileSystem.countEmpty, hfilter, Nat.card_Ioo]
    omega

theorem hasTree_created : (created g now bs superblocks fatBlocks).toImage.HasTree [superblocks + fatBlocks]
    emptyTree := by
  have hheader := h.header_le
  have hslot : slot bs 0 = 0 := if_pos (by rw [Nat.zero_mod, Nat.zero_add]; exact hheader)
  -- The root directory is one block, with the passive record only.
  have hchained : (created g now bs superblocks fatBlocks).Chained (.ofNat (superblocks + fatBlocks))
      [superblocks + fatBlocks] := by
    refine ⟨⟨(toNat_sizes h).2.2.2, h.root_lt, createFat_root⟩, fun b hb => ?_⟩
    obtain rfl := List.mem_singleton.1 hb
    have hle : numBlocks * bs ≤ (created g now bs superblocks fatBlocks).length := le_length_created h
    have hlt := Nat.mul_le_mul_right bs h.root_lt
    rw [Nat.succ_mul] at hlt
    rw [blockSize_created h]
    exact hlt.trans hle
  have hlaid : Laid bs ([superblocks + fatBlocks].length * bs)
      ((created g now bs superblocks fatBlocks).content [superblocks + fatBlocks]) 0 [FileSystem.indicator] := by
    refine ⟨fun k hk => ?_, ?_, trivial⟩
    · have hk : k < DirectoryEntry.sizeof := hk
      rw [hslot, Nat.zero_add, FileSystem.content_head (by rw [blockSize_created h]; omega), blockSize_created h,
        disk_created h hk]
      exact (FileSystem.indicator.bytes_header hk).symm
    · rw [hslot, Nat.zero_add, List.length_singleton, Nat.one_mul]
      exact hheader
  have htable : (created g now bs superblocks fatBlocks).Table (.ofNat (superblocks + fatBlocks))
      [superblocks + fatBlocks] [FileSystem.indicator] := by
    refine ⟨⟨?_, hchained, ?_⟩, .inl ⟨by decide, rfl⟩⟩
    · rw [blockSize_created h]
      exact hheader
    · rw [blockSize_created h]
      exact hlaid
  refine .of_stored (consistent_created h h₁ h₂) ⟨htable, ⟨by decide, trivial⟩, List.nodup_singleton _, fun b hb => ?_⟩
  obtain rfl := List.mem_singleton.1 hb
  exact (dataStart_created h).le

end

/-- The first image. -/
theorem hasTree_createFilesystem {g : Garbage} {is1024 : Bool} (h : g.Clean is1024) (now : Stamp) :
    ∃ l, (createFilesystem g now is1024).HasTree l emptyTree := by
  rw [createFilesystem_eq]
  exact ⟨_, hasTree_created (sizes is1024) h.1 h.2⟩

/-! ## One image -/

/-- The image with blocks of 512 bytes, after memory full of zeros. -/
def newImage : Image := createFilesystem ⟨fun _ => 0, 0, 0⟩ ⟨0, 0, 0, 0⟩ false

theorem clean_zero : Garbage.Clean ⟨fun _ => 0, 0, 0⟩ false := ⟨by decide, by decide⟩

/-- A clock that stands still. -/
def stopped : ℕ → Stamp := fun _ => ⟨0, 0, 0, 0⟩

/-- In its root directory there is the indicator only. -/
theorem endsIn_newImage {name name' : CString} {l : List ℕ} {rs : List Record}
    (h : newImage.load.EndsIn newImage.load.sb.rootDir.firstBlockIndex [name] l rs name') :
    l = [25] ∧ rs = [FileSystem.indicator] ∧ name' = name := by
  cases h with
  | last ht =>
    obtain ⟨rfl, rfl⟩ := ht.unique FileSystem.insertable_newFile.table
    exact ⟨rfl, rfl, rfl⟩
  | cons _ _ _ hends => nomatch hends

theorem lookup_newImage :
    newImage.load.lookup [25] 0 [FileSystem.indicator] FileSystem.newName = none := by decide +kernel

/-- A new entry with a short name harms nothing. -/
theorem harmless_newImage (target : Target)
    (h : newImage.load.Harmless target [25] [FileSystem.indicator] FileSystem.newName) :
    newImage.Harmless (.make target [FileSystem.newName]) := by
  intro _ l rs name hends
  obtain ⟨rfl, rfl, rfl⟩ := endsIn_newImage hends
  exact h

theorem hasPlace_newImage {e : DirectoryEntry} :
    newImage.load.HasPlace [25] [FileSystem.indicator] e FileSystem.newName :=
  ⟨by decide, by decide, .inr ⟨by decide +kernel, .inl ⟨by decide +kernel, by decide +kernel⟩⟩⟩

/-! ### Two entries -/

/-- What the first entry of a root directory makes of it. -/
theorem Acts.single {target : Target} {name : CString} {t t' : Tree} {res : ℤ} {out : Outcome}
    (h : Acts target [name] t t' res out) (hout : out.accepted = true) (ht : t = emptyTree) :
    ∃ n : Node, t' = n.cons .nil ∧ n.record.IsFor name := by
  cases h with
  | refused _ => cases hout
  | unopened _ => cases hout
  | miscounted _ => cases hout
  | @directory _ _ r b _ _ hfor _ _ =>
    refine ⟨.dir r [b] (.passive FileSystem.indicator .nil), ?_, hfor⟩
    rw [ht]
    rfl
  | @file _ _ r b linuxFile _ _ _ hfor _ _ =>
    refine ⟨.file r [b] linuxFile.content, ?_, hfor⟩
    rw [ht]
    rfl
  | overwritten _ hnone hfor _ _ _ _ _ =>
    have hfind := Tree.find_split hnone hfor
    cases (hfind _).symm.trans (congrArg (Tree.find name) ht)

/-- After the first entry of the root directory has been made. -/
theorem single_of_step {target : Target} {clock : ℕ → Stamp} {output : Output} {image : Image}
    (hharmless : newImage.Harmless (.make target [FileSystem.newName]))
    (hstep : commands.step newImage ⟨.make target [FileSystem.newName], clock, output, []⟩ image) :
    ∃ l t r, image.HasTree l t ∧ t.records = [r] ∧ r.IsFor FileSystem.newName ∧ r.size = 34 := by
  obtain ⟨l, h₀⟩ : ∃ l, newImage.HasTree l emptyTree := hasTree_createFilesystem clean_zero _
  have hsingle : emptyTree.Single := trivial
  obtain ⟨t, accepted, hmoves, h, -, hacc, hmade⟩ := h₀.step_made hsingle hharmless hstep
  have haccepted : accepted = true := (hacc (List.cons_ne_nil _ _)).1 rfl
  obtain ⟨name, n, hname, hn, hmakes⟩ := hmade target _ rfl haccepted
  obtain rfl : FileSystem.newName = name := Option.some.inj hname
  have hnone : emptyTree.resolve [FileSystem.newName] = none := rfl
  have hsize : n.record.size = 34 := by
    rw [hnone] at hmakes
    cases target with
    | dir =>
      obtain ⟨b, he⟩ := hmakes
      rw [Record.size, ← n.record.entrySize_eq, he]
      rfl
    | file linuxFile pw =>
      cases linuxFile with
      | none => exact hmakes.elim
      | some linuxFile =>
        obtain ⟨b, he⟩ := hmakes
        rw [Record.size, ← n.record.entrySize_eq, he]
        rfl
  obtain ⟨m, ht, hfor⟩ : ∃ m : Node, t = m.cons .nil ∧ m.record.IsFor FileSystem.newName := by
    clear hmade
    generalize newImage.load.sb = sb, image.load.sb = sb' at hmoves
    generalize ht₀ : emptyTree = t₀ at hmoves
    cases hmoves with
    | make _ halong =>
      cases halong with
      | here hacts => exact hacts.single haccepted ht₀.symm
      | inside hpath => exact absurd rfl hpath
  rw [ht] at hn
  obtain rfl : m = n := Option.some.inj ((Tree.find_cons hfor _).symm.trans hn)
  refine ⟨l, t, m.record, h, ?_, hfor, hsize⟩
  rw [ht]
  cases m <;> rfl

/-- Another entry then has its place behind it. -/
theorem harmless_of_single {image : Image} {l : List ℕ} {t : Tree} {r : Record} {name : CString} {target : Target}
    (h : image.HasTree l t) (ht : t.records = [r]) (hr : r.Active) (hsize : r.size = 34)
    (hbs : image.load.blockSize = 512) (hnone : ¬r.IsFor name) (hname : name.buffer.length ≤ 400)
    (htarget : ∀ linuxFile pw, target = .file (some linuxFile) pw → linuxFile.content.length ≤ 512) :
    image.Harmless (.make target [name]) := by
  have htable := h.hasTree.table
  have hlen : 0 < l.length := List.length_pos_of_ne_nil htable.ne_nil
  rw [ht] at htable
  intro _ l' rs name' hends
  cases hends with
  | cons _ _ _ hends => nomatch hends
  | last htable' =>
    obtain ⟨rfl, rfl⟩ := htable.unique htable'
    have hlookup : image.load.lookup l 0 [r] name = none := image.load.lookup_cons_of_neg hnone
    have hkept : kept [r] = [r.unflag] := by
      rw [kept, List.filter_cons_of_pos (by simpa using .inl hr)]
      rfl
    have hq : slot image.load.blockSize (endOf image.load.blockSize 0 (kept [r])) = 34 := by
      have hunflag : r.unflag.size = 34 := hsize
      rw [hkept, hbs, endOf, endOf, hunflag]
      decide
    have hplace : ∀ e, image.load.HasPlace l [r] e name := fun e => by
      refine ⟨lt_of_le_of_lt (Nat.add_le_add_left hname _) (by decide), fun q hq _ => ?_, .inr ?_⟩
      · rw [List.mem_singleton.1 hq]
        exact .inl hr
      · have hlt : 512 ≤ l.length * 512 := Nat.le_mul_of_pos_left _ hlen
        rw [hq, hbs]
        exact ⟨by omega, .inl ⟨by rw [hbs, DirectoryEntry.sizeof]; omega, by rw [hbs, DirectoryEntry.sizeof]; omega⟩⟩
    rw [FileSystem.Harmless.eq_def, hlookup]
    cases target with
    | dir => exact hplace _
    | file linuxFile pw =>
      cases linuxFile with
      | none => trivial
      | some linuxFile => exact ⟨hplace _, .inl (by rw [hbs]; exact htarget linuxFile pw rfl)⟩

end GtuOs.FatFileSystem

import GtuOs.FatFileSystem.Adding

/-!
# The contents of files

The loops of `copy_file_from_linux` and `print_file` do not count the bytes left in a block, so
that they write and read the bytes after the start of the first block, whatever block they are in
(`settles_copyFileFrom`, `settles_printFileFrom`). For a content that fits in a block this is the content of
the file.
-/

namespace GtuOs.FatFileSystem.FileSystem

variable {s s' : FileSystem} {c : Cursor} {content : List UInt8} {r r' : Record} {l : List ℕ} {b n : ℕ}
  {linuxFile : LinuxFile} {e : DirectoryEntry} {i : UInt16} {t₁ t₂ : Tree}

/-- One byte after the other. -/
theorem writeList_cons (s : FileSystem) (p : ℕ) (ch : UInt8) (content : List UInt8) :
    (s.writeList p [ch]).writeList (p + 1) content = s.writeList p (ch :: content) := by
  have hdisk : (s.disk.store p 1 fun k => [ch].getD k 0).store (p + 1) content.length (content.getD · 0) =
      s.disk.store p (content.length + 1) ((ch :: content).getD · 0) := by
    rw [Memory.store_store, Nat.add_comm 1]
    refine Memory.store_congr fun k _ => ?_
    cases k with
    | zero => rfl
    | succ k => rw [if_neg (by omega), Nat.add_sub_cancel, List.getD_cons_succ]
  have hlen : (if content.length = 0 then max s.length (p + 1)
      else max (max s.length (p + 1)) (p + 1 + content.length)) = max s.length (p + (content.length + 1)) := by
    split_ifs <;> omega
  ext1
  · exact hdisk
  · exact hlen
  all_goals rfl

theorem settles_copyFileFrom (hrem : c.remaining ≠ 0) :
    Settles (fun fuel => copyFileFrom fuel s content c) (.ok (s.writeList c.offset content)) := by
  induction content generalizing s c with
  | nil =>
    have hnil : s.writeList c.offset [] = s := by
      ext1
      · have hstore : s.disk.store c.offset 0 (([] : List UInt8).getD · 0) = s.disk :=
          Memory.store_self fun k hk => absurd hk (Nat.not_lt_zero k)
        exact hstore
      all_goals rfl
    rw [hnil]
    exact (Settles.const _).succ fun fuel => rfl
  | cons ch content ih =>
    rw [← writeList_cons]
    refine (ih (s := s.writeList c.offset [ch]) (c := { c with offset := c.offset + 1 }) hrem).succ fun fuel => ?_
    exact if_neg hrem

theorem settles_printFileFrom (hrem : c.remaining ≠ 0) (hle : c.offset + n ≤ s.length) :
    Settles (fun fuel => s.printFileFrom fuel n c) (.ok (bytesAt s.disk c.offset n)) := by
  induction n generalizing c with
  | zero => exact (Settles.const _).succ fun fuel => rfl
  | succ n ih =>
    have hread : s.read c.offset 1 = .ok [s.disk c.offset] := if_pos (.inr (by omega))
    have hrest := ih (c := { c with offset := c.offset + 1 }) hrem (by
      show c.offset + 1 + n ≤ s.length
      omega)
    have hcons : bytesAt s.disk c.offset (n + 1) = [s.disk c.offset] ++ bytesAt s.disk (c.offset + 1) n := by
      rw [Nat.add_comm, bytesAt_add]
      rfl
    rw [hcons]
    refine (hrest.bind (g := fun _ rest => .ok ([s.disk c.offset] ++ rest)) (Settles.const _)).succ fun fuel => ?_
    rw [printFileFrom, if_neg (Nat.succ_ne_zero n), if_neg hrem, hread]
    rfl

/-! ## Contents in one block -/

theorem seekBlock_remaining_ne_zero (hs : s.Geometry) (i : UInt16) : (s.seekBlock i).remaining ≠ 0 := by
  intro h0
  have hle := hs.header_le
  rw [blockSize, show s.sb.blockSize = 0 from h0] at hle
  exact absurd hle (by decide)

/-- The first byte of a file. -/
theorem seekBlock_offset (h : s.Chained i l) (hl : l ≠ []) :
    ∃ b l', l = b :: l' ∧ (s.seekBlock i).offset = b * s.blockSize := by
  obtain ⟨b, l', rfl⟩ := List.exists_cons_of_ne_nil hl
  refine ⟨b, l', rfl, ?_⟩
  rw [← h.isChain.1]
  rfl

/-- The bytes of the first block of a chain. -/
theorem content_head {l' : List ℕ} {k : ℕ} (hk : k < s.blockSize) :
    s.content (b :: l') k = s.disk (b * s.blockSize + k) := by
  have haddr := @blockAddr_middle b [] l' k _ hk
  rw [List.length_nil, Nat.zero_mul, Nat.zero_add] at haddr
  exact congrArg s.disk haddr

/-- A file whose content fits in a block is read back. -/
theorem StoresFile.printFile (h : s.StoresFile r l content) (hs : s.Geometry) (hle : content.length ≤ s.blockSize) :
    Settles (fun fuel => s.printFile r.entry fuel) (.ok ⟨content,
      checkAttribute r.entry.attributes readPermission, checkAttribute r.entry.attributes writePermission⟩) := by
  obtain ⟨b, l', rfl, hoff⟩ := seekBlock_offset h.chained h.ne_nil
  have hin := h.chained.inFile b List.mem_cons_self
  have hprint := settles_printFileFrom (s := s) (n := r.entry.size.toNat)
    (seekBlock_remaining_ne_zero hs r.entry.firstBlockIndex) (by rw [hoff, ← h.length_eq]; omega)
  have hbytes : bytesAt s.disk (b * s.blockSize) r.entry.size.toNat = content := by
    rw [← h.length_eq]
    refine bytesAt_eq fun k hk => ?_
    rw [← content_head (lt_of_lt_of_le hk hle)]
    exact h.content_eq k hk
  rw [hoff, hbytes] at hprint
  exact hprint.bind_const fun content => .ok (LinuxFile.mk content
    (checkAttribute r.entry.attributes readPermission) (checkAttribute r.entry.attributes writePermission))

/-- What copying a content, which fits in a block, to the file does. -/
structure Copies (s s' : FileSystem) (r : Record) (l : List ℕ) (content : List UInt8) : Prop where
  keeps : s.Keeps s' {b | b ∈ l}
  stored : s'.Stored
  sb : s'.sb = s.sb
  fat : s'.fat = s.fat
  printed : s'.printed = s.printed
  storesFile : s'.StoresFile r l content

theorem StoresFile.copyFileFromLinux (h : s.StoresFile r l content) (hs : s.Geometry) (hst : s.Stored)
    (hl : ∀ b ∈ l, s.dataStart ≤ b) (hlen : linuxFile.content.length = r.entry.size.toNat)
    (hle : linuxFile.content.length ≤ s.blockSize) :
    ∃ s', Settles (s.copyFileFromLinux r.entry linuxFile) (.ok s') ∧ s.Copies s' r l linuxFile.content := by
  obtain ⟨b, l', rfl, hoff⟩ := seekBlock_offset h.chained h.ne_nil
  have hpos : 0 < s.blockSize := lt_of_lt_of_le (by decide) hs.header_le
  have hlt : 0 < (b :: l').length * s.blockSize := Nat.mul_pos (Nat.succ_pos _) hpos
  have hmod : 0 % s.blockSize + linuxFile.content.length ≤ s.blockSize := by
    rw [Nat.zero_mod, Nat.zero_add]
    exact hle
  have haddr : (s.seekBlock r.entry.firstBlockIndex).offset = Memory.blockAddr s.blockSize (b :: l') 0 := by
    have hmiddle := @blockAddr_middle b [] l' 0 _ hpos
    rw [List.length_nil, Nat.zero_mul] at hmiddle
    rw [hoff]
    exact hmiddle.symm
  -- The content fits in the first block, to which it is copied.
  have hset : Settles (fun fuel => copyFileFrom fuel s linuxFile.content (s.seekBlock r.entry.firstBlockIndex)) _ :=
    settles_copyFileFrom (seekBlock_remaining_ne_zero hs r.entry.firstBlockIndex)
  rw [haddr] at hset
  have hk := keeps_writeChain (n := linuxFile.content.length) (f := (linuxFile.content.getD · 0)) hs
    h.chained.isChain.lt hlt hmod
  have hchained := h.chained.writeChain (f := (linuxFile.content.getD · 0)) hs hlt hmod
  refine ⟨_, ?_, hk, hst.writeChain hs hl hlt, rfl, rfl, rfl, { h with
    chained := hchained
    length_eq := hlen
    length_le := hle.trans (Nat.le_mul_of_pos_left _ (Nat.succ_pos _))
    content_eq := fun k hk => ?_ }⟩
  · have htake : linuxFile.content.take r.entry.size.toNat = linuxFile.content := by
      rw [← hlen, List.take_length]
    refine hset.congr fun fuel => ?_
    rw [FileSystem.copyFileFromLinux, htake]
  · refine (content_writeChain h.chained hlt hmod ?_).trans ?_
    · exact lt_of_lt_of_le hk (hle.trans (Nat.le_mul_of_pos_left _ (Nat.succ_pos _)))
    · rw [← Nat.zero_add k, Memory.store_add hk, Nat.zero_add]

end GtuOs.FatFileSystem.FileSystem

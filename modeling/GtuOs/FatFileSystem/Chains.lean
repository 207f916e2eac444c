import GtuOs.FatFileSystem.Directory
import GtuOs.Lib.Blocks
import GtuOs.Lib.Fuel

/-!
# Chains of blocks

The chain of a file or directory (`IsChain`), and a cursor on it: `At s l p c` says that
the cursor `c` is at the byte `p` of the blocks `l`. Reading at a cursor reads the stream
of the blocks, and a name, whichever blocks it continues in, is read as a piece of this
stream (`At.readFileName`).
-/

namespace GtuOs.FatFileSystem

variable {fat fat' : ℕ → UInt16} {i : UInt16} {b n p : ℕ} {l l₁ l₂ : List ℕ}

/-- The blocks `l` are the chain of the FAT that starts with the index `i`. -/
def IsChain (fat : ℕ → UInt16) : UInt16 → List ℕ → Prop
  | i, [] => i = fatEntryEnd
  | i, b :: l => i.toNat = b ∧ b < numBlocks ∧ IsChain fat (fat b) l

namespace IsChain

theorem congr (h : IsChain fat i l) (hfat : ∀ b ∈ l, fat' b = fat b) : IsChain fat' i l := by
  induction l generalizing i with
  | nil => exact h
  | cons b l ih =>
    obtain ⟨hi, hb, hl⟩ := h
    refine ⟨hi, hb, ?_⟩
    rw [hfat b List.mem_cons_self]
    exact ih hl fun c hc => hfat c (List.mem_cons_of_mem _ hc)

theorem suffix (h : IsChain fat i (l₁ ++ b :: l₂)) : IsChain fat (fat b) l₂ := by
  induction l₁ generalizing i with
  | nil => exact h.2.2
  | cons c l₁ ih => exact ih h.2.2

theorem lt (h : IsChain fat i l) : ∀ b ∈ l, b < numBlocks := by
  induction l generalizing i with
  | nil => simp
  | cons c l ih =>
    intro b hb
    rcases List.mem_cons.1 hb with rfl | hb
    · exact h.2.1
    · exact ih h.2.2 b hb

/-- An index is the end of a chain exactly when nothing follows. -/
theorem eq_end_iff (h : IsChain fat i l) : i = fatEntryEnd ↔ l = [] := by
  cases l with
  | nil => exact iff_of_true h rfl
  | cons b l =>
    refine iff_of_false ?_ (List.cons_ne_nil b l)
    rintro rfl
    have hb : b < 4096 := h.2.1
    rw [← h.1] at hb
    exact absurd hb (by decide)

theorem unique (h₁ : IsChain fat i l₁) (h₂ : IsChain fat i l₂) : l₁ = l₂ := by
  induction l₁ generalizing i l₂ with
  | nil => exact (h₂.eq_end_iff.1 h₁).symm
  | cons b l₁ ih =>
    cases l₂ with
    | nil => exact h₁.eq_end_iff.1 h₂
    | cons c l₂ =>
      obtain rfl : b = c := h₁.1.symm.trans h₂.1
      rw [ih h₁.2.2 h₂.2.2]

/-- Chains have no cycles. -/
theorem nodup (h : IsChain fat i l) : l.Nodup := by
  induction l generalizing i with
  | nil => exact List.nodup_nil
  | cons b l ih =>
    refine List.nodup_cons.2 ⟨fun hb => ?_, ih h.2.2⟩
    -- The chain after `b` would be one after a later `b` as well.
    obtain ⟨l₁, l₂, rfl⟩ := List.append_of_mem hb
    have hlen := congrArg List.length (h.2.2.unique (h.2.2.suffix))
    simp at hlen
    omega

end IsChain

/-! ## Cursors -/

variable {s : FileSystem} {c : Cursor} {e : DirectoryEntry}

theorem Cursor.advance_remaining (hn : n ≤ c.remaining.toNat) :
    (c.advance n).remaining.toNat = c.remaining.toNat - n := by
  have hlt := c.remaining.toNat_lt
  have hofNat : (UInt16.ofNat n).toNat = n :=
    UInt16.toNat_ofNat_of_lt' (by simp only [UInt16.size]; omega)
  have hle : UInt16.ofNat n ≤ c.remaining := by
    rw [UInt16.le_iff_toNat_le, hofNat]
    exact hn
  rw [advance, UInt16.toNat_sub_of_le _ _ hle, hofNat]

/-- `n` bytes from `p` on. -/
def bytesAt (m : Memory) (p n : ℕ) : List UInt8 := (List.range n).map fun k => m (p + k)

@[simp] theorem length_bytesAt (m : Memory) : (bytesAt m p n).length = n := by simp [bytesAt]

theorem bytesAt_add (m : Memory) (p n k : ℕ) :
    bytesAt m p (n + k) = bytesAt m p n ++ bytesAt m (p + n) k := by
  simp only [bytesAt, List.range_add, List.map_append, List.map_map]
  congr 1
  exact List.map_congr_left fun j _ => by simp only [Function.comp, Nat.add_assoc]

/-- The bytes of a list that is stored. -/
theorem bytesAt_eq {m : Memory} {name : List UInt8}
    (h : ∀ k < name.length, m (p + k) = name.getD k 0) : bytesAt m p name.length = name := by
  refine List.ext_getElem (by simp) fun k hk hk' => ?_
  rw [← List.getD_eq_getElem _ 0 hk', ← h k hk']
  simp [bytesAt]

namespace FileSystem

variable (s) in
/-- The bytes of the blocks `l`. -/
def content (l : List ℕ) : Memory := Memory.stream s.blockSize l s.disk

/-- The blocks `l` of the file are a chain. -/
structure Chained (s : FileSystem) (i : UInt16) (l : List ℕ) : Prop where
  isChain : IsChain s.fat i l
  inFile : ∀ b ∈ l, b * s.blockSize + s.blockSize ≤ s.length

/-- The cursor `c` is at the byte `p` of the blocks `l`. -/
def At (s : FileSystem) (l : List ℕ) (p : ℕ) (c : Cursor) : Prop :=
  ∃ l₁ b l₂ j, l = l₁ ++ b :: l₂ ∧ s.Chained c.fatCurIndex (b :: l₂) ∧ j ≤ s.blockSize ∧
    p = l₁.length * s.blockSize + j ∧ c.remaining.toNat = s.blockSize - j ∧
    c.offset = b * s.blockSize + j

theorem Chained.at_seekBlock (h : s.Chained i l) (hl : l ≠ []) : s.At l 0 (s.seekBlock i) := by
  obtain ⟨b, l, rfl⟩ := List.exists_cons_of_ne_nil hl
  refine ⟨[], b, l, 0, rfl, h, Nat.zero_le _, ?_, rfl, ?_⟩
  · rw [List.length_nil, Nat.zero_mul]
  · rw [← h.isChain.1]
    rfl

theorem blockAddr_middle {j bs : ℕ} (hj : j < bs) :
    Memory.blockAddr bs (l₁ ++ b :: l₂) (l₁.length * bs + j) = b * bs + j := by
  rw [Memory.blockAddr_mul_add hj]
  simp

namespace At

theorem advance (h : s.At l p c) (hn : n ≤ c.remaining.toNat) : s.At l (p + n) (c.advance n) := by
  obtain ⟨l₁, b, l₂, j, rfl, hch, hj, rfl, hrem, hoff⟩ := h
  refine ⟨l₁, b, l₂, j + n, rfl, hch, by omega, by omega, ?_, ?_⟩
  · rw [Cursor.advance_remaining hn]
    omega
  · show c.offset + n = _
    omega

/-- The offset in the file. -/
theorem offset_eq (h : s.At l p c) (hrem : 0 < c.remaining.toNat) :
    c.offset = Memory.blockAddr s.blockSize l p := by
  obtain ⟨l₁, b, l₂, j, rfl, -, hj, rfl, hr, hoff⟩ := h
  rw [blockAddr_middle (by omega), hoff]

theorem remaining_eq (h : s.At l p c) (hrem : 0 < c.remaining.toNat) :
    c.remaining.toNat = s.blockSize - p % s.blockSize := by
  obtain ⟨l₁, b, l₂, j, rfl, -, hj, rfl, hr, hoff⟩ := h
  have hmod : (l₁.length * s.blockSize + j) % s.blockSize = j := by
    rw [Nat.mul_comm, Nat.mul_add_mod, Nat.mod_eq_of_lt (by omega)]
  rw [hmod, hr]

theorem disk_offset {k : ℕ} (h : s.At l p c) (hk : k < c.remaining.toNat) :
    s.disk (c.offset + k) = s.content l (p + k) := by
  obtain ⟨l₁, b, l₂, j, rfl, -, hj, rfl, hr, hoff⟩ := h
  rw [content, Memory.stream, Nat.add_assoc, blockAddr_middle (by omega), hoff, Nat.add_assoc]

theorem offset_add_le (h : s.At l p c) : c.offset + c.remaining.toNat ≤ s.length := by
  obtain ⟨l₁, b, l₂, j, rfl, hch, hj, rfl, hr, hoff⟩ := h
  have hb := hch.inFile b List.mem_cons_self
  omega

theorem add_remaining_le (h : s.At l p c) : p + c.remaining.toNat ≤ l.length * s.blockSize := by
  obtain ⟨l₁, b, l₂, j, rfl, -, hj, rfl, hr, -⟩ := h
  have hle := Nat.mul_le_mul_right s.blockSize (Nat.le_add_right (l₁.length + 1) l₂.length)
  rw [Nat.succ_mul] at hle
  rw [List.length_append, List.length_cons, Nat.add_comm l₂.length, ← Nat.add_assoc]
  omega

theorem read (h : s.At l p c) (hn : n ≤ c.remaining.toNat) :
    s.read c.offset n = .ok (bytesAt (s.content l) p n) := by
  have hle := h.offset_add_le
  rw [FileSystem.read, if_pos (.inr (by omega)), bytesAt]
  congr 1
  refine List.map_congr_left fun k hk => ?_
  have hk : k < n := List.mem_range.1 hk
  exact h.disk_offset (by omega)

theorem readEntry (h : s.At l p c) (hrem : DirectoryEntry.sizeof ≤ c.remaining.toNat)
    (he : ∀ k < DirectoryEntry.sizeof, s.content l (p + k) = e.bytes k) :
    s.readEntry c.offset = .ok e := by
  have hle := h.offset_add_le
  rw [FileSystem.readEntry, if_pos (by omega), DirectoryEntry.load_of_bytes fun k hk => ?_]
  rw [h.disk_offset (by omega), he k hk]

/-- The next block. -/
theorem next (h : s.At l p c) (hl : p + c.remaining.toNat < l.length * s.blockSize) :
    ∃ i, s.next c.fatCurIndex = .ok i ∧ i ≠ fatEntryEnd ∧
      s.At l (p + c.remaining.toNat) (s.seekBlock i) := by
  obtain ⟨l₁, b, l₂, j, rfl, hch, hj, rfl, hrem, hoff⟩ := h
  obtain ⟨hi, hb, hl₂⟩ := hch.isChain
  cases l₂ with
  | nil =>
    simp only [List.length_append, List.length_cons, List.length_nil, Nat.succ_mul] at hl
    omega
  | cons b' l₂ =>
    have hch' : s.Chained (s.fat b) (b' :: l₂) :=
      ⟨hl₂, fun d hd => hch.inFile d (List.mem_cons_of_mem _ hd)⟩
    refine ⟨s.fat b, ?_, ?_, ?_⟩
    · rw [FileSystem.next, hi, if_pos hb]
    · exact fun hend => List.cons_ne_nil b' l₂ (hl₂.eq_end_iff.1 hend)
    · refine ⟨l₁ ++ [b], b', l₂, 0, by simp, hch', Nat.zero_le _, ?_, rfl, ?_⟩
      · simp only [List.length_append, List.length_cons, List.length_nil, Nat.succ_mul]
        omega
      · show (s.fat b).toNat * s.blockSize = _
        rw [hl₂.1, Nat.add_zero]

/-- The end of the chain. -/
theorem next_eq_end (h : s.At l p c) (hl : l.length * s.blockSize ≤ p + c.remaining.toNat)
    (hbs : 0 < s.blockSize) : s.next c.fatCurIndex = .ok fatEntryEnd := by
  obtain ⟨l₁, b, l₂, j, rfl, hch, hj, rfl, hrem, hoff⟩ := h
  obtain ⟨hi, hb, hl₂⟩ := hch.isChain
  cases l₂ with
  | nil => rw [FileSystem.next, hi, if_pos hb, show s.fat b = fatEntryEnd from hl₂]
  | cons b' l₂ =>
    simp only [List.length_append, List.length_cons, Nat.succ_mul, Nat.add_mul] at hl
    omega

/-- Names, whichever blocks they continue in. -/
theorem readFileName (h : s.At l p c) (hn : p + n ≤ l.length * s.blockSize) :
    ∃ c', Settles (fun fuel => s.readFileName fuel n c) (.ok (bytesAt (s.content l) p n, c')) ∧
      s.At l (p + n) c' := by
  -- The bytes left to read decrease, unless the block is at its end.
  generalize hm : 2 * n + (if c.remaining.toNat = 0 then 1 else 0) = m
  induction m using Nat.strong_induction_on generalizing n p c with
  | _ m ih =>
    rcases Nat.eq_zero_or_pos n with rfl | hpos
    · exact ⟨c, (Settles.const _).succ fun fuel => by rw [FileSystem.readFileName, if_pos rfl]; rfl, h⟩
    rcases Nat.lt_or_ge c.remaining.toNat n with hlt | hle
    · obtain ⟨i, hi, -, hnext⟩ := h.next (by omega)
      have hbs : 0 < s.blockSize := Nat.pos_of_ne_zero fun h0 => by
        rw [h0] at hn
        omega
      have hrem : (s.seekBlock i).remaining.toNat = s.blockSize := rfl
      have hless : 2 * (n - c.remaining.toNat) +
          (if (s.seekBlock i).remaining.toNat = 0 then 1 else 0) < m := by
        rw [hrem, if_neg (by omega)]
        split_ifs at hm <;> omega
      obtain ⟨c', hset, hat⟩ := ih _ hless hnext (by omega) rfl
      have hcat : bytesAt (s.content l) p n = bytesAt (s.content l) p c.remaining.toNat ++
          bytesAt (s.content l) (p + c.remaining.toNat) (n - c.remaining.toNat) := by
        rw [← bytesAt_add, Nat.add_sub_cancel' hlt.le]
      have hrest := hset.bind (g := fun _ r =>
        .ok (bytesAt (s.content l) p c.remaining.toNat ++ r.1, r.2)) (Settles.const _)
      refine ⟨c', ?_, ?_⟩
      · rw [hcat]
        refine hrest.succ fun fuel => ?_
        rw [FileSystem.readFileName, if_neg (by omega), if_neg (by omega), h.read le_rfl, hi]
        rfl
      · rw [Nat.add_assoc, Nat.add_sub_cancel' hlt.le] at hat
        exact hat
    · refine ⟨c.advance n, (Settles.const _).succ fun fuel => ?_, h.advance hle⟩
      rw [FileSystem.readFileName, if_neg (by omega), if_pos hle, h.read hle]
      rfl

end At

end FileSystem

end GtuOs.FatFileSystem

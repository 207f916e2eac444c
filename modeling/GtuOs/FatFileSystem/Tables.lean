import GtuOs.FatFileSystem.Chains

/-!
# The format of a directory table

A table is a list of records, entries with their names, laid out along a chain of blocks
(`Laid`): a header is not split over two blocks, as the tail of a block that is shorter is
skipped (`slot`), while a name may continue in the next block. The last record is flagged
(`LastFlagged`).

A cursor comes to the header of the next record by skipping at most once (`At.toSlot`), and
after it to the end of the record (`At.readRecord`).
-/

namespace GtuOs.FatFileSystem

variable {bs limit n p q : ℕ} {m m' : Memory} {l : List ℕ}

theorem DirectoryEntry.nameSize_eq {e : DirectoryEntry} (h : e.entrySize.toNat = sizeof + n) :
    e.nameSize = n := by
  have hle : (32 : UInt32) ≤ e.entrySize := by
    rw [UInt32.le_iff_toNat_le, h]
    exact Nat.le_add_right 32 _
  rw [nameSize, UInt32.toNat_sub_of_le _ _ hle, h]
  exact Nat.add_sub_cancel_left 32 _

/-- An entry of a table with the bytes of its name. -/
structure Record where
  entry : DirectoryEntry
  name : List UInt8
  entrySize_eq : entry.entrySize.toNat = DirectoryEntry.sizeof + name.length
  /-- A string ends within its array. -/
  terminated : entry.isActiveEntry ≠ 0 → 0 ∈ name

namespace Record

variable (r : Record)

/-- The number of bytes. -/
def size : ℕ := DirectoryEntry.sizeof + r.name.length

/-- The bytes. -/
def bytes (k : ℕ) : UInt8 :=
  if k < DirectoryEntry.sizeof then r.entry.bytes k else r.name.getD (k - DirectoryEntry.sizeof) 0

/-- The name as a string. -/
def string : List UInt8 := r.name.takeWhile (· ≠ 0)

/-- The record is active. -/
def Active : Prop := r.entry.isActiveEntry ≠ 0

instance : Decidable r.Active := inferInstanceAs (Decidable (_ ≠ _))

/-- An active record with this name. -/
def IsFor (fileName : CString) : Prop := r.Active ∧ r.string = fileName.chars

instance (fileName : CString) : Decidable (r.IsFor fileName) := inferInstanceAs (Decidable (_ ∧ _))

/-- The record is flagged as the last one. -/
def Last : Prop := r.entry.isLastEntry ≠ 0

instance : Decidable r.Last := inferInstanceAs (Decidable (_ ≠ _))

/-- The record without its flag. -/
def unflag : Record := { r with entry := { r.entry with isLastEntry := 0 } }

theorem nameSize_eq : r.entry.nameSize = r.name.length := DirectoryEntry.nameSize_eq r.entrySize_eq

theorem bytes_header {k : ℕ} (hk : k < DirectoryEntry.sizeof) : r.bytes k = r.entry.bytes k :=
  if_pos hk

theorem bytes_name (k : ℕ) : r.bytes (DirectoryEntry.sizeof + k) = r.name.getD k 0 := by
  rw [bytes, if_neg (by omega), Nat.add_sub_cancel_left]

end Record

variable {r : Record} {rs rs' : List Record}

/-- Where the next header goes: the tail of a block that is shorter is skipped. -/
def slot (bs p : ℕ) : ℕ := if p % bs + DirectoryEntry.sizeof ≤ bs then p else (p / bs + 1) * bs

/-- The records, with the places of their headers. -/
def placed (bs : ℕ) : ℕ → List Record → List (ℕ × Record)
  | _, [] => []
  | p, r :: rs => (slot bs p, r) :: placed bs (slot bs p + r.size) rs

/-- The end of the records. -/
def endOf (bs : ℕ) : ℕ → List Record → ℕ
  | p, [] => p
  | p, r :: rs => endOf bs (slot bs p + r.size) rs

/-- The records are laid out from `p` on, up to `limit` at most. -/
def Laid (bs limit : ℕ) (m : Memory) : ℕ → List Record → Prop
  | _, [] => True
  | p, r :: rs => (∀ k < r.size, m (slot bs p + k) = r.bytes k) ∧ slot bs p + r.size ≤ limit ∧
      Laid bs limit m (slot bs p + r.size) rs

/-- Exactly the last record is flagged as such. -/
def LastFlagged : List Record → Prop
  | [] => False
  | r :: rs => r.Last ∧ rs = [] ∨ ¬r.Last ∧ LastFlagged rs

section

variable {r' : Record} {e : DirectoryEntry}

theorem le_slot (hbs : 0 < bs) (p : ℕ) : p ≤ slot bs p := by
  rw [slot]
  split_ifs
  · exact le_rfl
  · have hp := Nat.div_add_mod' p bs
    have hmod := Nat.mod_lt p hbs
    rw [Nat.succ_mul]
    omega

/-- A header is not split. -/
theorem slot_mod (hbs : DirectoryEntry.sizeof ≤ bs) (p : ℕ) :
    slot bs p % bs + DirectoryEntry.sizeof ≤ bs := by
  rw [slot]
  split_ifs with h
  · exact h
  · rw [Nat.mul_mod_left]
    omega

theorem le_endOf (hbs : 0 < bs) (p : ℕ) (rs : List Record) : p ≤ endOf bs p rs := by
  induction rs generalizing p with
  | nil => exact le_rfl
  | cons r rs ih =>
    have hp := le_slot hbs p
    have hrs := ih (slot bs p + r.size)
    rw [endOf]
    omega

theorem endOf_append (p : ℕ) (rs rs' : List Record) :
    endOf bs p (rs ++ rs') = endOf bs (endOf bs p rs) rs' := by
  induction rs generalizing p with
  | nil => rfl
  | cons r rs ih => exact ih _

namespace Laid

/-- The layout depends on the bytes of the records only. -/
theorem congr (h : Laid bs limit m p rs) (hbs : 0 < bs)
    (hm : ∀ q, p ≤ q → q < endOf bs p rs → m' q = m q) : Laid bs limit m' p rs := by
  induction rs generalizing p with
  | nil => trivial
  | cons r rs ih =>
    obtain ⟨hr, hle, hrs⟩ := h
    have hp := le_slot hbs p
    have hend := le_endOf hbs (slot bs p + r.size) rs
    refine ⟨fun k hk => ?_, hle, ih hrs fun q hq hlt => hm q (by omega) hlt⟩
    rw [hm (slot bs p + k) (by omega) (by rw [endOf]; omega), hr k hk]

theorem endOf_le (h : Laid bs limit m p rs) (hp : p ≤ limit) : endOf bs p rs ≤ limit := by
  induction rs generalizing p with
  | nil => exact hp
  | cons r rs ih => exact ih h.2.2 h.2.1

theorem append_iff : Laid bs limit m p (rs ++ rs') ↔
    Laid bs limit m p rs ∧ Laid bs limit m (endOf bs p rs) rs' := by
  induction rs generalizing p with
  | nil => exact ⟨fun h => ⟨trivial, h⟩, fun h => h.2⟩
  | cons r rs ih =>
    rw [List.cons_append, Laid, Laid, endOf, ih]
    tauto

/-- Writing the header of a record again. -/
theorem writeHeader (h : Laid bs limit m p (rs ++ r :: rs')) (hbs : 0 < bs) (hr : r'.name = r.name) :
    Laid bs limit (m.store (slot bs (endOf bs p rs)) DirectoryEntry.sizeof r'.entry.bytes) p
      (rs ++ r' :: rs') := by
  obtain ⟨hrs, hbytes, hle, hrs'⟩ := append_iff.1 h
  have hsize : r'.size = r.size := by rw [Record.size, Record.size, hr]
  have hsizeof : DirectoryEntry.sizeof ≤ r.size := Nat.le_add_right ..
  have hslot := le_slot hbs (endOf bs p rs)
  refine append_iff.2 ⟨hrs.congr hbs fun q _ hq => Memory.store_of_not_mem (by omega), fun k hk => ?_,
    hsize ▸ hle, ?_⟩
  · rcases Nat.lt_or_ge k DirectoryEntry.sizeof with hlt | hge
    · rw [Memory.store_add hlt, r'.bytes_header hlt]
    · obtain ⟨k, rfl⟩ := Nat.exists_eq_add_of_le hge
      rw [Memory.store_of_not_mem (by omega), hbytes _ (by omega), r.bytes_name, r'.bytes_name, hr]
  · rw [hsize]
    exact hrs'.congr hbs fun q hq _ => Memory.store_of_not_mem (by omega)

/-- Writing a record after the others. -/
theorem writeRecord (h : Laid bs limit m p rs) (hbs : 0 < bs)
    (hle : slot bs (endOf bs p rs) + r.size ≤ limit) :
    Laid bs limit (m.store (slot bs (endOf bs p rs)) r.size r.bytes) p (rs ++ [r]) := by
  have hslot := le_slot hbs (endOf bs p rs)
  refine append_iff.2 ⟨h.congr hbs fun q _ hq => Memory.store_of_not_mem (by omega), fun k hk => ?_,
    hle, trivial⟩
  exact Memory.store_add hk

end Laid

theorem lastFlagged_concat : LastFlagged (rs ++ [r]) ↔ (∀ x ∈ rs, ¬x.Last) ∧ r.Last := by
  induction rs with
  | nil => simp [LastFlagged]
  | cons x rs ih => simp [LastFlagged, ih, and_assoc]

theorem LastFlagged.exists_concat (h : LastFlagged rs) :
    ∃ rs' r, rs = rs' ++ [r] ∧ (∀ x ∈ rs', ¬x.Last) ∧ r.Last := by
  rcases List.eq_nil_or_concat rs with rfl | ⟨rs', r, rfl⟩
  · exact h.elim
  · rw [List.concat_eq_append] at h ⊢
    exact ⟨rs', r, rfl, lastFlagged_concat.1 h⟩

/-- Flags do not depend on the rest of a record. -/
theorem LastFlagged.replace (h : LastFlagged (rs ++ r :: rs')) (hr : r'.Last ↔ r.Last) :
    LastFlagged (rs ++ r' :: rs') := by
  induction rs with
  | nil => simpa only [List.nil_append, LastFlagged, hr] using h
  | cons x rs ih =>
    refine h.imp (fun h => ?_) fun h => ⟨h.1, ih h.2⟩
    exact absurd h.2 (by simp)

/-- A record is read off from its bytes. -/
theorem Record.eq_of_bytes (h : ∀ k < r.size, m (p + k) = r.bytes k) (h' : ∀ k < r'.size, m (p + k) = r'.bytes k) :
    r = r' := by
  have hload : ∀ r : Record, (∀ k < r.size, m (p + k) = r.bytes k) → DirectoryEntry.load m p = r.entry :=
    fun r h => DirectoryEntry.load_of_bytes fun k hk => by
      rw [h k (Nat.lt_add_right _ hk), r.bytes_header hk]
  have hentry : r.entry = r'.entry := (hload r h).symm.trans (hload r' h')
  have hlen : r.name.length = r'.name.length := by
    have hsize := r.entrySize_eq
    rw [hentry, r'.entrySize_eq] at hsize
    exact (Nat.add_left_cancel hsize).symm
  have hname : r.name = r'.name := by
    refine List.ext_getElem hlen fun k hk hk' => ?_
    have hbyte := h (DirectoryEntry.sizeof + k) (Nat.add_lt_add_left hk _)
    rw [h' _ (Nat.add_lt_add_left hk' _), r.bytes_name, r'.bytes_name, List.getD_eq_getElem _ _ hk,
      List.getD_eq_getElem _ _ hk'] at hbyte
    exact hbyte.symm
  obtain ⟨entry, name, h₁, h₂⟩ := r
  obtain ⟨entry', name', h₁', h₂'⟩ := r'
  obtain rfl : entry = entry' := hentry
  obtain rfl : name = name' := hname
  rfl

/-- The records are read off from the memory. -/
theorem Laid.unique (h : Laid bs limit m p rs) (h' : Laid bs limit m p rs') (hlast : LastFlagged rs)
    (hlast' : LastFlagged rs') : rs = rs' := by
  induction rs generalizing p rs' with
  | nil => exact hlast.elim
  | cons r rs ih =>
    cases rs' with
    | nil => exact hlast'.elim
    | cons r' rs' =>
      obtain rfl : r = r' := Record.eq_of_bytes h.1 h'.1
      rcases hlast with ⟨hr, rfl⟩ | ⟨hr, hlast⟩
      · rcases hlast' with ⟨-, rfl⟩ | ⟨hr', -⟩
        · rfl
        · exact absurd hr hr'
      · rcases hlast' with ⟨hr', -⟩ | ⟨-, hlast'⟩
        · exact absurd hr' hr
        · rw [ih h.2.2 h'.2.2 hlast hlast']

end

/-- The records `rs` are laid out along the chain `l` that starts with the block `i`. -/
structure FileSystem.Layout (s : FileSystem) (i : UInt16) (l : List ℕ) (rs : List Record) : Prop where
  header_le : DirectoryEntry.sizeof ≤ s.blockSize
  chained : s.Chained i l
  laid : Laid s.blockSize (l.length * s.blockSize) (s.content l) 0 rs

/-- The directory whose first block is `i` has the chain `l` and the records `rs`. -/
structure FileSystem.Table (s : FileSystem) (i : UInt16) (l : List ℕ) (rs : List Record) : Prop
    extends s.Layout i l rs where
  lastFlagged : LastFlagged rs

namespace FileSystem

variable {s : FileSystem} {c : Cursor}

theorem Table.ne_nil {i : UInt16} (h : s.Table i l rs) : l ≠ [] := by
  rintro rfl
  cases rs with
  | nil => exact h.lastFlagged
  | cons r rs =>
    have hle := h.laid.2.1
    have hpos : 0 < r.size := lt_of_lt_of_le (by decide) (Nat.le_add_right DirectoryEntry.sizeof _)
    simp only [List.length_nil, Nat.zero_mul] at hle
    omega

/-- A directory has one table. -/
theorem Table.unique {i : UInt16} {l' : List ℕ} (h : s.Table i l rs) (h' : s.Table i l' rs') :
    l = l' ∧ rs = rs' := by
  obtain rfl := h.chained.isChain.unique h'.chained.isChain
  exact ⟨rfl, h.laid.unique h'.laid h.lastFlagged h'.lastFlagged⟩

/-! ## Cursors -/

namespace At

/-- Where a header fits, it goes. -/
theorem slot_eq (h : s.At l p c) (hrem : DirectoryEntry.sizeof ≤ c.remaining.toNat) :
    slot s.blockSize p = p := by
  obtain ⟨l₁, b, l₂, j, rfl, -, hj, rfl, hr, hoff⟩ := h
  have hmod : (l₁.length * s.blockSize + j) % s.blockSize = j := by
    rw [Nat.mul_comm, Nat.mul_add_mod, Nat.mod_eq_of_lt]
    simp only [DirectoryEntry.sizeof] at hrem
    omega
  rw [slot, hmod, if_pos (by omega)]

/-- Elsewhere it goes to the next block. -/
theorem slot_eq_add (h : s.At l p c) (hbs : DirectoryEntry.sizeof ≤ s.blockSize)
    (hrem : c.remaining.toNat < DirectoryEntry.sizeof) :
    slot s.blockSize p = p + c.remaining.toNat := by
  obtain ⟨l₁, b, l₂, j, rfl, -, hj, rfl, hr, hoff⟩ := h
  have hadd : l₁.length * s.blockSize + j + c.remaining.toNat = (l₁.length + 1) * s.blockSize := by
    rw [Nat.succ_mul]
    omega
  rw [hadd]
  rcases Nat.eq_or_lt_of_le hj with rfl | hj
  · rw [← Nat.succ_mul, slot, Nat.mul_mod_left, if_pos (by omega)]
  · have hdiv : (l₁.length * s.blockSize + j) / s.blockSize = l₁.length := by
      rw [Nat.mul_comm, Nat.mul_add_div (by omega), Nat.div_eq_of_lt hj, Nat.add_zero]
    have hmod : (l₁.length * s.blockSize + j) % s.blockSize = j := by
      rw [Nat.mul_comm, Nat.mul_add_mod, Nat.mod_eq_of_lt hj]
    rw [slot, hmod, hdiv, if_neg (by omega)]

/-- A cursor is at the place of the next header, or in the block before. -/
theorem toSlot (h : s.At l p c) (hbs : DirectoryEntry.sizeof ≤ s.blockSize)
    (hlt : slot s.blockSize p < l.length * s.blockSize) :
    (DirectoryEntry.sizeof ≤ c.remaining.toNat ∧ s.At l (slot s.blockSize p) c) ∨
      c.remaining.toNat < DirectoryEntry.sizeof ∧ ∃ i, s.next c.fatCurIndex = .ok i ∧
        i ≠ fatEntryEnd ∧ s.At l (slot s.blockSize p) (s.seekBlock i) := by
  rcases Nat.lt_or_ge c.remaining.toNat DirectoryEntry.sizeof with hrem | hrem
  · rw [h.slot_eq_add hbs hrem] at hlt ⊢
    exact .inr ⟨hrem, h.next hlt⟩
  · rw [h.slot_eq hrem]
    exact .inl ⟨hrem, h⟩

/-- Reading a record. -/
theorem readRecord (h : s.At l q c) (hrem : DirectoryEntry.sizeof ≤ c.remaining.toNat)
    (hr : ∀ k < r.size, s.content l (q + k) = r.bytes k)
    (hle : q + r.size ≤ l.length * s.blockSize) :
    s.readEntry c.offset = .ok r.entry ∧ ∃ c',
      Settles (fun fuel => s.readFileName fuel r.entry.nameSize (c.advance DirectoryEntry.sizeof))
        (.ok (r.name, c')) ∧ s.At l (q + r.size) c' := by
  have hsize : r.size = DirectoryEntry.sizeof + r.name.length := rfl
  refine ⟨h.readEntry hrem fun k hk => ?_, ?_⟩
  · rw [hr k (by omega), r.bytes_header hk]
  · obtain ⟨c', hset, hat⟩ := (h.advance hrem).readFileName (n := r.name.length) (by omega)
    have hname : bytesAt (s.content l) (q + DirectoryEntry.sizeof) r.name.length = r.name := by
      refine bytesAt_eq fun k hk => ?_
      rw [Nat.add_assoc, hr _ (by omega), r.bytes_name]
    rw [hname] at hset
    rw [Nat.add_assoc, ← hsize] at hat
    rw [r.nameSize_eq]
    exact ⟨c', hset, hat⟩

/-- The rule of the loops over a table. What holds of a cursor if it holds after skipping
    the tail of a block, and if it holds after the record at the cursor, holds of a cursor
    at any place between two records. -/
theorem walk {P : ℕ → List Record → Cursor → Prop}
    (skip : ∀ p rs c i, c.remaining.toNat < DirectoryEntry.sizeof → s.next c.fatCurIndex = .ok i →
      i ≠ fatEntryEnd → P p rs (s.seekBlock i) → P p rs c)
    (record : ∀ p r rs c, s.At l (slot s.blockSize p) c → DirectoryEntry.sizeof ≤ c.remaining.toNat →
      Laid s.blockSize (l.length * s.blockSize) (s.content l) p (r :: rs) → LastFlagged (r :: rs) →
      (LastFlagged rs → ∀ c', s.At l (slot s.blockSize p + r.size) c' →
        P (slot s.blockSize p + r.size) rs c') → P p (r :: rs) c)
    (h : s.At l p c) (hbs : DirectoryEntry.sizeof ≤ s.blockSize)
    (hl : Laid s.blockSize (l.length * s.blockSize) (s.content l) p rs) (hlast : LastFlagged rs) :
    P p rs c := by
  induction rs generalizing p c with
  | nil => exact hlast.elim
  | cons r rs ih =>
    have hpos : 0 < r.size := lt_of_lt_of_le (by decide) (Nat.le_add_right DirectoryEntry.sizeof _)
    have hlt : slot s.blockSize p < l.length * s.blockSize := by
      have hle := hl.2.1
      omega
    have hrest : LastFlagged rs → ∀ c', s.At l (slot s.blockSize p + r.size) c' →
        P (slot s.blockSize p + r.size) rs c' := fun hlast c' hat => ih hat hl.2.2 hlast
    rcases h.toSlot hbs hlt with ⟨hrem, hat⟩ | ⟨hrem, i, hi, hend, hat⟩
    · exact record p r rs c hat hrem hl hlast hrest
    · exact skip p (r :: rs) c i hrem hi hend (record p r rs _ hat hbs hl hlast hrest)

end At

end FileSystem

end GtuOs.FatFileSystem

import GtuOs.Lib.Links
import GtuOs.MemoryManagement.MemoryManager

/-!
# Chunks in memory

The headers of chunks that are apart (`Apart`) do not interfere, so that assigning
a field of one of them changes this field only. `Tiles size a l b` says that the
chunks at the addresses `l`, in order, fill the region from `a` to `b`: each starts
where the previous one ends.
-/

namespace GtuOs

/-- The headers at `a` and `b` do not overlap. -/
def Apart (a b : UInt32) : Prop := a.toNat + 16 ≤ b.toNat ∨ b.toNat + 16 ≤ a.toNat

theorem Apart.symm {a b : UInt32} (h : Apart a b) : Apart b a := Or.symm h

namespace MemoryChunk

variable {m m' : Memory} {a b v : UInt32} {x : ℕ}

/-- A header is read from its bytes. -/
theorem load_congr (h : ∀ k < 16, m' (a.toNat + k) = m (a.toNat + k)) : load m' a = load m a := by
  have hw : ∀ d, d + 4 ≤ 16 → m'.load32 (a.toNat + d) = m.load32 (a.toNat + d) := fun d hd =>
    Memory.load32_congr fun k hk => by
      rw [Nat.add_assoc]
      exact h (d + k) (by omega)
  have h0 : m'.load32 a.toNat = m.load32 a.toNat := hw 0 (by decide)
  simp only [load, h0, hw 4 (by decide), hw 12 (by decide), h 8 (by decide)]

theorem load_setNext : load (setNext m a v) a = { load m a with next := v } := by
  have hw : ∀ d, 4 ≤ d → (m.store32 a.toNat v).load32 (a.toNat + d) = m.load32 (a.toNat + d) :=
    fun d hd => Memory.load32_store32_of_disjoint (by omega)
  have hb : m.store32 a.toNat v (a.toNat + 8) = m (a.toNat + 8) :=
    Memory.store32_of_not_mem (by omega)
  simp [load, setNext, hw, hb]

theorem load_setPrev : load (setPrev m a v) a = { load m a with prev := v } := by
  have hw : ∀ d, 8 ≤ d → (m.store32 (a.toNat + 4) v).load32 (a.toNat + d) = m.load32 (a.toNat + d) :=
    fun d hd => Memory.load32_store32_of_disjoint (by omega)
  have h0 : (m.store32 (a.toNat + 4) v).load32 a.toNat = m.load32 a.toNat :=
    Memory.load32_store32_of_disjoint (by omega)
  have hb : m.store32 (a.toNat + 4) v (a.toNat + 8) = m (a.toNat + 8) :=
    Memory.store32_of_not_mem (by omega)
  simp [load, setPrev, hw, h0, hb]

theorem load_setSize : load (setSize m a v) a = { load m a with size := v } := by
  have hw : ∀ d, d + 4 ≤ 12 → (m.store32 (a.toNat + 12) v).load32 (a.toNat + d) = m.load32 (a.toNat + d) :=
    fun d hd => Memory.load32_store32_of_disjoint (by omega)
  have h0 : (m.store32 (a.toNat + 12) v).load32 a.toNat = m.load32 a.toNat := hw 0 (by decide)
  have hb : m.store32 (a.toNat + 12) v (a.toNat + 8) = m (a.toNat + 8) :=
    Memory.store32_of_not_mem (by omega)
  simp [load, setSize, hw, h0, hb]

theorem load_setAllocated {b : Bool} :
    load (setAllocated m a b) a = { load m a with allocated := b } := by
  have hw : ∀ d, d + 4 ≤ 8 ∨ 9 ≤ d → (setAllocated m a b).load32 (a.toNat + d) =
      m.load32 (a.toNat + d) := fun d hd =>
    Memory.load32_congr fun k hk => Memory.store_of_not_mem (by omega)
  have h0 : (setAllocated m a b).load32 a.toNat = m.load32 a.toNat := hw 0 (by decide)
  have hb : setAllocated m a b (a.toNat + 8) = if b then 1 else 0 :=
    Memory.store_of_mem ⟨Nat.le_refl _, by omega⟩
  simp only [load, hw 4 (by decide), hw 12 (by decide), h0, hb]
  cases b <;> rfl

theorem setNext_of_not_mem (h : x < a.toNat ∨ a.toNat + 16 ≤ x) : setNext m a v x = m x :=
  Memory.store32_of_not_mem (by omega)

theorem setPrev_of_not_mem (h : x < a.toNat ∨ a.toNat + 16 ≤ x) : setPrev m a v x = m x :=
  Memory.store32_of_not_mem (by omega)

theorem setSize_of_not_mem (h : x < a.toNat ∨ a.toNat + 16 ≤ x) : setSize m a v x = m x :=
  Memory.store32_of_not_mem (by omega)

theorem setAllocated_of_not_mem {b : Bool} (h : x < a.toNat ∨ a.toNat + 16 ≤ x) :
    setAllocated m a b x = m x := Memory.store_of_not_mem (by omega)

end MemoryChunk

namespace MemoryManager

variable {s : MemoryManager} {a b v : UInt32}

@[simp] theorem chunk_computes {w : Bool} : (s.computes w).chunk a = s.chunk a := rfl

@[simp] theorem chunk_setNext : (s.setNext a v).chunk a = { s.chunk a with next := v } :=
  MemoryChunk.load_setNext

@[simp] theorem chunk_setPrev : (s.setPrev a v).chunk a = { s.chunk a with prev := v } :=
  MemoryChunk.load_setPrev

@[simp] theorem chunk_setSize : (s.setSize a v).chunk a = { s.chunk a with size := v } :=
  MemoryChunk.load_setSize

@[simp] theorem chunk_setAllocated {b : Bool} :
    (s.setAllocated a b).chunk a = { s.chunk a with allocated := b } :=
  MemoryChunk.load_setAllocated

theorem chunk_setNext_of_apart (h : Apart a b) : (s.setNext b v).chunk a = s.chunk a :=
  MemoryChunk.load_congr fun k hk => MemoryChunk.setNext_of_not_mem (by rcases h with h | h <;> omega)

theorem chunk_setPrev_of_apart (h : Apart a b) : (s.setPrev b v).chunk a = s.chunk a :=
  MemoryChunk.load_congr fun k hk => MemoryChunk.setPrev_of_not_mem (by rcases h with h | h <;> omega)

theorem chunk_setSize_of_apart (h : Apart a b) : (s.setSize b v).chunk a = s.chunk a :=
  MemoryChunk.load_congr fun k hk => MemoryChunk.setSize_of_not_mem (by rcases h with h | h <;> omega)

theorem chunk_setAllocated_of_apart {c : Bool} (h : Apart a b) :
    (s.setAllocated b c).chunk a = s.chunk a :=
  MemoryChunk.load_congr fun k hk =>
    MemoryChunk.setAllocated_of_not_mem (by rcases h with h | h <;> omega)

end MemoryManager

/-! ## Words that do not wrap -/

section wrap

variable {x y : UInt32}

theorem MemoryChunk.toNat_sizeof : MemoryChunk.sizeof.toNat = 16 := rfl

theorem carry_eq_false : carry x y = false ↔ x.toNat + y.toNat < 2 ^ 32 := by
  rw [carry, decide_eq_false_iff_not, Nat.not_le]

theorem borrow_eq_false : borrow x y = false ↔ y.toNat ≤ x.toNat := by
  rw [borrow, decide_eq_false_iff_not, UInt32.not_lt, UInt32.le_iff_toNat_le]

theorem toNat_add_of_carry (h : carry x y = false) : (x + y).toNat = x.toNat + y.toNat := by
  rw [UInt32.toNat_add, Nat.mod_eq_of_lt (carry_eq_false.1 h)]

theorem toNat_sub_of_borrow (h : borrow x y = false) : (x - y).toNat = x.toNat - y.toNat :=
  UInt32.toNat_sub_of_le _ _ (UInt32.le_iff_toNat_le.2 (borrow_eq_false.1 h))

end wrap

/-! ## Tilings -/

/-- The chunks at `l`, of these sizes, fill the region from `a` to `b`. -/
def Tiles (size : UInt32 → UInt32) (a : ℕ) : List UInt32 → ℕ → Prop
  | [], b => a = b
  | c :: l, b => c.toNat = a ∧ Tiles size (a + 16 + (size c).toNat) l b

namespace Tiles

variable {size size' : UInt32 → UInt32} {a b : ℕ} {c d : UInt32} {l r : List UInt32}

theorem append : Tiles size a (l ++ r) b ↔ ∃ m, Tiles size a l m ∧ Tiles size m r b := by
  induction l generalizing a with
  | nil => simp [Tiles]
  | cons x l ih => simp [Tiles, ih, and_assoc]

theorem le (h : Tiles size a l b) : a ≤ b := by
  induction l generalizing a with
  | nil => exact Nat.le_of_eq h
  | cons x l ih =>
    have := ih h.2
    omega

/-- A chunk lies in the region. -/
theorem mem (h : Tiles size a l b) (hc : c ∈ l) :
    a ≤ c.toNat ∧ c.toNat + 16 + (size c).toNat ≤ b := by
  induction l generalizing a with
  | nil => cases hc
  | cons x l ih =>
    obtain ⟨hx, hl⟩ := h
    have hle := hl.le
    rcases List.mem_cons.1 hc with rfl | hc
    · omega
    · have := ih hl hc
      omega

/-- The chunks before and after one of them. -/
theorem around (h : Tiles size a (l ++ c :: r) b) :
    (∀ x ∈ l, x.toNat + 16 + (size x).toNat ≤ c.toNat) ∧
      ∀ x ∈ r, c.toNat + 16 + (size c).toNat ≤ x.toNat := by
  obtain ⟨m, hl, hc, hr⟩ := append.1 h
  refine ⟨fun x hx => ?_, fun x hx => ?_⟩
  · have := hl.mem hx
    omega
  · have := hr.mem hx
    omega

/-- Distinct chunks, with their bytes, do not overlap. -/
theorem disjoint (h : Tiles size a l b) (hc : c ∈ l) (hd : d ∈ l) (hne : d ≠ c) :
    d.toNat + 16 + (size d).toNat ≤ c.toNat ∨ c.toNat + 16 + (size c).toNat ≤ d.toNat := by
  obtain ⟨l, r, rfl⟩ := List.append_of_mem hc
  have hd' : d ∈ l ∨ d ∈ r := by simpa [hne] using hd
  exact hd'.imp (h.around.1 d) (h.around.2 d)

theorem congr (h : Tiles size a l b) (hs : ∀ c ∈ l, size' c = size c) : Tiles size' a l b := by
  induction l generalizing a with
  | nil => exact h
  | cons x l ih =>
    refine ⟨h.1, ?_⟩
    rw [hs x List.mem_cons_self]
    exact ih h.2 fun c hc => hs c (List.mem_cons_of_mem _ hc)

/-- The chunk `d` is cut off `c`. -/
theorem split (h : Tiles size a (l ++ c :: r) b) (hs : ∀ x ∈ l ++ r, size' x = size x)
    (hd : d.toNat = c.toNat + 16 + (size' c).toNat)
    (hsum : (size' c).toNat + 16 + (size' d).toNat = (size c).toNat) :
    Tiles size' a (l ++ c :: d :: r) b := by
  obtain ⟨m, hl, hc, hr⟩ := append.1 h
  simp only [List.mem_append] at hs
  refine append.2 ⟨m, hl.congr fun x hx => hs x (.inl hx), hc, by omega, ?_⟩
  have hend : m + 16 + (size' c).toNat + 16 + (size' d).toNat = m + 16 + (size c).toNat := by omega
  rw [hend]
  exact hr.congr fun x hx => hs x (.inr hx)

/-- The chunk `d` is merged with `c` before it. -/
theorem merge (h : Tiles size a (l ++ c :: d :: r) b) (hs : ∀ x ∈ l ++ r, size' x = size x)
    (hsum : (size' c).toNat = (size c).toNat + 16 + (size d).toNat) :
    Tiles size' a (l ++ c :: r) b := by
  obtain ⟨m, hl, hc, hd, hr⟩ := append.1 h
  simp only [List.mem_append] at hs
  refine append.2 ⟨m, hl.congr fun x hx => hs x (.inl hx), hc, ?_⟩
  have hend : m + 16 + (size' c).toNat = m + 16 + (size c).toNat + 16 + (size d).toNat := by omega
  rw [hend]
  exact hr.congr fun x hx => hs x (.inr hx)

end Tiles

end GtuOs

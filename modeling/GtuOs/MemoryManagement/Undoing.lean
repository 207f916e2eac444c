import GtuOs.MemoryManagement.Safety

/-!
# Undoing `malloc`

`free` undoes `malloc`: the chunks are again those of before, with the same headers
(`free_malloc`). The blocks of a heap are so, as the neighbours of the free block taken
are in use, so that it joins nothing but the rest cut off (`Block.release_take`); and the
blocks of a tiling determine its headers (`Tiled.eq_of_blocks`).
-/

namespace GtuOs

/-- The links of a list of nodes are determined. -/
theorem Linked.unique {α : Type*} {next prev next' prev' : α → α} {p e x : α} {l : List α}
    (h : Linked next prev p l e) (h' : Linked next' prev' p l e) (hx : x ∈ l) :
    next x = next' x ∧ prev x = prev' x := by
  obtain ⟨l, r, rfl⟩ := List.append_of_mem hx
  exact ⟨h.node.2.trans h'.node.2.symm, h.node.1.trans h'.node.1.symm⟩

namespace MemoryManager

variable {s s' : MemoryManager} {a b fuel : ℕ} {n p : UInt32} {l l' : List UInt32}

namespace Block

variable {c d e : Block} {t m r : List Block}

/-- A free block joins no block in use before it. -/
theorem joinPrev_of_separated {l : List Block} (h : Separated (l ++ c :: r)) (hfree : c.used = false) :
    joinPrev l d = l ++ [d] := by
  rcases l.eq_nil_or_concat with rfl | ⟨l, p, rfl⟩
  · rfl
  rw [List.concat_eq_append] at h ⊢
  have hp : p.used = true := by
    rw [List.append_assoc, List.singleton_append] at h
    have hpc := (List.isChain_cons_cons.1 (List.isChain_append.1 h).2.1).1
    exact hpc.resolve_right (by simp [hfree])
  simp [joinPrev, hp]

/-- A free block joins no block in use after it. -/
theorem joinNext_of_separated {l : List Block} (h : Separated (l ++ c :: r)) (hfree : c.used = false) :
    joinNext d r = d :: r := by
  cases r with
  | nil => rfl
  | cons q r =>
    have hcq := (List.isChain_cons_cons.1 (List.isChain_append.1 h).2.1).1
    rw [joinNext, if_pos (hcq.resolve_left (by simp [hfree]))]

/-- What is cut off a block joins it again. -/
theorem absorb_rest : (⟨c.addr, n, false⟩ : Block).absorb
    ⟨p, c.size - n - MemoryChunk.sizeof, false⟩ = ⟨c.addr, c.size, false⟩ := by
  rw [absorb, UInt32.sub_add_cancel, UInt32.add_comm, UInt32.sub_add_cancel]

/-- A free block taken and given back is as before. -/
theorem release_take {l : List Block} (h : Separated (l ++ c :: r)) (hfree : c.used = false)
    (htake : c.take n = d :: t) (hj : joinPrev l { d with used := false } = m ++ [e]) :
    m ++ e.joinNext (t ++ r) = l ++ c :: r := by
  rw [joinPrev_of_separated h hfree] at hj
  obtain ⟨rfl, he⟩ := List.append_inj' hj rfl
  cases he
  have hc : (⟨c.addr, c.size, false⟩ : Block) = c := by rw [← hfree]
  rw [take] at htake
  split_ifs at htake
  · obtain ⟨rfl, rfl⟩ := List.cons.inj htake
    rw [List.singleton_append, joinNext, if_neg (by simp)]
    dsimp only
    rw [absorb_rest, hc]
  · obtain ⟨rfl, rfl⟩ := List.cons.inj htake
    rw [List.nil_append, joinNext_of_separated h hfree, hc]

end Block

/-- Blocks have the addresses of their chunks. -/
theorem eq_of_map_block (h : l'.map s'.block = l.map s.block) :
    l' = l ∧ ∀ c ∈ l, s'.block c = s.block c := by
  have haddr : ∀ (s : MemoryManager) (l : List UInt32), (l.map s.block).map Block.addr = l :=
    fun s l => by rw [List.map_map]; exact List.map_id l
  obtain rfl : l' = l := by rw [← haddr s' l', h, haddr]
  exact ⟨rfl, List.map_inj_left.1 h⟩

namespace Tiled

/-- The blocks of a region determine its headers. -/
theorem eq_of_blocks (h : Tiled s a b l) (h' : Tiled s' a b l')
    (hblocks : l'.map s'.block = l.map s.block) : l' = l ∧ ∀ c ∈ l, s'.chunk c = s.chunk c := by
  obtain ⟨rfl, hblock⟩ := eq_of_map_block hblocks
  refine ⟨rfl, fun c hc => ?_⟩
  obtain ⟨hnext, hprev⟩ := h'.linked.unique h.linked hc
  obtain ⟨-, hsize, hused⟩ := Block.mk.inj (hblock c hc)
  calc s'.chunk c = ⟨(s'.chunk c).next, (s'.chunk c).prev, (s'.chunk c).allocated,
        (s'.chunk c).size⟩ := rfl
    _ = s.chunk c := by rw [hnext, hprev, hused, hsize]

/-- Giving back what `malloc` returned restores the chunks. -/
theorem undo_malloc (h : Tiled s a b l) (hsep : Block.Separated (l.map s.block))
    (hm : s.malloc n fuel = some (s', p)) (hp : p ≠ 0) :
    Tiled (s'.free p) a b l ∧ ∀ c ∈ l, (s'.free p).chunk c = s.chunk c := by
  rcases h.malloc hm with ⟨rfl, -⟩ | ⟨c, l', -, hfree, rfl, -, -, -, ht, -, l₁, r, rfl, hblocks⟩
  · exact absurd rfl hp
  have hfree' : (s.block c).used = false := by simpa [block] using hfree
  -- The first of the blocks taken is that of `c`.
  obtain ⟨d, t, htake, hd⟩ : ∃ d t, (s.block c).take n = d :: t ∧ d.addr = c := by
    rw [Block.take]
    split_ifs
    · exact ⟨_, _, rfl, rfl⟩
    · exact ⟨_, _, rfl, rfl⟩
  rw [htake, List.append_assoc, List.cons_append] at hblocks
  obtain ⟨l₂, r₂, rfl, hl₂, hr₂⟩ := List.map_eq_append_iff.1 hblocks
  obtain ⟨c', r₃, rfl, hc', hr₃⟩ := List.map_eq_cons_iff.1 hr₂
  obtain rfl : c' = c := by rw [← hd, ← hc']; rfl
  obtain ⟨l₄, ht₄, -, m, e, hjoin, hblocks₄⟩ := ht.free
  rw [List.map_append, List.map_cons] at hsep
  have hfreed : (⟨c', (s'.chunk c').size, false⟩ : Block) = { d with used := false } := by
    rw [← hc']
    rfl
  rw [hl₂, hfreed] at hjoin
  rw [hr₃, Block.release_take hsep hfree' htake hjoin, ← List.map_cons, ← List.map_append] at hblocks₄
  obtain ⟨rfl, hchunk⟩ := h.eq_of_blocks ht₄ hblocks₄
  exact ⟨ht₄, hchunk⟩

end Tiled

end MemoryManager

namespace Heap

variable {h : Heap} {mem : Memory} {start size : UInt32}

/-- Nothing is managed without room for a header, or from null on. -/
theorem heap_inv_or_empty (hsize : start.toNat + size.toNat < 2 ^ 32)
    (hr : (runs mem start size).Reachable h) :
    (∃ l, Inv h start.toNat (start.toNat + size.toNat) l ∧ Coalesced h l) ∨ h.Empty := by
  rcases eq_or_ne start 0 with rfl | hstart
  · refine .inr (hr.invariant ?_ fun h i h' _ he hs => he.step hs)
    rintro _ rfl
    by_cases hle : size < MemoryChunk.sizeof
    · constructor <;> simp [construct, MemoryManager.construct, hle]
    · have hsub : borrow size MemoryChunk.sizeof = false := by simpa [borrow] using hle
      constructor <;> simp [construct, MemoryManager.construct, hle, hsub]
  · have hinv := heap_safe_or_empty (UInt32.pos_iff_ne_zero.2 hstart) hsize hr
    split_ifs at hinv with hle
    · exact .inl hinv
    · exact .inr hinv

/-- `free` undoes `malloc` in every state reached: the chunks, and their headers, are those
    of before. -/
theorem free_malloc (hsize : start.toNat + size.toNat < 2 ^ 32)
    (hr : (runs mem start size).Reachable h) (n : UInt32) :
    (∃ fuel, (h.manager.malloc n fuel).isSome) ∧
    ∀ fuel m p, h.manager.malloc n fuel = some (m, p) → p ≠ 0 →
      ∃ l, (∃ fuel, h.manager.chunks h.manager.first fuel = some l) ∧
        (∃ fuel, (m.free p).chunks (m.free p).first fuel = some l) ∧
        ∀ c ∈ l, (m.free p).chunk c = h.manager.chunk c := by
  rcases heap_inv_or_empty hsize hr with ⟨l, hi, hco⟩ | he
  · refine ⟨⟨_, hi.tiled.malloc_isSome (Nat.lt_succ_self _)⟩, fun fuel m p hm hp => ?_⟩
    obtain ⟨ht, hchunk⟩ := hi.tiled.undo_malloc hco.separated hm hp
    refine ⟨l, hi.safe.reached, ?_, hchunk⟩
    rw [ht.first]
    exact ⟨_, chunks_of_linked ht.linked fun c hc => ht.ne_zero hc⟩
  · refine ⟨⟨1, by rw [he.malloc 0]; rfl⟩, fun fuel m p hm hp => ?_⟩
    cases fuel with
    | zero => simp [MemoryManager.malloc, MemoryManager.search] at hm
    | succ fuel =>
      cases (he.malloc fuel).symm.trans hm
      exact absurd rfl hp

/-- `free` undoes a `malloc` that splits a chunk. -/
theorem free_malloc_sample : (∃ fuel, (sampleMalloc.manager.malloc 4 fuel).isSome) ∧
    ∀ fuel m p, sampleMalloc.manager.malloc 4 fuel = some (m, p) → p ≠ 0 →
      ∃ l, (∃ fuel, sampleMalloc.manager.chunks sampleMalloc.manager.first fuel = some l) ∧
        (∃ fuel, (m.free p).chunks (m.free p).first fuel = some l) ∧
        ∀ c ∈ l, (m.free p).chunk c = sampleMalloc.manager.chunk c :=
  free_malloc (by decide) sampleMalloc_reachable 4

end Heap

end GtuOs

import GtuOs.MemoryManagement.Heap

/-!
# `malloc` and `free`

What the two operations do to the chunks of a region:

* `Tiled.search_eq`: the loop of `malloc` ends, at the first chunk that fits;
* `Tiled.malloc`: a chunk of at least the requested size is taken into use;
* `Tiled.free`: a chunk is given back.

Both keep the chunks in use, with their sizes (`Keeps`).
-/

namespace GtuOs.MemoryManager

variable {s s' s'' : MemoryManager} {a b fuel : ℕ} {c p n x : UInt32} {l l' l'' r : List UInt32}

/-- The chunks in use stay so, and keep their sizes. -/
def Keeps (s : MemoryManager) (l : List UInt32) (s' : MemoryManager) (l' : List UInt32) : Prop :=
  ∀ x ∈ l, (s.chunk x).allocated →
    x ∈ l' ∧ (s'.chunk x).allocated ∧ (s'.chunk x).size = (s.chunk x).size

theorem Keeps.refl : Keeps s l s l := fun _ hx ha => ⟨hx, ha, rfl⟩

theorem Keeps.trans (h : Keeps s l s' l') (h' : Keeps s' l' s'' l'') : Keeps s l s'' l'' := by
  intro x hx ha
  obtain ⟨hx', ha', hs'⟩ := h x hx ha
  obtain ⟨hx'', ha'', hs''⟩ := h' x hx' ha'
  exact ⟨hx'', ha'', hs''.trans hs'⟩

/-! ## Blocks -/

/-- A chunk as seen by the users of the heap. -/
structure Block where
  addr : UInt32
  size : UInt32
  used : Bool
  deriving DecidableEq

namespace Block

/-- The block `b` is taken into use for `n` bytes: the rest is cut off if a header and a
    byte more fit. -/
def take (b : Block) (n : UInt32) : List Block :=
  if b.size ≥ n + MemoryChunk.sizeof + 1 then
    [⟨b.addr, n, true⟩, ⟨b.addr + MemoryChunk.sizeof + n, b.size - n - MemoryChunk.sizeof, false⟩]
  else [⟨b.addr, b.size, true⟩]

/-- The block `b` with the bytes of the one after. -/
def absorb (b c : Block) : Block := { b with size := b.size + (c.size + MemoryChunk.sizeof) }

/-- The free block `b` joins the last of the blocks before it, if that is free. -/
def joinPrev (l : List Block) (b : Block) : List Block :=
  match l.getLast? with
  | some p => if p.used then l ++ [b] else l.dropLast ++ [p.absorb b]
  | none => [b]

/-- The first of the blocks after it joins the free block `b`, if that is free. -/
def joinNext (b : Block) : List Block → List Block
  | c :: r => if c.used then b :: c :: r else b.absorb c :: r
  | [] => [b]

end Block

/-- The chunk `c` as a block. -/
def block (s : MemoryManager) (c : UInt32) : Block :=
  ⟨c, (s.chunk c).size, (s.chunk c).allocated⟩

namespace Tiled

/-- The chunks depend on their links and sizes. -/
theorem congr (h : Tiled s a b l) (hfirst : s'.first = s.first) (hwrapped : s'.wrapped = false)
    (hs : ∀ x ∈ l, (s'.chunk x).next = (s.chunk x).next ∧ (s'.chunk x).prev = (s.chunk x).prev ∧
      (s'.chunk x).size = (s.chunk x).size) : Tiled s' a b l where
  first := hfirst.trans h.first
  tiles := h.tiles.congr fun x hx => (hs x hx).2.2
  linked := h.linked.congr (fun x hx => (hs x hx).1) fun x hx => (hs x hx).2.1
  pos := h.pos
  lt := h.lt
  wrapped := hwrapped

theorem computes (h : Tiled s a b l) {w : Bool} (hw : w = false) : Tiled (s.computes w) a b l :=
  h.congr rfl (by simp [h.wrapped, hw]) fun x _ => by simp

theorem eq_or_apart (h : Tiled s a b l) (hc : c ∈ l) (hx : x ∈ l) : x = c ∨ Apart x c := by
  obtain ⟨l, r, rfl⟩ := List.append_of_mem hc
  rcases eq_or_ne x c with rfl | hne
  · exact .inl rfl
  · exact .inr (h.tiles.apart (by simpa [hne] using hx))

theorem chunk_setAllocated (h : Tiled s a b l) (hc : c ∈ l) (hx : x ∈ l) (w : Bool) :
    (s.setAllocated c w).chunk x =
      { s.chunk x with allocated := if x = c then w else (s.chunk x).allocated } := by
  rcases h.eq_or_apart hc hx with rfl | hxc
  · simp
  · rw [chunk_setAllocated_of_apart hxc, if_neg hxc.ne]

theorem setAllocated (h : Tiled s a b l) (hc : c ∈ l) (w : Bool) :
    Tiled (s.setAllocated c w) a b l :=
  h.congr rfl h.wrapped fun x hx => by simp [h.chunk_setAllocated hc hx]

/-- The address returned for the chunk `c`. -/
theorem toNat_payload (h : Tiled s a b l) (hc : c ∈ l) :
    carry c MemoryChunk.sizeof = false ∧ (c + MemoryChunk.sizeof).toNat = c.toNat + 16 := by
  have hlt := h.lt
  have hmem := (h.tiles.mem hc).2
  have hcs : carry c MemoryChunk.sizeof = false :=
    carry_eq_false.2 (by rw [MemoryChunk.toNat_sizeof]; omega)
  exact ⟨hcs, by rw [toNat_add_of_carry hcs, MemoryChunk.toNat_sizeof]⟩

/-! ## `malloc` -/

/-- The loop of `malloc` over the chunks left `r`: it ends, at the first one that fits. -/
theorem search_linked (h : Linked (fun c => (s.chunk c).next) (fun c => (s.chunk c).prev) p r 0)
    (h0 : ∀ c ∈ r, c ≠ 0) :
    (∀ result, s.search n (r.headD 0) fuel = some result →
      result = (r.find? fun c => (s.chunk c).size > n ∧ ¬(s.chunk c).allocated).getD 0) ∧
    (r.length < fuel → (s.search n (r.headD 0) fuel).isSome) := by
  induction r generalizing p fuel with
  | nil => cases fuel <;> simp [search]
  | cons c r ih =>
    have hc0 := h0 c List.mem_cons_self
    obtain ⟨-, hnext, hr⟩ := h
    replace hnext : (s.chunk c).next = r.headD 0 := hnext
    cases fuel with
    | zero => simp [search]
    | succ fuel =>
      by_cases hfit : (s.chunk c).size > n ∧ ¬(s.chunk c).allocated
      · rw [List.headD_cons, search, if_neg hc0, if_pos hfit,
          List.find?_cons_of_pos (by simpa using hfit)]
        exact ⟨fun result hresult => (Option.some.inj hresult).symm, fun _ => rfl⟩
      · obtain ⟨ih₁, ih₂⟩ := @ih fuel _ hr fun c hc => h0 c (List.mem_cons_of_mem _ hc)
        rw [List.headD_cons, search, if_neg hc0, if_neg hfit, hnext,
          List.find?_cons_of_neg (by simpa using hfit)]
        exact ⟨ih₁, fun hlen => ih₂ (by simpa using hlen)⟩

/-- `malloc` always returns. -/
theorem malloc_isSome (h : Tiled s a b l) (hfuel : l.length < fuel) :
    (s.malloc n fuel).isSome := by
  rw [MemoryManager.malloc, Option.isSome_map, h.first]
  exact (search_linked h.linked fun c hc => h.ne_zero hc).2 hfuel

/-- The size of a chunk of `malloc` with a header and a byte more does not wrap. -/
theorem toNat_request (h : Tiled s a b l) (hc : c ∈ l) (hfit : (s.chunk c).size > n) :
    carry n MemoryChunk.sizeof = false ∧ carry (n + MemoryChunk.sizeof) 1 = false ∧
      (n + MemoryChunk.sizeof + 1).toNat = n.toNat + 17 := by
  have hlt := h.lt
  have hmem := (h.tiles.mem hc).2
  have hn : n.toNat < (s.chunk c).size.toNat := hfit
  have hns : carry n MemoryChunk.sizeof = false :=
    carry_eq_false.2 (by rw [MemoryChunk.toNat_sizeof]; omega)
  have h1 : (1 : UInt32).toNat = 1 := rfl
  have hn1 : carry (n + MemoryChunk.sizeof) 1 = false :=
    carry_eq_false.2 (by rw [toNat_add_of_carry hns, MemoryChunk.toNat_sizeof, h1]; omega)
  exact ⟨hns, hn1, by
    rw [toNat_add_of_carry hn1, toNat_add_of_carry hns, MemoryChunk.toNat_sizeof, h1]⟩

/-- A free chunk of more than `n` bytes is cut to size, if a header and a byte more fit. -/
theorem cut (h : Tiled s a b l) (hc : c ∈ l) (hfit : (s.chunk c).size > n)
    (hfree : ¬(s.chunk c).allocated)
    (hs' : s' = if (s.chunk c).size ≥ n + MemoryChunk.sizeof + 1 then s.split c n else s) :
    ∃ l₁ m r, l = l₁ ++ c :: r ∧ Tiled s' a b (l₁ ++ c :: (m ++ r)) ∧ n ≤ (s'.chunk c).size ∧
      (∀ x ∈ l₁ ++ r, s'.block x = s.block x) ∧
      ⟨c, (s'.chunk c).size, true⟩ :: m.map s'.block = (s.block c).take n := by
  obtain ⟨l₁, r, rfl⟩ := List.append_of_mem hc
  split_ifs at hs' with hcut
  · have hn : n.toNat + 17 ≤ (s.chunk c).size.toNat := by
      rw [← (h.toNat_request hc hfit).2.2]
      exact hcut
    obtain ⟨hsc, hst, hs⟩ := h.chunks_split hn rfl
    subst hs'
    refine ⟨l₁, [c + MemoryChunk.sizeof + n], r, rfl, ?_, ?_, fun x hx => ?_, ?_⟩
    · simpa using h.split hn rfl
    · rw [hsc]
      exact UInt32.le_refl n
    · rw [block, hs x hx]
      rfl
    · rw [Block.take, block, if_pos hcut, hsc, List.map_cons, List.map_nil, block, hst]
  · subst hs'
    refine ⟨l₁, [], r, rfl, by simpa using h, UInt32.le_of_lt hfit, fun x _ => rfl, ?_⟩
    rw [Block.take, block, if_neg hcut]
    rfl

/-- `malloc` returns null and does nothing, or takes a free chunk into use. -/
theorem malloc (h : Tiled s a b l) (hm : s.malloc n fuel = some (s', p)) :
    (p = 0 ∧ s' = s) ∨ ∃ c l', c ∈ l ∧ ¬(s.chunk c).allocated ∧ p = c + MemoryChunk.sizeof ∧
      c ∈ l' ∧ (s'.chunk c).allocated ∧ n ≤ (s'.chunk c).size ∧ Tiled s' a b l' ∧
      Keeps s l s' l' ∧ ∃ l₁ r, l = l₁ ++ c :: r ∧
        l'.map s'.block = l₁.map s.block ++ (s.block c).take n ++ r.map s.block := by
  rw [MemoryManager.malloc, Option.map_eq_some_iff, h.first] at hm
  obtain ⟨result, hresult, hm⟩ := hm
  have hfind := (search_linked h.linked fun c hc => h.ne_zero hc).1 result hresult
  cases hf : l.find? fun c => (s.chunk c).size > n ∧ ¬(s.chunk c).allocated with
  | none =>
    obtain rfl : result = 0 := by rwa [hf] at hfind
    rw [if_pos rfl] at hm
    cases hm
    exact .inl ⟨rfl, rfl⟩
  | some c =>
    obtain rfl : result = c := by rwa [hf] at hfind
    have hc : result ∈ l := List.mem_of_find?_eq_some hf
    obtain ⟨hfit, hfree⟩ : (s.chunk result).size > n ∧ ¬(s.chunk result).allocated := by
      simpa using List.find?_some hf
    rw [if_neg (h.ne_zero hc)] at hm
    obtain ⟨hns, hn1, -⟩ := h.toNat_request hc hfit
    obtain ⟨s₁, hs₁⟩ : ∃ s₁, s₁ =
        s.computes (carry n MemoryChunk.sizeof || carry (n + MemoryChunk.sizeof) 1) := ⟨_, rfl⟩
    obtain ⟨s₂, hs₂⟩ : ∃ s₂, s₂ = if (s₁.chunk result).size ≥ n + MemoryChunk.sizeof + 1
        then s₁.split result n else s₁ := ⟨_, rfl⟩
    have hchunk : ∀ x, s₁.chunk x = s.chunk x := fun x => by rw [hs₁, chunk_computes]
    have h₁ : Tiled s₁ a b l := hs₁ ▸ h.computes (by rw [hns, hn1]; rfl)
    obtain ⟨l₁, m, r, hl, h₂, hn, hblock, htake⟩ := h₁.cut hc (by rwa [hchunk]) (by rwa [hchunk]) hs₂
    replace hm : ((s₂.setAllocated result true).computes (carry result MemoryChunk.sizeof),
        result + MemoryChunk.sizeof) = (s', p) := by
      rw [hs₂, hs₁]
      exact hm
    obtain ⟨rfl, rfl⟩ := Prod.mk.inj hm
    have hc' : result ∈ l₁ ++ result :: (m ++ r) := by simp
    have h₃ := h₂.setAllocated hc' true
    -- The other chunks are not affected.
    have hother : ∀ x ∈ l₁ ++ (m ++ r), ((s₂.setAllocated result true).computes
        (carry result MemoryChunk.sizeof)).block x = s₂.block x := fun x hx => by
      have hne := (h₂.tiles.apart hx).ne
      rw [block, chunk_computes, h₂.chunk_setAllocated hc' (mem_around hx), if_neg hne]
      rfl
    have hold : ∀ x ∈ l₁ ++ r, ((s₂.setAllocated result true).computes
        (carry result MemoryChunk.sizeof)).block x = s.block x := fun x hx => by
      rw [hother x (by simp at hx ⊢; tauto), hblock x hx, block, hchunk, block]
    refine .inr ⟨result, _, hc, hfree, rfl, hc', ?_, ?_, h₃.computes (h₃.toNat_payload hc').1,
      fun x hx ha => ?_, l₁, r, hl, ?_⟩
    · simp
    · simpa using hn
    · have hne : x ≠ result := fun hxr => hfree (hxr ▸ ha)
      have hx' : x ∈ l₁ ++ r := by
        rw [hl] at hx
        simpa [hne] using hx
      obtain ⟨-, hsize, hused⟩ := Block.mk.inj (hold x hx')
      exact ⟨by simp at hx' ⊢; tauto, hused.trans ha, hsize⟩
    · have hself : ((s₂.setAllocated result true).computes
          (carry result MemoryChunk.sizeof)).block result = ⟨result, (s₂.chunk result).size, true⟩ := by
        rw [block, chunk_computes, MemoryManager.chunk_setAllocated]
      have htake' : _ = (s.block result).take n := htake.trans (by rw [block, hchunk, block])
      rw [← htake', List.map_append, List.map_cons, List.map_append, hself,
        List.map_congr_left fun x hx => hold x (List.mem_append_left _ hx),
        List.map_congr_left fun x hx => hold x (List.mem_append_right _ hx),
        List.map_congr_left fun x hx => hother x (List.mem_append_right _ (List.mem_append_left _ hx))]
      simp

/-! ## `free` -/

/-- The merge of `free` with the next chunk, if that is free. -/
theorem freeNext (h : Tiled s a b (l ++ c :: r)) (hfree : ¬(s.chunk c).allocated)
    (hs' : s' = if (s.chunk c).next ≠ 0 ∧ ¬(s.chunk (s.chunk c).next).allocated
      then s.mergeNext c else s) : ∃ l', Tiled s' a b l' ∧ Keeps s (l ++ c :: r) s' l' ∧
        l'.map s'.block = l.map s.block ++ (s.block c).joinNext (r.map s.block) := by
  split_ifs at hs' with hmerge
  · obtain ⟨h0, hd⟩ := hmerge
    cases r with
    | nil => exact absurd h.linked.node.2 h0
    | cons d r =>
      -- The header of the next chunk goes, and its bytes with it.
      obtain ⟨hdc, -, hnext⟩ := h.apart_next
      rw [hnext] at hd
      have hother : ∀ x ∈ l ++ r, s'.block x = s.block x := fun x hx => by
        rw [block, hs', h.chunk_mergeNext hx]
        rfl
      refine ⟨_, hs' ▸ h.mergeNext, fun x hx ha => ?_, ?_⟩
      · have hxc : x ≠ c := fun hxc => hfree (hxc ▸ ha)
        have hxd : x ≠ d := fun hxd => hd (hxd ▸ ha)
        have hx' : x ∈ l ++ r := by simpa [hxc, hxd] using hx
        rw [hs', h.chunk_mergeNext hx']
        exact ⟨mem_around hx', ha, rfl⟩
      · have hself : s'.block c = (s.block c).absorb (s.block d) := by
          rw [block, hs', chunk_mergeNext_self hdc.symm hnext h.apart_after]
          rfl
        rw [List.map_append, List.map_cons, hself,
          List.map_congr_left fun x hx => hother x (List.mem_append_left _ hx),
          List.map_congr_left fun x hx => hother x (List.mem_append_right _ hx)]
        simp [Block.joinNext, block, hd]
  · subst s'
    refine ⟨_, h, .refl, ?_⟩
    rw [List.map_append, List.map_cons]
    cases r with
    | nil => rfl
    | cons d r =>
      -- Without a merge the next chunk is in use.
      rw [h.apart_next.2.2] at hmerge
      have hd0 : d ≠ 0 := h.ne_zero (by simp)
      have hd : (s.block d).used = true := by simpa [hd0, block] using hmerge
      simp [Block.joinNext, hd]

/-- The merge of `free` with the previous chunk, if that is free. -/
theorem freePrev (h : Tiled s a b (l ++ c :: r)) (hfree : ¬(s.chunk c).allocated)
    {q : MemoryManager × UInt32}
    (hq : q = if (s.chunk c).prev ≠ 0 ∧ ¬(s.chunk (s.chunk c).prev).allocated
      then (s.mergePrev c, ((s.mergePrev c).chunk c).prev) else (s, c)) :
    ∃ l', Tiled q.1 a b (l' ++ q.2 :: r) ∧ Keeps s (l ++ c :: r) q.1 (l' ++ q.2 :: r) ∧
      ¬(q.1.chunk q.2).allocated ∧
      Block.joinPrev (l.map s.block) (s.block c) = l'.map q.1.block ++ [q.1.block q.2] ∧
      r.map q.1.block = r.map s.block := by
  -- The previous chunk is the last one before, if there is one.
  rcases l.eq_nil_or_concat with rfl | ⟨l, p, rfl⟩
  · rw [if_neg fun hp => hp.1 h.linked.node.1] at hq
    subst hq
    exact ⟨_, h, .refl, hfree, rfl, rfl⟩
  rw [List.concat_eq_append] at h ⊢
  rw [List.append_assoc, List.cons_append, List.nil_append] at h ⊢
  obtain ⟨hcp, hprev, -⟩ := h.apart_next
  have hjoin : Block.joinPrev ((l ++ [p]).map s.block) (s.block c) =
      if (s.chunk p).allocated then (l ++ [p]).map s.block ++ [s.block c]
      else l.map s.block ++ [(s.block p).absorb (s.block c)] := by
    simp [Block.joinPrev, block]
  split_ifs at hq with hmerge
  · obtain ⟨h0, hp⟩ := hmerge
    subst hq
    rw [hprev] at hp
    -- What is left of the chunk still points to the one that takes it in.
    have hself : ((s.mergePrev c).chunk c).prev = p := by
      rw [MemoryManager.chunk_mergePrev hcp hprev hcp
        fun h0 => .inr (h.snoc.tiles.apart (List.mem_append_right _ (h.snoc.next_mem h0))).symm]
      simp [hprev]
    have hother : ∀ x ∈ l ++ r, (s.mergePrev c).block x = s.block x := fun x hx => by
      rw [block, h.chunk_mergePrev hx]
      rfl
    have hmerged := chunk_mergePrev_prev hcp hprev h.apart_after
    rw [hself]
    refine ⟨_, h.mergePrev, fun x hx ha => ?_, ?_, ?_, ?_⟩
    · have hxc : x ≠ c := fun hxc => hfree (hxc ▸ ha)
      have hxp : x ≠ p := fun hxp => hp (hxp ▸ ha)
      have hx' : x ∈ l ++ r := by simpa [hxc, hxp] using hx
      rw [h.chunk_mergePrev hx']
      exact ⟨mem_around hx', ha, rfl⟩
    · rw [hmerged]
      exact hp
    · have hblock : (s.mergePrev c).block p = (s.block p).absorb (s.block c) := by
        rw [block, hmerged]
        rfl
      rw [hjoin, if_neg hp, List.map_congr_left fun x hx => hother x (List.mem_append_left _ hx),
        ← hblock]
    · exact List.map_congr_left fun x hx => hother x (List.mem_append_right _ hx)
  · subst hq
    have hp0 : p ≠ 0 := h.ne_zero (by simp)
    rw [hprev] at hmerge
    have hp : (s.chunk p).allocated := by simpa [hp0] using hmerge
    refine ⟨l ++ [p], by simpa using h, by simpa using Keeps.refl, hfree, ?_, rfl⟩
    rw [hjoin, if_pos hp]

/-- `free` keeps the chunks in use but the one freed, which joins the free chunks next to it. -/
theorem free (h : Tiled s a b (l ++ c :: r)) :
    ∃ l', Tiled (s.free (c + MemoryChunk.sizeof)) a b l' ∧
      (∀ x ∈ l ++ c :: r, x ≠ c → (s.chunk x).allocated → x ∈ l' ∧
        ((s.free (c + MemoryChunk.sizeof)).chunk x).allocated ∧
        ((s.free (c + MemoryChunk.sizeof)).chunk x).size = (s.chunk x).size) ∧
      ∃ m e, Block.joinPrev (l.map s.block) ⟨c, (s.chunk c).size, false⟩ = m ++ [e] ∧
        l'.map (s.free (c + MemoryChunk.sizeof)).block = m ++ e.joinNext (r.map s.block) := by
  have hc : c ∈ l ++ c :: r := by simp
  obtain ⟨hcs, hpay⟩ := h.toNat_payload hc
  have hsub : borrow (c + MemoryChunk.sizeof) MemoryChunk.sizeof = false :=
    borrow_eq_false.2 (by rw [hpay, MemoryChunk.toNat_sizeof]; omega)
  -- The three states of `free`: the chunk is free, joined with the previous one, and with the next
  -- one.
  obtain ⟨s₁, hs₁⟩ : ∃ s₁, s₁ = (s.computes (borrow (c + MemoryChunk.sizeof)
      MemoryChunk.sizeof)).setAllocated c false := ⟨_, rfl⟩
  obtain ⟨q, hq⟩ : ∃ q, q = if (s₁.chunk c).prev ≠ 0 ∧ ¬(s₁.chunk (s₁.chunk c).prev).allocated
      then (s₁.mergePrev c, ((s₁.mergePrev c).chunk c).prev) else (s₁, c) := ⟨_, rfl⟩
  obtain ⟨s₃, hs₃⟩ : ∃ s₃, s₃ = if (q.1.chunk q.2).next ≠ 0 ∧
      ¬(q.1.chunk (q.1.chunk q.2).next).allocated then q.1.mergeNext q.2 else q.1 := ⟨_, rfl⟩
  have hs' : s.free (c + MemoryChunk.sizeof) = s₃ := by
    rw [hs₃, hq, hs₁, MemoryManager.free, UInt32.add_sub_cancel]
  rw [hs']
  have h₁ : Tiled s₁ a b (l ++ c :: r) := hs₁ ▸ (h.computes hsub).setAllocated hc false
  have hchunk : ∀ x ∈ l ++ c :: r, s₁.chunk x =
      { s.chunk x with allocated := if x = c then false else (s.chunk x).allocated } :=
    fun x hx => by rw [hs₁, (h.computes hsub).chunk_setAllocated hc hx, chunk_computes]
  have hother : ∀ x ∈ l ++ r, s₁.block x = s.block x := fun x hx => by
    rw [block, hchunk x (mem_around hx), if_neg (h.tiles.apart hx).ne]
    rfl
  obtain ⟨l₂, h₂, hkeep₂, hfree₂, hjoin, hr⟩ := h₁.freePrev (by simp [hchunk c hc]) hq
  obtain ⟨l₃, h₃, hkeep₃, hblocks⟩ := h₂.freeNext hfree₂ hs₃
  refine ⟨l₃, h₃, fun x hx hxc ha => ?_, l₂.map q.1.block, q.1.block q.2, ?_, ?_⟩
  · obtain ⟨hx', ha', hsize⟩ := hkeep₂.trans hkeep₃ x hx (by simpa [hchunk x hx, hxc] using ha)
    exact ⟨hx', ha', hsize.trans (by rw [hchunk x hx])⟩
  · rw [← hjoin, List.map_congr_left fun x hx => hother x (List.mem_append_left _ hx), block,
      hchunk c hc, if_pos rfl]
  · rw [hblocks, hr, List.map_congr_left fun x hx => hother x (List.mem_append_right _ hx)]

end Tiled

end GtuOs.MemoryManager

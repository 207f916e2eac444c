import GtuOs.MemoryManagement.Undoing

/-!
# First fit

Which chunk `malloc` takes. It should be the first free one of at least the requested size
(`FirstFits`). As `malloc` asks for a byte more, it is, unless that chunk fits exactly
(`firstFits_iff`).
-/

namespace GtuOs.MemoryManager

variable {s s' : MemoryManager} {a b fuel k : ℕ} {c n p t v : UInt32} {l r : List UInt32}

/-! ## The bytes changed -/

/-- The address `k` is not in the header at `c`. -/
def Outside (k : ℕ) (c : UInt32) : Prop := k < c.toNat ∨ c.toNat + 16 ≤ k

theorem mem_computes {w : Bool} : (s.computes w).mem = s.mem := rfl

theorem mem_setNext (h : Outside k c) : (s.setNext c v).mem k = s.mem k :=
  MemoryChunk.setNext_of_not_mem h

theorem mem_setPrev (h : Outside k c) : (s.setPrev c v).mem k = s.mem k :=
  MemoryChunk.setPrev_of_not_mem h

theorem mem_setSize (h : Outside k c) : (s.setSize c v).mem k = s.mem k :=
  MemoryChunk.setSize_of_not_mem h

theorem mem_setAllocated {w : Bool} (h : Outside k c) : (s.setAllocated c w).mem k = s.mem k :=
  MemoryChunk.setAllocated_of_not_mem h

theorem mem_linkBack (h : (s.chunk c).next ≠ 0 → Outside k (s.chunk c).next) :
    (s.linkBack c v).mem k = s.mem k := by
  rw [linkBack]
  split_ifs with h0
  · exact mem_setPrev (h h0)
  · rfl

/-- A split changes the headers of the chunk, of the rest, and of the chunk after. -/
theorem mem_split (ht : t = c + MemoryChunk.sizeof + n) (hct : Apart c t) (hc : Outside k c)
    (hkt : Outside k t) (hnext : (s.chunk c).next ≠ 0 → Outside k (s.chunk c).next) :
    (s.split c n).mem k = s.mem k := by
  subst ht
  rw [split, mem_setNext hc, mem_setSize hc, mem_linkBack, mem_setNext hkt, mem_setPrev hkt,
    mem_setSize hkt, mem_computes, mem_setAllocated hkt, mem_computes]
  simpa [chunk_setAllocated_of_apart, chunk_setSize_of_apart, chunk_setPrev_of_apart, hct] using hnext

/-! ## The chunk taken -/

/-- A free chunk. -/
def isFree (s : MemoryManager) (c : UInt32) : Bool := !(s.chunk c).allocated

/-- The chunk `c` of `l` is taken into use for `n` bytes: the rest of it becomes a free chunk
    if a header and a byte more fit. The other chunks are as before, with their bytes. -/
def Takes (s s' : MemoryManager) (l : List UInt32) (c n : UInt32) : Prop :=
  ∃ l₁ m r, l = l₁ ++ c :: r ∧
    (∃ fuel, s'.chunks s'.first fuel = some (l₁ ++ c :: (m ++ r))) ∧
    Linked (fun c => (s'.chunk c).next) (fun c => (s'.chunk c).prev) 0 (l₁ ++ c :: (m ++ r)) 0 ∧
    (s'.chunk c).allocated ∧
    (if n.toNat + 17 ≤ (s.chunk c).size.toNat then
      (s'.chunk c).size = n ∧ ∃ t, m = [t] ∧ t.toNat = c.toNat + 16 + n.toNat ∧ s'.isFree t ∧
        t.toNat + 16 + (s'.chunk t).size.toNat = c.toNat + 16 + (s.chunk c).size.toNat
    else (s'.chunk c).size = (s.chunk c).size ∧ m = []) ∧
    ∀ x ∈ l₁ ++ r, s'.block x = s.block x ∧
      ∀ k < (s.chunk x).size.toNat, s'.mem (x.toNat + 16 + k) = s.mem (x.toNat + 16 + k)

/-- `malloc` takes the first free chunk of at least `n` bytes, or returns null if there is none. -/
def FirstFits (s : MemoryManager) (l : List UInt32) (n : UInt32) : Prop :=
  ∃ fuel s' p, s.malloc n fuel = some (s', p) ∧
    match l.find? fun c => s.isFree c && n ≤ (s.chunk c).size with
    | some c => p = c + MemoryChunk.sizeof ∧ s.Takes s' l c n
    | none => p = 0 ∧ s' = s

/-- A free chunk of exactly `n` bytes comes first of those of at least `n` bytes. -/
def ExactFit (s : MemoryManager) (l : List UInt32) (n : UInt32) : Prop :=
  ∃ l₁ c r, l = l₁ ++ c :: r ∧ s.isFree c ∧ (s.chunk c).size = n ∧
    ∀ d ∈ l₁, s.isFree d → (s.chunk d).size < n

namespace Tiled

/-- The pointer returned by `malloc` is that of the chunk found. -/
theorem malloc_found (h : Tiled s a b l) (hm : s.malloc n fuel = some (s', p)) :
    match l.find? fun c => (s.chunk c).size > n ∧ ¬(s.chunk c).allocated with
    | some c => p = c + MemoryChunk.sizeof
    | none => p = 0 ∧ s' = s := by
  rw [MemoryManager.malloc, Option.map_eq_some_iff, h.first] at hm
  obtain ⟨result, hresult, hm⟩ := hm
  have hfind := (search_linked h.linked fun c hc => h.ne_zero hc).1 result hresult
  cases hf : l.find? fun c => (s.chunk c).size > n ∧ ¬(s.chunk c).allocated with
  | none =>
    obtain rfl : result = 0 := by rwa [hf] at hfind
    rw [if_pos rfl] at hm
    cases hm
    exact ⟨rfl, rfl⟩
  | some c =>
    obtain rfl : result = c := by rwa [hf] at hfind
    rw [if_neg (h.ne_zero (List.mem_of_find?_eq_some hf))] at hm
    exact (Prod.mk.inj hm).2.symm

/-- A byte of another chunk is in no header that a split changes. -/
theorem outside_of_mem {x : UInt32} (h : Tiled s a b (l ++ c :: r)) (hx : x ∈ l ++ r)
    (hk : k < (s.chunk x).size.toNat) :
    (x.toNat + 16 + k < c.toNat ∨ c.toNat + 16 + (s.chunk c).size.toNat ≤ x.toNat + 16 + k) ∧
      ((s.chunk c).next ≠ 0 → Outside (x.toNat + 16 + k) (s.chunk c).next) := by
  have hx' := mem_around (c := c) hx
  refine ⟨?_, fun h0 => ?_⟩
  · rcases h.tiles.disjoint (by simp) hx' (h.tiles.apart hx).ne with hd | hd <;> omega
  · have hn := List.mem_append_right l (List.mem_cons_of_mem c (h.next_mem h0))
    rcases eq_or_ne x (s.chunk c).next with heq | hne
    · rw [← heq]
      exact .inr (by omega)
    · rcases h.tiles.disjoint hn hx' hne with hd | hd
      · exact .inl (by omega)
      · exact .inr (by omega)

/-- `malloc` changes no byte of the other chunks. -/
theorem mem_malloc {x : UInt32} (h : Tiled s a b (l ++ c :: r)) (hx : x ∈ l ++ r)
    (hm : s.malloc n fuel = some (s', c + MemoryChunk.sizeof)) (hfit : (s.chunk c).size > n)
    (hk : k < (s.chunk x).size.toNat) :
    s'.mem (x.toNat + 16 + k) = s.mem (x.toNat + 16 + k) := by
  obtain ⟨hout, hnext⟩ := h.outside_of_mem hx hk
  have hc : c ∈ l ++ c :: r := by simp
  have hkc : Outside (x.toNat + 16 + k) c := hout.imp_right fun h => by omega
  rw [MemoryManager.malloc, Option.map_eq_some_iff] at hm
  obtain ⟨result, -, hm⟩ := hm
  -- The pointer is that of the chunk found, so that one has been found.
  split_ifs at hm with h0
  · have hp : (0 : UInt32) = c + MemoryChunk.sizeof := (Prod.mk.inj hm).2
    have := (h.toNat_payload hc).2
    rw [← hp] at this
    exact absurd this (by simp)
  · obtain ⟨rfl, hp⟩ := Prod.mk.inj hm
    obtain rfl : result = c := (UInt32.add_left_inj _).1 hp
    rw [mem_computes, mem_setAllocated hkc]
    split_ifs with hcut
    · have hn : n.toNat + 17 ≤ (s.chunk result).size.toNat := by
        rw [← (h.toNat_request hc hfit).2.2]
        exact hcut
      have ht := h.toNat_temp hn rfl
      refine mem_split rfl (.inl (by omega)) hkc ?_ hnext
      rcases hout with hout | hout
      · exact .inl (by omega)
      · exact .inr (by omega)
    · rfl

/-- `malloc` takes the chunk whose pointer it returns. -/
theorem takes (h : Tiled s a b l) (hm : s.malloc n fuel = some (s', c + MemoryChunk.sizeof))
    (hc : c ∈ l) (hfit : (s.chunk c).size > n) : s.Takes s' l c n := by
  have hpay := (h.toNat_payload hc).2
  rcases h.malloc hm with ⟨h0, -⟩ | ⟨c', l', hc', -, hp, -, hused, -, ht, -, l₁, r, rfl, hblocks⟩
  · rw [h0] at hpay
    exact absurd hpay (by simp)
  obtain rfl : c = c' := (UInt32.add_left_inj _).1 hp
  have hreq := (h.toNat_request hc hfit).2.2
  -- The blocks of the chunks after are those of before.
  rw [List.append_assoc] at hblocks
  obtain ⟨l₂, r₂, rfl, hl₂, hr₂⟩ := List.map_eq_append_iff.1 hblocks
  obtain ⟨m₂, r₃, rfl, hm₂, hr₃⟩ := List.map_eq_append_iff.1 hr₂
  obtain ⟨rfl, hl⟩ := eq_of_map_block hl₂
  obtain ⟨rfl, hr⟩ := eq_of_map_block hr₃
  have hblock : ∀ x ∈ l₂ ++ r₃, s'.block x = s.block x := fun x hx =>
    (List.mem_append.1 hx).elim (hl x) (hr x)
  have hother : ∀ x ∈ l₂ ++ r₃, s'.block x = s.block x ∧ ∀ k < (s.chunk x).size.toNat,
      s'.mem (x.toNat + 16 + k) = s.mem (x.toNat + 16 + k) := fun x hx =>
    ⟨hblock x hx, fun k hk => h.mem_malloc hx hm hfit hk⟩
  have hreach : ∃ fuel, s'.chunks s'.first fuel = some (l₂ ++ (m₂ ++ r₃)) := by
    rw [ht.first]
    exact ⟨_, Heap.chunks_of_linked ht.linked fun c hc => ht.ne_zero hc⟩
  have hlinked := ht.linked
  rw [Block.take] at hm₂
  split_ifs at hm₂ with hcut
  · have hn : n.toNat + 17 ≤ (s.chunk c).size.toNat := by
      rw [← hreq]
      exact hcut
    obtain ⟨c', m, rfl, hc', hm'⟩ := List.map_eq_cons_iff.1 hm₂
    obtain ⟨t, m, rfl, ht', hm''⟩ := List.map_eq_cons_iff.1 hm'
    obtain rfl := List.map_eq_nil_iff.1 hm''
    obtain ⟨rfl, hsize, -⟩ := Block.mk.inj hc'
    obtain ⟨rfl, hrest, hfree⟩ := Block.mk.inj ht'
    refine ⟨l₂, _, r₃, rfl, hreach, hlinked, hused, ?_, hother⟩
    rw [if_pos hn]
    refine ⟨hsize, _, rfl, h.toNat_temp hn rfl, by simp [isFree, hfree], ?_⟩
    obtain ⟨-, -, hbn, hbs⟩ := h.split_no_wrap hn
    have htemp : ((s.block c').addr + MemoryChunk.sizeof + n).toNat = c'.toNat + 16 + n.toNat :=
      h.toNat_temp hn rfl
    rw [hrest, htemp, block, toNat_sub_of_borrow hbs, toNat_sub_of_borrow hbn,
      MemoryChunk.toNat_sizeof]
    omega
  · have hn : ¬n.toNat + 17 ≤ (s.chunk c).size.toNat := by
      rw [← hreq]
      exact hcut
    obtain ⟨c', m, rfl, hc', hm'⟩ := List.map_eq_cons_iff.1 hm₂
    obtain rfl := List.map_eq_nil_iff.1 hm'
    obtain ⟨rfl, hsize, -⟩ := Block.mk.inj hc'
    refine ⟨l₂, [], r₃, rfl, hreach, hlinked, hused, ?_, hother⟩
    rw [if_neg hn]
    exact ⟨hsize, rfl⟩

/-- The chunk that `malloc` takes is the first free one of at least `n` bytes, unless that one
    fits exactly. -/
theorem fits_iff (h : Tiled s a b l) : s.FirstFits l n ↔ ¬s.ExactFit l n := by
  constructor
  · rintro ⟨fuel, s', p, hm, hfirst⟩ ⟨l₁, c, r, rfl, hfree, rfl, hl₁⟩
    -- The exact fit would come first, but `malloc` asks for more bytes than that.
    have hfind : (l₁ ++ c :: r).find? (fun d => s.isFree d && (s.chunk c).size ≤ (s.chunk d).size) =
        some c := by
      refine List.find?_eq_some_iff_append.2 ⟨by simp [hfree], l₁, r, rfl, fun d hd => ?_⟩
      cases hd' : s.isFree d with
      | false => rfl
      | true => simpa using hl₁ d hd hd'
    rw [hfind] at hfirst
    obtain ⟨rfl, -⟩ := hfirst
    have hfound := h.malloc_found hm
    split at hfound
    · rename_i c' hc'
      obtain rfl : c = c' := (UInt32.add_left_inj _).1 hfound
      have hlt := List.find?_some hc'
      simp at hlt
    · have := (h.toNat_payload (c := c) (by simp)).2
      rw [hfound.1] at this
      exact absurd this (by simp)
  · intro hex
    -- Without an exact fit, enough bytes and more than enough are the same for the first chunk.
    obtain ⟨⟨s', p⟩, hm⟩ := Option.isSome_iff_exists.1 (h.malloc_isSome (n := n) (Nat.lt_succ_self _))
    refine ⟨_, s', p, hm, ?_⟩
    have hfound := h.malloc_found hm
    cases hfind : l.find? fun c => s.isFree c && n ≤ (s.chunk c).size with
    | none =>
      rw [List.find?_eq_none.2] at hfound
      · exact hfound
      · intro c hc hfit
        have := List.find?_eq_none.1 hfind c hc
        simp [isFree] at this hfit
        exact absurd (UInt32.le_of_lt hfit.1) (UInt32.not_le.2 (this hfit.2))
    | some c =>
      obtain ⟨hfit, l₁, r, rfl, hl₁⟩ := List.find?_eq_some_iff_append.1 hfind
      simp only [Bool.and_eq_true, decide_eq_true_eq] at hfit
      have hlt : (s.chunk c).size > n := by
        refine UInt32.lt_of_le_of_ne hfit.2 fun hne => hex ⟨l₁, c, r, rfl, hfit.1, hne.symm, fun d hd hf => ?_⟩
        simpa [hf] using hl₁ d hd
      have hfind' : (l₁ ++ c :: r).find? (fun c => (s.chunk c).size > n ∧ ¬(s.chunk c).allocated) =
          some c := by
        refine List.find?_eq_some_iff_append.2 ⟨?_, l₁, r, rfl, fun d hd => ?_⟩
        · simpa [isFree, hlt] using hfit.1
        · have := hl₁ d hd
          simp [isFree] at this ⊢
          exact this.symm.imp_left UInt32.le_of_lt
      rw [hfind'] at hfound
      obtain rfl : p = c + MemoryChunk.sizeof := hfound
      exact ⟨rfl, h.takes hm (by simp) hlt⟩

end Tiled

end GtuOs.MemoryManager

namespace GtuOs.Heap

variable {h : Heap} {mem : Memory} {start size : UInt32}

/-- In every state reached, `malloc` takes the first free chunk of at least the requested
    size exactly if that one does not fit exactly. -/
theorem firstFits_iff (hsize : start.toNat + size.toNat < 2 ^ 32)
    (hr : (runs mem start size).Reachable h) :
    ∃ l, (∃ fuel, h.manager.chunks h.manager.first fuel = some l) ∧
      ∀ n, h.manager.FirstFits l n ↔ ¬h.manager.ExactFit l n := by
  rcases heap_inv_or_empty hsize hr with ⟨l, hi, -⟩ | he
  · exact ⟨l, hi.safe.reached, fun n => hi.tiled.fits_iff⟩
  · refine ⟨[], ⟨1, by rw [he.first]; rfl⟩, fun n => ⟨fun _ => ?_, fun _ => ?_⟩⟩
    · rintro ⟨l₁, c, r, hl, -⟩
      exact absurd hl (by simp)
    · exact ⟨1, _, _, he.malloc 0, rfl, rfl⟩

/-- The rest of the heap of `sampleMalloc` has more than twenty bytes. -/
theorem firstFits_iff_sample : ∃ l, (∃ fuel, sampleMalloc.manager.chunks sampleMalloc.manager.first fuel = some l) ∧
    sampleMalloc.manager.FirstFits l 20 := by
  obtain ⟨l, ⟨fuel, hl⟩, hfirst⟩ := firstFits_iff (by decide) sampleMalloc_reachable
  have hchunks : sampleMalloc.manager.chunks sampleMalloc.manager.first 3 = some [4096, 4120] := by decide +kernel
  have hused : (sampleMalloc.manager.chunk 4096).size ≠ 20 := by decide +kernel
  have hrest : (sampleMalloc.manager.chunk 4120).size ≠ 20 := by decide +kernel
  have hsizes : ∀ c ∈ [4096, 4120], (sampleMalloc.manager.chunk c).size ≠ 20 :=
    List.forall_mem_cons.2 ⟨hused, List.forall_mem_singleton.2 hrest⟩
  refine ⟨l, ⟨fuel, hl⟩, (hfirst 20).2 ?_⟩
  obtain rfl := chunks_unique hl hchunks
  rintro ⟨l₁, c, r, hsplit, -, hsize, -⟩
  exact hsizes c (hsplit ▸ List.mem_append_right _ List.mem_cons_self) hsize

/-- The one free chunk of a new heap is not given out whole. -/
theorem not_firstFits_sampleHeap : (runs (fun _ => 0) 4096 64).Reachable sampleHeap ∧
    (∃ fuel, sampleHeap.manager.chunks sampleHeap.manager.first fuel = some [4096]) ∧
    ¬sampleHeap.manager.FirstFits [4096] 48 := by
  have hi : Inv sampleHeap (4096 : UInt32).toNat _ [4096] :=
    .construct (by decide) (by decide) (by decide)
  refine ⟨.init rfl, hi.safe.reached, fun hf => hi.tiled.fits_iff.1 hf ⟨[], 4096, [], rfl, ?_⟩⟩
  exact ⟨by decide +kernel, by decide +kernel, fun d hd => absurd hd List.not_mem_nil⟩

end GtuOs.Heap

import GtuOs.Lib.System
import GtuOs.MemoryManagement.Coalescing

/-!
# Safety of the heap

Runs of a memory manager and its users: calls of `malloc` and `free`, and writes to the
bytes owned. In every state reached the chunks tile the region, and what is owned is
apart from all headers and from what others own (`heap_safe`).
-/

namespace GtuOs

/-- A memory manager, and the pointers returned by `malloc` that are not freed yet,
    with the sizes requested. -/
structure Heap where
  manager : MemoryManager
  live : List (UInt32 × UInt32)

/-- What the users of the heap do. -/
inductive HeapCall
  | malloc (n : UInt32)
  | free (ptr : UInt32)
  | write (ptr : UInt32) (k : ℕ) (v : UInt8)

namespace Heap

/-- A call. Null is returned by `malloc` when nothing is allocated; bytes are written
    by their owners. -/
def step (h : Heap) : HeapCall → Heap → Prop
  | .malloc n, h' => ∃ fuel m p, h.manager.malloc n fuel = some (m, p) ∧
      h' = ⟨m, if p = 0 then h.live else (p, n) :: h.live⟩
  | .free ptr, h' => ptr ∈ h.live.map Prod.fst ∧
      h' = ⟨h.manager.free ptr, h.live.filter fun e => e.1 ≠ ptr⟩
  | .write ptr k v, h' => ∃ n, (ptr, n) ∈ h.live ∧ k < n.toNat ∧
      h' = ⟨{ h.manager with mem := h.manager.mem.store (ptr.toNat + k) 1 fun _ => v }, h.live⟩

/-- The heap constructed in a region of memory. -/
def construct (mem : Memory) (start size : UInt32) : Heap := ⟨.construct mem start size, []⟩

/-- The runs of the heap in a region of memory. -/
def runs (mem : Memory) (start size : UInt32) : System Heap HeapCall where
  init h := h = construct mem start size
  step := step

end Heap

/-- The chunks reached from `c` by `next`. -/
def MemoryManager.chunks (s : MemoryManager) (c : UInt32) : ℕ → Option (List UInt32)
  | 0 => none
  | fuel + 1 => if c = 0 then some [] else (s.chunks (s.chunk c).next fuel).map (c :: ·)

/-- Ranges of bytes do not overlap. -/
def Separate (a m b n : ℕ) : Prop := a + m ≤ b ∨ b + n ≤ a

namespace Heap

/-- The heap is safe in the region from `a` to `b`, with the chunks `l`. -/
structure Safe (h : Heap) (a b : ℕ) (l : List UInt32) : Prop where
  reached : ∃ fuel, h.manager.chunks h.manager.first fuel = some l
  tiles : Tiles (fun c => (h.manager.chunk c).size) a l b
  linked : Linked (fun c => (h.manager.chunk c).next) (fun c => (h.manager.chunk c).prev) 0 l 0
  inverse : ∀ c ∈ l, ∀ d ∈ l, (h.manager.chunk c).next = d ↔ (h.manager.chunk d).prev = c
  inside : ∀ e ∈ h.live, a ≤ e.1.toNat ∧ e.1.toNat + e.2.toNat ≤ b
  headers : ∀ e ∈ h.live, ∀ c ∈ l, Separate e.1.toNat e.2.toNat c.toNat 16
  apart : h.live.Pairwise fun e e' => Separate e.1.toNat e.2.toNat e'.1.toNat e'.2.toNat
  wrapped : h.manager.wrapped = false

/-- The invariant: each live pointer is that of a chunk in use. -/
structure Inv (h : Heap) (a b : ℕ) (l : List UInt32) : Prop where
  tiled : h.manager.Tiled a b l
  nodup : (h.live.map Prod.fst).Nodup
  owner : ∀ e ∈ h.live, ∃ c ∈ l, e.1 = c + MemoryChunk.sizeof ∧ (h.manager.chunk c).allocated ∧
    e.2 ≤ (h.manager.chunk c).size

/-- No two neighbouring chunks are free, and a chunk is in use for each live pointer. -/
structure Coalesced (h : Heap) (l : List UInt32) : Prop where
  separated : MemoryManager.Block.Separated (l.map h.manager.block)
  numUsed : MemoryManager.Block.numUsed (l.map h.manager.block) = h.live.length

variable {h h' : Heap} {a b : ℕ} {l : List UInt32} {mem : Memory} {start size : UInt32}

theorem chunks_of_linked {s : MemoryManager} {p : UInt32}
    (h : Linked (fun c => (s.chunk c).next) (fun c => (s.chunk c).prev) p l 0)
    (h0 : ∀ c ∈ l, c ≠ 0) : s.chunks (l.headD 0) (l.length + 1) = some l := by
  induction l generalizing p with
  | nil => rfl
  | cons c l ih =>
    obtain ⟨-, hnext, hl⟩ := h
    replace hnext : (s.chunk c).next = l.headD 0 := hnext
    rw [List.headD_cons, List.length_cons, MemoryManager.chunks, if_neg (h0 c List.mem_cons_self), hnext,
      ih hl fun d hd => h0 d (List.mem_cons_of_mem _ hd)]
    rfl

theorem length_filter_ne {live : List (UInt32 × UInt32)} {e : UInt32 × UInt32}
    (hnodup : (live.map Prod.fst).Nodup) (he : e ∈ live) :
    (live.filter fun e' => e'.1 ≠ e.1).length + 1 = live.length := by
  have hmap : (live.filter fun e' => e'.1 ≠ e.1).map Prod.fst = (live.map Prod.fst).erase e.1 := by
    rw [hnodup.erase_eq_filter, List.filter_map]
    congr 1
    exact List.filter_congr fun e' _ => by simp [bne, Bool.beq_eq_decide_eq]
  have hlen := congrArg List.length hmap
  rw [List.length_map, List.length_erase_of_mem (List.mem_map_of_mem he), List.length_map] at hlen
  have := List.length_pos_of_mem he
  omega

namespace Inv

theorem construct (hstart : 0 < start) (hsize : start.toNat + size.toNat < 2 ^ 32)
    (hle : MemoryChunk.sizeof ≤ size) :
    Inv (Heap.construct mem start size) start.toNat (start.toNat + size.toNat) [start] := by
  have hsub : borrow size MemoryChunk.sizeof = false := borrow_eq_false.2 hle
  have hchunk : (MemoryManager.construct mem start size).chunk start =
      ⟨0, 0, false, size - MemoryChunk.sizeof⟩ := by
    simp [MemoryManager.construct, UInt32.not_lt.2 hle]
  have hrest := toNat_sub_of_borrow hsub
  rw [MemoryChunk.toNat_sizeof] at hrest
  have hle' : 16 ≤ size.toNat := hle
  refine ⟨⟨?_, ⟨rfl, ?_⟩, ⟨?_, ?_, trivial⟩, hstart, hsize, ?_⟩, List.nodup_nil, by simp [Heap.construct]⟩
  · simp [Heap.construct, MemoryManager.construct, UInt32.not_lt.2 hle]
  · simp only [Heap.construct, hchunk, Tiles]
    omega
  · simp [Heap.construct, hchunk]
  · simp [Heap.construct, hchunk]
  · simp [Heap.construct, MemoryManager.construct, UInt32.not_lt.2 hle, hsub]

theorem coalesced_construct (hle : MemoryChunk.sizeof ≤ size) :
    Coalesced (Heap.construct mem start size) [start] := by
  refine ⟨List.isChain_singleton _, ?_⟩
  simp [Heap.construct, MemoryManager.block, MemoryManager.Block.numUsed, MemoryManager.construct,
    UInt32.not_lt.2 hle]

/-- What is owned is in the bytes of a chunk. -/
theorem owned (hi : Inv h a b l) {e : UInt32 × UInt32} (he : e ∈ h.live) :
    ∃ c ∈ l, e.1 = c + MemoryChunk.sizeof ∧ e.1.toNat = c.toNat + 16 ∧
      e.2.toNat ≤ (h.manager.chunk c).size.toNat := by
  obtain ⟨c, hc, he₁, -, he₂⟩ := hi.owner e he
  exact ⟨c, hc, he₁, he₁ ▸ (hi.tiled.toNat_payload hc).2, he₂⟩

theorem malloc (hi : Inv h a b l) {n : UInt32} (hs : h.step (.malloc n) h') :
    ∃ l', Inv h' a b l' ∧ (Coalesced h l → Coalesced h' l') := by
  obtain ⟨fuel, m, p, hm, rfl⟩ := hs
  rcases hi.tiled.malloc hm with
    ⟨rfl, rfl⟩ | ⟨c, l', hc, hfree, hp, hc', hused, hn, ht, hkeep, l₁, r, hl, hblocks⟩
  · exact ⟨l, by simpa using hi, by simp⟩
  have hp0 : p ≠ 0 := by
    rintro rfl
    have := (hi.tiled.toNat_payload hc).2
    rw [← hp] at this
    exact absurd this (by simp)
  rw [if_neg hp0]
  -- The new pointer is not live yet: its chunk was free.
  refine ⟨l', ⟨ht, List.nodup_cons.2 ⟨fun hmem => ?_, hi.nodup⟩, fun e he => ?_⟩, fun hco => ?_⟩
  · obtain ⟨e, he, rfl⟩ := List.mem_map.1 hmem
    obtain ⟨d, -, hd, hused', -⟩ := hi.owner e he
    obtain rfl : d = c := (UInt32.add_left_inj _).1 (hd.symm.trans hp)
    exact hfree hused'
  · rcases List.mem_cons.1 he with rfl | he
    · exact ⟨c, hc', hp, hused, hn⟩
    · obtain ⟨d, hd, he₁, hused', he₂⟩ := hi.owner e he
      obtain ⟨hd', hused'', hsize⟩ := hkeep d hd hused'
      exact ⟨d, hd', he₁, hused'', hsize ▸ he₂⟩
  · have hfree' : (h.manager.block c).used = false := by simpa [MemoryManager.block] using hfree
    have hsep := hco.separated
    have hnum := hco.numUsed
    rw [hl, List.map_append, List.map_cons] at hsep hnum
    constructor
    · rw [hblocks]
      exact hsep.take hfree'
    · rw [hblocks, MemoryManager.Block.numUsed_take hfree', hnum]
      rfl

theorem free (hi : Inv h a b l) {p : UInt32} (hs : h.step (.free p) h') :
    ∃ l', Inv h' a b l' ∧ (Coalesced h l → Coalesced h' l') := by
  obtain ⟨hmem, rfl⟩ := hs
  obtain ⟨e, he, rfl⟩ := List.mem_map.1 hmem
  obtain ⟨c, hc, he₁, hused, -⟩ := hi.owner e he
  obtain ⟨l, r, rfl⟩ := List.append_of_mem hc
  obtain ⟨l', ht, hkeep, m, d, hjoin, hblocks⟩ := hi.tiled.free
  rw [← he₁] at ht hkeep hblocks
  generalize h.manager.free e.1 = s at ht hkeep hblocks
  refine ⟨l', ⟨ht, hi.nodup.sublist (List.filter_sublist.map _), fun e' he' => ?_⟩, fun hco => ?_⟩
  -- The release comes first, since it needs the whole list of the live pointers.
  swap
  · have hsep := hco.separated
    have hnum := hco.numUsed
    rw [List.map_append, List.map_cons] at hsep hnum
    obtain ⟨hsep', hnum'⟩ := hsep.release hused hjoin
    have hlen := length_filter_ne hi.nodup he
    constructor
    · rw [hblocks]
      exact hsep'
    · rw [hblocks]
      dsimp only
      omega
  obtain ⟨he', hne⟩ : e' ∈ h.live ∧ e'.1 ≠ e.1 := by simpa using he'
  obtain ⟨d, hd, he₁', hused, he₂⟩ := hi.owner e' he'
  have hdc : d ≠ c := by
    rintro rfl
    exact hne (he₁'.trans he₁.symm)
  obtain ⟨hd', hused', hsize⟩ := hkeep d hd hdc hused
  exact ⟨d, hd', he₁', hused', hsize ▸ he₂⟩

theorem write (hi : Inv h a b l) {p : UInt32} {k : ℕ} {v : UInt8} (hs : h.step (.write p k v) h') :
    Inv h' a b l ∧ (Coalesced h l → Coalesced h' l) := by
  obtain ⟨n, hmem, hk, rfl⟩ := hs
  obtain ⟨c, hc, -, hp, hn⟩ := hi.owned hmem
  have hchunk : ∀ x ∈ l, MemoryManager.chunk
      { h.manager with mem := h.manager.mem.store (p.toNat + k) 1 fun _ => v } x =
      h.manager.chunk x := fun x hx => MemoryChunk.load_congr fun j hj => by
    dsimp only
    refine Memory.store_of_not_mem ?_
    rcases eq_or_ne x c with rfl | hne
    · dsimp only at hp hn
      omega
    · have := hi.tiled.tiles.disjoint hc hx hne
      dsimp only at hp hn
      omega
  refine ⟨⟨hi.tiled.congr rfl hi.tiled.wrapped fun x hx => by rw [hchunk x hx]; exact ⟨rfl, rfl, rfl⟩,
    hi.nodup, fun e he => ?_⟩, fun hco => ?_⟩
  · obtain ⟨d, hd, he₁, hused, he₂⟩ := hi.owner e he
    exact ⟨d, hd, he₁, by rwa [hchunk d hd], by rwa [hchunk d hd]⟩
  · have hblocks : l.map (MemoryManager.block
        { h.manager with mem := h.manager.mem.store (p.toNat + k) 1 fun _ => v }) =
        l.map h.manager.block := List.map_congr_left fun x hx => by
      rw [MemoryManager.block, hchunk x hx, MemoryManager.block]
    exact ⟨hblocks ▸ hco.separated, hblocks ▸ hco.numUsed⟩

/-- One step. -/
theorem step (hi : Inv h a b l) {i : HeapCall} (hs : h.step i h') :
    ∃ l', Inv h' a b l' ∧ (Coalesced h l → Coalesced h' l') := by
  cases i with
  | malloc n => exact hi.malloc hs
  | free p => exact hi.free hs
  | write p k v => exact ⟨l, hi.write hs⟩

/-- With no live pointer, the heap is one free chunk. -/
theorem eq_of_live (hi : Inv h start.toNat (start.toNat + size.toNat) l) (hco : Coalesced h l)
    (hle : MemoryChunk.sizeof ≤ size) (hlive : h.live = []) :
    l = [start] ∧ h.manager.chunk start = ⟨0, 0, false, size - MemoryChunk.sizeof⟩ := by
  have hnum : MemoryManager.Block.numUsed (l.map h.manager.block) = 0 := by
    rw [hco.numUsed, hlive]
    rfl
  -- No two neighbours are free, and none is in use: there is at most one chunk.
  have hlen := hco.separated.length_le hnum
  rw [List.length_map] at hlen
  have hle' : 16 ≤ size.toNat := hle
  have htiles := hi.tiled.tiles
  have hlinked := hi.tiled.linked
  match l, hlen with
  | [], _ =>
    have : start.toNat = start.toNat + size.toNat := htiles
    omega
  | [c], _ =>
    obtain ⟨hc, hsize⟩ := htiles
    obtain rfl : c = start := UInt32.toNat_inj.1 hc
    obtain ⟨hprev, hnext, -⟩ := hlinked
    replace hprev : (h.manager.chunk c).prev = 0 := hprev
    replace hnext : (h.manager.chunk c).next = 0 := hnext
    have hfree : (h.manager.chunk c).allocated = false := by
      simpa [MemoryManager.Block.numUsed, MemoryManager.block] using hnum
    have hrest : (h.manager.chunk c).size = size - MemoryChunk.sizeof := by
      apply UInt32.toNat_inj.1
      rw [toNat_sub_of_borrow (borrow_eq_false.2 hle), MemoryChunk.toNat_sizeof]
      have : c.toNat + 16 + (h.manager.chunk c).size.toNat = c.toNat + size.toNat := hsize
      omega
    refine ⟨rfl, ?_⟩
    generalize h.manager.chunk c = d at hprev hnext hfree hrest
    cases d
    simp_all

theorem safe (hi : Inv h a b l) : h.Safe a b l where
  reached := by
    rw [hi.tiled.first]
    exact ⟨l.length + 1, chunks_of_linked hi.tiled.linked fun c hc => hi.tiled.ne_zero hc⟩
  tiles := hi.tiled.tiles
  linked := hi.tiled.linked
  inverse c hc d hd :=
    hi.tiled.linked.next_eq_iff (fun h0 => hi.tiled.ne_zero h0 rfl) (fun h0 => hi.tiled.ne_zero h0 rfl) hc hd
  inside e he := by
    obtain ⟨c, hc, -, he₁, he₂⟩ := hi.owned he
    have := hi.tiled.tiles.mem hc
    omega
  headers e he d hd := by
    obtain ⟨c, hc, -, he₁, he₂⟩ := hi.owned he
    rcases eq_or_ne d c with rfl | hne
    · exact .inr (by omega)
    · rcases hi.tiled.tiles.disjoint hc hd hne with h | h
      · exact .inr (by omega)
      · exact .inl (by omega)
  apart := by
    refine (List.pairwise_map.1 hi.nodup).imp_of_mem fun {e e'} he he' hne => ?_
    obtain ⟨c, hc, hec, he₁, he₂⟩ := hi.owned he
    obtain ⟨d, hd, hed, he₁', he₂'⟩ := hi.owned he'
    have hdc : d ≠ c := by
      rintro rfl
      exact hne (hec.trans hed.symm)
    rcases hi.tiled.tiles.disjoint hc hd hdc with h | h
    · exact .inr (by omega)
    · exact .inl (by omega)
  wrapped := hi.tiled.wrapped

end Inv

/-- A region without room for a header has no chunks. -/
structure Empty (h : Heap) : Prop where
  first : h.manager.first = 0
  live : h.live = []
  wrapped : h.manager.wrapped = false

theorem Empty.malloc (he : h.Empty) {n : UInt32} (fuel : ℕ) :
    h.manager.malloc n (fuel + 1) = some (h.manager, 0) := by
  rw [MemoryManager.malloc, he.first]
  rfl

theorem Empty.step (he : h.Empty) {i : HeapCall} (hs : h.step i h') : h'.Empty := by
  cases i with
  | malloc n =>
    obtain ⟨fuel, m, p, hm, rfl⟩ := hs
    cases fuel with
    | zero => simp [MemoryManager.malloc, MemoryManager.search] at hm
    | succ fuel =>
      cases (he.malloc fuel).symm.trans hm
      exact he
  | free p => simp [Heap.step, he.live] at hs
  | write p k v => simp [Heap.step, he.live] at hs

/-- The invariant of runs. -/
theorem heap_safe_or_empty (hstart : 0 < start) (hsize : start.toNat + size.toNat < 2 ^ 32)
    (hr : (runs mem start size).Reachable h) :
    if MemoryChunk.sizeof ≤ size then
      ∃ l, Inv h start.toNat (start.toNat + size.toNat) l ∧ Coalesced h l
    else h.Empty := by
  split_ifs with hle
  · refine hr.invariant (P := fun h => ∃ l, Inv h _ _ l ∧ Coalesced h l) ?_ ?_
    · rintro _ rfl
      exact ⟨_, .construct hstart hsize hle, Inv.coalesced_construct hle⟩
    · rintro h i h' - ⟨l, hi, hco⟩ hs
      obtain ⟨l', hi', hco'⟩ := hi.step hs
      exact ⟨l', hi', hco' hco⟩
  · refine hr.invariant ?_ fun h i h' _ he hs => he.step hs
    rintro _ rfl
    have hlt : size < MemoryChunk.sizeof := UInt32.not_le.1 hle
    constructor <;> simp [construct, MemoryManager.construct, hlt]

/-- The heap is safe in every state reached, and `malloc` always returns. A region
    without room for a header stays without chunks and pointers. -/
theorem heap_safe (hstart : 0 < start) (hsize : start.toNat + size.toNat < 2 ^ 32)
    (hr : (runs mem start size).Reachable h) :
    (∀ n, ∃ fuel, (h.manager.malloc n fuel).isSome) ∧
      if MemoryChunk.sizeof ≤ size then ∃ l, h.Safe start.toNat (start.toNat + size.toNat) l
      else h.Empty := by
  have hinv := heap_safe_or_empty hstart hsize hr
  split_ifs at hinv ⊢ with hle
  · obtain ⟨l, hi, -⟩ := hinv
    exact ⟨fun n => ⟨_, hi.tiled.malloc_isSome (Nat.lt_succ_self _)⟩, l, hi.safe⟩
  · exact ⟨fun n => ⟨1, by rw [hinv.malloc 0]; rfl⟩, hinv⟩

/-- No two neighbouring chunks are free in any state reached, and the heap is the initial
    chunk whenever no pointer is live. -/
theorem heap_coalesced (hstart : 0 < start) (hsize : start.toNat + size.toNat < 2 ^ 32)
    (hr : (runs mem start size).Reachable h) :
    if MemoryChunk.sizeof ≤ size then
      ∃ l, (∃ fuel, h.manager.chunks h.manager.first fuel = some l) ∧
        (l.IsChain fun c d => (h.manager.chunk c).allocated ∨ (h.manager.chunk d).allocated) ∧
        (h.live = [] → l = [start] ∧
          h.manager.chunk start = ⟨0, 0, false, size - MemoryChunk.sizeof⟩)
    else h.Empty := by
  have hsafe := (heap_safe_or_empty hstart hsize hr)
  split_ifs at hsafe ⊢ with hle
  · obtain ⟨l, hi, hco⟩ := hsafe
    exact ⟨l, hi.safe.reached, (List.isChain_map h.manager.block).1 hco.separated, hi.eq_of_live hco hle⟩
  · exact hsafe

/-- A heap of 64 bytes. -/
def sampleHeap : Heap := construct (fun _ => 0) 4096 64

/-- Its first pointer. -/
def sampleMalloc : Heap :=
  match sampleHeap.manager.malloc 8 2 with
  | some (m, p) => ⟨m, (p, 8) :: sampleHeap.live⟩
  | none => sampleHeap

theorem sampleMalloc_reachable : (runs (fun _ => 0) 4096 64).Reachable sampleMalloc := by
  have hptr : (sampleHeap.manager.malloc 8 2).map Prod.snd = some 4112 := by decide +kernel
  obtain ⟨⟨m, p⟩, hm, rfl⟩ := Option.map_eq_some_iff.1 hptr
  have hs : sampleHeap.step (.malloc 8) sampleMalloc := ⟨2, m, _, hm, by rw [sampleMalloc, hm]; rfl⟩
  exact .step (s := sampleHeap) (i := .malloc 8) (.init rfl) hs

/-- A call of `malloc` or `free`, evaluated. -/
def call (fuel : ℕ) (h : Heap) : HeapCall → Option Heap
  | .malloc n => (h.manager.malloc n fuel).map fun x => ⟨x.1, if x.2 = 0 then h.live else (x.2, n) :: h.live⟩
  | .free ptr =>
    if ptr ∈ h.live.map Prod.fst then some ⟨h.manager.free ptr, h.live.filter fun e => e.1 ≠ ptr⟩ else none
  | .write _ _ _ => none

theorem step_of_call {fuel : ℕ} {i : HeapCall} (hcall : call fuel h i = some h') : h.step i h' := by
  cases i with
  | malloc n =>
    obtain ⟨⟨m, p⟩, hm, rfl⟩ := Option.map_eq_some_iff.1 hcall
    exact ⟨fuel, m, p, hm, rfl⟩
  | free ptr =>
    obtain ⟨hptr, hfree⟩ := Option.ite_none_right_eq_some.1 hcall
    exact ⟨hptr, (Option.some.inj hfree).symm⟩
  | write ptr k v => cases hcall

theorem reachable_of_calls {fuel : ℕ} {calls : List HeapCall}
    (hcalls : calls.foldlM (call fuel) h = some h') (hr : (runs mem start size).Reachable h) :
    (runs mem start size).Reachable h' := by
  induction calls generalizing h with
  | nil =>
    obtain rfl := Option.some.inj hcalls
    exact hr
  | cons i calls ih =>
    obtain ⟨h₁, hcall, hcalls⟩ := Option.bind_eq_some_iff.1 hcalls
    exact ih hcalls (hr.step (step_of_call hcall))

/-- The chunks do not depend on the fuel. -/
theorem chunks_unique {s : MemoryManager} {c : UInt32} {l' : List UInt32} {m n : ℕ}
    (hl : s.chunks c m = some l) (hl' : s.chunks c n = some l') : l = l' := by
  induction m generalizing c l l' n with
  | zero => cases hl
  | succ m ih =>
    cases n with
    | zero => cases hl'
    | succ n =>
      rw [MemoryManager.chunks] at hl hl'
      split_ifs at hl hl' with hc
      · exact Option.some.inj (hl.symm.trans hl')
      · obtain ⟨rest, hrest, rfl⟩ := Option.map_eq_some_iff.1 hl
        obtain ⟨rest', hrest', rfl⟩ := Option.map_eq_some_iff.1 hl'
        rw [ih hrest hrest']

/-- Three pointers, the first two of which are freed. -/
def sampleCalls : List HeapCall := [.malloc 8, .malloc 8, .malloc 8, .free 4112, .free 4136]

theorem sampleCalls_spec : ∃ h : Heap, (runs (fun _ => 0) 4096 128).Reachable h ∧ h.live = [(4160, 8)] ∧
    h.manager.chunk 4096 = ⟨4144, 0, false, 32⟩ ∧
    h.manager.chunks h.manager.first 5 = some [4096, 4144, 4168] := by
  have heval : (sampleCalls.foldlM (call 5) (construct (fun _ => 0) 4096 128)).any (fun h =>
      (h.live = [(4160, 8)] && h.manager.chunk 4096 = ⟨4144, 0, false, 32⟩) &&
        h.manager.chunks h.manager.first 5 = some [4096, 4144, 4168]) = true := by
    decide +kernel
  obtain ⟨h, hcalls, heval⟩ := (Option.any_eq_true _ _).1 heval
  obtain ⟨heval, hchunks⟩ := Bool.and_eq_true_iff.1 heval
  obtain ⟨hlive, hchunk⟩ := Bool.and_eq_true_iff.1 heval
  have hinit : (runs (fun _ => 0) 4096 128).Reachable (construct (fun _ => 0) 4096 128) := .init rfl
  exact ⟨h, reachable_of_calls hcalls hinit, of_decide_eq_true hlive, of_decide_eq_true hchunk,
    of_decide_eq_true hchunks⟩

/-- The third pointer is apart from the chunks. -/
theorem heap_safe_freed : ∃ h : Heap, h.live = [(4160, 8)] ∧ (∃ fuel, (h.manager.malloc 8 fuel).isSome) ∧
    h.Safe 4096 4224 [4096, 4144, 4168] := by
  obtain ⟨h, hr, hlive, -, hchunks⟩ := sampleCalls_spec
  obtain ⟨hmalloc, hsafe⟩ := heap_safe (by decide) (by decide) hr
  rw [if_pos (by decide)] at hsafe
  obtain ⟨l, hsafe⟩ := hsafe
  obtain ⟨fuel, hl⟩ := hsafe.reached
  obtain rfl := chunks_unique hl hchunks
  exact ⟨h, hlive, hmalloc 8, hsafe⟩

/-- The two chunks freed, which are neighbours, are one. -/
theorem heap_coalesced_freed : ∃ h : Heap, h.live = [(4160, 8)] ∧
    h.manager.chunk 4096 = ⟨4144, 0, false, 32⟩ ∧
    [4096, 4144, 4168].IsChain fun c d => (h.manager.chunk c).allocated ∨ (h.manager.chunk d).allocated := by
  obtain ⟨h, hr, hlive, hchunk, hchunks⟩ := sampleCalls_spec
  have hco := heap_coalesced (by decide) (by decide) hr
  rw [if_pos (by decide)] at hco
  obtain ⟨l, ⟨fuel, hl⟩, hchain, -⟩ := hco
  obtain rfl := chunks_unique hl hchunks
  exact ⟨h, hlive, hchunk, hchain⟩

/-- One byte is not tiled. -/
theorem not_safe_byte : (runs (fun _ => 0) 1 1).Reachable (construct (fun _ => 0) 1 1) ∧
    ¬∃ l, (construct (fun _ => 0) 1 1).Safe 1 2 l := by
  refine ⟨.init rfl, fun ⟨l, hs⟩ => ?_⟩
  obtain ⟨fuel, hl⟩ := hs.reached
  cases fuel with
  | zero => cases hl
  | succ fuel =>
    cases hl
    exact absurd hs.tiles (by simp [Tiles])

/-- One byte has no initial chunk. -/
theorem not_initial_chunk_byte : (runs (fun _ => 0) 1 1).Reachable (construct (fun _ => 0) 1 1) ∧
    (construct (fun _ => 0) 1 1).live = [] ∧
    ¬∃ fuel, (construct (fun _ => 0) 1 1).manager.chunks
      (construct (fun _ => 0) 1 1).manager.first fuel = some [1] := by
  refine ⟨.init rfl, rfl, fun ⟨fuel, hl⟩ => ?_⟩
  cases fuel <;> cases hl

end Heap

end GtuOs

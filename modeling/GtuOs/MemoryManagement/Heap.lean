import GtuOs.MemoryManagement.Chunks

/-!
# The chunks of the heap

`Tiled s a b l` says that the chunks of `s`, from `first` on, are `l`, linked both ways,
and fill the region from `a` to `b`, and that nothing has wrapped so far. The edits of the
memory manager keep this:

* `Tiled.split`: the split of `malloc`;
* `Tiled.mergePrev`, `Tiled.mergeNext`: the merges of `free`.
-/

namespace GtuOs

/-- Distinct chunks of a tiling are apart. -/
theorem Tiles.apart {size : UInt32 → UInt32} {a b : ℕ} {c x : UInt32} {l r : List UInt32}
    (h : Tiles size a (l ++ c :: r) b) (hx : x ∈ l ++ r) : Apart x c := by
  rcases List.mem_append.1 hx with hx | hx
  · have := h.around.1 x hx
    exact .inl (by omega)
  · have := h.around.2 x hx
    exact .inr (by omega)

theorem Apart.ne {a b : UInt32} (h : Apart a b) : a ≠ b := by
  rintro rfl
  rcases h with h | h <;> omega

namespace MemoryManager

variable {s : MemoryManager} {a b : ℕ} {c d p n t v x : UInt32} {l r : List UInt32}

@[simp] theorem first_computes {w : Bool} : (s.computes w).first = s.first := rfl
@[simp] theorem first_setNext : (s.setNext c v).first = s.first := rfl
@[simp] theorem first_setPrev : (s.setPrev c v).first = s.first := rfl
@[simp] theorem first_setSize : (s.setSize c v).first = s.first := rfl
@[simp] theorem first_setAllocated {w : Bool} : (s.setAllocated c w).first = s.first := rfl

@[simp] theorem wrapped_computes {w : Bool} : (s.computes w).wrapped = (s.wrapped || w) := rfl
@[simp] theorem wrapped_setNext : (s.setNext c v).wrapped = s.wrapped := rfl
@[simp] theorem wrapped_setPrev : (s.setPrev c v).wrapped = s.wrapped := rfl
@[simp] theorem wrapped_setSize : (s.setSize c v).wrapped = s.wrapped := rfl
@[simp] theorem wrapped_setAllocated {w : Bool} : (s.setAllocated c w).wrapped = s.wrapped := rfl

@[simp] theorem first_linkBack : (s.linkBack c v).first = s.first := by
  rw [linkBack]
  split_ifs <;> rfl

@[simp] theorem wrapped_linkBack : (s.linkBack c v).wrapped = s.wrapped := by
  rw [linkBack]
  split_ifs <;> rfl

/-! ## The edits -/

/-- Only the chunk after `c` changes, in its field `prev`. -/
theorem chunk_linkBack (hx : (s.chunk c).next ≠ 0 → x = (s.chunk c).next ∨ Apart x (s.chunk c).next) :
    (s.linkBack c v).chunk x =
      { s.chunk x with prev := if x = (s.chunk c).next ∧ x ≠ 0 then v else (s.chunk x).prev } := by
  rw [linkBack]
  split_ifs with h0 h h
  · rw [← h.1, chunk_setPrev]
  · rcases hx h0 with rfl | hx
    · exact absurd ⟨rfl, h0⟩ h
    · exact chunk_setPrev_of_apart hx
  · exact absurd (h.1 ▸ h.2) h0
  · rfl

section split

variable (ht : t = c + MemoryChunk.sizeof + n) (hct : Apart c t)
include ht hct

/-- A header is written at `t`, which is then linked in. -/
theorem split_eq : ∃ s' : MemoryManager,
    s.split c n = ((s'.linkBack t t).setSize c n).setNext c t ∧
      s'.chunk t = ⟨(s.chunk c).next, c, false, (s.chunk c).size - n - MemoryChunk.sizeof⟩ ∧
      ∀ x, Apart x t → s'.chunk x = s.chunk x := by
  subst ht
  refine ⟨_, rfl, ?_, fun x hx => ?_⟩
  · simp [chunk_setAllocated_of_apart, chunk_setSize_of_apart, chunk_setPrev_of_apart, hct]
  · simp only [chunk_setAllocated_of_apart, chunk_setSize_of_apart, chunk_setPrev_of_apart,
      chunk_setNext_of_apart, chunk_computes, hx]

/-- The other chunks are as before, but for the one after, which is linked back. -/
theorem chunk_split (hxc : Apart x c) (hxt : Apart x t)
    (hx : (s.chunk c).next ≠ 0 → x = (s.chunk c).next ∨ Apart x (s.chunk c).next) :
    (s.split c n).chunk x =
      { s.chunk x with prev := if x = (s.chunk c).next ∧ x ≠ 0 then t else (s.chunk x).prev } := by
  obtain ⟨s', hs, hst, hs'⟩ := split_eq ht hct
  rw [hs, chunk_setNext_of_apart hxc, chunk_setSize_of_apart hxc, chunk_linkBack, hst, hs' x hxt]
  rwa [hst]

theorem wrapped_split : (s.split c n).wrapped =
    (s.wrapped || (carry c MemoryChunk.sizeof || carry (c + MemoryChunk.sizeof) n) ||
      (borrow (s.chunk c).size n || borrow ((s.chunk c).size - n) MemoryChunk.sizeof)) := by
  subst ht
  simp [split, chunk_setAllocated_of_apart, hct]

variable (hnext : (s.chunk c).next ≠ 0 → Apart (s.chunk c).next c ∧ Apart (s.chunk c).next t)
include hnext

/-- The chunk split keeps `n` bytes. -/
theorem chunk_split_result :
    (s.split c n).chunk c = { s.chunk c with size := n, next := t } := by
  obtain ⟨s', hs, hst, hs'⟩ := split_eq ht hct
  have hlink : (s'.linkBack t t).chunk c = s.chunk c := by
    rw [chunk_linkBack, hst, hs' c hct]
    · rw [if_neg]
      rintro ⟨h, h0⟩
      exact (hnext (h ▸ h0)).1.ne h.symm
    · rw [hst]
      exact fun h => .inr (hnext h).1.symm
  simp [hs, hlink]

/-- The rest of it becomes a free chunk. -/
theorem chunk_split_temp : (s.split c n).chunk t =
    ⟨(s.chunk c).next, c, false, (s.chunk c).size - n - MemoryChunk.sizeof⟩ := by
  obtain ⟨s', hs, hst, hs'⟩ := split_eq ht hct
  rw [hs, chunk_setNext_of_apart hct.symm, chunk_setSize_of_apart hct.symm, chunk_linkBack, hst]
  · rw [if_neg]
    rintro ⟨h, h0⟩
    exact (hnext (h ▸ h0)).2.ne h.symm
  · rw [hst]
    exact fun h => .inr (hnext h).2.symm

end split

section merge

/-- The chunk `d` before `c` gets its link and size, before the one after is linked back. -/
theorem mergePrev_eq (hcd : Apart c d) (hp : (s.chunk c).prev = d) :
    ∃ s' : MemoryManager, s.mergePrev c = s'.linkBack c d ∧ s'.chunk c = s.chunk c ∧
      s'.chunk d = { s.chunk d with
        next := (s.chunk c).next
        size := (s.chunk d).size + ((s.chunk c).size + MemoryChunk.sizeof) } ∧
      ∀ x, Apart x d → s'.chunk x = s.chunk x := by
  subst hp
  simp only [mergePrev, chunk_setNext_of_apart, chunk_setSize_of_apart, hcd, chunk_computes]
  refine ⟨_, rfl, ?_, ?_, fun x hx => ?_⟩
  · simp [chunk_setNext_of_apart, chunk_setSize_of_apart, hcd]
  · simp
  · simp only [chunk_setNext_of_apart, chunk_setSize_of_apart, chunk_computes, hx]

/-- The chunk `c` gets the link and size of `d` after it, before the one after is linked back. -/
theorem mergeNext_eq (hcd : Apart c d) (hn : (s.chunk c).next = d) :
    ∃ s' : MemoryManager, s.mergeNext c = s'.linkBack c c ∧
      s'.chunk c = { s.chunk c with
        next := (s.chunk d).next
        size := (s.chunk c).size + ((s.chunk d).size + MemoryChunk.sizeof) } ∧
      ∀ x, Apart x c → s'.chunk x = s.chunk x := by
  subst hn
  refine ⟨_, rfl, ?_, fun x hx => ?_⟩
  · simp [chunk_setSize_of_apart, hcd.symm]
  · simp only [chunk_setNext_of_apart, chunk_setSize_of_apart, chunk_computes, hx]

theorem wrapped_mergePrev (hcd : Apart c d) (hp : (s.chunk c).prev = d) :
    (s.mergePrev c).wrapped = (s.wrapped || (carry (s.chunk c).size MemoryChunk.sizeof ||
      carry (s.chunk d).size ((s.chunk c).size + MemoryChunk.sizeof))) := by
  subst hp
  simp [mergePrev, chunk_setNext_of_apart, hcd]

theorem wrapped_mergeNext (hn : (s.chunk c).next = d) :
    (s.mergeNext c).wrapped = (s.wrapped || (carry (s.chunk d).size MemoryChunk.sizeof ||
      carry (s.chunk c).size ((s.chunk d).size + MemoryChunk.sizeof))) := by
  subst hn
  simp [mergeNext]

/-- The chunk before `c` is extended by `c`. -/
theorem chunk_mergePrev_prev (hcd : Apart c d) (hp : (s.chunk c).prev = d)
    (hnext : (s.chunk c).next ≠ 0 → Apart d (s.chunk c).next) :
    (s.mergePrev c).chunk d = { s.chunk d with
      next := (s.chunk c).next
      size := (s.chunk d).size + ((s.chunk c).size + MemoryChunk.sizeof) } := by
  obtain ⟨s', hs, hc, hd, -⟩ := mergePrev_eq hcd hp
  rw [hs, chunk_linkBack, hc, hd]
  · rw [if_neg]
    rintro ⟨h, h0⟩
    exact (hnext (h ▸ h0)).ne h
  · rw [hc]
    exact fun h => .inr (hnext h)

/-- The other chunks are as before, but for the one after `c`, which is linked back. -/
theorem chunk_mergePrev (hcd : Apart c d) (hp : (s.chunk c).prev = d) (hxd : Apart x d)
    (hx : (s.chunk c).next ≠ 0 → x = (s.chunk c).next ∨ Apart x (s.chunk c).next) :
    (s.mergePrev c).chunk x =
      { s.chunk x with prev := if x = (s.chunk c).next ∧ x ≠ 0 then d else (s.chunk x).prev } := by
  obtain ⟨s', hs, hc, -, hs'⟩ := mergePrev_eq hcd hp
  rw [hs, chunk_linkBack, hc, hs' x hxd]
  rwa [hc]

/-- The chunk `c` is extended by the one after. -/
theorem chunk_mergeNext_self (hcd : Apart c d) (hn : (s.chunk c).next = d)
    (hnext : (s.chunk d).next ≠ 0 → Apart c (s.chunk d).next) :
    (s.mergeNext c).chunk c = { s.chunk c with
      next := (s.chunk d).next
      size := (s.chunk c).size + ((s.chunk d).size + MemoryChunk.sizeof) } := by
  obtain ⟨s', hs, hc, -⟩ := mergeNext_eq hcd hn
  rw [hs, chunk_linkBack, hc]
  · rw [if_neg]
    rintro ⟨h, h0⟩
    exact (hnext (h ▸ h0)).ne h
  · rw [hc]
    exact fun h => .inr (hnext h)

/-- The other chunks are as before, but for the one after both, which is linked back. -/
theorem chunk_mergeNext (hcd : Apart c d) (hn : (s.chunk c).next = d) (hxc : Apart x c)
    (hx : (s.chunk d).next ≠ 0 → x = (s.chunk d).next ∨ Apart x (s.chunk d).next) :
    (s.mergeNext c).chunk x =
      { s.chunk x with prev := if x = (s.chunk d).next ∧ x ≠ 0 then c else (s.chunk x).prev } := by
  obtain ⟨s', hs, hc, hs'⟩ := mergeNext_eq hcd hn
  rw [hs, chunk_linkBack, hc, hs' x hxc]
  rwa [hc]

end merge

/-! ## The chunks of a region -/

/-- The chunks of `s` are `l`, and fill the region from `a` to `b`; nothing has wrapped. -/
structure Tiled (s : MemoryManager) (a b : ℕ) (l : List UInt32) : Prop where
  first : s.first = l.headD 0
  tiles : Tiles (fun c => (s.chunk c).size) a l b
  linked : Linked (fun c => (s.chunk c).next) (fun c => (s.chunk c).prev) 0 l 0
  pos : 0 < a
  lt : b < 2 ^ 32
  wrapped : s.wrapped = false

theorem mem_around (hx : x ∈ l ++ r) : x ∈ l ++ c :: r := by
  rw [List.mem_append, List.mem_cons]
  exact (List.mem_append.1 hx).imp_right .inr

theorem mem_of_ne (hx : x ∈ l ++ c :: r.tail) (hne : x ≠ c) : x ∈ l ++ r := by
  rw [List.mem_append, List.mem_cons] at hx
  exact List.mem_append.2 (hx.imp_right fun h => List.mem_of_mem_tail (h.resolve_left hne))

namespace Tiled

theorem ne_zero (h : Tiled s a b l) (hc : c ∈ l) : c ≠ 0 := by
  rintro rfl
  have := (h.tiles.mem hc).1
  have := h.pos
  simp_all

theorem snoc (h : Tiled s a b (l ++ p :: c :: r)) : Tiled s a b ((l ++ [p]) ++ c :: r) := by
  rwa [List.append_assoc]

/-- The chunk after `c`, if any, is apart from the others. -/
theorem next_apart (h : Tiled s a b (l ++ c :: r)) (hx : x ∈ l ++ c :: r)
    (h0 : (s.chunk c).next ≠ 0) : x = (s.chunk c).next ∨ Apart x (s.chunk c).next := by
  have hn := h.linked.node.2
  cases r with
  | nil => exact absurd hn h0
  | cons d r =>
    rw [show (s.chunk c).next = d from hn]
    rcases eq_or_ne x d with rfl | hne
    · exact .inl rfl
    · refine .inr (h.snoc.tiles.apart ?_)
      simpa [hne] using hx

/-- The head of the chunks after `c` is the next one. -/
theorem head_next (h : Tiled s a b (l ++ c :: r)) (hx : x ∈ r.head?) :
    x = (s.chunk c).next ∧ x ≠ 0 := by
  have hn := h.linked.node.2
  cases r with
  | nil => cases hx
  | cons d r =>
    obtain rfl : d = x := by simpa using hx
    exact ⟨hn.symm, h.ne_zero (by simp)⟩

/-- No other chunk is the next one. -/
theorem not_next (h : Tiled s a b (l ++ c :: r)) (hx : x ∈ l ++ c :: r.tail) :
    ¬(x = (s.chunk c).next ∧ x ≠ 0) := by
  rintro ⟨hxn, h0⟩
  have hn := h.linked.node.2
  cases r with
  | nil => exact h0 (hxn.trans hn)
  | cons d r =>
    exact (h.snoc.tiles.apart (by simpa using hx)).ne (hxn.trans hn)

theorem next_mem (h : Tiled s a b (l ++ c :: r)) (h0 : (s.chunk c).next ≠ 0) :
    (s.chunk c).next ∈ r := by
  have hn := h.linked.node.2
  cases r with
  | nil => exact absurd hn h0
  | cons d r => exact hn ▸ List.mem_cons_self

section split

variable (h : Tiled s a b (l ++ c :: r)) (hn : n.toNat + 17 ≤ (s.chunk c).size.toNat)
include h hn

/-- No address or size computed by a split wraps. -/
theorem split_no_wrap : carry c MemoryChunk.sizeof = false ∧
    carry (c + MemoryChunk.sizeof) n = false ∧ borrow (s.chunk c).size n = false ∧
    borrow ((s.chunk c).size - n) MemoryChunk.sizeof = false := by
  have hc := (h.tiles.mem (c := c) (by simp)).2
  have hlt := h.lt
  have hcs : carry c MemoryChunk.sizeof = false :=
    carry_eq_false.2 (by rw [MemoryChunk.toNat_sizeof]; omega)
  have hbn : borrow (s.chunk c).size n = false := borrow_eq_false.2 (by omega)
  refine ⟨hcs, carry_eq_false.2 ?_, hbn, borrow_eq_false.2 ?_⟩
  · rw [toNat_add_of_carry hcs, MemoryChunk.toNat_sizeof]
    omega
  · rw [toNat_sub_of_borrow hbn, MemoryChunk.toNat_sizeof]
    omega

theorem toNat_temp (ht : t = c + MemoryChunk.sizeof + n) : t.toNat = c.toNat + 16 + n.toNat := by
  obtain ⟨hcs, hcn, -, -⟩ := h.split_no_wrap hn
  rw [ht, toNat_add_of_carry hcn, toNat_add_of_carry hcs, MemoryChunk.toNat_sizeof]

/-- The headers after a split. -/
theorem chunks_split (ht : t = c + MemoryChunk.sizeof + n) :
    (s.split c n).chunk c = { s.chunk c with size := n, next := t } ∧
      (s.split c n).chunk t =
        ⟨(s.chunk c).next, c, false, (s.chunk c).size - n - MemoryChunk.sizeof⟩ ∧
      ∀ x ∈ l ++ r, (s.split c n).chunk x = { s.chunk x with
        prev := if x = (s.chunk c).next ∧ x ≠ 0 then t else (s.chunk x).prev } := by
  have htn := h.toNat_temp hn ht
  -- The new header lies in the bytes of `c`, away from all others.
  have hct : Apart c t := .inl (by omega)
  have hapart : ∀ x ∈ l ++ r, Apart x c ∧ Apart x t := fun x hx => by
    refine ⟨h.tiles.apart hx, ?_⟩
    rcases List.mem_append.1 hx with hx | hx
    · have := h.tiles.around.1 x hx
      exact .inl (by omega)
    · have := h.tiles.around.2 x hx
      exact .inr (by omega)
  have hnext := fun h0 => hapart _ (List.mem_append_right _ (h.next_mem h0))
  exact ⟨chunk_split_result ht hct hnext, chunk_split_temp ht hct hnext, fun x hx =>
    chunk_split ht hct (hapart x hx).1 (hapart x hx).2 (h.next_apart (mem_around hx))⟩

/-- A split cuts a chunk off. -/
theorem split (ht : t = c + MemoryChunk.sizeof + n) :
    Tiled (s.split c n) a b (l ++ c :: t :: r) := by
  obtain ⟨hcs, hcn, hbn, hbs⟩ := h.split_no_wrap hn
  obtain ⟨hsc, hst, hs⟩ := h.chunks_split hn ht
  have htn := h.toNat_temp hn ht
  -- The links are those of a list with an element inserted, the bytes those of the chunk that is
  -- cut.
  refine ⟨?_, h.tiles.split (fun x hx => by rw [hs x hx]) ?_ ?_,
    h.linked.insert ?_ ?_ ?_ (fun x hx => by rw [hs x hx]) (fun x hx => ?_) (fun x hx => ?_),
    h.pos, h.lt, ?_⟩
  · have := h.first
    cases l <;> simpa [MemoryManager.split] using this
  · rw [hsc]
    exact htn
  · rw [hsc, hst]
    dsimp only
    rw [toNat_sub_of_borrow hbs, toNat_sub_of_borrow hbn, MemoryChunk.toNat_sizeof]
    omega
  · rw [hsc]
  · rw [hst]
  · rw [hst]
  · rcases eq_or_ne x c with rfl | hne
    · rw [hsc]
    · rw [hs x (mem_of_ne hx hne)]
      exact if_neg (h.not_next hx)
  · rw [hs x (List.mem_append_right _ (List.mem_of_mem_head? hx))]
    exact if_pos (h.head_next hx)
  · rw [wrapped_split ht (.inl (by omega)), h.wrapped, hcs, hcn, hbn, hbs]
    rfl

end split

section merge

variable (h : Tiled s a b (l ++ p :: c :: r))
include h

theorem apart_next : Apart c p ∧ (s.chunk c).prev = p ∧ (s.chunk p).next = c :=
  ⟨h.tiles.apart (by simp), h.snoc.linked.node.1.trans List.getLastD_concat, h.linked.node.2⟩

/-- The sum of the sizes of a chunk and the next one with its header. -/
theorem toNat_merge : carry (s.chunk c).size MemoryChunk.sizeof = false ∧
    carry (s.chunk p).size ((s.chunk c).size + MemoryChunk.sizeof) = false ∧
    ((s.chunk p).size + ((s.chunk c).size + MemoryChunk.sizeof)).toNat =
      (s.chunk p).size.toNat + 16 + (s.chunk c).size.toNat := by
  have hlt := h.lt
  have hpc := h.tiles.around.2 c List.mem_cons_self
  have hc := (h.tiles.mem (c := c) (by simp)).2
  have hcs : carry (s.chunk c).size MemoryChunk.sizeof = false :=
    carry_eq_false.2 (by rw [MemoryChunk.toNat_sizeof]; omega)
  have hps : carry (s.chunk p).size ((s.chunk c).size + MemoryChunk.sizeof) = false :=
    carry_eq_false.2 (by rw [toNat_add_of_carry hcs, MemoryChunk.toNat_sizeof]; omega)
  refine ⟨hcs, hps, ?_⟩
  rw [toNat_add_of_carry hps, toNat_add_of_carry hcs, MemoryChunk.toNat_sizeof]
  omega

/-- The edit of a merge: `p` takes over the bytes and the link of `c`. -/
theorem merge {s' : MemoryManager} (hfirst : s'.first = s.first) (hwrapped : s'.wrapped = false)
    (hsp : s'.chunk p = { s.chunk p with
      next := (s.chunk c).next
      size := (s.chunk p).size + ((s.chunk c).size + MemoryChunk.sizeof) })
    (hs : ∀ x ∈ l ++ r, s'.chunk x = { s.chunk x with
      prev := if x = (s.chunk c).next ∧ x ≠ 0 then p else (s.chunk x).prev }) :
    Tiled s' a b (l ++ p :: r) := by
  refine ⟨?_, h.tiles.merge (fun x hx => by rw [hs x hx]) ?_,
    h.linked.remove ?_ (fun x hx => by rw [hs x hx]) (fun x hx => ?_) (fun x hx => ?_),
    h.pos, h.lt, hwrapped⟩
  · rw [hfirst, h.first]
    cases l <;> rfl
  · rw [hsp]
    exact h.toNat_merge.2.2
  · rw [hsp]
  · rcases eq_or_ne x p with rfl | hne
    · rw [hsp]
    · rw [hs x (mem_of_ne hx hne)]
      exact if_neg (h.snoc.not_next (by simp at hx ⊢; tauto))
  · rw [hs x (List.mem_append_right _ (List.mem_of_mem_head? hx))]
    exact if_pos (h.snoc.head_next hx)

theorem apart_after (h0 : (s.chunk c).next ≠ 0) : Apart p (s.chunk c).next :=
  (h.tiles.apart (List.mem_append_right _ (List.mem_cons_of_mem _ (h.snoc.next_mem h0)))).symm

theorem after_apart (hx : x ∈ l ++ r) (h0 : (s.chunk c).next ≠ 0) :
    x = (s.chunk c).next ∨ Apart x (s.chunk c).next :=
  h.snoc.next_apart (by simp at hx ⊢; tauto) h0

/-- The headers after a merge with the previous chunk. -/
theorem chunk_mergePrev (hx : x ∈ l ++ r) : (s.mergePrev c).chunk x = { s.chunk x with
    prev := if x = (s.chunk c).next ∧ x ≠ 0 then p else (s.chunk x).prev } :=
  MemoryManager.chunk_mergePrev h.apart_next.1 h.apart_next.2.1 (h.tiles.apart (mem_around hx))
    (h.after_apart hx)

/-- A merge with the previous chunk. -/
theorem mergePrev : Tiled (s.mergePrev c) a b (l ++ p :: r) := by
  obtain ⟨hcp, hp, -⟩ := h.apart_next
  obtain ⟨hcs, hps, -⟩ := h.toNat_merge
  refine h.merge ?_ ?_ (chunk_mergePrev_prev hcp hp h.apart_after) fun x hx => h.chunk_mergePrev hx
  · simp [MemoryManager.mergePrev]
  · rw [wrapped_mergePrev hcp hp, h.wrapped, hcs, hps]
    rfl

/-- The headers after a merge with the next chunk. -/
theorem chunk_mergeNext (hx : x ∈ l ++ r) : (s.mergeNext p).chunk x = { s.chunk x with
    prev := if x = (s.chunk c).next ∧ x ≠ 0 then p else (s.chunk x).prev } :=
  MemoryManager.chunk_mergeNext h.apart_next.1.symm h.apart_next.2.2 (h.tiles.apart (mem_around hx))
    (h.after_apart hx)

/-- A merge with the next chunk. -/
theorem mergeNext : Tiled (s.mergeNext p) a b (l ++ p :: r) := by
  obtain ⟨hcp, -, hn⟩ := h.apart_next
  obtain ⟨hcs, hps, -⟩ := h.toNat_merge
  refine h.merge ?_ ?_ (chunk_mergeNext_self hcp.symm hn h.apart_after) fun x hx =>
    h.chunk_mergeNext hx
  · simp [MemoryManager.mergeNext]
  · rw [wrapped_mergeNext hn, h.wrapped, hcs, hps]
    rfl

end merge

end Tiled


end MemoryManager

end GtuOs

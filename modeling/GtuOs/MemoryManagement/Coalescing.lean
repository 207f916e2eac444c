import GtuOs.MemoryManagement.Malloc
import Mathlib.Data.List.Chain

/-!
# Coalescing

The blocks of a heap are `Separated` when no two neighbours are free. Taking a free block
into use and giving one back, with the joins of `free`, keep them separated: one pass over
the two neighbours is enough, as the neighbours of a free neighbour are in use.
-/

namespace GtuOs.MemoryManager.Block

variable {b e : Block} {l m r : List Block} {n : UInt32}

/-- No two neighbouring blocks are free. -/
def Separated (l : List Block) : Prop := l.IsChain fun b c => b.used ∨ c.used

/-- The number of blocks in use. -/
def numUsed (l : List Block) : ℕ := l.countP fun b => b.used

theorem numUsed_append : numUsed (l ++ r) = numUsed l + numUsed r := List.countP_append

theorem numUsed_cons : numUsed (b :: l) = numUsed l + if b.used then 1 else 0 := List.countP_cons

theorem Separated.take (h : Separated (l ++ b :: r)) (hfree : b.used = false) :
    Separated (l ++ b.take n ++ r) := by
  obtain ⟨hl, hr, -⟩ := List.isChain_append.1 h
  obtain ⟨hhead, hr⟩ := List.isChain_cons.1 hr
  rw [Block.take, List.append_assoc]
  split_ifs
  · refine hl.append (.cons_cons (.inl rfl) (hr.cons fun y hy => ?_)) fun x _ y hy => ?_
    · exact .inr ((hhead y hy).resolve_left (by simp [hfree]))
    · cases hy
      exact .inr rfl
  · refine hl.append (hr.cons fun y _ => .inl rfl) fun x _ y hy => ?_
    cases hy
    exact .inr rfl

theorem numUsed_take (hfree : b.used = false) :
    numUsed (l ++ b.take n ++ r) = numUsed (l ++ b :: r) + 1 := by
  rw [Block.take]
  split_ifs <;> simp [numUsed, hfree] <;> omega

/-- The join with the previous block. -/
theorem Separated.joinPrev (h : Separated l) (hfree : b.used = false)
    (hj : joinPrev l b = m ++ [e]) :
    Separated (m ++ [e]) ∧ e.used = false ∧ numUsed m = numUsed l := by
  rcases l.eq_nil_or_concat with rfl | ⟨l, p, rfl⟩
  · obtain ⟨rfl, hb⟩ := List.append_inj' (show [] ++ [_] = m ++ [e] from hj) rfl
    cases hb
    exact ⟨List.isChain_singleton _, hfree, rfl⟩
  rw [List.concat_eq_append] at h hj ⊢
  obtain ⟨hl, -, hlast⟩ := List.isChain_append.1 h
  simp only [Block.joinPrev, List.getLast?_append, List.getLast?_singleton, Option.some_or,
    List.dropLast_concat] at hj
  split_ifs at hj with hp
  · obtain ⟨rfl, hb⟩ := List.append_inj' hj rfl
    cases hb
    refine ⟨h.append (List.isChain_singleton _) fun x hx y hy => ?_, hfree, rfl⟩
    have hx' : p = x := by simpa using hx
    exact .inl (hx' ▸ hp)
  · obtain ⟨rfl, hb⟩ := List.append_inj' hj rfl
    cases hb
    have hp' : p.used = false := by simpa using hp
    refine ⟨hl.append (List.isChain_singleton _) fun x hx y _ => ?_, hp', ?_⟩
    · exact .inl ((hlast x hx p rfl).resolve_right hp)
    · simp [numUsed, hp']

/-- The join with the next block. -/
theorem Separated.joinNext (h : Separated (m ++ [e])) (hr : Separated r) (hfree : e.used = false) :
    Separated (m ++ e.joinNext r) ∧ numUsed (e.joinNext r) = numUsed r := by
  obtain ⟨hm, -, hlast⟩ := List.isChain_append.1 h
  cases r with
  | nil => exact ⟨h, by simp [Block.joinNext, numUsed_cons, hfree]⟩
  | cons d r =>
    obtain ⟨hhead, hr'⟩ := List.isChain_cons.1 hr
    rw [Block.joinNext]
    split_ifs with hd
    · refine ⟨hm.append (.cons_cons (.inr hd) hr) fun x hx y hy => ?_, by simp [numUsed_cons, hfree]⟩
      cases hy
      exact hlast x hx e rfl
    · have hd' : d.used = false := by simpa using hd
      refine ⟨hm.append (hr'.cons fun y hy => ?_) fun x hx y hy => ?_, ?_⟩
      · exact .inr ((hhead y hy).resolve_left hd)
      · cases hy
        exact hlast x hx e rfl
      · simp [numUsed_cons, hd', hfree, absorb]

/-- Giving a block back. -/
theorem Separated.release (h : Separated (l ++ b :: r)) (hused : b.used = true)
    (hj : Block.joinPrev l { b with used := false } = m ++ [e]) :
    Separated (m ++ e.joinNext r) ∧ numUsed (m ++ e.joinNext r) + 1 = numUsed (l ++ b :: r) := by
  obtain ⟨hl, hr, -⟩ := List.isChain_append.1 h
  obtain ⟨hm, hfree, hnum⟩ := Separated.joinPrev hl rfl hj
  obtain ⟨hsep, hnum'⟩ := Separated.joinNext hm (List.isChain_cons.1 hr).2 hfree
  refine ⟨hsep, ?_⟩
  rw [numUsed_append, numUsed_append, numUsed_cons, hnum, hnum', if_pos hused]
  omega

/-- Separated blocks none of which is in use are one block at most. -/
theorem Separated.length_le (h : Separated l) (hnum : numUsed l = 0) : l.length ≤ 1 := by
  match l with
  | [] | [_] => simp
  | b :: c :: l =>
    have hfree := List.countP_eq_zero.1 hnum
    have hbc := (List.isChain_cons_cons.1 h).1
    simp_all

end GtuOs.MemoryManager.Block

import Mathlib.Data.List.Basic
import Mathlib.Tactic.Common

/-!
# Doubly linked lists

Nodes with two links, `next` and `prev`, assigned one by one. `Linked next prev p l e`
says that the nodes `l` are linked both ways, from the node `p` before them to
the node `e` after them; a list ended by null is `Linked next prev null l null`. Its
links are mutually inverse (`Linked.next_eq_iff`). The edits, for new links differing
from the old ones at the seam only:

* `Linked.insert`: a node is linked in after another one;
* `Linked.remove`: the node after another one is unlinked.
-/

namespace GtuOs

variable {α : Type*} {next prev next' prev' : α → α} {p e x y : α} {l r : List α}

/-- The nodes `l` are linked both ways, from `p` to `e`. -/
def Linked (next prev : α → α) (p : α) : List α → α → Prop
  | [], _ => True
  | x :: l, e => prev x = p ∧ next x = l.headD e ∧ Linked next prev x l e

theorem headD_append (l r : List α) (e : α) : (l ++ r).headD e = l.headD (r.headD e) := by
  cases l <;> rfl

namespace Linked

/-- The links of a concatenation. -/
theorem append : Linked next prev p (l ++ r) e ↔
    Linked next prev p l (r.headD e) ∧ Linked next prev (l.getLastD p) r e := by
  induction l generalizing p with
  | nil => simp [Linked]
  | cons a l ih =>
    rw [List.cons_append, Linked, Linked, ih, headD_append, List.getLastD_cons, and_assoc, and_assoc]

/-- The links of a node. -/
theorem node (h : Linked next prev p (l ++ x :: r) e) :
    prev x = l.getLastD p ∧ next x = r.headD e :=
  have hx := (append.1 h).2
  ⟨hx.1, hx.2.1⟩

/-- The links are mutually inverse. -/
theorem next_eq_iff (h : Linked next prev p l e) (hp : p ∉ l) (he : e ∉ l) (hx : x ∈ l)
    (hy : y ∈ l) : next x = y ↔ prev y = x := by
  constructor
  · rintro rfl
    obtain ⟨l, r, rfl⟩ := List.append_of_mem hx
    rw [h.node.2] at hy ⊢
    cases r with
    | nil => exact absurd hy he
    | cons z r => exact (append.1 h).2.2.2.1
  · rintro rfl
    obtain ⟨l, r, rfl⟩ := List.append_of_mem hy
    rw [h.node.1] at hx ⊢
    rcases l.eq_nil_or_concat with rfl | ⟨l, z, rfl⟩
    · exact absurd hx hp
    · rw [List.concat_eq_append] at h ⊢
      rw [List.append_assoc] at h
      rw [List.getLastD_concat]
      exact h.node.2

/-- The links of other nodes do not matter. -/
theorem congr (h : Linked next prev p l e) (hn : ∀ a ∈ l, next' a = next a)
    (hp : ∀ a ∈ l, prev' a = prev a) : Linked next' prev' p l e := by
  induction l generalizing p with
  | nil => trivial
  | cons a l ih =>
    obtain ⟨h₁, h₂, h₃⟩ := h
    exact ⟨(hp a List.mem_cons_self).trans h₁, (hn a List.mem_cons_self).trans h₂,
      ih h₃ (fun b hb => hn b (List.mem_cons_of_mem _ hb)) fun b hb => hp b (List.mem_cons_of_mem _ hb)⟩

/-- The node before a list is changed. -/
theorem relink (h : Linked next prev p l e) (hn : ∀ a ∈ l, next' a = next a)
    (hhead : ∀ a ∈ l.head?, prev' a = x) (htail : ∀ a ∈ l.tail, prev' a = prev a) :
    Linked next' prev' x l e := by
  cases l with
  | nil => trivial
  | cons a l =>
    obtain ⟨-, h₂, h₃⟩ := h
    exact ⟨hhead a rfl, (hn a List.mem_cons_self).trans h₂,
      h₃.congr (fun b hb => hn b (List.mem_cons_of_mem _ hb)) htail⟩

/-- The node `y` is linked in after `x`. -/
theorem insert (h : Linked next prev p (l ++ x :: r) e) (hnx : next' x = y)
    (hny : next' y = next x) (hpy : prev' y = x) (hn : ∀ a ∈ l ++ r, next' a = next a)
    (hp : ∀ a ∈ l ++ x :: r.tail, prev' a = prev a) (hpr : ∀ a ∈ r.head?, prev' a = y) :
    Linked next' prev' p (l ++ x :: y :: r) e := by
  obtain ⟨hl, hpx, hnx', hr⟩ := append.1 h
  simp only [List.mem_append, List.mem_cons] at hn hp
  refine append.2 ⟨hl.congr (fun a ha => hn a (.inl ha)) fun a ha => hp a (.inl ha), ?_, hnx, hpy,
    hny.trans hnx', ?_⟩
  · exact (hp x (.inr (.inl rfl))).trans hpx
  · exact hr.relink (fun a ha => hn a (.inr ha)) hpr fun a ha => hp a (.inr (.inr ha))

/-- The node `y` after `x` is unlinked. -/
theorem remove (h : Linked next prev p (l ++ x :: y :: r) e) (hnx : next' x = next y)
    (hn : ∀ a ∈ l ++ r, next' a = next a) (hp : ∀ a ∈ l ++ x :: r.tail, prev' a = prev a)
    (hpr : ∀ a ∈ r.head?, prev' a = x) : Linked next' prev' p (l ++ x :: r) e := by
  obtain ⟨hl, hpx, -, -, hny, hr⟩ := append.1 h
  simp only [List.mem_append, List.mem_cons] at hn hp
  refine append.2 ⟨hl.congr (fun a ha => hn a (.inl ha)) fun a ha => hp a (.inl ha), ?_,
    hnx.trans hny, ?_⟩
  · exact (hp x (.inr (.inl rfl))).trans hpx
  · exact hr.relink (fun a ha => hn a (.inr ha)) hpr fun a ha => hp a (.inr (.inr ha))

end Linked

end GtuOs

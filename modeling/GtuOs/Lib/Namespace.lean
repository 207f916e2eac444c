import Mathlib.Data.List.Infix

/-!
# Namespaces

A *namespace* says what is at each path of names: a directory, or a file. An item that is put at a path
replaces what has been there, and what has been below it is gone (`Namespace.put`).

In a well-formed namespace, what is anywhere is in a directory (`Namespace.WellFormed`); it stays so as
long as items are put into directories (`WellFormed.put`).
-/

universe u v w

/-- What is at a path. -/
inductive Item (δ : Type u) (β : Type v)
  | dir (d : δ)
  | file (f : β)

/-- What is at each path; the empty one is that of the root, at which there is no item. -/
def Namespace (α : Type u) (δ : Type v) (β : Type w) := List α → Option (Item δ β)

namespace Namespace

variable {α : Type u} {δ : Type v} {β : Type w}

/-- The namespace of an empty root directory. -/
def empty : Namespace α δ β := fun _ => none

/-- The path leads to a directory. -/
def IsDir (ns : Namespace α δ β) (path : List α) : Prop := path = [] ∨ ∃ d, ns path = some (.dir d)

/-- The namespace with the item at the path, instead of what has been there and below. -/
def put [DecidableEq α] (ns : Namespace α δ β) (path : List α) (item : Item δ β) : Namespace α δ β :=
  fun p => if p = path then some item else if path <+: p then none else ns p

/-- What is at the paths that begin with the name. -/
def under (ns : Namespace α δ β) (name : α) : Namespace α δ β := fun p => ns (name :: p)

/-- What is anywhere is in a directory. -/
structure WellFormed (ns : Namespace α δ β) : Prop where
  root : ns [] = none
  isDir : ∀ path name item, ns (path ++ [name]) = some item → ns.IsDir path

variable {ns ns' : Namespace α δ β} {path p : List α} {name name' : α} {item item' : Item δ β}

theorem wellFormed_empty : (empty : Namespace α δ β).WellFormed := ⟨rfl, by simp [empty]⟩

theorem WellFormed.isDir_dropLast (h : ns.WellFormed) (hpath : ns path = some item) : ns.IsDir path.dropLast := by
  rcases List.eq_nil_or_concat path with rfl | ⟨p, name, rfl⟩
  · exact .inl rfl
  · rw [List.concat_eq_append] at hpath ⊢
    rw [List.dropLast_concat]
    exact h.isDir p name item hpath

theorem ext_under (hroot : ns' [] = ns []) (h : ∀ name, ns'.under name = ns.under name) : ns' = ns := by
  funext p
  rcases p with _ | ⟨name, p⟩
  · exact hroot
  · exact congrFun (h name) p

section Put

variable [DecidableEq α]

@[simp] theorem put_self : ns.put path item path = some item := if_pos rfl

/-- What is not below the path stays. -/
theorem put_of_apart (h : ¬path <+: p) : ns.put path item p = ns p := by
  rw [put, if_neg h, if_neg]
  rintro rfl
  exact h List.prefix_rfl

/-- What is below the path is gone. -/
theorem put_of_ne (h : path <+: p) (hne : p ≠ path) : ns.put path item p = none := by
  rw [put, if_neg hne, if_pos h]

theorem put_cons_nil : ns.put (name :: path) item [] = ns [] := put_of_apart (by simp)

theorem put_cons_of_ne (h : name' ≠ name) : ns.put (name :: path) item (name' :: p) = ns (name' :: p) :=
  put_of_apart fun hp => h (List.cons_prefix_cons.1 hp).1.symm

theorem under_put_self : (ns.put (name :: path) item).under name = (ns.under name).put path item := by
  funext p
  simp only [under, put, List.cons.injEq, true_and, List.cons_prefix_cons]

/-- A namespace is changed below one name. -/
theorem eq_put_cons (hroot : ns' [] = ns []) (hne : ∀ name' ≠ name, ns'.under name' = ns.under name')
    (hunder : ns'.under name = (ns.under name).put path item) : ns' = ns.put (name :: path) item := by
  refine ext_under (hroot.trans put_cons_nil.symm) fun name' => ?_
  by_cases h : name' = name
  · subst h
    rw [hunder, under_put_self]
  · rw [hne name' h]
    funext p
    exact (put_cons_of_ne h).symm

theorem WellFormed.put (h : ns.WellFormed) (hpath : path ≠ []) (hdir : ns.IsDir path.dropLast) :
    (ns.put path item).WellFormed := by
  have hkeep : ∀ p, ¬path <+: p → ns.IsDir p → (ns.put path item).IsDir p := by
    rintro p hp (rfl | ⟨d, hd⟩)
    · exact .inl rfl
    · exact .inr ⟨d, (put_of_apart hp).trans hd⟩
  refine ⟨(put_of_apart (by simpa using hpath)).trans h.root, fun p name item' hp => ?_⟩
  by_cases heq : p ++ [name] = path
  · -- The directory into which the item is put.
    subst heq
    rw [List.dropLast_concat] at hdir
    exact hkeep p (fun h => absurd h.length_le (by simp)) hdir
  · by_cases hpre : path <+: p ++ [name]
    · rw [put_of_ne hpre heq] at hp
      cases hp
    · rw [put_of_apart hpre] at hp
      exact hkeep p (fun h => hpre (h.trans (List.prefix_append p [name]))) (h.isDir p name item' hp)

end Put

end Namespace

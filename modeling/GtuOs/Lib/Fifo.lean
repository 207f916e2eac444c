import Mathlib.Data.List.Basic

/-!
# Queues

A queue, first in and first out, is a list to whose tail things are added, and from whose head they are
served (`Fifo`). So what is in the queue is served in its order, before anything that is added later
(`Fifo.getElem?_eq`).
-/

variable {α : Type*} {q q' q'' served served' : List α} {a : α} {k : ℕ}

/-- From the queue `q`, to whose tail things are added, the things `served` are taken, in order, which leaves the
    queue `q'`. -/
def Fifo (q served q' : List α) : Prop := ∃ added, q ++ added = served ++ q'

namespace Fifo

theorem refl (q : List α) : Fifo q [] q := ⟨[], List.append_nil q⟩

/-- Something is added. -/
theorem add (q added : List α) : Fifo q [] (q ++ added) := ⟨added, rfl⟩

/-- The head is served. -/
theorem serve (a : α) (q : List α) : Fifo (a :: q) [a] q := ⟨[], List.append_nil _⟩

theorem trans (h : Fifo q served q') (h' : Fifo q' served' q'') : Fifo q (served ++ served') q'' := by
  obtain ⟨added, h⟩ := h
  obtain ⟨added', h'⟩ := h'
  exact ⟨added ++ added', by rw [← List.append_assoc, h, List.append_assoc, h', List.append_assoc]⟩

/-- What is in the queue is served at its place. -/
theorem getElem?_eq (h : Fifo q served q') (hq : k < q.length) (hserved : k < served.length) :
    served[k]? = q[k]? := by
  obtain ⟨added, h⟩ := h
  have happend : (served ++ q')[k]? = served[k]? := List.getElem?_append_left hserved
  rw [← happend, ← h, List.getElem?_append_left hq]

end Fifo

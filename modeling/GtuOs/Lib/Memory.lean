import Mathlib.Algebra.Group.Nat.Defs
import Mathlib.Data.Nat.Notation
import Mathlib.Tactic.Common

/-!
# Byte memory

A flat memory, the byte at each address, with the accesses of C programs to
it: words are little-endian, and structures are blocks of bytes.

* `Memory.store m a n src`: `m` with the `n` bytes from `a` on replaced by
  those of `src`; every write is one of these;
* `Memory.load16`, `Memory.load32`: words, of which `byte16` and `byte32` are
  the bytes (`load32_of_bytes`, `byte32_load32`);
* `Memory.copyLoop`: the loop copying an array byte by byte, which between
  disjoint arrays moves it as a block (`copyLoop_eq_move`).
-/

/-- A memory: the byte at each address. -/
abbrev Memory := ℕ → UInt8

namespace Memory

variable (m : Memory)

/-- The memory with the `n` bytes from `a` on replaced by those of `src`. -/
def store (a n : ℕ) (src : ℕ → UInt8) : Memory :=
  fun x => if a ≤ x ∧ x < a + n then src (x - a) else m x

variable {m}

theorem store_of_mem {a n x : ℕ} {src : ℕ → UInt8} (h : a ≤ x ∧ x < a + n) :
    m.store a n src x = src (x - a) := if_pos h

theorem store_of_not_mem {a n x : ℕ} {src : ℕ → UInt8} (h : x < a ∨ a + n ≤ x) :
    m.store a n src x = m x := if_neg (by omega)

theorem store_add {a n k : ℕ} {src : ℕ → UInt8} (h : k < n) : m.store a n src (a + k) = src k := by
  rw [store_of_mem ⟨by omega, by omega⟩, Nat.add_sub_cancel_left]

/-- Storing what is there already changes nothing. -/
theorem store_self {a n : ℕ} {src : ℕ → UInt8} (h : ∀ k < n, src k = m (a + k)) :
    m.store a n src = m := by
  funext x
  by_cases hx : a ≤ x ∧ x < a + n
  · rw [store_of_mem hx, h _ (by omega)]
    congr 1
    omega
  · exact if_neg hx

theorem store_apply_congr {m' : Memory} {a n x : ℕ} {src : ℕ → UInt8} (h : m' x = m x) :
    m'.store a n src x = m.store a n src x := by
  rw [store, store, h]

/-- Two stores, one after the other, are one. -/
theorem store_store {a n k : ℕ} {src src' : ℕ → UInt8} : (m.store a n src).store (a + n) k src' =
    m.store a (n + k) fun x => if x < n then src x else src' (x - n) := by
  funext x
  rcases Nat.lt_or_ge x a with h | h
  · rw [store_of_not_mem (by omega), store_of_not_mem (by omega), store_of_not_mem (by omega)]
  rcases Nat.lt_or_ge x (a + n) with h' | h'
  · rw [store_of_not_mem (by omega), store_of_mem ⟨h, h'⟩, store_of_mem ⟨h, by omega⟩, if_pos (by omega)]
  rcases Nat.lt_or_ge x (a + n + k) with h'' | h''
  · rw [store_of_mem ⟨h', h''⟩, store_of_mem ⟨h, by omega⟩, if_neg (by omega), Nat.sub_sub]
  · rw [store_of_not_mem (by omega), store_of_not_mem (by omega), store_of_not_mem (by omega)]

theorem store_congr {a n : ℕ} {src src' : ℕ → UInt8} (h : ∀ k < n, src k = src' k) :
    m.store a n src = m.store a n src' := by
  funext x
  simp only [store]
  split_ifs with hx
  · exact h _ (by omega)
  · rfl

/-! ## Words -/

/-- The bytes of a 16-bit word. -/
def byte16 (v : UInt16) (k : ℕ) : UInt8 := UInt8.ofNat (v.toNat / 256 ^ k)

/-- The bytes of a 32-bit word. -/
def byte32 (v : UInt32) (k : ℕ) : UInt8 := UInt8.ofNat (v.toNat / 256 ^ k)

variable (m) in
/-- The 16-bit word at `a`. -/
def load16 (a : ℕ) : UInt16 := UInt16.ofNat ((m a).toNat + 256 * (m (a + 1)).toNat)

variable (m) in
/-- The 32-bit word at `a`. -/
def load32 (a : ℕ) : UInt32 :=
  UInt32.ofNat ((m a).toNat + 256 * (m (a + 1)).toNat + 65536 * (m (a + 2)).toNat +
    16777216 * (m (a + 3)).toNat)

variable (m) in
/-- The assignment of a 32-bit word at `a`. -/
def store32 (a : ℕ) (v : UInt32) : Memory := m.store a 4 (byte32 v)

theorem load16_of_bytes {a : ℕ} {v : UInt16} (h : ∀ k < 2, m (a + k) = byte16 v k) :
    m.load16 a = v := by
  have h0 := h 0 (by omega)
  have h1 := h 1 (by omega)
  have hv := v.toNat_lt
  simp only [Nat.add_zero] at h0
  apply UInt16.toNat_inj.1
  simp only [load16, h0, h1, byte16, UInt16.toNat_ofNat', UInt8.toNat_ofNat']
  omega

theorem load32_of_bytes {a : ℕ} {v : UInt32} (h : ∀ k < 4, m (a + k) = byte32 v k) :
    m.load32 a = v := by
  have h0 := h 0 (by omega)
  have h1 := h 1 (by omega)
  have h2 := h 2 (by omega)
  have h3 := h 3 (by omega)
  have hv := v.toNat_lt
  simp only [Nat.add_zero] at h0
  apply UInt32.toNat_inj.1
  simp only [load32, h0, h1, h2, h3, byte32, UInt32.toNat_ofNat', UInt8.toNat_ofNat']
  omega

theorem byte16_load16 {a k : ℕ} (hk : k < 2) : byte16 (m.load16 a) k = m (a + k) := by
  have h0 := (m a).toNat_lt
  have h1 := (m (a + 1)).toNat_lt
  apply UInt8.toNat_inj.1
  simp only [byte16, load16, UInt16.toNat_ofNat', UInt8.toNat_ofNat']
  obtain rfl | rfl : k = 0 ∨ k = 1 := by omega
  · simp only [Nat.pow_zero, Nat.div_one, Nat.add_zero]
    omega
  · omega

theorem byte32_load32 {a k : ℕ} (hk : k < 4) : byte32 (m.load32 a) k = m (a + k) := by
  have h0 := (m a).toNat_lt
  have h1 := (m (a + 1)).toNat_lt
  have h2 := (m (a + 2)).toNat_lt
  have h3 := (m (a + 3)).toNat_lt
  apply UInt8.toNat_inj.1
  simp only [byte32, load32, UInt32.toNat_ofNat', UInt8.toNat_ofNat']
  obtain rfl | hk : k = 0 ∨ k = 1 ∨ k = 2 ∨ k = 3 := by omega
  · simp only [Nat.pow_zero, Nat.div_one, Nat.add_zero]
    omega
  · rcases hk with rfl | rfl | rfl <;> omega

/-- A word is read from its four bytes. -/
theorem load32_congr {m' : Memory} {a a' : ℕ} (h : ∀ k < 4, m' (a' + k) = m (a + k)) :
    m'.load32 a' = m.load32 a :=
  load32_of_bytes fun k hk => by rw [h k hk, byte32_load32 hk]

/-- A word is read from its two bytes. -/
theorem load16_congr {m' : Memory} {a a' : ℕ} (h : ∀ k < 2, m' (a' + k) = m (a + k)) :
    m'.load16 a' = m.load16 a :=
  load16_of_bytes fun k hk => by rw [h k hk, byte16_load16 hk]

@[simp] theorem load32_store32 (a : ℕ) (v : UInt32) : (m.store32 a v).load32 a = v :=
  load32_of_bytes fun _ hk => store_add hk

theorem store32_of_not_mem {a x : ℕ} {v : UInt32} (h : x < a ∨ a + 4 ≤ x) :
    m.store32 a v x = m x := store_of_not_mem h

/-- A word is unchanged by the assignment of another one. -/
theorem load32_store32_of_disjoint {a b : ℕ} {v : UInt32} (h : b + 4 ≤ a ∨ a + 4 ≤ b) :
    (m.store32 a v).load32 b = m.load32 b :=
  load32_congr fun _ _ => store32_of_not_mem (by omega)

/-! ## Copies -/

variable (m)

/-- The `n` bytes from `src` on, moved to `dst`: an assignment of structures. -/
def move (dst src n : ℕ) : Memory := m.store dst n fun k => m (src + k)

/-- The loop `for (; i < i + n; ++i) dst[i] = src[i]` on arrays of bytes. -/
def copyLoop (dst src : ℕ) (m : Memory) (i : ℕ) : ℕ → Memory
  | 0 => m
  | n + 1 => copyLoop dst src (m.store (dst + i) 1 fun _ => m (src + i)) (i + 1) n

variable {m}

theorem copyLoop_apply {dst src i n : ℕ} (h : dst + i + n ≤ src + i ∨ src + i + n ≤ dst + i) (x : ℕ) :
    copyLoop dst src m i n x =
      if dst + i ≤ x ∧ x < dst + i + n then m (src + (x - dst)) else m x := by
  induction n generalizing m i with
  | zero => rw [copyLoop, if_neg (by omega)]
  | succ n ih =>
    rw [copyLoop, ih (by omega)]
    by_cases hx : x = dst + i
    · subst hx
      rw [if_neg (by omega), if_pos (by omega), store_of_mem ⟨by omega, by omega⟩]
      congr 1
      omega
    · split_ifs <;> first | omega | exact store_of_not_mem (by omega)

/-- Between disjoint arrays, copying byte by byte moves the whole array. -/
theorem copyLoop_eq_move {dst src n : ℕ} (h : dst + n ≤ src ∨ src + n ≤ dst) :
    copyLoop dst src m 0 n = m.move dst src n := by
  funext x
  rw [copyLoop_apply (by omega)]
  rfl

-- The unifier must not run the loop.
attribute [irreducible] copyLoop

end Memory

import GtuOs.Lib.Memory

/-!
# Stacks

A memory of `2 ^ 32` bytes, whose addresses wrap around, with a stack of words growing
downwards. `Stacked m a ws` says that the words `ws` are on the stack at `a`, the top
first:

* `Stacked.push`: storing a word below puts it on top;
* `Stacked.cons_iff`: the top is popped;
* `Stacked.congr`: the bytes of the words determine them.
-/

/-- A memory of `2 ^ 32` bytes. -/
abbrev Ram := UInt32 → UInt8

namespace Ram

variable {m m' : Ram} {a b v : UInt32} {ws : List UInt32} {k : ℕ}

/-- The bytes by number, repeating every `2 ^ 32`. -/
def memory (m : Ram) : Memory := fun k => m (.ofNat k)

/-- The word at `a`. -/
def load32 (m : Ram) (a : UInt32) : UInt32 := m.memory.load32 a.toNat

/-- The assignment of a word at `a`. -/
def store32 (m : Ram) (a v : UInt32) : Ram :=
  fun x => if (x - a).toNat < 4 then Memory.byte32 v (x - a).toNat else m x

theorem memory_add : m.memory (a.toNat + k) = m (a + .ofNat k) := by
  rw [memory, UInt32.ofNat_add, UInt32.ofNat_toNat]

/-- The words of the memory by number. -/
theorem memory_load32 : m.memory.load32 (a.toNat + k) = m.load32 (a + .ofNat k) := by
  refine Memory.load32_congr fun j _ => ?_
  rw [memory_add, Nat.add_assoc, memory_add, UInt32.ofNat_add, UInt32.add_assoc]

theorem load32_congr (h : ∀ k < 4, m' (a + .ofNat k) = m (a + .ofNat k)) :
    m'.load32 a = m.load32 a := by
  refine Memory.load32_congr fun k hk => ?_
  rw [memory_add, memory_add, h k hk]

@[simp] theorem load32_store32 : (m.store32 a v).load32 a = v := by
  refine Memory.load32_of_bytes fun k hk => ?_
  have hk' : (UInt32.ofNat k).toNat = k := by
    rw [UInt32.toNat_ofNat', Nat.mod_eq_of_lt (by omega)]
  rw [memory_add, store32, UInt32.add_comm, UInt32.add_sub_cancel, hk', if_pos hk]

/-- A word is unchanged by the assignment of another one. -/
theorem load32_store32_of_apart (h : 4 ≤ (b - a).toNat) (h' : (b - a).toNat + 4 ≤ 2 ^ 32) :
    (m.store32 a v).load32 b = m.load32 b := by
  refine load32_congr fun k hk => ?_
  have hk' : (UInt32.ofNat k).toNat = k := by
    rw [UInt32.toNat_ofNat', Nat.mod_eq_of_lt (by omega)]
  have hdist : (b + .ofNat k - a).toNat = (b - a).toNat + k := by
    have heq : b + .ofNat k - a = b - a + .ofNat k := by
      rw [UInt32.sub_eq_add_neg, UInt32.sub_eq_add_neg, UInt32.add_assoc, UInt32.add_assoc,
        UInt32.add_comm (.ofNat k)]
    rw [heq, UInt32.toNat_add, hk', Nat.mod_eq_of_lt (by omega)]
  rw [store32, if_neg (by omega)]

theorem sub_sub (a b v : UInt32) : a - b - v = a - (b + v) := by
  rw [UInt32.sub_eq_add_neg, UInt32.sub_eq_add_neg, UInt32.sub_eq_add_neg, UInt32.neg_add,
    UInt32.sub_eq_add_neg, UInt32.add_assoc]

/-- The words `ws` are on the stack at `a`. -/
def Stacked (m : Ram) (a : UInt32) : List UInt32 → Prop
  | [] => True
  | w :: ws => m.load32 a = w ∧ Stacked m (a + 4) ws

@[simp] theorem stacked_nil : m.Stacked a [] := trivial

@[simp] theorem Stacked.cons_iff {w : UInt32} :
    m.Stacked a (w :: ws) ↔ m.load32 a = w ∧ m.Stacked (a + 4) ws := Iff.rfl

/-- The words depend on their bytes. -/
theorem Stacked.congr (h : m.Stacked a ws)
    (hm : ∀ k < 4 * ws.length, m' (a + .ofNat k) = m (a + .ofNat k)) : m'.Stacked a ws := by
  induction ws generalizing a with
  | nil => exact trivial
  | cons w ws ih =>
    obtain ⟨hw, hws⟩ := h
    rw [List.length_cons] at hm
    refine ⟨(load32_congr fun k hk => hm k (by omega)).trans hw, ih hws fun k hk => ?_⟩
    have hk' := hm (4 + k) (by omega)
    rwa [UInt32.ofNat_add, ← UInt32.add_assoc] at hk'

/-- A word below the stack, at the distance `d`, is not on it. -/
theorem Stacked.store {d : UInt32} (h : m.Stacked (a + d) ws) (hd : 4 ≤ d.toNat)
    (hlen : d.toNat + 4 * ws.length ≤ 2 ^ 32) : (m.store32 a v).Stacked (a + d) ws := by
  induction ws generalizing d with
  | nil => exact trivial
  | cons w ws ih =>
    obtain ⟨hw, hws⟩ := h
    rw [List.length_cons] at hlen
    have hdist : a + d - a = d := by rw [UInt32.add_comm, UInt32.add_sub_cancel]
    refine ⟨(load32_store32_of_apart ?_ ?_).trans hw, ?_⟩
    · rw [hdist]
      exact hd
    · rw [hdist]
      omega
    · cases ws with
      | nil => exact trivial
      | cons w' ws =>
        rw [List.length_cons] at hlen ih
        rw [UInt32.add_assoc] at hws ⊢
        have hd' : (d + 4).toNat = d.toNat + 4 := by
          rw [UInt32.toNat_add]
          exact Nat.mod_eq_of_lt (by change d.toNat + 4 < 2 ^ 32; omega)
        exact ih hws (by omega) (by omega)

/-- A word is pushed. -/
theorem Stacked.push (h : m.Stacked a ws) (hlen : 4 * ws.length + 4 ≤ 2 ^ 32) :
    (m.store32 (a - 4) v).Stacked (a - 4) (v :: ws) := by
  have ha : a = a - 4 + 4 := (UInt32.sub_add_cancel a 4).symm
  refine ⟨load32_store32, ?_⟩
  rw [ha] at h
  refine h.store (by decide) ?_
  change 4 + 4 * ws.length ≤ 2 ^ 32
  omega

end Ram

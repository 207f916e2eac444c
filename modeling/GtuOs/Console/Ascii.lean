import GtuOs.Console.PrintInteger

/-!
# Texts of ASCII

The texts that leave the colours of the screen as they are (`AsciiText`), and how they are put together.
-/

namespace GtuOs

/-- A text of ASCII. -/
def AsciiText (text : List UInt8) : Prop := ∀ c ∈ text, IsAscii c

instance (text : List UInt8) : Decidable (AsciiText text) := List.decidableBAll IsAscii text

variable {text text' : List UInt8}

theorem isAscii_numeralOf (n : ℤ) : AsciiText (numeralOf n) := by
  intro c hc
  have hdigit : ∀ d < 10, IsAscii (digitZero + .ofNat d) := by decide
  rcases List.mem_cons.1 hc with rfl | hc
  · split_ifs <;> decide
  · rw [digitsOf] at hc
    split_ifs at hc
    · obtain rfl := List.mem_singleton.1 hc
      decide
    · obtain ⟨d, hd, rfl⟩ := List.mem_map.1 (List.mem_reverse.1 hc)
      exact hdigit d (Nat.digits_lt_base (by decide) hd)

namespace AsciiText

theorem nil : AsciiText [] := fun _ hc => absurd hc List.not_mem_nil

theorem append (h : AsciiText text) (h' : AsciiText text') : AsciiText (text ++ text') :=
  List.forall_mem_append.2 ⟨h, h'⟩

theorem flatMap {α : Type*} {l : List α} {f : α → List UInt8} (h : ∀ x ∈ l, AsciiText (f x)) :
    AsciiText (l.flatMap f) := fun c hc => by
  obtain ⟨x, hx, hc⟩ := List.mem_flatMap.1 hc
  exact h x hx c hc

theorem ite {c : Prop} [Decidable c] (h : AsciiText text) (h' : AsciiText text') : AsciiText (if c then text else text') := by
  split_ifs
  · exact h
  · exact h'

end AsciiText

end GtuOs

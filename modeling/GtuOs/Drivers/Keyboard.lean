import GtuOs.Console.PrintInteger

/-!
# The keyboard

The driver of the keyboard, from `keyboard.cpp`, with the handler of text mode, which prints the
character of a key.
-/

namespace GtuOs

namespace KeyboardDriver

/-- The characters of the keys, by their scan codes. -/
def keys : List (UInt8 × Char) :=
  [(0x02, '1'), (0x03, '2'), (0x04, '3'), (0x05, '4'), (0x06, '5'), (0x07, '6'), (0x08, '7'), (0x09, '8'),
    (0x0A, '9'), (0x0B, '0'),
    (0x10, 'q'), (0x11, 'w'), (0x12, 'e'), (0x13, 'r'), (0x14, 't'), (0x15, 'z'), (0x16, 'u'), (0x17, 'i'),
    (0x18, 'o'), (0x19, 'p'),
    (0x1E, 'a'), (0x1F, 's'), (0x20, 'd'), (0x21, 'f'), (0x22, 'g'), (0x23, 'h'), (0x24, 'j'), (0x25, 'k'),
    (0x26, 'l'),
    (0x2C, 'y'), (0x2D, 'x'), (0x2E, 'c'), (0x2F, 'v'), (0x30, 'b'), (0x31, 'n'), (0x32, 'm'), (0x33, ','),
    (0x34, '.'), (0x35, '-'),
    (0x1C, '\n'), (0x39, ' ')]

/-- The character of a key. -/
def characterOf (key : UInt8) : Option UInt8 := (keys.lookup key).map fun c => .ofNat c.toNat

/-- `HandleInterrupt`, with the byte read: what the handler `onKeyDown` prints for the character of the key,
    or what is printed for a key without one. A key that is released does nothing. -/
def handleInterrupt (onKeyDown : UInt8 → List UInt8) (key : UInt8) : List UInt8 :=
  if key < 0x80 then
    match characterOf key with
    | some c => onKeyDown c
    | none => ascii "KEYBOARD 0x" ++ hexByte key
  else []

/-- `PrintfKeyboardEventHandler::OnKeyDown`. -/
def printKey (c : UInt8) : List UInt8 := [c]

/-! ## What is printed -/

theorem isAscii_getD {text : List UInt8} (h : ∀ c ∈ text, IsAscii c) (i : ℕ) : IsAscii (text.getD i 0) := by
  rw [List.getD_eq_getElem?_getD]
  rcases hget : text[i]? with _ | c
  · decide
  · exact h c (List.mem_of_getElem? hget)

theorem isAscii_hexByte {key c : UInt8} (hc : c ∈ hexByte key) : IsAscii c := by
  have hhex : ∀ c ∈ hex, IsAscii c := by decide +kernel
  obtain rfl | rfl : c = _ ∨ c = _ := by simpa [hexByte] using hc
  · exact isAscii_getD hhex _
  · exact isAscii_getD hhex _

theorem mem_of_lookup_eq_some {α β : Type} [BEq α] [LawfulBEq α] {l : List (α × β)} {a : α} {b : β}
    (h : l.lookup a = some b) : (a, b) ∈ l := by
  obtain ⟨l₁, l₂, rfl, -⟩ := List.lookup_eq_some_iff.1 h
  exact List.mem_append_right _ List.mem_cons_self

/-- The characters of the keys are ASCII, and so is what is printed for a key without one. -/
theorem isAscii_handleInterrupt {key c : UInt8} (hc : c ∈ handleInterrupt printKey key) : IsAscii c := by
  have hkeys : ∀ q ∈ keys, IsAscii (.ofNat q.2.toNat) := by decide +kernel
  have hname : ∀ c ∈ ascii "KEYBOARD 0x", IsAscii c := by decide +kernel
  rw [handleInterrupt] at hc
  split_ifs at hc
  · rcases hkey : characterOf key with _ | d
    · rw [hkey] at hc
      rcases List.mem_append.1 hc with hc | hc
      · exact hname c hc
      · exact isAscii_hexByte hc
    · rw [hkey] at hc
      obtain rfl := List.mem_singleton.1 hc
      obtain ⟨q, hq, rfl⟩ := Option.map_eq_some_iff.1 hkey
      exact hkeys _ (mem_of_lookup_eq_some hq)
  · exact absurd hc List.not_mem_nil

end KeyboardDriver

end GtuOs

/-!
# Blank characters

The white space of Unicode: the characters with bidirectional class B, S or WS or general category
Zs. The zero width space, the word joiner and the Mongolian vowel separator are not among them.
-/

namespace SchemaTypes.Text

/-- The ranges of white space characters, ends included. -/
def blankRanges : List (Nat × Nat) :=
  [(0x9, 0xD), (0x1C, 0x20), (0x85, 0x85), (0xA0, 0xA0), (0x1680, 0x1680), (0x2000, 0x200A),
    (0x2028, 0x2029), (0x202F, 0x202F), (0x205F, 0x205F), (0x3000, 0x3000)]

/-- Whether a character is white space. -/
def isBlank (c : Char) : Bool :=
  blankRanges.any fun r => r.1 ≤ c.toNat && c.toNat ≤ r.2

/-- Drops blank items from the front of a list of characters. -/
def dropBlank (cs : List Char) : List Char :=
  cs.dropWhile isBlank

/-- Drops the blanks at both ends of a list of characters. -/
def stripList (cs : List Char) : List Char :=
  (dropBlank (dropBlank cs).reverse).reverse

/-- A text without the blanks at its ends. -/
def strip (text : String) : String :=
  String.ofList (stripList text.toList)

/-- What is left of a list does not start with a blank. -/
theorem not_isBlank_of_dropBlank_eq_cons {cs rest : List Char} {c : Char}
    (h : dropBlank cs = c :: rest) : isBlank c = false := by
  have := List.head?_dropWhile_not isBlank cs
  simp only [dropBlank] at h
  rw [h] at this
  simpa using this

end SchemaTypes.Text

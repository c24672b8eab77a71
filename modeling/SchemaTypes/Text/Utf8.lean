/-!
# UTF-8

`encode` writes characters as bytes, and `text?` reads bytes that are written so. `decode` reads any
sequence of bytes. Well-formed sequences give their characters; each maximal ill-formed part, that
is the longest start of a well-formed sequence that goes no further, or else a single byte, gives
one replacement character.
-/

namespace SchemaTypes.Text.Utf8

/-- The character that stands for an ill-formed part. -/
def replacement : Char := '\uFFFD'

/-- The length of the sequence that a byte starts, with the range of its second byte. -/
inductive Lead where
  | single
  | double
  | triple (low high : Nat)
  | quadruple (low high : Nat)
  | invalid
deriving DecidableEq, Repr

/-- What a byte can start. The ranges of second bytes leave out overlong forms, surrogates and codes
beyond the last one. -/
def lead (b : Nat) : Lead :=
  if b < 0x80 then .single
  else if b < 0xC2 then .invalid
  else if b < 0xE0 then .double
  else if b = 0xE0 then .triple 0xA0 0xBF
  else if b = 0xED then .triple 0x80 0x9F
  else if b < 0xF0 then .triple 0x80 0xBF
  else if b = 0xF0 then .quadruple 0x90 0xBF
  else if b < 0xF4 then .quadruple 0x80 0xBF
  else if b = 0xF4 then .quadruple 0x80 0x8F
  else .invalid

/-- Whether a byte continues a sequence. -/
def isTail (b : Nat) : Bool :=
  0x80 ≤ b && b ≤ 0xBF

/-- The characters of a sequence of bytes. -/
def decode : List Nat → List Char
  | [] => []
  | b₁ :: rest₁ =>
    match lead b₁ with
    | .single => Char.ofNat b₁ :: decode rest₁
    | .invalid => replacement :: decode rest₁
    | .double =>
      match rest₁ with
      | [] => [replacement]
      | b₂ :: rest₂ =>
        if isTail b₂ then
          Char.ofNat ((b₁ - 0xC0) * 0x40 + (b₂ - 0x80)) :: decode rest₂
        else
          replacement :: decode (b₂ :: rest₂)
    | .triple low high =>
      match rest₁ with
      | [] => [replacement]
      | b₂ :: rest₂ =>
        if low ≤ b₂ ∧ b₂ ≤ high then
          match rest₂ with
          | [] => [replacement]
          | b₃ :: rest₃ =>
            if isTail b₃ then
              Char.ofNat ((b₁ - 0xE0) * 0x1000 + (b₂ - 0x80) * 0x40 + (b₃ - 0x80)) :: decode rest₃
            else
              replacement :: decode (b₃ :: rest₃)
        else
          replacement :: decode (b₂ :: rest₂)
    | .quadruple low high =>
      match rest₁ with
      | [] => [replacement]
      | b₂ :: rest₂ =>
        if low ≤ b₂ ∧ b₂ ≤ high then
          match rest₂ with
          | [] => [replacement]
          | b₃ :: rest₃ =>
            if isTail b₃ then
              match rest₃ with
              | [] => [replacement]
              | b₄ :: rest₄ =>
                if isTail b₄ then
                  Char.ofNat ((b₁ - 0xF0) * 0x40000 + (b₂ - 0x80) * 0x1000 + (b₃ - 0x80) * 0x40 +
                    (b₄ - 0x80)) :: decode rest₄
                else
                  replacement :: decode (b₄ :: rest₄)
            else
              replacement :: decode (b₃ :: rest₃)
        else
          replacement :: decode (b₂ :: rest₂)

/-- The bytes of a character. -/
def encodeChar (c : Char) : List Nat :=
  let n := c.toNat
  if n < 0x80 then
    [n]
  else if n < 0x800 then
    [0xC0 + n / 0x40, 0x80 + n % 0x40]
  else if n < 0x10000 then
    [0xE0 + n / 0x1000, 0x80 + n / 0x40 % 0x40, 0x80 + n % 0x40]
  else
    [0xF0 + n / 0x40000, 0x80 + n / 0x1000 % 0x40, 0x80 + n / 0x40 % 0x40, 0x80 + n % 0x40]

/-- The bytes of some characters. -/
def encode (cs : List Char) : List Nat :=
  cs.flatMap encodeChar

/-- The text that some bytes encode, if they are well-formed. -/
def text? (bytes : List Nat) : Option String :=
  let cs := decode bytes
  if encode cs = bytes then some (String.ofList cs) else none

end SchemaTypes.Text.Utf8

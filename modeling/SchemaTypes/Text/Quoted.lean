import SchemaTypes.Text.Printable

/-!
# Quoted texts

The form in which a message shows a text: between quotes, with the quote in use, the backslash and
all characters that are not printable escaped. The quotes are single, unless the text holds a single
quote and no double one.
-/

namespace SchemaTypes.Text

/-- The last `width` lower case hexadecimal digits of a number, with zeros in front. -/
def hexDigits (width n : Nat) : List Char :=
  let ds := Nat.toDigits 16 n
  List.replicate (width - ds.length) '0' ++ ds

/-- A character by its code, in the shortest of the three escapes that hold it. -/
def escapeCode (c : Char) : List Char :=
  let n := c.toNat
  if n < 0x100 then
    '\\' :: 'x' :: hexDigits 2 n
  else if n < 0x10000 then
    '\\' :: 'u' :: hexDigits 4 n
  else
    '\\' :: 'U' :: hexDigits 8 n

/-- A character inside the given quotes. -/
def quoteChar (quote c : Char) : List Char :=
  if c = quote ∨ c = '\\' then ['\\', c]
  else if c = '\n' then ['\\', 'n']
  else if c = '\r' then ['\\', 'r']
  else if c = '\t' then ['\\', 't']
  else if isPrintable c then [c]
  else escapeCode c

/-- The quote used for a text. -/
def quoteFor (cs : List Char) : Char :=
  if '\'' ∈ cs ∧ '"' ∉ cs then '"' else '\''

/-- A text in quotes. -/
def quoted (text : String) : String :=
  let cs := text.toList
  let q := quoteFor cs
  String.ofList (q :: cs.flatMap (quoteChar q) ++ [q])

end SchemaTypes.Text

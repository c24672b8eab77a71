import SchemaTypes.Failure
import SchemaTypes.Table
import SchemaTypes.Text.Halves
import SchemaTypes.Text.Percent

/-!
# Reading JSON text

`Json.read` reads one value that fills the whole text. Besides the standard it knows the numbers
`NaN`, `Infinity` and `-Infinity`. A number with a fraction or an exponent is a double, any other an
integer, of any size that can be written with 4300 digits. Control characters inside quotes are
refused, and so is a byte order mark. If an object repeats a key, the first occurrence gives the
place and the last one the value. An escaped half of a surrogate pair without the other half is
kept; `Text.Halves` says how.

The reader takes at most two steps for a character, one for the value that it starts and one for the
list or object around it, so the length of the text bounds the number of steps; the bound is the
reader's first argument.
-/

namespace SchemaTypes.Json.Reader

open Decimal

/-- Something that may stand at the front of a text, and what is left of the text behind it. -/
abbrev Front (α : Type) := Option (α × List Char)

/-- Something that has to stand at the front of a text, and what is left of the text behind it. -/
abbrev Result (α : Type) := Except Failure (α × List Char)

/-- Blanks between the parts of a value. -/
def isSpace (c : Char) : Bool :=
  c = ' ' || c = '\t' || c = '\n' || c = '\r'

/-- Skips blanks. -/
def skip (cs : List Char) : List Char :=
  cs.dropWhile isSpace

/-! ## Numbers -/

/-- Splits off the decimal digits at the front. -/
def digits (cs : List Char) : List Char × List Char :=
  (cs.takeWhile Char.isDigit, cs.dropWhile Char.isDigit)

/-- The whole part of a number: a single zero, or digits that do not start with one. -/
def whole? : List Char → Front (List Char)
  | '0' :: rest => some (['0'], rest)
  | cs =>
    match digits cs with
    | ([], _) => none
    | (ds, rest) => some (ds, rest)

/-- The digits behind a point, if a digit follows the point. -/
def fraction? : List Char → Front (List Char)
  | '.' :: rest =>
    match digits rest with
    | ([], _) => none
    | (ds, rest) => some (ds, rest)
  | _ => none

/-- Splits off a sign: whether it is a minus, and the rest. -/
def sign : List Char → Bool × List Char
  | '-' :: rest => (true, rest)
  | '+' :: rest => (false, rest)
  | rest => (false, rest)

/-- An exponent, if there is one with at least one digit. -/
def exponent? : List Char → Front Int
  | c :: rest =>
    if c = 'e' ∨ c = 'E' then
      let (negative, rest) := sign rest
      match digits rest with
      | ([], _) => none
      | (ds, rest) => some (if negative then -(Numeral.value ds : Int) else Numeral.value ds, rest)
    else
      none
  | [] => none

/-- The double nearest to `n · 10 ^ e`. Numbers far beyond the range of doubles are decided by
their magnitude alone. -/
def nearest (n : Nat) (e : Int) : Float :=
  let magnitude := (toString n).length + e
  if n = 0 ∨ magnitude < -400 then 0
  else if magnitude > 400 then 1 / 0
  else Float.ofScientific n (e < 0) e.natAbs

/-- The integer that is written with the given digits. -/
def integer (negative : Bool) (ds : List Char) : Except Failure Json :=
  if ds.length > Numeral.limit then
    .error (.tooManyDigits ds.length)
  else
    let n : Int := Numeral.value ds
    .ok (.int (if negative then -n else n))

/-- A number without its sign. -/
def unsigned (negative : Bool) (cs : List Char) : Result Json :=
  match whole? cs with
  | none => .error .malformedJson
  | some (ds, rest) =>
    let (fs, rest, isDouble) :=
      match fraction? rest with
      | some (fs, rest) => (fs, rest, true)
      | none => ([], rest, false)
    let (e, rest, isDouble) :=
      match exponent? rest with
      | some (e, rest) => (e, rest, true)
      | none => (0, rest, isDouble)
    if isDouble then
      let x := nearest (Numeral.value (ds ++ fs)) (e - fs.length)
      .ok (.float (if negative then -x else x), rest)
    else
      (integer negative ds).map fun n => (n, rest)

/-! ## Texts -/

/-- The value of four hexadecimal digits. -/
def hex4? (a b c d : Char) : Option Nat :=
  match Text.hexByte? a b, Text.hexByte? c d with
  | some x, some y => some (0x100 * x + y)
  | _, _ => none

/-- Adds a code to codes that are in reverse order. The two halves of a surrogate pair become one
code. -/
def pushCode (codes : List Nat) (n : Nat) : List Nat :=
  match codes with
  | high :: rest =>
    if 0xD800 ≤ high ∧ high < 0xDC00 ∧ 0xDC00 ≤ n ∧ n < 0xE000 then
      (0x10000 + (high - 0xD800) * 0x400 + (n - 0xDC00)) :: rest
    else
      n :: codes
  | [] => [n]

section Halves

variable (halves : Text.Halves)

/-- The character of a code, or the one that stands for half of a pair. -/
def charOf (n : Nat) : Char :=
  if Text.isSurrogate n then halves.char n else Char.ofNat n

/-- The text of codes that are in reverse order. -/
def textOf (codes : List Nat) : String :=
  String.ofList (codes.reverse.map (charOf halves))

/-- The code of a character that is escaped by a single letter. -/
def shortEscape? (c : Char) : Option Nat :=
  if c = '"' ∨ c = '\\' ∨ c = '/' then some c.toNat
  else if c = 'b' then some 0x8
  else if c = 'f' then some 0xC
  else if c = 'n' then some 0xA
  else if c = 'r' then some 0xD
  else if c = 't' then some 0x9
  else none

/-- The rest of a text in quotes, behind codes already read. -/
def string? (codes : List Nat) : List Char → Front String
  | [] => none
  | c :: rest =>
    if c = '"' then
      some (textOf halves codes, rest)
    else if c = '\\' then
      match rest with
      | [] => none
      | 'u' :: a :: b :: d :: e :: rest =>
        match hex4? a b d e with
        | some n => string? (pushCode codes n) rest
        | none => none
      | e :: rest =>
        match shortEscape? e with
        | some n => string? (n :: codes) rest
        | none => none
    else if c.toNat < 0x20 then
      none
    else
      string? (c.toNat :: codes) rest

end Halves

/-! ## Values -/

/-- The values that are written as words. -/
def words : List (String × Json) :=
  [("null", .null), ("true", .bool true), ("false", .bool false), ("NaN", .float (0 / 0)),
    ("Infinity", .float (1 / 0)), ("-Infinity", .float (-1 / 0))]

/-- A value that is written as a word. -/
def word? (cs : List Char) : Front Json :=
  words.findSome? fun w =>
    if w.1.toList.isPrefixOf cs then some (w.2, cs.drop w.1.length) else none

/-- A value that is a word or a number. -/
def scalar (cs : List Char) : Result Json :=
  match word? cs with
  | some r => .ok r
  | none =>
    match cs with
    | '-' :: rest => unsigned true rest
    | _ => unsigned false cs

variable (halves : Text.Halves)

mutual

/-- A value, at the front of the text. -/
def value : Nat → List Char → Result Json
  | 0, _ => .error .boundExceeded
  | bound + 1, cs =>
    match cs with
    | '"' :: rest =>
      match string? halves [] rest with
      | none => .error .malformedJson
      | some (s, rest) => .ok (.str s, rest)
    | '[' :: rest =>
      match skip rest with
      | ']' :: rest => .ok (.arr [], rest)
      | rest => items bound [] rest
    | '\x7b' :: rest =>
      match skip rest with
      | '\x7d' :: rest => .ok (.obj [], rest)
      | rest => members bound [] rest
    | _ => scalar cs

/-- The rest of a list, behind items already read (last one first). -/
def items : Nat → List Json → List Char → Result Json
  | 0, _, _ => .error .boundExceeded
  | bound + 1, done, cs =>
    match value bound cs with
    | .error e => .error e
    | .ok (v, rest) =>
      match skip rest with
      | ']' :: rest => .ok (.arr (v :: done).reverse, rest)
      | ',' :: rest => items bound (v :: done) (skip rest)
      | _ => .error .malformedJson

/-- The rest of an object, behind members already read. -/
def members : Nat → List (String × Json) → List Char → Result Json
  | 0, _, _ => .error .boundExceeded
  | bound + 1, done, cs =>
    match cs with
    | '"' :: rest =>
      match string? halves [] rest with
      | none => .error .malformedJson
      | some (key, rest) =>
        match skip rest with
        | ':' :: rest =>
          match value bound (skip rest) with
          | .error e => .error e
          | .ok (v, rest) =>
            match skip rest with
            | '\x7d' :: rest => .ok (.obj (Table.put key v done), rest)
            | ',' :: rest => members bound (Table.put key v done) (skip rest)
            | _ => .error .malformedJson
        | _ => .error .malformedJson
    | _ => .error .malformedJson

end

end Reader

/-- Reads a text that is one JSON value. -/
def read (halves : Text.Halves) (s : String) : Except Failure Json :=
  let cs := s.toList
  match Reader.value halves (2 * cs.length + 1) (Reader.skip cs) with
  | .ok (v, rest) => if Reader.skip rest = [] then .ok v else .error .malformedJson
  | .error e => .error e

end SchemaTypes.Json

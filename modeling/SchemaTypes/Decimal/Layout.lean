import SchemaTypes.Decimal.Shortest

/-!
# Writing decimal digits

`Layout` holds the decisions of a number format: which decimal exponents are written positionally,
how many digits an exponent has at least, and the texts for values that are not finite.
`Layout.float` writes a double by them, with its shortest digits.
-/

namespace SchemaTypes.Decimal

/-- The decisions of a number format. -/
structure Layout where
  /-- The least decimal exponent that is written positionally. -/
  leastPositional : Int
  /-- The first decimal exponent that is not written positionally any more. -/
  pastPositional : Int
  /-- The least number of digits in a written exponent. -/
  exponentDigits : Nat
  notANumber : String
  infinity : String

namespace Layout

/-- A text of zeros. -/
def zeros (n : Nat) : String :=
  String.ofList (List.replicate n '0')

/-- Digits `ds` whose first one stands for `10 ^ e`, with a point and at least one digit on either
side of it. -/
def positional (ds : List Char) (e : Int) : String :=
  if e < 0 then
    "0." ++ zeros (-e - 1).toNat ++ String.ofList ds
  else
    let whole := e.toNat + 1
    if ds.length ≤ whole then
      String.ofList ds ++ zeros (whole - ds.length) ++ ".0"
    else
      String.ofList (ds.take whole) ++ "." ++ String.ofList (ds.drop whole)

/-- Digits `ds` with an exponent, which always has a sign. -/
def scientific (l : Layout) (ds : List Char) (e : Int) : String :=
  let fraction := if ds.length ≤ 1 then "" else "." ++ String.ofList (ds.drop 1)
  let size := toString e.natAbs
  String.ofList (ds.take 1) ++ fraction ++ "e" ++ (if e < 0 then "-" else "+") ++
    zeros (l.exponentDigits - size.length) ++ size

/-- A decimal number as text. -/
def digits (l : Layout) (d : Digits) : String :=
  let ds := (toString d.coefficient).toList
  let e := (ds.length : Int) - 1 + d.exponent
  if l.leastPositional ≤ e ∧ e < l.pastPositional then positional ds e else l.scientific ds e

/-- A double as text. -/
def float (l : Layout) (x : Float) : String :=
  let sign (negative : Bool) := if negative then "-" else ""
  match Decoded.ofFloat x with
  | .notANumber => l.notANumber
  | .infinite negative => sign negative ++ l.infinity
  | .finite negative b => sign negative ++ l.digits (shortest b)

end Layout

end SchemaTypes.Decimal

/-!
# Decimal numerals

`Numeral.value` is the number that some decimal digits write. Where a numeral comes from outside,
`Numeral.limit` is the number of digits that it can have, and `Numeral.tooLong` are the words for
one that has more.
-/

namespace SchemaTypes.Decimal.Numeral

/-- The number that some digits write. -/
def value (digits : List Char) : Nat :=
  digits.foldl (fun n d => 10 * n + (d.toNat - '0'.toNat)) 0

/-- The number of digits that a numeral can have. -/
def limit : Nat := 4300

/-- A numeral with too many digits, in words. -/
def tooLong (count : Nat) : String :=
  "Exceeds the limit (" ++ toString limit ++
    " digits) for integer string conversion: value has " ++ toString count ++
    " digits; use sys.set_int_max_str_digits() to increase the limit"

end SchemaTypes.Decimal.Numeral

import SchemaTypes.Decimal.Layout
import SchemaTypes.Json.Basic
import SchemaTypes.Text.Lines
import SchemaTypes.Text.Quoted

/-!
# Values in words

How comments, headers and messages show a value: `shown` writes every value, with texts in quotes;
`display` is the same, but a text that stands alone is written as it is.
-/

namespace SchemaTypes.Json

/-- Numbers in words. -/
def wordLayout : Decimal.Layout where
  leastPositional := -4
  pastPositional := 16
  exponentDigits := 2
  notANumber := "nan"
  infinity := "inf"

mutual

/-- A value in words, with texts in quotes. -/
def shown : Json → String
  | .null => "None"
  | .bool true => "True"
  | .bool false => "False"
  | .int n => toString n
  | .float x => wordLayout.float x
  | .str s => Text.quoted s
  | .arr items => "[" ++ Text.join ", " (shownItems items) ++ "]"
  | .obj members => "\x7b" ++ Text.join ", " (shownMembers members) ++ "\x7d"

/-- The items of a list in words. -/
def shownItems : List Json → List String
  | [] => []
  | v :: rest => shown v :: shownItems rest

/-- The members of an object in words. -/
def shownMembers : List (String × Json) → List String
  | [] => []
  | (k, v) :: rest => (Text.quoted k ++ ": " ++ shown v) :: shownMembers rest

end

/-- A value in words; a text is written as it is. -/
def display : Json → String
  | .str s => s
  | v => v.shown

/-- Several values in words, in round brackets; a single one is followed by a comma. -/
def shownTogether (values : List Json) : String :=
  match shownItems values with
  | [one] => "(" ++ one ++ ",)"
  | texts => "(" ++ Text.join ", " texts ++ ")"

@[simp] theorem display_str (s : String) : (str s).display = s := rfl

end SchemaTypes.Json

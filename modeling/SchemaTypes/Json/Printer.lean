import SchemaTypes.Decimal.Layout
import SchemaTypes.Json.Basic
import SchemaTypes.Text.Lines
import SchemaTypes.Text.Quoted

/-!
# JSON text

`Json.text` writes a value on one line, with a space behind every comma and colon. Only what JSON
does not allow inside quotes is escaped: the quote, the backslash and the control characters below
the space. Doubles are written with their shortest digits; those that are not finite have names.
-/

namespace SchemaTypes.Json

/-- Numbers in JSON text: positional from `0.0001` up to sixteen digits before the point. -/
def numberLayout : Decimal.Layout where
  leastPositional := -4
  pastPositional := 16
  exponentDigits := 2
  notANumber := "NaN"
  infinity := "Infinity"

/-- A character inside JSON quotes. -/
def escapeChar (c : Char) : List Char :=
  if c = '"' then ['\\', '"']
  else if c = '\\' then ['\\', '\\']
  else if c = '\n' then ['\\', 'n']
  else if c = '\r' then ['\\', 'r']
  else if c = '\t' then ['\\', 't']
  else if c = '\x08' then ['\\', 'b']
  else if c = '\x0c' then ['\\', 'f']
  else if c.toNat < 0x20 then '\\' :: 'u' :: Text.hexDigits 4 c.toNat
  else [c]

/-- The characters of a text in JSON quotes. -/
def quoteList (cs : List Char) : List Char :=
  '"' :: cs.flatMap escapeChar ++ ['"']

/-- A text in JSON quotes. -/
def quote (s : String) : String :=
  String.ofList (quoteList s.toList)

mutual

/-- A value as JSON text. -/
def text : Json → String
  | .null => "null"
  | .bool true => "true"
  | .bool false => "false"
  | .int n => toString n
  | .float x => numberLayout.float x
  | .str s => quote s
  | .arr items => "[" ++ Text.join ", " (itemTexts items) ++ "]"
  | .obj members => "\x7b" ++ Text.join ", " (memberTexts members) ++ "\x7d"

/-- The items of a list as JSON texts. -/
def itemTexts : List Json → List String
  | [] => []
  | v :: rest => text v :: itemTexts rest

/-- The members of an object as JSON texts. -/
def memberTexts : List (String × Json) → List String
  | [] => []
  | (k, v) :: rest => (quote k ++ ": " ++ text v) :: memberTexts rest

end

theorem itemTexts_eq_map (items : List Json) : itemTexts items = items.map text := by
  induction items with
  | nil => simp [itemTexts]
  | cons v rest ih => simp [itemTexts, ih]

theorem memberTexts_eq_map (members : List (String × Json)) :
    memberTexts members = members.map fun m => quote m.1 ++ ": " ++ text m.2 := by
  induction members with
  | nil => simp [memberTexts]
  | cons m rest ih => simp [memberTexts, ih]

end SchemaTypes.Json

import SchemaTypes.Decimal.Shortest
import SchemaTypes.Json.Basic

/-!
# Equality of values

`Json.same` compares values the way a default is compared with what was given: numbers by their
exact value, whatever their kind, with true as 1 and false as 0; objects without regard to the order
of their members. A value that is not a number (NaN) differs from every value.
-/

namespace SchemaTypes.Json

/-- Whether a decoded double is exactly an integer. -/
def decodedIsInt : Decimal.Decoded → Int → Bool
  | .finite negative b, n =>
    let (up, down) := Decimal.powerRatio 2 b.exponent
    let signed : Int := if negative then -(b.mantissa * up : Nat) else (b.mantissa * up : Nat)
    signed == n * down
  | _, _ => false

/-- The integer that a value counts as, if its kind makes it one. -/
def asInt? : Json → Option Int
  | .bool true => some 1
  | .bool false => some 0
  | .int n => some n
  | _ => none

/-- Whether two numbers have the same value. Values that are no numbers never do. -/
def sameNumber (a b : Json) : Bool :=
  match a, b with
  | .float x, .float y => x == y
  | .float x, v | v, .float x =>
    match v.asInt? with
    | some n => decodedIsInt (.ofFloat x) n
    | none => false
  | v, w =>
    match v.asInt?, w.asInt? with
    | some m, some n => m == n
    | _, _ => false

mutual

/-- Whether two values are equal. -/
def same : Json → Json → Bool
  | .null, .null => true
  | .str s, .str t => s == t
  | .arr items, .arr others => sameItems items others
  | .obj members, .obj others => members.length == others.length && sameMembers members others
  | .bool b, v => sameNumber (.bool b) v
  | .int n, v => sameNumber (.int n) v
  | .float x, v => sameNumber (.float x) v
  | _, _ => false

/-- Whether two lists have equal items. -/
def sameItems : List Json → List Json → Bool
  | [], [] => true
  | v :: rest, w :: others => same v w && sameItems rest others
  | _, _ => false

/-- Whether each of some members has an equal one under its key among the others. -/
def sameMembers : List (String × Json) → List (String × Json) → Bool
  | [], _ => true
  | (k, v) :: rest, others =>
    (match others.lookup k with
      | some w => same v w
      | none => false) && sameMembers rest others

end

/-- Values that are equal in this sense are the same key of a table. -/
instance : BEq Json := ⟨same⟩

end SchemaTypes.Json

/-!
# Shortest decimal digits

A finite double stands for every real number that rounds to it. Among the decimal numbers in that
interval, `shortest` picks one with the fewest digits and, of those, the one nearest to the double
itself. All arithmetic is exact, on natural numbers.

The search goes over decimal grids `10 ^ p`, from the coarsest that can hold a first digit to the
finest that is ever needed. If a point of a grid lies in the interval, so does one of the two grid
points next to the value, so only those two are tested.
-/

namespace SchemaTypes.Decimal

/-! ## Doubles, decoded -/

/-- The magnitude `mantissa · 2 ^ exponent`. The doubles next to it are `2 ^ exponent` away, except
that below a power of two the gap is half as wide: then `narrowBelow` holds. -/
structure Binary where
  mantissa : Nat
  exponent : Int
  narrowBelow : Bool
deriving Repr

/-- What the bits of a double say. -/
inductive Decoded where
  | notANumber
  | infinite (negative : Bool)
  | finite (negative : Bool) (magnitude : Binary)
deriving Repr

/-- The number of fractions of a double, two to the power of 52. -/
def fractions : Nat := 0x10000000000000

/-- Reads the sign, the exponent field and the fraction off the 64 bits of a double. -/
def Decoded.ofBits (bits : Nat) : Decoded :=
  let head := bits / fractions
  let negative := head / 0x800 == 1
  let field : Nat := head % 0x800
  let fraction : Nat := bits % fractions
  if field = 0x7FF then
    if fraction = 0 then .infinite negative else .notANumber
  else if field = 0 then
    .finite negative ⟨fraction, -1074, false⟩
  else
    .finite negative ⟨fractions + fraction, (field : Int) - 1075, fraction == 0 && field != 1⟩

/-- The decoded form of a double. -/
def Decoded.ofFloat (x : Float) : Decoded :=
  .ofBits x.toBits.toNat

/-! ## The interval that rounds to a double -/

/-- The factors `(u, d)` with `base ^ p = u / d`, one of them being 1. -/
def powerRatio (base : Nat) (p : Int) : Nat × Nat :=
  (Nat.pow base p.toNat, Nat.pow base (-p).toNat)

/-- The reals between `low / den` and `high / den`, around `value / den`; the ends belong to it if
`closed` holds. -/
structure Rounding where
  low : Nat
  value : Nat
  high : Nat
  den : Nat
  closed : Bool
deriving Repr

/-- The reals that round to a double: half a gap to either side, ends included exactly if the
mantissa is even. The bounds are counted in quarters of a gap. -/
def Binary.rounding (b : Binary) : Rounding :=
  let (up, down) := powerRatio 2 (b.exponent - 2)
  { low := (4 * b.mantissa - if b.narrowBelow then 1 else 2) * up
    value := 4 * b.mantissa * up
    high := (4 * b.mantissa + 2) * up
    den := down
    closed := b.mantissa % 2 == 0 }

namespace Rounding

/-- Whether `c · 10 ^ p` rounds to the value. -/
def contains (r : Rounding) (c : Nat) (p : Int) : Bool :=
  let (up, down) := powerRatio 10 p
  let x := c * up * r.den
  if r.closed then
    r.low * down ≤ x && x ≤ r.high * down
  else
    r.low * down < x && x < r.high * down

/-- The distance from `c · 10 ^ p` to the value, in units of the common denominator. -/
def distance (r : Rounding) (c : Nat) (p : Int) : Nat :=
  let (up, down) := powerRatio 10 p
  let x := c * up * r.den
  let v := r.value * down
  (x - v) + (v - x)

/-- The multiple of `10 ^ p` that rounds to the value, if there is one: of the two neighbours of the
value on the grid, the nearer one that does, and the even one if they are equally near. -/
def onGrid? (r : Rounding) (p : Int) : Option Nat :=
  let (up, down) := powerRatio 10 p
  let below := r.value * down / (r.den * up)
  let above := below + 1
  match r.contains below p, r.contains above p with
  | true, false => some below
  | false, true => some above
  | false, false => none
  | true, true =>
    let toBelow := r.distance below p
    let toAbove := r.distance above p
    if toBelow < toAbove ∨ (toBelow = toAbove ∧ below % 2 = 0) then some below else some above

/-- The power `k` with `10 ^ (k - 1) ≤ value < 10 ^ k`. -/
def magnitude (r : Rounding) : Int :=
  if r.den ≤ r.value then
    (toString (r.value / r.den)).length
  else
    1 - ((toString ((r.den - 1) / r.value)).length : Int)

end Rounding

/-! ## Digits -/

/-- The decimal number `coefficient · 10 ^ exponent`. -/
structure Digits where
  coefficient : Nat
  exponent : Int
deriving Repr, DecidableEq

/-- Moves up to `n` trailing zeros of the coefficient into the exponent. -/
def Digits.trim : Nat → Digits → Digits
  | 0, d => d
  | n + 1, d =>
    if d.coefficient ≠ 0 ∧ d.coefficient % 10 = 0 then
      Digits.trim n ⟨d.coefficient / 10, d.exponent + 1⟩
    else
      d

/-- Seventeen digits tell any two doubles apart. -/
def mostDigits : Nat := 17

/-- The shortest decimal number that rounds to a double, without trailing zeros. -/
def shortest (b : Binary) : Digits :=
  if b.mantissa = 0 then
    ⟨0, 0⟩
  else
    let r := b.rounding
    let k := r.magnitude
    let grids := (List.range mostDigits).map fun n => k - (n + 1 : Nat)
    match grids.findSome? fun p => (r.onGrid? p).map (Digits.mk · p) with
    | some d => d.trim mostDigits
    | none => ⟨0, 0⟩

end SchemaTypes.Decimal

import Mathlib
import SchemaTypes.Json.Equality

/-!
# Equality of numbers

Numbers are compared across their kinds: a double with an integer by what its bits decode to, two
doubles as the machine compares them, and true counts as 1. All of this is a comparison of exact
values. `Json.number?` is the value, a rational number or one of the infinities, and two numbers are
the same exactly if both have a value and it is the same one (`Json.sameNumber_iff`).

For two doubles, the comparison goes over the exponents and mantissas of their unpacked forms. It
compares values since a magnitude has one mantissa and one exponent only, as a double holds them
(`Decimal.Placed.unique`).
-/

namespace SchemaTypes

namespace Decimal

open Float.Model (UnpackedFloat Format)
open Float.Model.UnpackedFloat

/-! ## Magnitudes -/

/-- How a double holds a mantissa and an exponent: the mantissa has its leading bit, unless the
exponent is the lowest one. -/
structure Placed (mantissa : Nat) (exponent : Int) : Prop where
  fits : mantissa < 2 * fractions
  lowest : -1074 ≤ exponent
  leading : -1074 < exponent → fractions ≤ mantissa

section Magnitudes

variable {m m' : Nat} {e e' : Int}

theorem magnitude_pos (h : 0 < m) (e : Int) : 0 < (m : ℚ) * 2 ^ e :=
  mul_pos (Nat.cast_pos.mpr h) (zpow_pos (by decide) e)

/-- Of two equal magnitudes, the first does not have the smaller exponent. -/
theorem Placed.le_of_eq (h : Placed m e) (h' : Placed m' e')
    (heq : (m : ℚ) * 2 ^ e = m' * 2 ^ e') : e' ≤ e := by
  by_contra hlt
  have hpow : (2 : ℚ) ^ e' = 2 ^ (e' - e).toNat * 2 ^ e := by
    rw [← zpow_natCast, Int.toNat_of_nonneg (by omega), ← zpow_add₀ (by decide), Int.sub_add_cancel]
  have hm : m = m' * 2 ^ (e' - e).toNat := by
    rw [hpow, ← mul_assoc] at heq
    exact_mod_cast mul_right_cancel₀ (zpow_ne_zero e (by decide)) heq
  -- the other mantissa has its leading bit then, so this one would be too long
  have hlowest := h.lowest
  have hleading : fractions ≤ m' := h'.leading (by omega)
  have htwo : 2 ^ 1 ≤ 2 ^ (e' - e).toNat := Nat.pow_le_pow_right (by decide) (by omega)
  have hlong := Nat.mul_le_mul hleading htwo
  have hfits := h.fits
  omega

/-- A magnitude has one mantissa and one exponent only. -/
theorem Placed.unique (h : Placed m e) (h' : Placed m' e')
    (heq : (m : ℚ) * 2 ^ e = m' * 2 ^ e') : m = m' ∧ e = e' := by
  obtain rfl : e = e' := le_antisymm (h'.le_of_eq h heq.symm) (h.le_of_eq h' heq)
  have hm : (m : ℚ) = m' := mul_right_cancel₀ (zpow_ne_zero e (by decide)) heq
  exact ⟨by exact_mod_cast hm, rfl⟩

end Magnitudes

/-! ## Values -/

/-- The value of a number. -/
inductive Value where
  | finite (value : ℚ)
  | infinite (negative : Bool)
deriving DecidableEq

/-- A magnitude with a sign. -/
def signed (negative : Bool) (magnitude : ℚ) : ℚ :=
  if negative then -magnitude else magnitude

theorem signed_zero (negative : Bool) : signed negative 0 = 0 := by
  unfold signed
  split <;> simp

theorem signed_ne_zero {q : ℚ} (h : 0 < q) (negative : Bool) : signed negative q ≠ 0 := by
  unfold signed
  split
  · exact neg_ne_zero.mpr h.ne'
  · exact h.ne'

theorem signed_inj {q r : ℚ} (hq : 0 < q) (hr : 0 < r) {a b : Bool} :
    signed a q = signed b r ↔ a = b ∧ q = r := by
  unfold signed
  cases a <;> cases b <;> simp <;> linarith

/-- The value that decoded bits stand for, if it is that of a number. -/
def Decoded.value? : Decoded → Option Value
  | .notANumber => none
  | .infinite negative => some (.infinite negative)
  | .finite negative b => some (.finite (signed negative (b.mantissa * 2 ^ b.exponent)))

/-! ## Reading bits -/

/-- Whether a sign is the negative one. -/
def isNegative : Sign → Bool
  | .negative => true
  | .positive => false

theorem isNegative_inj {s t : Sign} : isNegative s = isNegative t ↔ s = t := by
  cases s <;> cases t <;> simp [isNegative]

/-- Decoded bits say the same as an unpacked double. -/
inductive Reads : Decoded → UnpackedFloat → Prop where
  | notANumber : Reads .notANumber .notANumber
  | infinite (s : Sign) : Reads (.infinite (isNegative s)) (.infinity s)
  | zero (s : Sign) (e : Int) (narrow : Bool) :
    Reads (.finite (isNegative s) ⟨0, e, narrow⟩) (.zero s)
  | finite (s : Sign) {m : Nat} {e : Int} (narrow : Bool) (hpos : 0 < m) (hplaced : Placed m e) :
    Reads (.finite (isNegative s) ⟨m, e, narrow⟩) (.finite s m e hpos)

section Bits

variable (v : BitVec 64)

theorem toNat_unpackMantissa : (@unpackMantissa .binary64 v).toNat = v.toNat % fractions := by
  simp [unpackMantissa, fractions]

theorem toNat_unpackExponent :
    (@unpackExponent .binary64 v).toNat = v.toNat / fractions % 0x800 := by
  simp [unpackExponent, fractions, Nat.shiftRight_eq_div_pow]

theorem isNegative_unpackSign :
    isNegative (.ofBitVec (@unpackSign .binary64 v)) = (v.toNat / fractions / 0x800 == 1) := by
  have hv : v.toNat < 2 ^ 64 := v.isLt
  have hbit : (@unpackSign .binary64 v).toNat = v.toNat / fractions / 0x800 := by
    rw [Nat.div_div_eq_div_mul]
    simp only [unpackSign, BitVec.toNat_cast, BitVec.extractLsb_toNat, Nat.shiftRight_eq_div_pow,
      fractions]
    omega
  rw [← hbit]
  generalize @unpackSign .binary64 v = sign
  revert sign
  decide

/-- Bits are decoded to what they are unpacked to. -/
theorem reads_ofBits : Reads (.ofBits v.toNat) (unpack .binary64 v) := by
  have hfraction : (@unpackMantissa .binary64 v).toNat < fractions := BitVec.isLt _
  have hbias : ((Format.binary64.exponentBias : Nat) : Int) = 1023 := by decide
  have hleading : fractions + (@unpackMantissa .binary64 v).toNat =
      (1#1 ++ @unpackMantissa .binary64 v).toNat := by
    rw [BitVec.toNat_append, ← Nat.shiftLeft_add_eq_or_of_lt (BitVec.isLt _)]
    simp [Nat.shiftLeft_eq, fractions]
  have hall : (-1#11).toNat = 0x7FF := rfl
  unfold Decoded.ofBits unpack
  dsimp only
  rw [← toNat_unpackMantissa, ← toNat_unpackExponent, ← isNegative_unpackSign]
  -- both sides ask the same questions now, about numbers and about bits
  simp only [← BitVec.toNat_inj, BitVec.toNat_zero, hall]
  split
  · split
    · exact .infinite _
    · exact .notANumber
  · split
    · next hlowest =>
      split
      · next hzero =>
        rw [hzero]
        exact .zero _ _ _
      · next hpos =>
        have hexponent : (-1074 : Int) = ((@unpackExponent .binary64 v).toNat : Int) -
            (Format.binary64.exponentBias + (52 : Nat)) + 1 := by omega
        rw [hexponent]
        exact .finite _ _ _ ⟨by omega, by omega, by omega⟩
    · next hraised =>
      have hexponent : ((@unpackExponent .binary64 v).toNat : Int) - 1075 =
          (@unpackExponent .binary64 v).toNat - (Format.binary64.exponentBias + (52 : Nat)) := by
        omega
      rw [hexponent, hleading]
      exact .finite _ _ _ ⟨by omega, by omega, by omega⟩

end Bits

/-! ## Equality of doubles -/

/-- Unpacked doubles are equal if their values are. -/
theorem Reads.beq_iff {d d' : Decoded} {u u' : UnpackedFloat} (h : Reads d u) (h' : Reads d' u') :
    u.beq u' = true ↔ ∃ v, d.value? = some v ∧ d'.value? = some v := by
  rw [beq_iff_ne_notANumber_and_eq]
  cases h with
  | notANumber => simp [Decoded.value?]
  | infinite s =>
    cases h' with
    | infinite t => simp [Decoded.value?, isNegative_inj, eq_comm]
    | _ => simp [Decoded.value?]
  | zero s e narrow =>
    cases h' with
    | zero t e' narrow' => cases s <;> cases t <;> simp [Decoded.value?, signed_zero]
    | @finite t n f narrow' hpos' hplaced' =>
      have hne := signed_ne_zero (magnitude_pos hpos' f) (isNegative t)
      simp [Decoded.value?, signed_zero, hne]
    | _ => simp [Decoded.value?]
  | @finite s m e narrow hpos hplaced =>
    cases h' with
    | zero t e' narrow' =>
      have hne := signed_ne_zero (magnitude_pos hpos e) (isNegative s)
      simp [Decoded.value?, signed_zero, hne.symm]
    | @finite t n f narrow' hpos' hplaced' =>
      have hvalue : signed (isNegative s) (m * 2 ^ e) = signed (isNegative t) (n * 2 ^ f) ↔
          s = t ∧ m = n ∧ e = f := by
        rw [signed_inj (magnitude_pos hpos e) (magnitude_pos hpos' f), isNegative_inj]
        constructor
        · rintro ⟨hsign, heq⟩
          exact ⟨hsign, hplaced.unique hplaced' heq⟩
        · rintro ⟨hsign, rfl, rfl⟩
          exact ⟨hsign, rfl⟩
      simp [Decoded.value?, eq_comm, ← hvalue]
    | _ => simp [Decoded.value?]

/-- Doubles are equal if their values are. -/
theorem beq_iff (x y : Float) :
    (x == y) = true ↔
      ∃ v, (Decoded.ofFloat x).value? = some v ∧ (Decoded.ofFloat y).value? = some v := by
  have hx : Reads (.ofFloat x) x.toModel.unpack := reads_ofBits x.toModel.toBits.toBitVec
  have hy : Reads (.ofFloat y) y.toModel.unpack := reads_ofBits y.toModel.toBits.toBitVec
  exact hx.beq_iff hy

/-! ## Doubles and integers -/

theorem powerRatio_eq (p : Int) :
    ((powerRatio 2 p).1 : ℚ) = 2 ^ p * ((powerRatio 2 p).2 : ℚ) := by
  obtain ⟨k, rfl | rfl⟩ := Int.eq_nat_or_neg p
  · simp [powerRatio]
  · simp [powerRatio]

/-- A double is exactly an integer if this is its value. -/
theorem decodedIsInt_iff (d : Decoded) (n : Int) :
    Json.decodedIsInt d n = true ↔ d.value? = some (.finite n) := by
  cases d with
  | notANumber => simp [Json.decodedIsInt, Decoded.value?]
  | infinite negative => simp [Json.decodedIsInt, Decoded.value?]
  | finite negative b =>
    have hdown : ((powerRatio 2 b.exponent).2 : ℚ) ≠ 0 := by simp [powerRatio]
    have hsigned : (((if negative then -((b.mantissa * (powerRatio 2 b.exponent).1 : Nat) : Int)
        else (b.mantissa * (powerRatio 2 b.exponent).1 : Nat)) : Int) : ℚ) =
        signed negative (b.mantissa * 2 ^ b.exponent) * (powerRatio 2 b.exponent).2 := by
      unfold signed
      split <;> push_cast <;> rw [powerRatio_eq] <;> ring
    simp only [Json.decodedIsInt, Decoded.value?]
    rw [beq_iff_eq, ← @Int.cast_inj ℚ, hsigned, Int.cast_mul, Int.cast_natCast,
      mul_left_inj' hdown, Option.some_inj, Value.finite.injEq]

end Decimal

namespace Json

open Decimal (Value Decoded)

/-! ## Numbers of any kind -/

/-- The value of a number; true counts as 1 and false as 0. -/
def number? : Json → Option Value
  | bool b => some (.finite (if b then 1 else 0))
  | int n => some (.finite n)
  | float x => (Decoded.ofFloat x).value?
  | _ => none

section Kinds

variable {v : Json} (hv : ∀ x, v ≠ .float x)

include hv

theorem number?_eq_map : v.number? = v.asInt?.map fun n => .finite n := by
  cases v with
  | bool b => cases b <;> simp [asInt?, number?]
  | float x => exact absurd rfl (hv x)
  | _ => simp [asInt?, number?]

theorem float_same_iff (x : Float) :
    (match v.asInt? with
      | some n => decodedIsInt (.ofFloat x) n
      | none => false) = true ↔
      ∃ q, (float x).number? = some q ∧ v.number? = some q := by
  rw [number?_eq_map hv]
  cases v.asInt? with
  | none => simp
  | some n => simp [Decimal.decodedIsInt_iff, number?]

end Kinds

/-- Two values count as the same number if they are numbers with the same value. -/
theorem sameNumber_iff (v w : Json) :
    sameNumber v w = true ↔ ∃ q, v.number? = some q ∧ w.number? = some q := by
  unfold sameNumber
  split
  · exact Decimal.beq_iff _ _
  · next hw => exact float_same_iff hw _
  · next hv => exact (float_same_iff hv _).trans (by simp only [and_comm])
  · next hv hw _ =>
    rw [number?_eq_map hv, number?_eq_map hw]
    cases v.asInt? with
    | none => simp
    | some m =>
      cases w.asInt? with
      | none => simp
      | some n => simp [@eq_comm _ n]

end Json

end SchemaTypes

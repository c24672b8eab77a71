import Mathlib.Data.List.Basic
import SchemaTypes.Expression.Basic

/-!
# Texts on one line

Numbers are written with digits, signs, points and letters only, and inside quotes control
characters are escaped. So JSON text has no line feeds, whatever value is written, and property keys
and the values of enumerations stand on one line.

The lemmas are about texts that lack any given character, as far as nothing more is needed.
-/

namespace SchemaTypes

namespace Text

/-- A text without a certain character. -/
def Lacks (c : Char) (text : String) : Prop :=
  c ∉ text.toList

/-- A text without line feeds. -/
abbrev OneLine (text : String) : Prop :=
  Lacks '\n' text

instance (c : Char) (text : String) : Decidable (Lacks c text) :=
  inferInstanceAs (Decidable (c ∉ text.toList))

variable {c : Char}

theorem lacks_append {t u : String} : Lacks c (t ++ u) ↔ Lacks c t ∧ Lacks c u := by
  unfold Lacks
  rw [String.toList_append, List.mem_append, not_or]

theorem Lacks.append {t u : String} (ht : Lacks c t) (hu : Lacks c u) : Lacks c (t ++ u) :=
  lacks_append.mpr ⟨ht, hu⟩

theorem lacks_ofList {cs : List Char} : Lacks c (String.ofList cs) ↔ c ∉ cs := by
  unfold Lacks
  rw [String.toList_ofList]

theorem lacks_empty : Lacks c "" :=
  nofun

/-- A text of characters of one kind lacks those of another kind. -/
theorem lacks_of_all {p : Char → Bool} {text : String} (h : text.toList.all p = true)
    (hc : p c = false) : Lacks c text := fun hmem => by
  rw [List.all_eq_true.mp h c hmem] at hc
  cases hc

/-- What all texts and the separator lack, they lack when they are joined. -/
theorem Lacks.join {sep : String} (hsep : Lacks c sep) {texts : List String}
    (h : ∀ t ∈ texts, Lacks c t) : Lacks c (join sep texts) := by
  induction texts with
  | nil => exact lacks_empty
  | cons t rest ih =>
    cases rest with
    | nil => exact h t List.mem_cons_self
    | cons t' rest =>
      rw [join_cons_cons]
      exact ((h t List.mem_cons_self).append hsep).append
        (ih fun u hu => h u (List.mem_cons_of_mem t hu))

end Text

open Text (Lacks OneLine)

/-! ## Numbers -/

namespace Decimal

/-- The characters that finite numbers are written with. -/
def isNumeric (c : Char) : Bool :=
  c.isDigit || c == '+' || c == '-' || c == '.' || c == 'e'

variable {c : Char} (hc : isNumeric c = false)

include hc

theorem lacks_nat (n : Nat) : Lacks c (toString n) := by
  refine Text.lacks_of_all (List.all_eq_true.mpr fun d hd => ?_) hc
  have hdigits : d ∈ Nat.toDigits 10 n := by simpa using hd
  unfold isNumeric
  simp only [Nat.isDigit_of_mem_toDigits (by decide) (by decide) hdigits, Bool.true_or]

theorem lacks_int (n : Int) : Lacks c (toString n) := by
  cases n with
  | ofNat n => exact lacks_nat hc n
  | negSucc n =>
    exact (show Lacks c "-" from Text.lacks_of_all (by decide) hc).append (lacks_nat hc (n + 1))

namespace Layout

theorem lacks_zeros (n : Nat) : Lacks c (zeros n) := by
  unfold zeros
  rw [Text.lacks_ofList]
  intro h
  rw [List.eq_of_mem_replicate h] at hc
  exact absurd hc (by decide)

variable {ds : List Char}

theorem lacks_positional (h : c ∉ ds) (e : Int) : Lacks c (positional ds e) := by
  have hfixed : ∀ {t : String}, t.toList.all isNumeric = true → Lacks c t := fun ht =>
    Text.lacks_of_all ht hc
  have htake : ∀ n, Lacks c (String.ofList (ds.take n)) := fun n =>
    Text.lacks_ofList.mpr fun hmem => h (List.mem_of_mem_take hmem)
  have hdrop : ∀ n, Lacks c (String.ofList (ds.drop n)) := fun n =>
    Text.lacks_ofList.mpr fun hmem => h (List.mem_of_mem_drop hmem)
  have hall : Lacks c (String.ofList ds) := Text.lacks_ofList.mpr h
  unfold positional
  dsimp only
  split
  · exact ((hfixed (t := "0.") (by decide)).append (lacks_zeros hc _)).append hall
  · split
    · exact (hall.append (lacks_zeros hc _)).append (hfixed (by decide))
    · exact ((htake _).append (hfixed (by decide))).append (hdrop _)

theorem lacks_scientific (l : Layout) (h : c ∉ ds) (e : Int) : Lacks c (l.scientific ds e) := by
  have hfixed : ∀ {t : String}, t.toList.all isNumeric = true → Lacks c t := fun ht =>
    Text.lacks_of_all ht hc
  have htake : Lacks c (String.ofList (ds.take 1)) :=
    Text.lacks_ofList.mpr fun hmem => h (List.mem_of_mem_take hmem)
  have hdrop : Lacks c (String.ofList (ds.drop 1)) :=
    Text.lacks_ofList.mpr fun hmem => h (List.mem_of_mem_drop hmem)
  have hfraction : Lacks c (if ds.length ≤ 1 then "" else "." ++ String.ofList (ds.drop 1)) := by
    split
    · exact Text.lacks_empty
    · exact (hfixed (t := ".") (by decide)).append hdrop
  have hsign : Lacks c (if e < 0 then "-" else "+") := by
    split <;> exact hfixed (by decide)
  unfold scientific
  exact ((((htake.append hfraction).append (hfixed (by decide))).append hsign).append
    (lacks_zeros hc _)).append (lacks_nat hc _)

/-- What a double is written with is numeric, except for the names of values that are not finite. -/
theorem lacks_float {l : Layout} (hnone : Lacks c l.notANumber) (hinfinity : Lacks c l.infinity)
    (x : Float) : Lacks c (l.float x) := by
  have hsign : ∀ negative : Bool, Lacks c (if negative then "-" else "") := by
    intro negative
    cases negative
    · exact Text.lacks_empty
    · exact Text.lacks_of_all (by decide) hc
  have hdigits : ∀ d : Digits, Lacks c (l.digits d) := by
    intro d
    unfold digits
    dsimp only
    split
    · exact lacks_positional hc (lacks_nat hc d.coefficient) _
    · exact lacks_scientific hc l (lacks_nat hc d.coefficient) _
  unfold float
  dsimp only
  split
  · exact hnone
  · exact (hsign _).append hinfinity
  · exact (hsign _).append (hdigits _)

end Layout

end Decimal

/-! ## JSON text -/

namespace Json

theorem feed_not_mem_escapeChar (c : Char) : '\n' ∉ escapeChar c := by
  have hcontrol : ∀ n < 0x20, '\n' ∉ escapeChar (Char.ofNat n) := by decide
  by_cases hlow : c.toNat < 0x20
  · rw [← Char.ofNat_toNat c]
    exact hcontrol c.toNat hlow
  · have hc : '\n' ≠ c := by
      rintro rfl
      exact hlow (by decide)
    unfold escapeChar
    grind

theorem oneLine_quote (s : String) : OneLine (quote s) := by
  unfold quote quoteList
  exact Text.lacks_ofList.mpr (by simp [feed_not_mem_escapeChar])

/-- JSON text is on one line. -/
theorem oneLine_text (v : Json) : OneLine (text v) := by
  have hcomma : OneLine ", " := by decide
  induction v with
  | null => decide
  | bool b => cases b <;> decide
  | int n => exact Decimal.lacks_int (by decide) n
  | float x => exact Decimal.Layout.lacks_float (by decide) (by decide) (by decide) x
  | str s => exact oneLine_quote s
  | arr items ih =>
    rw [text, itemTexts_eq_map]
    have hitems : OneLine (Text.join ", " (items.map text)) := by
      refine hcomma.join fun t ht => ?_
      obtain ⟨v, hv, rfl⟩ := List.mem_map.mp ht
      exact ih v hv
    exact ((show OneLine "[" by decide).append hitems).append (by decide)
  | obj members ih =>
    rw [text, memberTexts_eq_map]
    have hmembers :
        OneLine (Text.join ", " (members.map fun m => quote m.1 ++ ": " ++ text m.2)) := by
      refine hcomma.join fun t ht => ?_
      obtain ⟨m, hm, rfl⟩ := List.mem_map.mp ht
      exact ((oneLine_quote m.1).append (by decide)).append (ih m hm)
    exact ((show OneLine "\x7b" by decide).append hmembers).append (by decide)

end Json

/-! ## Names -/

namespace Expression

/-- An identifier is made of identifier parts. -/
theorem lacks_of_isIdentifier {c : Char} {name : String} (h : isIdentifier name = true)
    (hc : isIdentifierPart c = false) : Lacks c name := by
  refine Text.lacks_of_all (List.all_eq_true.mpr fun d hd => ?_) hc
  unfold isIdentifier at h
  split at h
  · cases h
  · next first others hname =>
    rw [hname] at hd
    obtain ⟨hfirst, hothers⟩ := Bool.and_eq_true_iff.mp h
    rcases List.mem_cons.mp hd with rfl | hd
    · unfold isIdentifierPart
      rw [hfirst, Bool.true_or]
    · exact List.all_eq_true.mp hothers d hd

theorem oneLine_primitiveType (name : Schema.Primitive) : OneLine (primitiveType name) := by
  cases name <;> decide

theorem oneLine_defaultType (type : DefaultType) : OneLine type.name := by
  cases type <;> decide

end Expression

end SchemaTypes

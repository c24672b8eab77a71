import SchemaTypes.Proofs.Numbers
import SchemaTypes.Table

/-!
# Values as names

A table finds a key again by equality, and equal values need not be written alike: 1, 1.0 and true
are one key. `Json.name?` says which values can be keys, and which of them are the same one. Lists
and objects cannot, nor can a number that is not equal to itself.

What a table needs of its keys is stated for any `IsNaming`. Then what is set under a name is found
under it, however it is written, and under no other name (`Table.lookup_put`), and a table without
repeated names is its keys with what is found under them (`Table.eq_filterMap_lookup`).
-/

namespace SchemaTypes

/-- A value is equal to one that is a name exactly if it is the same name. -/
def IsNaming {κ ι : Type} [BEq κ] (name? : κ → Option ι) : Prop :=
  ∀ a b i, name? b = some i → ((a == b) = true ↔ name? a = some i)

/-- Each text is a name of its own. -/
theorem isNaming_text : IsNaming (some : String → Option String) := by
  rintro a b i ⟨⟩
  rw [beq_iff_eq, Option.some_inj]

/-! ## The names among the values -/

namespace Json

/-- What a value is as a name. -/
inductive Name where
  | nothing
  | number (value : Decimal.Value)
  | text (text : String)
deriving DecidableEq

/-- The name that a value is. Lists and objects are no names, nor is a number without a value. -/
def name? : Json → Option Name
  | null => some .nothing
  | str s => some (.text s)
  | v => v.number?.map .number

theorem name?_eq_nothing {v : Json} : v.name? = some .nothing ↔ v = .null := by
  cases v <;> simp [name?]

theorem name?_eq_text {v : Json} {s : String} : v.name? = some (.text s) ↔ v = .str s := by
  cases v <;> simp [name?]

theorem name?_eq_number {v : Json} {q : Decimal.Value} :
    v.name? = some (.number q) ↔ v.number? = some q := by
  cases v <;> simp [name?, number?]

/-- Equal values are the same name. -/
theorem isNaming_name? : IsNaming name? := by
  intro v w i h
  change same v w = true ↔ _
  cases i with
  | nothing =>
    obtain rfl := name?_eq_nothing.mp h
    rw [name?_eq_nothing]
    cases v <;> simp [same, sameNumber_iff, number?]
  | text s =>
    obtain rfl := name?_eq_text.mp h
    rw [name?_eq_text]
    cases v <;> simp [same, sameNumber_iff, number?]
  | number q =>
    rw [name?_eq_number] at h ⊢
    have hsame : same v w = sameNumber v w := by
      cases v <;> cases w <;> simp_all [same, number?, sameNumber, asInt?]
    rw [hsame, sameNumber_iff, h]
    simp

end Json

/-! ## Tables of names -/

namespace Table

variable {κ ι ν : Type} [BEq κ] {name? : κ → Option ι} {key : κ} {table : List (κ × ν)}

/-- After the value of a name was set, it is found under this name, however it is written, and all
other names have the values that they had. -/
theorem lookup_put (hnaming : IsNaming name?) (hkey : (name? key).isSome)
    (htable : ∀ k ∈ keys table, (name? k).isSome) (value : ν) (other : κ) :
    (put key value table).lookup other =
      if other == key then some value else table.lookup other := by
  obtain ⟨i, hi⟩ := Option.isSome_iff_exists.mp hkey
  have hother : (other == key) = true ↔ name? other = some i := hnaming other key i hi
  induction table with
  | nil =>
    simp only [put, List.lookup_cons, List.lookup_nil]
    cases other == key <;> rfl
  | cons m rest ih =>
    obtain ⟨k, v⟩ := m
    obtain ⟨j, hj⟩ := Option.isSome_iff_exists.mp (htable k List.mem_cons_self)
    have hrest := ih fun l hl => htable l (List.mem_cons_of_mem _ hl)
    have hfirst : (other == k) = true ↔ name? other = some j := hnaming other k j hj
    have hkey : (key == k) = true ↔ i = j := by rw [hnaming key k j hj, hi, Option.some_inj]
    by_cases hij : i = j
    · -- the first entry is that of the name
      subst hij
      have hsame : (other == k) = (other == key) := Bool.eq_iff_iff.mpr (hfirst.trans hother.symm)
      simp only [put, hkey.mpr rfl, if_true, List.lookup_cons, hsame]
      cases other == key <;> rfl
    · have hne : (key == k) = false := Bool.eq_false_iff.mpr (mt hkey.mp hij)
      simp only [put, hne, Bool.false_eq_true, if_false, List.lookup_cons, hrest]
      cases h : other == k with
      | false => rfl
      | true =>
        have hother' : (other == key) = false := by
          rw [Bool.eq_false_iff, ne_eq, hother, hfirst.mp h, Option.some_inj]
          exact Ne.symm hij
        rw [hother']
        rfl

/-- A table whose keys are different names is made of its keys, with what is found under them. -/
theorem eq_filterMap_lookup (hnaming : IsNaming name?)
    (htable : ∀ k ∈ keys table, (name? k).isSome)
    (hdistinct : (keys table).Pairwise fun k l => (l == k) = false) :
    table = (keys table).filterMap fun k => (table.lookup k).map (k, ·) := by
  induction table with
  | nil => rfl
  | cons m rest ih =>
    obtain ⟨k, v⟩ := m
    obtain ⟨hfirst, hlater⟩ := List.pairwise_cons.mp hdistinct
    obtain ⟨i, hi⟩ := Option.isSome_iff_exists.mp (htable k List.mem_cons_self)
    have hk : (k == k) = true := (hnaming k k i hi).mpr hi
    have hlookup : (((k, v) :: rest).lookup k).map (k, ·) = some (k, v) := by
      simp [List.lookup_cons, hk]
    have htail : rest = (keys rest).filterMap fun l => (((k, v) :: rest).lookup l).map (l, ·) := by
      calc rest = (keys rest).filterMap fun l => (rest.lookup l).map (l, ·) :=
            ih (fun l hl => htable l (List.mem_cons_of_mem _ hl)) hlater
        _ = _ := by
          refine List.filterMap_congr fun l hl => ?_
          rw [List.lookup_cons, hfirst l hl]
    change _ = List.filterMap _ (k :: keys rest)
    rw [List.filterMap_cons, hlookup]
    exact congrArg _ htail

end Table

/-! ## Names without repetitions -/

section Distinct

variable {κ : Type} [BEq κ]

/-- One more name makes a difference if it was not there. -/
theorem eraseDups_concat (names : List κ) (name : κ) :
    (names ++ [name]).eraseDups =
      if names.eraseDups.any (name == ·) then names.eraseDups else names.eraseDups ++ [name] := by
  have hloop : ∀ seen, List.eraseDupsBy.loop (· == ·) (names ++ [name]) seen =
      if (List.eraseDupsBy.loop (· == ·) names seen).any (name == ·) then
        List.eraseDupsBy.loop (· == ·) names seen
      else List.eraseDupsBy.loop (· == ·) names seen ++ [name] := by
    induction names with
    | nil =>
      intro seen
      simp only [List.nil_append, List.eraseDupsBy.loop, List.any_reverse, List.reverse_cons]
      split <;> simp_all
    | cons n rest ih =>
      intro seen
      cases hseen : seen.any (n == ·) with
      | true =>
        simp only [List.cons_append, List.eraseDupsBy.loop, hseen]
        exact ih seen
      | false =>
        simp only [List.cons_append, List.eraseDupsBy.loop, hseen]
        exact ih (n :: seen)
  exact hloop []

theorem pairwise_eraseDups (names : List κ) :
    names.eraseDups.Pairwise fun n m => (m == n) = false := by
  induction names using List.reverseRecOn with
  | nil => exact List.Pairwise.nil
  | append_singleton names name ih =>
    rw [eraseDups_concat]
    split
    · exact ih
    · next hnew =>
      simp only [List.any_eq_true, not_exists, not_and, Bool.not_eq_true] at hnew
      refine List.pairwise_append.mpr ⟨ih, List.pairwise_singleton _ _, fun n hn m hm => ?_⟩
      rw [List.mem_singleton.mp hm]
      exact hnew n hn

theorem mem_of_mem_eraseDups {names : List κ} {name : κ} (h : name ∈ names.eraseDups) :
    name ∈ names := by
  induction names using List.reverseRecOn with
  | nil => cases h
  | append_singleton names n ih =>
    rw [eraseDups_concat] at h
    split at h
    · exact List.mem_append_left _ (ih h)
    · rcases List.mem_append.mp h with h | h
      · exact List.mem_append_left _ (ih h)
      · exact List.mem_append_right _ h

end Distinct

end SchemaTypes

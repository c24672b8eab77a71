/-!
# Tables

A table is a list of keys with values, in the order in which the keys came in. `put` sets the value
of a key that is there in its place and adds a new one at the end; `putNew` leaves a key that is
there alone. The lemmas say what each does to `List.lookup` and to the keys.
-/

namespace SchemaTypes.Table

variable {κ ν : Type} [BEq κ]

/-- Sets the value of a key. -/
def put (key : κ) (value : ν) : List (κ × ν) → List (κ × ν)
  | [] => [(key, value)]
  | (k, v) :: rest => if key == k then (k, value) :: rest else (k, v) :: put key value rest

/-- Whether a key is in a table. -/
def contains (key : κ) (table : List (κ × ν)) : Bool :=
  (table.lookup key).isSome

/-- Sets the value of a key that is not there yet. -/
def putNew (key : κ) (value : ν) (table : List (κ × ν)) : List (κ × ν) :=
  if contains key table then table else table ++ [(key, value)]

/-- The keys of a table. -/
def keys (table : List (κ × ν)) : List κ :=
  table.map Prod.fst

/-- Setting a value adds its key at the end, unless an equal one is there. -/
theorem keys_put_any (key : κ) (value : ν) (table : List (κ × ν)) :
    keys (put key value table) =
      if (keys table).any (key == ·) then keys table else keys table ++ [key] := by
  induction table with
  | nil => rfl
  | cons m rest ih =>
    obtain ⟨k, v⟩ := m
    cases h : key == k with
    | true => simp [put, keys, h]
    | false =>
      have hput : keys (put key value ((k, v) :: rest)) = k :: keys (put key value rest) := by
        simp [put, keys, h]
      have hany : (keys ((k, v) :: rest)).any (key == ·) = (keys rest).any (key == ·) := by
        simp [keys, h]
      rw [hput, ih, hany]
      split <;> rfl

/-! ## Looking up -/

variable [LawfulBEq κ]

@[simp] theorem lookup_put_self (key : κ) (value : ν) (table : List (κ × ν)) :
    (put key value table).lookup key = some value := by
  induction table with
  | nil => simp [put]
  | cons m rest ih =>
    obtain ⟨k, v⟩ := m
    by_cases h : (key == k) = true
    · simp [put, h, List.lookup_cons]
    · simp [put, h, List.lookup_cons, ih]

theorem lookup_put_of_ne {key other : κ} (h : other ≠ key) (value : ν) (table : List (κ × ν)) :
    (put key value table).lookup other = table.lookup other := by
  have hne : (other == key) = false := by simpa using h
  induction table with
  | nil => simp [put, h]
  | cons m rest ih =>
    obtain ⟨k, v⟩ := m
    by_cases hk : key = k
    · subst hk
      simp [put, List.lookup_cons, hne]
    · simp [put, hk, List.lookup_cons, ih]

/-- A key is found exactly if it is among the keys. -/
theorem contains_iff_mem_keys (key : κ) (table : List (κ × ν)) :
    contains key table = true ↔ key ∈ keys table := by
  induction table with
  | nil => simp [contains, keys]
  | cons m rest ih =>
    obtain ⟨k, v⟩ := m
    by_cases h : key = k
    · simp [contains, keys, h]
    · have hne : (key == k) = false := by simpa using h
      simp only [contains, keys] at ih
      simp [contains, keys, List.lookup_cons, hne, h, ih]

/-- A value that a key is bound to stands among the entries. -/
theorem mem_of_lookup {key : κ} {value : ν} {table : List (κ × ν)}
    (h : table.lookup key = some value) : (key, value) ∈ table := by
  obtain ⟨front, rest, rfl, -⟩ := List.lookup_eq_some_iff.mp h
  simp

/-- Where no key is repeated, every entry is found under its key. -/
theorem lookup_of_mem {key : κ} {value : ν} {table : List (κ × ν)} (h : (keys table).Nodup)
    (hmem : (key, value) ∈ table) : table.lookup key = some value := by
  induction table with
  | nil => cases hmem
  | cons m rest ih =>
    obtain ⟨hfresh, hrest⟩ := List.nodup_cons.mp h
    rcases List.mem_cons.mp hmem with rfl | hmem
    · exact List.lookup_cons_self
    · have hkey : key ∈ keys rest := List.mem_map_of_mem hmem
      have hne : (key == m.1) = false := by
        rw [beq_eq_false_iff_ne]
        rintro rfl
        exact hfresh hkey
      rw [List.lookup_cons, hne]
      exact ih hrest hmem

/-- Of two values that are put under one key, the second one stays. -/
theorem put_put (key : κ) (value value' : ν) (table : List (κ × ν)) :
    put key value' (put key value table) = put key value' table := by
  induction table with
  | nil => simp [put]
  | cons e rest ih =>
    by_cases h : (key == e.1) = true
    · simp [put, h]
    · simp [put, h, ih]

/-- Some key of a table in which a value was put is the key of that value, or one of the others. -/
theorem any_keys_put (holds : κ → Bool) (key : κ) (value : ν) (table : List (κ × ν)) :
    ((put key value table).any fun e => holds e.1) =
      (holds key || table.any fun e => holds e.1) := by
  induction table with
  | nil => simp [put]
  | cons e rest ih =>
    obtain ⟨k, v⟩ := e
    by_cases h : key = k
    · subst h
      simp [put]
    · simp [put, h, ih, Bool.or_left_comm]

/-- Setting a value keeps the places of all keys. -/
theorem keys_put (key : κ) (value : ν) (table : List (κ × ν)) :
    keys (put key value table) = if key ∈ keys table then keys table else keys table ++ [key] := by
  simp only [keys_put_any, List.any_beq, List.contains_iff_mem]

end SchemaTypes.Table

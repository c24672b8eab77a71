import Mathlib.Data.List.Induction
import SchemaTypes.Table

/-!
# Adding to tables

`Table.addAll` adds entries to a table one after the other, and leaves the keys alone that are
there. So every key has the value that comes first, and the keys stand in the order in which they
come first: `Table.exists_split_addAll` takes a table apart where one of its keys stands.
-/

namespace SchemaTypes.Table

/-- A place in a list with one more element at the end is the end, or a place in the list. -/
theorem split_concat {α : Type} {l front back : List α} {last a : α}
    (h : l ++ [last] = front ++ a :: back) :
    (l = front ∧ last = a ∧ back = []) ∨
      ∃ back', l = front ++ a :: back' ∧ back = back' ++ [last] := by
  rcases List.eq_nil_or_concat back with rfl | ⟨back', a', rfl⟩
  · obtain ⟨hl, hlast⟩ := List.append_inj' h rfl
    exact Or.inl ⟨hl, by simpa using hlast, rfl⟩
  · have h' : l ++ [last] = (front ++ a :: back') ++ [a'] := by simpa using h
    obtain ⟨hl, hlast⟩ := List.append_inj' h' rfl
    obtain rfl : last = a' := by simpa using hlast
    exact Or.inr ⟨back', hl, by simp⟩

/-- A place in two lists in a row is a place in the first one or in the second one. -/
theorem split_append {α : Type} {l l' front back : List α} {a : α}
    (h : l ++ l' = front ++ a :: back) :
    (∃ back', l = front ++ a :: back') ∨
      ∃ front', front = l ++ front' ∧ l' = front' ++ a :: back := by
  rcases List.append_eq_append_iff.mp h with ⟨front', hfront, hl'⟩ | ⟨back', hl, hback⟩
  · exact Or.inr ⟨front', hfront, hl'⟩
  · cases back' with
    | nil => exact Or.inr ⟨[], by simpa using hl.symm, hback.symm⟩
    | cons b back' =>
      obtain ⟨rfl, -⟩ : a = b ∧ back = back' ++ l' := by simpa using hback
      exact Or.inl ⟨back', hl⟩

variable {κ ν : Type} [BEq κ]

/-- Adds some entries whose keys are not there yet, one after the other. -/
def addAll (entries : List (κ × ν)) (table : List (κ × ν)) : List (κ × ν) :=
  entries.foldl (fun table e => putNew e.1 e.2 table) table

theorem addAll_append (entries more table : List (κ × ν)) :
    addAll (entries ++ more) table = addAll more (addAll entries table) :=
  List.foldl_append

theorem addAll_singleton (key : κ) (value : ν) (table : List (κ × ν)) :
    addAll [(key, value)] table = putNew key value table := rfl

variable [LawfulBEq κ]

/-! ## One entry -/

theorem putNew_of_mem {key : κ} {table : List (κ × ν)} (h : key ∈ keys table) (value : ν) :
    putNew key value table = table := by
  unfold putNew
  rw [if_pos ((contains_iff_mem_keys key table).mpr h)]

theorem putNew_of_not_mem {key : κ} {table : List (κ × ν)} (h : key ∉ keys table) (value : ν) :
    putNew key value table = table ++ [(key, value)] := by
  unfold putNew
  rw [if_neg (mt (contains_iff_mem_keys key table).mp h)]

theorem mem_keys_putNew {key other : κ} {value : ν} {table : List (κ × ν)} :
    other ∈ keys (putNew key value table) ↔ other ∈ keys table ∨ other = key := by
  by_cases h : key ∈ keys table
  · rw [putNew_of_mem h]
    constructor
    · exact Or.inl
    · rintro (hother | rfl)
      · exact hother
      · exact h
  · rw [putNew_of_not_mem h]
    simp [keys]

theorem nodup_keys_putNew {table : List (κ × ν)} (h : (keys table).Nodup) (key : κ) (value : ν) :
    (keys (putNew key value table)).Nodup := by
  by_cases hmem : key ∈ keys table
  · rwa [putNew_of_mem hmem]
  · rw [putNew_of_not_mem hmem, keys, List.map_append, List.nodup_append]
    refine ⟨h, by simp, ?_⟩
    rintro k hk k' hk' rfl
    obtain rfl : k = key := List.mem_singleton.mp hk'
    exact hmem hk

/-! ## Many entries -/

variable {entries table : List (κ × ν)}

theorem mem_keys_addAll {key : κ} :
    key ∈ keys (addAll entries table) ↔ key ∈ keys table ∨ key ∈ keys entries := by
  induction entries generalizing table with
  | nil => simp [addAll, keys]
  | cons e rest ih =>
    change key ∈ keys (addAll rest (putNew e.1 e.2 table)) ↔ _
    rw [ih, mem_keys_putNew]
    simp [keys, or_assoc]

theorem mem_keys_addAll_nil {key : κ} : key ∈ keys (addAll entries []) ↔ key ∈ keys entries := by
  rw [mem_keys_addAll]
  simp [keys]

theorem nodup_keys_addAll (h : (keys table).Nodup) : (keys (addAll entries table)).Nodup := by
  induction entries generalizing table with
  | nil => exact h
  | cons e rest ih => exact ih (nodup_keys_putNew h e.1 e.2)

/-- An entry whose key came before changes nothing. -/
theorem addAll_concat_of_mem {key : κ} (h : key ∈ keys entries) (value : ν) :
    addAll (entries ++ [(key, value)]) table = addAll entries table := by
  rw [addAll_append, addAll_singleton]
  exact putNew_of_mem (mem_keys_addAll.mpr (Or.inr h)) value

/-- Where a key stands in a table that was built up, all keys in front of it came before it, and its
value is the one that came first. -/
theorem exists_split_addAll {e : κ × ν} {front back : List (κ × ν)}
    (h : addAll entries [] = front ++ e :: back) :
    ∃ before after, entries = before ++ e :: after ∧ e.1 ∉ keys before ∧
      ∀ key, key ∈ keys front ↔ key ∈ keys before := by
  induction entries using List.reverseRecOn generalizing back with
  | nil => simp [addAll] at h
  | append_singleton entries d ih =>
    rw [addAll_append] at h
    change putNew d.1 d.2 (addAll entries []) = _ at h
    by_cases hmem : d.1 ∈ keys (addAll entries [])
    · rw [putNew_of_mem hmem] at h
      obtain ⟨before, after, rfl, hnew, hkeys⟩ := ih h
      exact ⟨before, after ++ [d], by simp, hnew, hkeys⟩
    · rw [putNew_of_not_mem hmem] at h
      rcases split_concat h with ⟨rfl, rfl, -⟩ | ⟨back', hentries, -⟩
      · -- the key is the last one, and all others are in front of it
        exact ⟨entries, [], rfl, fun hd => hmem (mem_keys_addAll_nil.mpr hd), fun _ =>
          mem_keys_addAll_nil⟩
      · obtain ⟨before, after, rfl, hnew, hkeys⟩ := ih hentries
        exact ⟨before, after ++ [d], by simp, hnew, hkeys⟩

end SchemaTypes.Table

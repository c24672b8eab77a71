import Mathlib.Data.List.DropRight
import SchemaTypes.Comment
import SchemaTypes.Proofs.CodeLines

/-!
# Escaped ends of comments

Before a text comes into a block comment, a backslash is put between the star and the slash of every
`*/` in it. `Comment.escaped` does this character by character. An escaped text has no `*/` left;
since neither blanks nor line feeds take part, a text may as well be cut into lines or stripped
first, and a marker without stars in front of it stays what it is.
-/

namespace SchemaTypes

namespace Comment

open Text (isBlank dropBlank stripList fields)

/-- A text with a backslash between the star and the slash of each end of a comment. -/
def escaped : List Char → List Char
  | [] => []
  | c :: rest =>
    if c = '*' ∧ rest.head? = some '/' then c :: '\\' :: escaped rest else c :: escaped rest

/-! ## Replacing -/

/-- Whether an end of a comment stands in front. -/
theorem end_isPrefixOf_iff (c : Char) (rest : List Char) :
    ['*', '/'].isPrefixOf (c :: rest) = true ↔ c = '*' ∧ rest.head? = some '/' := by
  rw [List.isPrefixOf_iff_prefix, List.cons_prefix_cons, eq_comm]
  cases rest <;> simp [List.cons_prefix_cons, eq_comm]

theorem replaceFrom_end (cs : List Char) :
    Text.replaceFrom ['*', '/'] ['*', '\\', '/'] 0 cs = escaped cs := by
  induction cs with
  | nil => rfl
  | cons c rest ih =>
    rw [escaped, Text.replaceFrom, if_neg (by simp)]
    by_cases hend : c = '*' ∧ rest.head? = some '/'
    · rw [if_pos ((end_isPrefixOf_iff c rest).mpr hend), if_pos hend]
      obtain ⟨rfl, hslash⟩ := hend
      obtain ⟨rest, rfl⟩ := List.head?_eq_some_iff.mp hslash
      -- the slash is dropped behind the replacement, and kept behind the backslash
      have hkept : Text.replaceFrom ['*', '/'] ['*', '\\', '/'] 0 ('/' :: rest) =
          '/' :: Text.replaceFrom ['*', '/'] ['*', '\\', '/'] 0 rest := by
        rw [Text.replaceFrom, if_neg (by simp),
          if_neg fun h => absurd ((end_isPrefixOf_iff '/' rest).mp h).1 (by decide)]
      rw [← ih, hkept]
      rfl
    · rw [if_neg (mt (end_isPrefixOf_iff c rest).mp hend), if_neg hend, ih]

theorem replace_end (text : String) :
    Text.replace "*/" "*\\/" text = String.ofList (escaped text.toList) :=
  congrArg String.ofList (replaceFrom_end text.toList)

/-! ## What stays -/

variable {l m : List Char}

theorem head?_escaped (l : List Char) : (escaped l).head? = l.head? := by
  cases l with
  | nil => rfl
  | cons c rest =>
    rw [escaped]
    split <;> rfl

/-- Two texts in a row are escaped one by one, unless an end is made of both. -/
theorem escaped_append (h : l.getLast? = some '*' → m.head? ≠ some '/') :
    escaped (l ++ m) = escaped l ++ escaped m := by
  induction l with
  | nil => rfl
  | cons c rest ih =>
    cases rest with
    | nil =>
      have hno : ¬ (c = '*' ∧ m.head? = some '/') := fun hend => h (by rw [hend.1]; rfl) hend.2
      simp [escaped, hno]
    | cons d rest =>
      rw [List.getLast?_cons_cons] at h
      have hhead : (d :: rest ++ m).head? = (d :: rest).head? := rfl
      rw [List.cons_append, escaped, escaped, hhead, ih h]
      split <;> rfl

theorem escaped_of_star_not_mem (h : '*' ∉ l) : escaped l = l := by
  induction l with
  | nil => rfl
  | cons c rest ih =>
    obtain ⟨hc, hrest⟩ := not_or.mp (mt List.mem_cons.mpr h)
    rw [escaped, if_neg fun hend => hc hend.1.symm, ih hrest]

/-- What has no stars stays in front of what follows it. -/
theorem escaped_append_of_star_not_mem (h : '*' ∉ l) (m : List Char) :
    escaped (l ++ m) = l ++ escaped m := by
  rw [escaped_append fun hlast => absurd (List.mem_of_getLast? hlast) h, escaped_of_star_not_mem h]

theorem isPrefix_escaped_iff (h : '*' ∉ l) : l <+: escaped m ↔ l <+: m := by
  induction l generalizing m with
  | nil => simp
  | cons c rest ih =>
    obtain ⟨hc, hrest⟩ := not_or.mp (mt List.mem_cons.mpr h)
    cases m with
    | nil => rfl
    | cons d m =>
      rw [escaped]
      by_cases hd : d = '*'
      · -- a star stays in front, and no star stands in front of the other text
        have hne : c ≠ d := fun hcd => hc (by rw [hcd, hd])
        split <;> simp [List.cons_prefix_cons, hne]
      · rw [if_neg fun hend => hd hend.1, List.cons_prefix_cons, List.cons_prefix_cons, ih hrest]

/-- A text without stars is escaped from itself alone. -/
theorem escaped_eq_iff {l m : List Char} (h : '*' ∉ l) : escaped m = l ↔ m = l := by
  constructor
  · intro heq
    obtain ⟨rest, rfl⟩ : l <+: m := (isPrefix_escaped_iff h).mp (heq ▸ List.prefix_refl _)
    rw [escaped_append_of_star_not_mem h, List.append_right_eq_self] at heq
    have hrest := head?_escaped rest
    rw [heq] at hrest
    rw [List.head?_eq_none_iff.mp hrest.symm, List.append_nil]
  · rintro rfl
    exact escaped_of_star_not_mem h

theorem getLast?_escaped (l : List Char) : (escaped l).getLast? = l.getLast? := by
  induction l with
  | nil => rfl
  | cons c rest ih =>
    rw [escaped]
    cases rest with
    | nil => simp [escaped]
    | cons d rest =>
      obtain ⟨e, es, hes⟩ : ∃ e es, escaped (d :: rest) = e :: es := by
        rw [escaped]
        split <;> exact ⟨_, _, rfl⟩
      rw [hes] at ih ⊢
      split <;> simp only [List.getLast?_cons_cons, ih]

/-! ## No end is left -/

/-- There is no end of a comment in what is escaped. -/
theorem not_isInfix_escaped (l : List Char) : ¬ ['*', '/'] <:+: escaped l := by
  induction l with
  | nil => simp [escaped]
  | cons c rest ih =>
    rw [escaped]
    split
    · rw [List.infix_cons_iff, List.infix_cons_iff]
      rintro (hfront | hfront | hinside)
      · simp [List.cons_prefix_cons] at hfront
      · simp [List.cons_prefix_cons] at hfront
      · exact ih hinside
    · next hno =>
      rw [List.infix_cons_iff]
      rintro (⟨back, hback⟩ | hinside)
      · obtain ⟨hc, hrest⟩ := List.cons.inj hback
        refine hno ⟨hc.symm, ?_⟩
        rw [← head?_escaped, ← hrest]
        rfl
      · exact ih hinside

/-! ## Lines -/

/-- The lines of an escaped text are those of the text, escaped one by one. -/
theorem fields_escaped (l : List Char) : fields '\n' (escaped l) = (fields '\n' l).map escaped := by
  induction l with
  | nil => rfl
  | cons c rest ih =>
    obtain ⟨first, others, hfields⟩ :=
      List.exists_cons_of_ne_nil (Text.fields_ne_nil '\n' rest)
    have hslash : first.head? = some '/' ↔ rest.head? = some '/' := by
      cases rest with
      | nil => rw [fields] at hfields; cases hfields; rfl
      | cons d rest =>
        rw [fields] at hfields
        split at hfields
        · next hd => cases hfields; simp [hd]
        · split at hfields <;> cases hfields <;> rfl
    rw [hfields, List.map_cons] at ih
    by_cases hc : c = '\n'
    · rw [escaped, if_neg (by simp [hc]), fields, if_pos hc, fields, if_pos hc, ih, hfields]
      rfl
    · have hline : fields '\n' (c :: rest) = (c :: first) :: others := by
        rw [fields, if_neg hc, hfields]
      rw [hline, List.map_cons, escaped, escaped]
      by_cases hend : c = '*' ∧ rest.head? = some '/'
      · rw [if_pos hend, if_pos ⟨hend.1, hslash.mpr hend.2⟩, fields, if_neg hc, fields,
          if_neg (by decide), ih]
      · rw [if_neg hend, if_neg fun h => hend ⟨h.1, hslash.mp h.2⟩, fields, if_neg hc, ih]

theorem lines_replace_end (text : String) :
    Text.lines (Text.replace "*/" "*\\/" text) =
      (Text.lines text).map (Text.replace "*/" "*\\/") := by
  unfold Text.lines
  rw [replace_end, String.toList_ofList, fields_escaped, List.map_map, List.map_map]
  refine List.map_congr_left fun line _ => ?_
  rw [Function.comp_apply, Function.comp_apply, replace_end, String.toList_ofList]

/-! ## Stripping -/

theorem dropBlank_escaped (l : List Char) : dropBlank (escaped l) = escaped (dropBlank l) := by
  induction l with
  | nil => rfl
  | cons c rest ih =>
    unfold dropBlank at ih ⊢
    by_cases hc : isBlank c = true
    · have hstar : ¬ (c = '*' ∧ rest.head? = some '/') := by
        rintro ⟨rfl, -⟩
        exact absurd hc (by decide)
      rw [escaped, if_neg hstar, List.dropWhile_cons_of_pos hc, List.dropWhile_cons_of_pos hc, ih]
    · rw [List.dropWhile_cons_of_neg hc, escaped]
      split <;> rw [List.dropWhile_cons_of_neg hc]

/-- Blanks at the back are dropped before or after escaping. -/
theorem rdropWhile_escaped (l : List Char) :
    (escaped l).rdropWhile isBlank = escaped (l.rdropWhile isBlank) := by
  induction l using List.reverseRecOn with
  | nil => rfl
  | append_singleton front c ih =>
    by_cases hc : isBlank c = true
    · have hslash : [c].head? ≠ some '/' := by
        rintro ⟨⟩
        exact absurd hc (by decide)
      have hlast : escaped [c] = [c] := by simp [escaped]
      rw [escaped_append fun _ => hslash, hlast, List.rdropWhile_concat_pos _ _ _ hc,
        List.rdropWhile_concat_pos _ _ _ hc, ih]
    · rw [List.rdropWhile_concat_neg _ _ _ hc, List.rdropWhile_eq_self_iff]
      intro hne
      have hlast := getLast?_escaped (front ++ [c])
      rw [List.getLast?_concat, List.getLast?_eq_some_getLast hne] at hlast
      rwa [Option.some.inj hlast]

/-- A text may be stripped before or after it is escaped. -/
theorem strip_replace_end (text : String) :
    Text.strip (Text.replace "*/" "*\\/" text) = Text.replace "*/" "*\\/" (Text.strip text) := by
  have hstrip : ∀ cs, stripList cs = (dropBlank cs).rdropWhile isBlank := fun _ => rfl
  unfold Text.strip
  rw [replace_end, replace_end, String.toList_ofList, String.toList_ofList, hstrip, hstrip,
    dropBlank_escaped, rdropWhile_escaped]

end Comment

end SchemaTypes

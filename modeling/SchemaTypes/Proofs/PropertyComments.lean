import SchemaTypes.Proofs.BlockComments
import SchemaTypes.Proofs.Paragraphs

/-!
# Comments of properties

The block comment of a property shows its title over a rule, its description, and a mark for each of
its flags. All of them are handed over as fragments, and a fragment is told to be a marker by its
text. So a description that is the deprecation marker is shown as a deprecation, and one that starts
with the title marker is shown as a title; every other description is shown as it is, with the ends
of comments in it escaped.
-/

namespace SchemaTypes

/-- The documentation of a schema whose title, if any, and description are texts. -/
def Documentation.ofTexts (title : Option String) (description : String) (deprecated : Bool) :
    Documentation where
  title := title.elim .null .str
  description := .str description
  deprecated := deprecated

namespace Comment

/-! ## What is shown -/

/-- A text as a block comment shows it. -/
def shown (text : String) : String :=
  Text.replace "*/" "*\\/" text

/-- The lines that a title is shown as. -/
def heading : Option String → List String
  | none => []
  | some title =>
    if title = "" then [] else (Text.lines (Text.strip title)).map shown ++ ["---"]

/-- The lines that the flags of a property are shown as. -/
def marks (required deprecated : Bool) : List String :=
  (if required then ["[required]"] else []) ++ if deprecated then ["@deprecated"] else []

/-- Whether a text looks like a marker that a block comment has a form of its own for. -/
def IsMarker (text : String) : Prop :=
  text = "[deprecated]" ∨ "[title]".toList <+: text.toList

/-! ## Fragments -/

/-- The fragments of the comment of a property. -/
def ofProperty (title : Option String) (description : String) (required deprecated : Bool) :
    List String :=
  (title.toList.filter (· ≠ "")).map (titleMarker ++ " " ++ ·) ++ [description] ++
    ((if required then [requiredMarker] else []) ++ if deprecated then [deprecatedMarker] else [])

theorem addIf_eq_foldl (c : Comment) (condition : Bool) (fragment : String) :
    c.addIf condition fragment = (if condition then [fragment] else []).foldl add c := by
  cases condition <;> rfl

/-- An empty title is the same as none. -/
theorem addIf_title (style : Style) (title : Option String) (description : String)
    (deprecated : Bool) :
    let doc := Documentation.ofTexts title description deprecated
    (empty style).addIf doc.title.truthy (titleMarker ++ " " ++ doc.title.display) =
      ofFragments style ((title.toList.filter (· ≠ "")).map (titleMarker ++ " " ++ ·)) := by
  cases title with
  | none => rfl
  | some title =>
    by_cases h : title = ""
    · rw [h]
      rfl
    · simp [addIf_eq_foldl, Documentation.ofTexts, Json.truthy, h, ofFragments]

theorem addIf_marks (c : Comment) (required deprecated : Bool) :
    (c.addIf required requiredMarker).addIf deprecated deprecatedMarker =
      ((if required then [requiredMarker] else []) ++
        if deprecated then [deprecatedMarker] else []).foldl add c := by
  rw [addIf_eq_foldl, addIf_eq_foldl, List.foldl_append]

/-- A property with a description has a comment, the one of its fragments. -/
theorem propertyComment_ofTexts (style : Style) (title : Option String) {description : String}
    (h : description ≠ "") (required deprecated : Bool) :
    propertyComment style (.ofTexts title description deprecated) required =
      .ok (ofFragments style (ofProperty title description required deprecated)).text := by
  have htruthy :
      (Documentation.ofTexts title description deprecated).description.truthy = true := by
    simp [Documentation.ofTexts, Json.truthy, h]
  unfold propertyComment
  dsimp only
  rw [if_pos htruthy, addIf_title]
  change Except.ok (text (addIf (addIf (add _ description) _ _) deprecated _)) = _
  rw [addIf_marks, ofProperty, ofFragments_append, ofFragments_append]
  rfl

/-! ## Texts of fragments -/

theorem toList_shown (text : String) : (shown text).toList = escaped text.toList := by
  rw [shown, replace_end, String.toList_ofList]

theorem strip_shown (text : String) : Text.strip (shown text) = shown (Text.strip text) :=
  strip_replace_end text

theorem lines_shown (text : String) : Text.lines (shown text) = (Text.lines text).map shown :=
  lines_replace_end text

/-- The title marker stays in front of what it marks. -/
theorem shown_title (title : String) :
    shown (titleMarker ++ title) = titleMarker ++ shown title := by
  have hmarker : '*' ∉ titleMarker.toList := by decide
  rw [← String.toList_inj, toList_shown, String.toList_append, String.toList_append,
    toList_shown, escaped_append_of_star_not_mem hmarker]

/-- A fragment with a title becomes a heading. -/
theorem blockText_title (title : String) :
    blockText (titleMarker ++ title) = shown (Text.strip title) ++ "\n" ++ "---" := by
  have hshown : Text.replace "*/" "*\\/" (titleMarker ++ title) = titleMarker ++ shown title :=
    shown_title title
  have htitle : Text.afterStart? titleMarker (titleMarker ++ shown title) = some (shown title) := by
    unfold Text.afterStart?
    rw [String.toList_append, if_pos (List.isPrefixOf_iff_prefix.mpr (List.prefix_append _ _)),
      List.drop_left, String.ofList_toList]
  unfold blockText
  dsimp only
  rw [hshown, htitle]
  dsimp only
  rw [strip_shown, String.append_assoc]
  rfl

/-- A heading is shorter than the marker and the title that it is made of. -/
theorem blockText_title_ne (title : String) :
    blockText (titleMarker ++ title) ≠ shown (titleMarker ++ title) := by
  have hshorter : (shown (Text.strip title)).length ≤ (shown title).length := by
    rw [← strip_shown, ← String.length_toList, ← String.length_toList]
    exact (Text.strip_isInfix _).length_le
  have hmarker : titleMarker.length = 7 := by decide
  have hrule : ("\n" ++ "---").length = 4 := by decide
  intro heq
  rw [blockText_title, shown_title, String.append_assoc] at heq
  have hlength := congrArg String.length heq
  rw [String.length_append, String.length_append titleMarker] at hlength
  omega

/-- Any other fragment is shown as it is, or it is the deprecation marker. -/
theorem blockText_other {text : String} (h : ¬ titleMarker.toList <+: text.toList) :
    blockText text = if text = deprecatedMarker then "@deprecated" else shown text := by
  have hmarker : '*' ∉ titleMarker.toList := by decide
  have hdeprecated : '*' ∉ deprecatedMarker.toList := by decide
  have htitle : Text.afterStart? titleMarker (shown text) = none := by
    unfold Text.afterStart?
    rw [if_neg]
    rwa [List.isPrefixOf_iff_prefix, toList_shown, isPrefix_escaped_iff hmarker]
  have hsame : shown text = deprecatedMarker ↔ text = deprecatedMarker := by
    rw [← String.toList_inj, toList_shown, escaped_eq_iff hdeprecated, String.toList_inj]
  unfold shown at htitle
  unfold blockText
  dsimp only
  rw [htitle]
  change (if shown text = deprecatedMarker then "@deprecated" else shown text) = _
  simp only [hsame]

/-- A text is shown as it is if it does not look like a marker. -/
theorem blockText_eq_shown_iff (text : String) : blockText text = shown text ↔ ¬ IsMarker text := by
  by_cases htitle : titleMarker.toList <+: text.toList
  · have hmarker : IsMarker text := .inr htitle
    obtain ⟨rest, hrest⟩ := htitle
    have htext : text = titleMarker ++ String.ofList rest := by
      rw [← String.toList_inj, ← hrest, String.toList_append, String.toList_ofList]
    refine iff_of_false ?_ (not_not_intro hmarker)
    rw [htext]
    exact blockText_title_ne _
  · have hmarker : IsMarker text ↔ text = deprecatedMarker := or_iff_left htitle
    rw [blockText_other htitle, hmarker]
    by_cases h : text = deprecatedMarker
    · rw [if_pos h, h]
      decide
    · simp [h]

/-! ## Comments -/

/-- The heading of a title. -/
theorem lines_heading (title : String) :
    Text.lines (blockText (titleMarker ++ " " ++ title)) =
      (Text.lines (Text.strip title)).map shown ++ ["---"] := by
  have hstrip : Text.strip (" " ++ title) = Text.strip title := by
    unfold Text.strip Text.stripList
    rw [String.toList_append]
    rfl
  rw [String.append_assoc, blockText_title, Text.lines_stack, hstrip, lines_shown]
  rfl

/-- The lines of the block comment of a property. -/
theorem linesOf_ofProperty (title : Option String) (description : String)
    (required deprecated : Bool) :
    linesOf .block (ofProperty title description required deprecated) =
      (heading title ++ Text.lines (blockText description) ++ marks required deprecated).map
        (" * " ++ ·) := by
  have htitle : ((title.toList.filter (· ≠ "")).map (titleMarker ++ " " ++ ·)).flatMap
      (fun f => Text.lines (blockText f)) = heading title := by
    cases title with
    | none => rfl
    | some title =>
      by_cases h : title = ""
      · rw [h]
        rfl
      · simp [heading, h, lines_heading]
  have hmarks : ((if required then [requiredMarker] else []) ++
      if deprecated then [deprecatedMarker] else []).flatMap
        (fun f => Text.lines (blockText f)) = marks required deprecated := by
    cases required <;> cases deprecated <;> decide
  have hlines : (ofProperty title description required deprecated).flatMap
      (fun f => Text.lines (blockText f)) =
        heading title ++ Text.lines (blockText description) ++ marks required deprecated := by
    rw [ofProperty, List.flatMap_append, List.flatMap_append, htitle, hmarks,
      List.flatMap_singleton]
  rw [← hlines]
  exact linesOf_eq_map .block _

/-- A description is shown as it is, line by line, if it does not look like a marker. -/
theorem lines_blockText_iff (text : String) :
    Text.lines (blockText text) = (Text.lines text).map shown ↔ ¬ IsMarker text := by
  rw [← lines_shown, ← blockText_eq_shown_iff]
  constructor
  · intro h
    rw [← Text.unlines_lines (blockText text), h, Text.unlines_lines]
  · exact congrArg Text.lines

/-- The block comment of a property with a description: its heading, its description and its marks,
line by line. The description is shown as it is, with the ends of comments escaped, exactly if it
does not look like a marker. -/
theorem propertyComment_block_shows (title : Option String) {description : String}
    (h : description ≠ "") (required deprecated : Bool) :
    ∃ text described,
      propertyComment .block (.ofTexts title description deprecated) required = .ok text ∧
        Text.lines text = "/**" ::
          ((heading title ++ described ++ marks required deprecated).map (" * " ++ ·) ++
            [" */", ""]) ∧
        (described = (Text.lines description).map shown ↔ ¬ IsMarker description) := by
  have hne : ofProperty title description required deprecated ≠ [] := by
    simp [ofProperty]
  refine ⟨_, Text.lines (blockText description), propertyComment_ofTexts .block title h _ _, ?_,
    lines_blockText_iff description⟩
  rw [ofFragments_eq, lines_block (linesOf_ne_nil .block hne) fun l => oneLine_of_mem_linesOf,
    linesOf_ofProperty, List.cons_append, List.append_assoc]
  rfl

theorem propertyComment_block_shows_pattern :
    let doc := Documentation.ofTexts (some " Globs ") "Matches */*.ts" true
    "Matches */*.ts" ≠ "" ∧
      propertyComment .block doc true = .ok
        "/**\n * Globs\n * ---\n * Matches *\\/*.ts\n * [required]\n * @deprecated\n */\n" ∧
      ∃ text described, propertyComment .block doc true = .ok text ∧
        Text.lines text = "/**" ::
          ((heading (some " Globs ") ++ described ++ marks true true).map (" * " ++ ·) ++
            [" */", ""]) ∧
        (described = (Text.lines "Matches */*.ts").map shown ↔
          ¬ IsMarker "Matches */*.ts") :=
  ⟨by decide, rfl,
    propertyComment_block_shows (some " Globs ") (by decide) true true⟩

/-- A description that is the deprecation marker is shown as a deprecation, though the schema has
none. -/
theorem propertyComment_block_marker :
    propertyComment .block (.ofTexts none "[deprecated]" false) false =
        .ok "/**\n * @deprecated\n */\n" ∧
      ¬ ∃ text, propertyComment .block (.ofTexts none "[deprecated]" false) false = .ok text ∧
        Text.lines text = "/**" ::
          ((heading none ++ (Text.lines "[deprecated]").map shown ++ marks false false).map
            (" * " ++ ·) ++ [" */", ""]) := by
  have htext : propertyComment .block (.ofTexts none "[deprecated]" false) false =
      .ok "/**\n * @deprecated\n */\n" := rfl
  refine ⟨htext, ?_⟩
  rintro ⟨text, h, hlines⟩
  obtain rfl : "/**\n * @deprecated\n */\n" = text := Except.ok.inj (htext.symm.trans h)
  revert hlines
  decide

end Comment

end SchemaTypes

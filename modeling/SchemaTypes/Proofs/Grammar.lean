import SchemaTypes.Expression.Basic
import SchemaTypes.Proofs.Renderings

/-!
# The grammar of type expressions

Type expressions come from a grammar with one level for each operator:

    union        ::=  intersection (" | " intersection)*
    intersection ::=  suffixed (" & " suffixed)*
    suffixed     ::=  primary "[]"*
    primary      ::=  identifier  |  value  |  "(" union ")"  |  "Array<" union ">"  |  "[]"
                   |  record  |  tuple

A record is a block of members in braces, a tuple a block of places in square brackets; the lines of
a block are indented by a margin. Above a member there may be a comment, of lines that stand behind
the marks of its style.

A derivation is a tree, with one type of trees for each level. So a union can stand below an array
or an intersection only inside of a primary: what operator binds closer is settled by the types, and
`text` is just what the leaves of the tree spell. What an identifier is, is left open, as nothing
depends on it.
-/

namespace SchemaTypes.Expression.Grammar

/-! ## Comments -/

/-- Every line of a comment stands behind the mark of its style. -/
def Marked (c : Comment) : Prop :=
  ∀ line ∈ c.lines, ∃ rest : String, line = c.style.lead ++ rest ∧ '\n' ∉ rest.toList

theorem marked_empty (style : Comment.Style) : Marked (.empty style) := by
  simp [Marked, Comment.empty]

theorem Marked.add {c : Comment} (h : Marked c) (fragment : String) : Marked (c.add fragment) := by
  intro line hline
  rcases List.mem_append.mp hline with hline | hline
  · exact h line hline
  · unfold Text.indentLines Text.lines at hline
    rw [List.map_map] at hline
    obtain ⟨part, hpart, rfl⟩ := List.mem_map.mp hline
    refine ⟨String.ofList part, rfl, ?_⟩
    rw [String.toList_ofList]
    exact Text.not_mem_of_mem_fields '\n' _ part hpart

theorem Marked.addIf {c : Comment} (h : Marked c) (condition : Bool) (fragment : String) :
    Marked (c.addIf condition fragment) := by
  unfold Comment.addIf
  split
  · exact h.add fragment
  · exact h

theorem style_addIf (c : Comment) (condition : Bool) (fragment : String) :
    (c.addIf condition fragment).style = c.style := by
  unfold Comment.addIf
  split <;> rfl

/-- A comment, if any, in the marks of its style. -/
structure Remark where
  comment : Comment
  marked : Marked comment

/-- The comment above a property is marked, in the style that is asked for. -/
theorem exists_remark {style : Comment.Style} {doc : Documentation} {required : Bool}
    {text : String} (h : propertyComment style doc required = .ok text) :
    ∃ remark : Remark, remark.comment.style = style ∧ remark.comment.text = text := by
  have htitle := (marked_empty style).addIf doc.title.truthy
    (Comment.titleMarker ++ " " ++ doc.title.display)
  have hstyle : ((Comment.empty style).addIf doc.title.truthy
      (Comment.titleMarker ++ " " ++ doc.title.display)).style = style :=
    style_addIf _ _ _
  have hrest : ∀ c, c.style = style → Marked c →
      ∃ remark : Remark, remark.comment.style = style ∧
        remark.comment.text = ((c.addIf required Comment.requiredMarker).addIf
          doc.deprecated Comment.deprecatedMarker).text := by
    intro c hc hmarked
    refine ⟨⟨_, (hmarked.addIf required _).addIf doc.deprecated _⟩, ?_, rfl⟩
    dsimp only
    rw [style_addIf, style_addIf, hc]
  unfold propertyComment at h
  dsimp only at h
  split at h
  · obtain ⟨c, hc, htext⟩ := bind_eq_ok.mp h
    change Comment.add _ <$> doc.description.asText = .ok c at hc
    obtain ⟨fragment, -, rfl⟩ := map_eq_ok.mp hc
    obtain ⟨remark, hremark, htextEq⟩ := hrest (.add _ fragment) hstyle (htitle.add fragment)
    exact ⟨remark, hremark, htextEq.trans (Except.ok.inj htext)⟩
  · obtain ⟨remark, hremark, htextEq⟩ := hrest _ hstyle htitle
    exact ⟨remark, hremark, htextEq.trans (Except.ok.inj h)⟩

/-! ## Derivations -/

mutual

/-- Operands between bars. -/
inductive Union (ident : String → Prop) where
  | single (operand : Intersection ident)
  | cons (operand : Intersection ident) (rest : Union ident)

/-- Operands between ampersands. -/
inductive Intersection (ident : String → Prop) where
  | single (operand : Suffixed ident)
  | cons (operand : Suffixed ident) (rest : Intersection ident)

/-- A primary with any number of empty brackets behind it. -/
inductive Suffixed (ident : String → Prop) where
  | bare (primary : Primary ident)
  | array (item : Suffixed ident)

/-- What no operator takes apart. -/
inductive Primary (ident : String → Prop) where
  | identifier (name : String) (h : ident name)
  | literal (value : Json)
  | parens (inner : Union ident)
  | generic (item : Union ident)
  | brackets
  | record (members : List (Member ident))
  | tuple (places : List (Union ident))

/-- A member of a record. -/
inductive Member (ident : String → Prop) where
  | mk (remark : Remark) (name : String) (required : Bool) (type : Union ident)

end

variable {ident : String → Prop}

/-! ## Texts -/

section Texts

variable (margin : String)

mutual

/-- The text that a union spells. -/
def Union.text : Union ident → String
  | .single operand => operand.text
  | .cons operand rest => operand.text ++ " | " ++ rest.text

/-- The text that an intersection spells. -/
def Intersection.text : Intersection ident → String
  | .single operand => operand.text
  | .cons operand rest => operand.text ++ " & " ++ rest.text

/-- The text that a primary with brackets behind it spells. -/
def Suffixed.text : Suffixed ident → String
  | .bare primary => primary.text
  | .array item => item.text ++ "[]"

/-- The text that a primary spells. -/
def Primary.text : Primary ident → String
  | .identifier name _ => name
  | .literal value => value.text
  | .parens inner => "(" ++ inner.text ++ ")"
  | .generic item => "Array<" ++ item.text ++ ">"
  | .brackets => "[]"
  | .record members => block "\x7b" "\x7d" (memberLines members)
  | .tuple places => block "[" "]" (placeLines places)

/-- The lines of a member. -/
def Member.lines : Member ident → List String
  | .mk remark name required type =>
    Text.indentLines margin (remark.comment.text ++ propertyKey name ++
      (if required then "" else "?") ++ ": " ++ type.text ++ ";")

/-- The lines of some members. -/
def memberLines : List (Member ident) → List String
  | [] => []
  | member :: rest => member.lines ++ memberLines rest

/-- The lines of the places of a tuple. -/
def placeLines : List (Union ident) → List String
  | [] => []
  | place :: rest => Text.indentLines margin (place.text ++ ",") ++ placeLines rest

end

theorem memberLines_eq_flatMap (members : List (Member ident)) :
    memberLines margin members = members.flatMap (Member.lines margin) := by
  induction members with
  | nil => rfl
  | cons member rest ih =>
    rw [List.flatMap_cons, ← ih]
    rfl

theorem placeLines_eq_flatMap (places : List (Union ident)) :
    placeLines margin places =
      places.flatMap fun place => Text.indentLines margin (place.text margin ++ ",") := by
  induction places with
  | nil => rfl
  | cons place rest ih =>
    rw [List.flatMap_cons, ← ih]
    rfl

end Texts

/-! ## Operands in a row -/

/-- The operands of one union and then those of another one. -/
def Union.append : Union ident → Union ident → Union ident
  | .single operand, other => .cons operand other
  | .cons operand rest, other => .cons operand (rest.append other)

/-- The operands of some unions, one union after the other. -/
def Union.concat (first : Union ident) : List (Union ident) → Union ident
  | [] => first
  | second :: rest => first.append (second.concat rest)

/-- The operands of one intersection and then those of another one. -/
def Intersection.append : Intersection ident → Intersection ident → Intersection ident
  | .single operand, other => .cons operand other
  | .cons operand rest, other => .cons operand (rest.append other)

/-- The operands of some intersections, one intersection after the other. -/
def Intersection.concat (first : Intersection ident) :
    List (Intersection ident) → Intersection ident
  | [] => first
  | second :: rest => first.append (second.concat rest)

section Texts

variable (margin : String)

theorem Union.text_append (u v : Union ident) :
    (u.append v).text margin = u.text margin ++ " | " ++ v.text margin := by
  induction u, v using Union.append.induct with
  | case1 operand v => rfl
  | case2 operand rest v ih =>
    change operand.text margin ++ " | " ++ (rest.append v).text margin =
      operand.text margin ++ " | " ++ rest.text margin ++ " | " ++ v.text margin
    rw [ih]
    simp only [String.append_assoc]

theorem Union.text_concat (u : Union ident) (us : List (Union ident)) :
    (u.concat us).text margin = unionOf (u.text margin :: us.map (Union.text margin)) := by
  induction us generalizing u with
  | nil => rw [concat, List.map_nil, unionOf, Text.join]
  | cons v vs ih =>
    rw [concat, text_append, ih, List.map_cons, unionOf, unionOf, Text.join_cons_cons]

/-- A union of more than one operand has a bar in its text. -/
theorem Union.exists_single_of_not_contains {u : Union ident}
    (h : Text.contains " | " (u.text margin) = false) : ∃ operand, u = .single operand := by
  cases u with
  | single operand => exact ⟨operand, rfl⟩
  | cons operand rest =>
    rw [text, Text.contains_append] at h
    cases h

theorem Intersection.text_append (i j : Intersection ident) :
    (i.append j).text margin = i.text margin ++ " & " ++ j.text margin := by
  induction i, j using Intersection.append.induct with
  | case1 operand j => rfl
  | case2 operand rest j ih =>
    change operand.text margin ++ " & " ++ (rest.append j).text margin =
      operand.text margin ++ " & " ++ rest.text margin ++ " & " ++ j.text margin
    rw [ih]
    simp only [String.append_assoc]

theorem Intersection.text_concat (i : Intersection ident) (is : List (Intersection ident)) :
    (i.concat is).text margin =
      intersectionOf (i.text margin :: is.map (Intersection.text margin)) := by
  induction is generalizing i with
  | nil => rw [concat, List.map_nil, intersectionOf, Text.join]
  | cons j js ih =>
    rw [concat, text_append, ih, List.map_cons, intersectionOf, intersectionOf,
      Text.join_cons_cons]

end Texts

/-! ## Lifting to a higher level -/

/-- A primary with brackets behind it as a union of one operand. -/
def Union.ofSuffixed (s : Suffixed ident) : Union ident :=
  .single (.single s)

/-- A primary as a union of one operand. -/
def Union.ofPrimary (p : Primary ident) : Union ident :=
  .ofSuffixed (.bare p)

theorem Union.text_ofSuffixed (margin : String) (s : Suffixed ident) :
    (Union.ofSuffixed s).text margin = s.text margin :=
  rfl

theorem Union.text_ofPrimary (margin : String) (p : Primary ident) :
    (Union.ofPrimary p).text margin = p.text margin :=
  rfl

/-- Some values as the operands of a union. -/
def Union.literals (value : Json) (values : List Json) : Union ident :=
  .concat (.ofPrimary (.literal value)) (values.map fun w => .ofPrimary (.literal w))

theorem Union.text_literals (margin : String) (value : Json) (values : List Json) :
    (literals value values : Union ident).text margin =
      unionOf ((value :: values).map Json.text) := by
  rw [literals, text_concat, text_ofPrimary, Primary.text, List.map_map, List.map_cons]
  rfl

/-- A union in parentheses as an intersection of one operand. -/
def Intersection.parens (u : Union ident) : Intersection ident :=
  .single (.bare (.parens u))

/-- A union is an operand of an intersection as it stands, if it is an intersection itself, or else
in parentheses. -/
inductive Union.Operand : Union ident → Intersection ident → Prop where
  | bare (i : Intersection ident) : Operand (.single i) i
  | parens (u : Union ident) : Operand u (.parens u)

/-- The items of an array are written in front of brackets, as they stand, if they are no more than
a primary with brackets behind it, or else in parentheses; or they are written as an argument. -/
inductive Union.Items : Union ident → Suffixed ident → Prop where
  | bare (s : Suffixed ident) : Items (.ofSuffixed s) (.array s)
  | parens (u : Union ident) : Items u (.array (.bare (.parens u)))
  | generic (u : Union ident) : Items u (.bare (.generic u))

end SchemaTypes.Expression.Grammar

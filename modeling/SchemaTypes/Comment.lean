import SchemaTypes.Documentation
import SchemaTypes.Failure
import SchemaTypes.Text.Blank

/-!
# Documentation comments

A `Comment` gathers fragments and writes them as one comment, line by line, in one of two styles. In
the line style every line of every fragment stands behind `//`. In the block style the lines stand
between `/**` and ` */`, a fragment that starts with the title marker becomes a heading over a rule,
and the deprecation marker becomes a tag; whatever would end the comment early is escaped first.

`propertyComment` is the comment above the member of a record type.
-/

namespace SchemaTypes

namespace Comment

/-! ## Styles -/

/-- The styles of comments. -/
inductive Style where
  | line
  | block
deriving DecidableEq, Repr

/-- The style of a given name. -/
def Style.ofJson (given : Json) : OrMisfit Style :=
  match given with
  | .str "line" => .ok .line
  | .str "block" => .ok .block
  | v => .error v

/-- A style that is to be used. -/
def Style.check (style : OrMisfit Style) : Except Failure Style :=
  style.mapError .badCommentStyle

/-- What stands in front of every line. -/
def Style.lead : Style → String
  | .line => "// "
  | .block => " * "

/-! ## Markers -/

/-- What a fragment with a title starts with. -/
def titleMarker : String := "[title]"

/-- The fragment of a required property. -/
def requiredMarker : String := "[required]"

/-- The fragment of a deprecated schema. -/
def deprecatedMarker : String := "[deprecated]"

/-- The text of a fragment in a block comment. -/
def blockText (fragment : String) : String :=
  let safe := Text.replace "*/" "*\\/" fragment
  match Text.afterStart? titleMarker safe with
  | some title => Text.strip title ++ "\n---"
  | none => if safe = deprecatedMarker then "@deprecated" else safe

/-- The text of a fragment in a comment. -/
def Style.text : Style → String → String
  | .line, fragment => fragment
  | .block, fragment => blockText fragment

end Comment

/-! ## Comments -/

/-- A comment under construction: its lines, in order, each with its lead. -/
structure Comment where
  style : Comment.Style
  lines : List String

namespace Comment

/-- A comment without text. -/
def empty (style : Style) : Comment := ⟨style, []⟩

/-- Adds a fragment; its line breaks stay. -/
def add (c : Comment) (fragment : String) : Comment :=
  { c with lines := c.lines ++ Text.indentLines c.style.lead (c.style.text fragment) }

/-- Adds a value that should be a text. -/
def addValue (c : Comment) (fragment : Json) : Except Failure Comment :=
  fragment.asText.map c.add

/-- Adds a fragment under a condition. -/
def addIf (c : Comment) (condition : Bool) (fragment : String) : Comment :=
  if condition then c.add fragment else c

/-- The finished comment, or nothing if nothing was added. -/
def text (c : Comment) : String :=
  match c.style, c.lines with
  | _, [] => ""
  | .line, ls => Text.unlines ls ++ "\n"
  | .block, ls => "/**\n" ++ Text.unlines ls ++ "\n */\n"

end Comment

/-- The comment above a member: its title, its description and its marks. A title may be any value,
a description has to be a text. -/
def propertyComment (style : Comment.Style) (doc : Documentation) (required : Bool) :
    Except Failure String := do
  let comment := (Comment.empty style).addIf doc.title.truthy
    (Comment.titleMarker ++ " " ++ doc.title.display)
  let comment ← if doc.description.truthy then comment.addValue doc.description else pure comment
  let comment := comment.addIf required Comment.requiredMarker
  let comment := comment.addIf doc.deprecated Comment.deprecatedMarker
  return comment.text

end SchemaTypes

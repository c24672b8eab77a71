import SchemaTypes.Expression.Key
import SchemaTypes.Expression.Links
import SchemaTypes.Expression.Rendering
import SchemaTypes.Expression.Settings

/-!
# Type expressions

`Expression.ofNode` writes a schema tree as a type expression. It goes through the tree once, from
left to right, and leaves open how a reference is written: `Expression.ofReference` names it or
inlines its target, depending on the settings, on the names that are being inlined around it, and on
those that are under way elsewhere.

Since no name is inlined inside itself, the number of display names bounds how deep inlining goes;
`Expression.ofSchema` computes that bound.
-/

namespace SchemaTypes.Expression

open Schema (Node Property)

/-- The surroundings of a type expression: the document that references lead into, and the
settings. -/
structure Scope where
  document : Json
  settings : Settings

/-! ## Texts of single nodes -/

/-- The type of a primitive; integers are numbers. -/
def primitiveType : Schema.Primitive → String
  | .string => "string"
  | .integer | .number => "number"
  | .boolean => "boolean"
  | .null => "null"

/-- A union of the texts of its operands. -/
def unionOf (operands : List String) : String :=
  Text.join " | " operands

/-- An intersection of the texts of its operands. -/
def intersectionOf (operands : List String) : String :=
  Text.join " & " operands

/-- The lines of a block between two brackets. -/
def block (opening closing : String) (body : List String) : String :=
  Text.unlines (opening :: body ++ [closing])

/-- Whether a node is written with an operator. -/
def isCompound : Node → Bool
  | .union _ _ _ | .enumeration _ _ | .intersection _ _ => true
  | _ => false

/-- Whether a node is written with `|`. -/
def isAlternative : Node → Bool
  | .union _ _ _ | .enumeration _ _ => true
  | _ => false

/-- The array type of items with the text `item`, whose schema is described by `node`. -/
def arrayOf (node : Node) (item : String) : String :=
  match node with
  | .record _ _ _ => "Array<" ++ item ++ ">"
  | _ => if isCompound node then "(" ++ item ++ ")[]" else item ++ "[]"

/-- An operand of an intersection with the text `part`, whose schema is described by `node`. -/
def operandOf (node : Node) (part : String) : String :=
  if isAlternative node && Text.contains " | " part then "(" ++ part ++ ")" else part

namespace Scope

variable (s : Scope)

/-- The lines of a text, one level deeper. -/
def indented (text : String) : Except Failure (List String) :=
  (s.settings.indent.map (Text.indentLines · text)).mapError .notJoinable

/-- The comment above a property, which describes what its type leads to. -/
def commentOf (type : Node) (required : Bool) : Except Failure String := do
  let node ← described s.document type
  let style ← Comment.Style.check s.settings.style
  propertyComment style node.info.doc required

/-- The array type of items with the text `text`. References that are named, not inlined, are not
looked at any further. -/
def arrayText (item : Node) (text : String) : Except Failure String :=
  match item, s.settings.deep with
  | .reference _ _, false => .ok (text ++ "[]")
  | _, _ => (arrayOf · text) <$> described s.document item

/-- A part with the text `text` as an operand of an intersection. -/
def operandText (part : Node) (text : String) : Except Failure String :=
  (operandOf · text) <$> described s.document part

end Scope

/-! ## Trees -/

mutual

/-- A schema tree as a type expression, if `onReference` writes its references. -/
def ofNode (s : Scope) (onReference : Json → Rendering String) : Node → Rendering String
  | .reference _ target => onReference target
  | .enumeration _ values => pure (unionOf (values.map Json.text))
  | .primitive _ name => pure (primitiveType name)
  | .record _ [] _ => pure "object"
  | .record _ (p :: ps) _ => block "\x7b" "\x7d" <$> ofProperties s onReference (p :: ps)
  | .openArray _ => pure "[]"
  | .array _ item => do
    let text ← ofNode s onReference item
    s.arrayText item text
  | .tuple _ items => block "[" "]" <$> ofPlaces s onReference items
  | .union _ _ variants => unionOf <$> ofNodes s onReference variants
  | .intersection _ parts => intersectionOf <$> ofParts s onReference parts
  | .unknown _ _ => pure s.settings.defaultType.name

/-- The lines of some properties. -/
def ofProperties (s : Scope) (onReference : Json → Rendering String) :
    List Property → Rendering (List String)
  | [] => pure []
  | .mk _ name required type :: rest => do
    let comment ← s.commentOf type required
    let text ← ofNode s onReference type
    let mark := if required then "" else "?"
    let lines ← s.indented (comment ++ propertyKey name ++ mark ++ ": " ++ text ++ ";")
    let others ← ofProperties s onReference rest
    return lines ++ others

/-- The lines of the places of a tuple. -/
def ofPlaces (s : Scope) (onReference : Json → Rendering String) :
    List Node → Rendering (List String)
  | [] => pure []
  | item :: rest => do
    let text ← ofNode s onReference item
    let lines ← s.indented (text ++ ",")
    let others ← ofPlaces s onReference rest
    return lines ++ others

/-- The type expressions of some nodes. -/
def ofNodes (s : Scope) (onReference : Json → Rendering String) :
    List Node → Rendering (List String)
  | [] => pure []
  | node :: rest => do
    let text ← ofNode s onReference node
    let others ← ofNodes s onReference rest
    return text :: others

/-- The operands of an intersection of some nodes. -/
def ofParts (s : Scope) (onReference : Json → Rendering String) :
    List Node → Rendering (List String)
  | [] => pure []
  | part :: rest => do
    let text ← ofNode s onReference part
    let operand ← s.operandText part text
    let others ← ofParts s onReference rest
    return operand :: others

end

/-! ## References -/

/-- A reference as a type expression. `inlining` are the names of the references whose targets are
being written around it, innermost first, and `inlined` writes one target more. -/
def ofReference (s : Scope) (inlined : List String → Node → Rendering String)
    (inlining : List String) (target : Json) : Rendering String := do
  Rendering.meet target
  let name ← Reference.displayNameOf target
  if !s.settings.deep || inlining.contains name then
    return name
  if ← Rendering.ask name then
    return name
  let node ← targetNode s.document target
  inlined (name :: inlining) node

/-- A schema tree as a type expression, inside targets of the names `inlining`. Targets are nested
less than `bound` deep. -/
def ofTree (s : Scope) : Nat → List String → Node → Rendering String
  | 0, _, _ => .failed .boundExceeded
  | bound + 1, inlining, node => ofNode s (ofReference s (ofTree s bound) inlining) node

/-- The different display names of the references in a schema and a document. -/
def displayNames (document schema : Json) : List String :=
  ((schema.references ++ document.references).map Reference.displayName).eraseDups

/-- The number of these names, and one more for the schema itself. -/
def nestingBound (document schema : Json) : Nat :=
  (displayNames document schema).length + 1

/-- A schema as a type expression. A schema that counts as false is written as the default type. -/
def ofSchema (document : Json) (settings : Settings) (schema : Json) : Rendering String :=
  if schema.truthy then do
    let node ← Schema.Node.ofJson schema "#"
    ofTree ⟨document, settings⟩ (nestingBound document schema) [] node
  else
    pure settings.defaultType.name

end SchemaTypes.Expression

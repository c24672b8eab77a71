import SchemaTypes.Failure
import SchemaTypes.Schema.Node

/-!
# Reading schemas

Any JSON value can stand where a schema is expected, or a table of properties, or a list of
branches. A `Reading` is a value read in each of these roles; `Reading.ofJson` builds it bottom up,
from the readings of the parts. A role is only worked out when it is asked for, so a malformed part
counts only if some schema around it uses it.

The `Shape` of a schema object says which of its keywords decide: a reference before an enumeration,
before a declared type, before a choice, before a composition, before a table of properties that
stands alone. All other members are without effect.
-/

namespace SchemaTypes.Schema

/-! ## Shapes -/

/-- What kind of schema an object is, by the first keyword that decides. -/
inductive Shape where
  | reference (target : Json)
  | enumeration (values : Json)
  | typed (name : TypeName)
  /-- A list of types, with those that are known. -/
  | types (declared : Json) (known : List TypeName)
  | choice (choice : Choice)
  | composition
  | record
  | unknown (declared : Json)

/-- The shape of an object without reference, enumeration and usable type. -/
def Shape.untyped (schema : Json) : Shape :=
  if (schema.member? "oneOf").isSome then .choice .oneOf
  else if (schema.member? "anyOf").isSome then .choice .anyOf
  else if (schema.member? "allOf").isSome then .composition
  else if (schema.member? "type").isNone && (schema.member? "properties").isSome then .record
  else .unknown (schema.memberD "type")

/-- The shape of an object without reference and enumeration. -/
def Shape.unlisted (schema : Json) : Shape :=
  match schema.memberD "type" with
  | .arr names => .types (.arr names) (names.filterMap TypeName.ofJson?)
  | declared =>
    match TypeName.ofJson? declared with
    | some name => .typed name
    | none => .untyped schema

/-- The shape of a schema object. -/
def Shape.ofSchema (schema : Json) : Shape :=
  match schema.member? "$ref" with
  | some target => .reference target
  | none =>
    match schema.memberD "enum" with
    | .null => .unlisted schema
    | values => .enumeration values

/-! ## Roles of a value -/

/-- What an array says about its items. -/
inductive Items where
  | unspecified
  | each (item : Node)
  | places (items : List Node)

/-- A value, read in each role that it can have inside a schema. Every role is given the path of the
value as a reference; a table of properties is also given the names of the required ones. -/
structure Reading where
  schema : String → Except Failure Node
  properties : List Json → String → Except Failure (List Property)
  items : String → Except Failure Items
  branches : String → Except Failure (List Node)

namespace Reading

/-- Readings as schemas, one after the other, under the paths `path/0`, `path/1` and so on. -/
def schemas (path : String) : Nat → List Reading → Except Failure (List Node)
  | _, [] => .ok []
  | i, r :: rest => do
    let node ← r.schema (path ++ "/" ++ toString i)
    let nodes ← schemas path (i + 1) rest
    return node :: nodes

/-- Readings as the types of properties, one after the other, under the paths `path/name`. -/
def table (required : List Json) (path : String) :
    List (String × Reading) → Except Failure (List Property)
  | [] => .ok []
  | (name, r) :: rest => do
    let path' := path ++ "/" ++ name
    let type ← r.schema path'
    let properties ← table required path rest
    return .mk path' name (required.any (·.isText name)) type :: properties

/-- Unrecognised schemas under the paths `path/0`, `path/1` and so on. -/
def unknowns (path : String) (n : Nat) : List Node :=
  (List.range n).map fun i => .unknown ⟨path ++ "/" ++ toString i, {}⟩ .null

/-- The names of the required properties of a schema object. -/
def requiredNames (schema : Json) : Except Failure (List Json) :=
  let given := schema.memberD "required"
  if given.truthy then do
    let names ← given.entries
    match names.find? Json.isContainer with
    | some v => .error (.notKey v)
    | none => return names
  else
    .ok []

/-- The reading of the member of an object under a key; a member that is absent reads as none. -/
def part (parts : List (String × Reading)) (key : String) : Option Reading :=
  parts.lookup key

/-- An object with a declared type, as a node. -/
def typed (name : TypeName) (info : Info) (schema : Json) (parts : List (String × Reading)) :
    Except Failure Node :=
  match name with
  | .primitive p => .ok (.primitive info p)
  | .object => do
    let required ← requiredNames schema
    match part parts "properties" with
    | some r => return .record info (← r.properties required (info.path ++ "/properties")) required
    | none => return .record info [] required
  | .array =>
    match part parts "items" with
    | none => .ok (.openArray info)
    | some r => do
      match ← r.items (info.path ++ "/items") with
      | .unspecified => return .openArray info
      | .each item => return .array info item
      | .places items => return .tuple info items

/-- The branches under a keyword of a schema object. -/
def branchesUnder (parts : List (String × Reading)) (key path : String) :
    Except Failure (List Node) :=
  match part parts key with
  | some r => r.branches (path ++ "/" ++ key)
  | none => .ok []

/-- Several types of one object, each as a node without documentation. -/
def alternatives (schema : Json) (parts : List (String × Reading)) (path : String) :
    List TypeName → Except Failure (List Node)
  | [] => .ok []
  | t :: rest => do
    let node ← typed t ⟨path ++ "/type/" ++ t.keyword, {}⟩ schema parts
    let nodes ← alternatives schema parts path rest
    return node :: nodes

/-- A schema object as a node, from the readings of its members. -/
def node (schema : Json) (parts : List (String × Reading)) (path : String) :
    Except Failure Node :=
  let info : Info := ⟨path, .ofSchema schema⟩
  match Shape.ofSchema schema with
  | .reference target => .ok (.reference info target)
  | .enumeration values => do return .enumeration info (← values.entries)
  | .typed name => typed name info schema parts
  | .types declared [] => .ok (.unknown info declared)
  | .types _ [name] => typed name info schema parts
  | .types _ names => do return .union info .types (← alternatives schema parts path names)
  | .choice c => do return .union info c (← branchesUnder parts c.keyword path)
  | .composition => do return .intersection info (← branchesUnder parts "allOf" path)
  | .record => typed .object info schema parts
  | .unknown declared => .ok (.unknown info declared)

/-- A table of properties that counts as false is empty; any other value that is no object is
refused. -/
def noTable (v : Json) : Except Failure (List Property) :=
  if v.truthy then .error (.notObject v) else .ok []

mutual

/-- A value in all its roles. -/
def ofJson : Json → Reading
  | .obj members =>
    let parts := ofMembers members
    { schema := node (.obj members) parts
      properties := fun required path => table required path parts
      items := fun path => Items.each <$> node (.obj members) parts path
      branches := fun path => .ok (unknowns path members.length) }
  | .arr items =>
    let parts := ofItems items
    { schema := fun path => .ok (.unknown ⟨path, {}⟩ .null)
      properties := fun _ _ => noTable (.arr items)
      items := fun path => Items.places <$> schemas path 0 parts
      branches := fun path => schemas path 0 parts }
  | .str s =>
    { schema := fun path => .ok (.unknown ⟨path, {}⟩ .null)
      properties := fun _ _ => noTable (.str s)
      items := fun path => .ok (.each (.unknown ⟨path, {}⟩ .null))
      branches := fun path => .ok (unknowns path s.length) }
  | .null =>
    { schema := fun path => .ok (.unknown ⟨path, {}⟩ .null)
      properties := fun _ _ => .ok []
      items := fun _ => .ok .unspecified
      branches := fun _ => .error (.notSequence .null) }
  | v =>
    { schema := fun path => .ok (.unknown ⟨path, {}⟩ .null)
      properties := fun _ _ => noTable v
      items := fun path => .ok (.each (.unknown ⟨path, {}⟩ .null))
      branches := fun _ => .error (.notSequence v) }

/-- The items of a list in all their roles. -/
def ofItems : List Json → List Reading
  | [] => []
  | v :: rest => ofJson v :: ofItems rest

/-- The members of an object in all their roles. -/
def ofMembers : List (String × Json) → List (String × Reading)
  | [] => []
  | (key, v) :: rest => (key, ofJson v) :: ofMembers rest

end

theorem ofItems_eq_map (items : List Json) : ofItems items = items.map ofJson := by
  induction items with
  | nil => simp [ofItems]
  | cons v rest ih => simp [ofItems, ih]

theorem ofMembers_eq_map (members : List (String × Json)) :
    ofMembers members = members.map fun m => (m.1, ofJson m.2) := by
  induction members with
  | nil => simp [ofMembers]
  | cons m rest ih => simp [ofMembers, ih]

/-- The reading of a member is the reading of its value. -/
theorem part_ofMembers (members : List (String × Json)) (key : String) :
    part (ofMembers members) key = (members.lookup key).map ofJson := by
  induction members with
  | nil => simp [part, ofMembers]
  | cons m rest ih =>
    obtain ⟨k, v⟩ := m
    simp only [part, ofMembers, List.lookup_cons] at ih ⊢
    split <;> simp_all

end Reading

/-- The node of the schema that a value is; `path` is where the value stands. -/
def Node.ofJson (v : Json) (path : String) : Except Failure Node :=
  (Reading.ofJson v).schema path

/-- Whether a schema is written as the body of a single record. -/
def isRecord (schema : Json) : Except Failure Bool :=
  if schema.truthy then Node.hasProperties <$> Node.ofJson schema "#" else .ok false

end SchemaTypes.Schema

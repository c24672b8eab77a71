import SchemaTypes.Documentation

/-!
# Schema trees

A schema is read into a tree of `Node`s, one for each schema object, before anything is written. The
kind of a node says how it is written as a type; references are leaves, they are not followed here.
-/

namespace SchemaTypes.Schema

/-- The types that have no parts. -/
inductive Primitive where
  | string
  | integer
  | number
  | boolean
  | null
deriving DecidableEq, Repr

/-- The types that a schema can declare. -/
inductive TypeName where
  | primitive (name : Primitive)
  | object
  | array
deriving DecidableEq, Repr

/-- The keyword of a primitive type. -/
def Primitive.keyword : Primitive → String
  | .string => "string"
  | .integer => "integer"
  | .number => "number"
  | .boolean => "boolean"
  | .null => "null"

/-- The keyword of a type. -/
def TypeName.keyword : TypeName → String
  | .primitive p => p.keyword
  | .object => "object"
  | .array => "array"

/-- The type with a given keyword. -/
def TypeName.ofKeyword? : String → Option TypeName
  | "string" => some (.primitive .string)
  | "integer" => some (.primitive .integer)
  | "number" => some (.primitive .number)
  | "boolean" => some (.primitive .boolean)
  | "null" => some (.primitive .null)
  | "object" => some .object
  | "array" => some .array
  | _ => none

/-- The type that a value names. -/
def TypeName.ofJson? : Json → Option TypeName
  | .str s => ofKeyword? s
  | _ => none

/-- What makes a schema a choice between others. -/
inductive Choice where
  | oneOf
  | anyOf
  | types
deriving DecidableEq, Repr

/-- The keyword of a choice. -/
def Choice.keyword : Choice → String
  | .oneOf => "oneOf"
  | .anyOf => "anyOf"
  | .types => "type"

/-- Where a node comes from, as a reference, and its documentation. -/
structure Info where
  path : String
  doc : Documentation := {}

mutual

/-- A schema. -/
inductive Node where
  /-- A reference to another schema. -/
  | reference (info : Info) (target : Json)
  /-- One of some values. -/
  | enumeration (info : Info) (values : List Json)
  | primitive (info : Info) (name : Primitive)
  /-- An object with the given properties. -/
  | record (info : Info) (properties : List Property) (required : List Json)
  /-- An array of which nothing more is said. -/
  | openArray (info : Info)
  /-- An array of like items. -/
  | array (info : Info) (item : Node)
  /-- An array with one schema for each place. -/
  | tuple (info : Info) (items : List Node)
  /-- One of some schemas. -/
  | union (info : Info) (choice : Choice) (variants : List Node)
  /-- All of some schemas. -/
  | intersection (info : Info) (parts : List Node)
  /-- A schema that is not recognised, with the type it declares. -/
  | unknown (info : Info) (declared : Json)

/-- A property of a record. -/
inductive Property where
  | mk (path name : String) (required : Bool) (type : Node)

end

namespace Node

/-- Where a node comes from, and its documentation. -/
def info : Node → Info
  | reference info _ | enumeration info _ | primitive info _ | record info _ _ | openArray info
  | array info _ | tuple info _ | union info _ _ | intersection info _ | unknown info _ => info

/-- Whether a node is a record with at least one property. -/
def hasProperties : Node → Bool
  | record _ properties _ => !properties.isEmpty
  | _ => false

end Node

namespace Property

/-- Where the schema of a property stands, as a reference. -/
def path : Property → String
  | mk path _ _ _ => path

/-- The name of a property. -/
def name : Property → String
  | mk _ name _ _ => name

/-- Whether a property has to be there. -/
def required : Property → Bool
  | mk _ _ required _ => required

/-- The schema of a property. -/
def type : Property → Node
  | mk _ _ _ type => type

end Property

/-! ## Induction -/

/-- What holds of a node whenever it holds of the nodes right below, holds of all nodes. -/
@[elab_as_elim, induction_eliminator]
theorem Node.induct {motive : Node → Prop}
    (reference : ∀ info target, motive (.reference info target))
    (enumeration : ∀ info values, motive (.enumeration info values))
    (primitive : ∀ info name, motive (.primitive info name))
    (record : ∀ info properties required, (∀ p ∈ properties, motive p.type) →
      motive (.record info properties required))
    (openArray : ∀ info, motive (.openArray info))
    (array : ∀ info item, motive item → motive (.array info item))
    (tuple : ∀ info items, (∀ item ∈ items, motive item) → motive (.tuple info items))
    (union : ∀ info choice variants, (∀ variant ∈ variants, motive variant) →
      motive (.union info choice variants))
    (intersection : ∀ info parts, (∀ part ∈ parts, motive part) →
      motive (.intersection info parts))
    (unknown : ∀ info declared, motive (.unknown info declared)) (node : Node) : motive node := by
  refine @Node.rec motive (fun p => motive p.type) (fun ps => ∀ p ∈ ps, motive p.type)
    (fun ns => ∀ n ∈ ns, motive n)
    reference enumeration primitive record openArray array tuple union intersection unknown
    ?_ ?_ ?_ ?_ ?_ node
  · exact fun _ _ _ _ h => h
  · simp
  · exact fun p ps hp hps => List.forall_mem_cons.2 ⟨hp, hps⟩
  · simp
  · exact fun n ns hn hns => List.forall_mem_cons.2 ⟨hn, hns⟩

end SchemaTypes.Schema

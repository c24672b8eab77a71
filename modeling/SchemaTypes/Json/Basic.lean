/-!
# JSON values

A `Json` value keeps what a reader of a document can tell apart: integers of any size are
distinct from floating-point numbers, and the members of an object stay in the order in which
they were written.

Values of the wrong kind are common in schema documents, so this file also says what every value
means where a truth value (`truthy`), a sequence (`entries?`) or a member (`member?`) is wanted.
-/

namespace SchemaTypes

/-- A JSON value with ordered object members. -/
inductive Json where
  | null
  | bool (value : Bool)
  | int (value : Int)
  | float (value : Float)
  | str (value : String)
  | arr (items : List Json)
  | obj (members : List (String × Json))
deriving Inhabited

namespace Json

/-! ## Kinds -/

/-- The seven kinds of JSON value. -/
inductive Kind where
  | null
  | bool
  | int
  | float
  | str
  | arr
  | obj
deriving DecidableEq, Repr

/-- The kind of a value. -/
def kind : Json → Kind
  | null => .null
  | bool _ => .bool
  | int _ => .int
  | float _ => .float
  | str _ => .str
  | arr _ => .arr
  | obj _ => .obj

/-- Containers are the lists and the objects. -/
def isContainer : Json → Bool
  | arr _ | obj _ => true
  | _ => false

/-! ## Truth -/

/-- Every value counts by its truth: nothing, zero and the empty texts, lists and objects are
false, all else is true. -/
def truthy : Json → Bool
  | null => false
  | bool b => b
  | int n => n != 0
  | float x => x != 0
  | str s => !s.isEmpty
  | arr items => !items.isEmpty
  | obj members => !members.isEmpty

/-- A value, or nothing when the value is false. -/
def orNull (v : Json) : Json :=
  if v.truthy then v else null

/-! ## Members and entries -/

/-- The member of an object under a key. -/
def member? (v : Json) (key : String) : Option Json :=
  match v with
  | obj members => members.lookup key
  | _ => none

/-- The member of an object under a key, or nothing. -/
def memberD (v : Json) (key : String) : Json :=
  (v.member? key).getD null

/-- The sequence that a value stands for: the items of a list, the characters of a text, the keys
of an object. Other values stand for none. -/
def entries? : Json → Option (List Json)
  | arr items => some items
  | str s => some (s.toList.map fun c => str (String.singleton c))
  | obj members => some (members.map fun m => str m.1)
  | _ => none

/-- Whether a value is the given text. -/
def isText (v : Json) (text : String) : Bool :=
  match v with
  | str s => s == text
  | _ => false

/-! ## Induction -/

/-- What holds of a value whenever it holds of the values right inside, holds of all values. -/
@[elab_as_elim, induction_eliminator]
theorem induct {motive : Json → Prop} (null : motive .null) (bool : ∀ b, motive (.bool b))
    (int : ∀ n, motive (.int n)) (float : ∀ x, motive (.float x)) (str : ∀ s, motive (.str s))
    (arr : ∀ items, (∀ v ∈ items, motive v) → motive (.arr items))
    (obj : ∀ members, (∀ m ∈ members, motive m.2) → motive (.obj members)) (v : Json) :
    motive v := by
  refine @Json.rec motive (fun vs => ∀ v ∈ vs, motive v) (fun ms => ∀ m ∈ ms, motive m.2)
    (fun m => motive m.2)
    null bool int float str arr obj ?_ ?_ ?_ ?_ ?_ v
  · simp
  · exact fun v vs hv hvs => List.forall_mem_cons.2 ⟨hv, hvs⟩
  · simp
  · exact fun m ms hm hms => List.forall_mem_cons.2 ⟨hm, hms⟩
  · exact fun _ _ h => h

end Json

end SchemaTypes

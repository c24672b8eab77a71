import Mathlib.Data.List.Forall2
import SchemaTypes.Proofs.SchemaTrees
import SchemaTypes.Table

/-!
# Keywords of schemas

A schema object is read by its keywords. What else it holds is without effect, and so is the order
of its members: two values that are the `Same` as schemas have the same tree, or fail for the same
reason (`ofJson_eq_of_same_schema`).

The value of a keyword has a `Role`: it is taken as it is, or other schemas stand inside of it, as
the branches of a choice, in a table of properties, or as the items of an array. Two values are the
same in a role if they have the same schemas in the same places. The order of the properties in a
table does count, and whatever is taken as it is has to be equal.
-/

namespace SchemaTypes.Schema

/-! ## Sameness -/

/-- What a value is in a schema. -/
inductive Role where
  /-- It is taken as it is. -/
  | plain
  /-- It is a schema. -/
  | schema
  /-- It lists the branches of a choice or a composition. -/
  | branches
  /-- It is a table of properties. -/
  | properties
  /-- It says what the items of an array are. -/
  | items
deriving DecidableEq, Repr

/-- The keywords, with what their values are in a schema. Other keys have no effect. -/
def keywords : List (String × Role) :=
  [("$ref", .plain), ("enum", .plain), ("type", .plain), ("oneOf", .branches),
    ("anyOf", .branches), ("allOf", .branches), ("properties", .properties),
    ("required", .plain), ("items", .items), ("title", .plain), ("description", .plain),
    ("deprecated", .plain)]

/-- Two values are the same in a role, but for the order of the members of schema objects in them,
and for those members whose keys are no keywords. -/
inductive Same : Role → Json → Json → Prop where
  | refl (role : Role) (v : Json) : Same role v v
  /-- Two objects have the same keywords, with values that are the same in their roles. -/
  | object {members members' : List (String × Json)}
      (hkeys : ∀ key role, (key, role) ∈ keywords →
        (members.lookup key).isSome = (members'.lookup key).isSome)
      (hvalues : ∀ key role v v', (key, role) ∈ keywords → members.lookup key = some v →
        members'.lookup key = some v' → Same role v v') :
      Same .schema (.obj members) (.obj members')
  | branches {items items' : List Json} (h : List.Forall₂ (Same .schema) items items') :
      Same .branches (.arr items) (.arr items')
  | properties {members members' : List (String × Json)}
      (hnames : members.map Prod.fst = members'.map Prod.fst)
      (h : List.Forall₂ (Same .schema) (members.map Prod.snd) (members'.map Prod.snd)) :
      Same .properties (.obj members) (.obj members')
  | item {v v' : Json} (h : Same .schema v v') : Same .items v v'
  | places {items items' : List Json} (h : List.Forall₂ (Same .schema) items items') :
      Same .items (.arr items) (.arr items')

/-- Two values are related if both are there, or neither is, and they are related where they are
there. -/
theorem optionRel_iff {α : Type} {r : α → α → Prop} {o o' : Option α} :
    Option.Rel r o o' ↔
      o.isSome = o'.isSome ∧ ∀ v v', o = some v → o' = some v' → r v v' := by
  constructor
  · intro h
    cases h with
    | none => exact ⟨rfl, nofun⟩
    | some hr =>
      refine ⟨rfl, fun v v' hv hv' => ?_⟩
      obtain rfl := Option.some.inj hv
      obtain rfl := Option.some.inj hv'
      exact hr
  · rintro ⟨hpresent, hr⟩
    cases o with
    | none =>
      have hnone : o'.isNone = true := Option.isSome_eq_false_iff.mp hpresent.symm
      obtain rfl := Option.isNone_iff_eq_none.mp hnone
      exact .none
    | some v =>
      obtain ⟨v', rfl⟩ := Option.isSome_iff_exists.mp hpresent.symm
      exact .some (hr v v' rfl rfl)

theorem lookup_rel_of_same {members members' : List (String × Json)}
    (hkeys : ∀ key role, (key, role) ∈ keywords →
      (members.lookup key).isSome = (members'.lookup key).isSome)
    (hvalues : ∀ key role v v', (key, role) ∈ keywords → members.lookup key = some v →
      members'.lookup key = some v' → Same role v v') (key : String) (role : Role)
    (hkey : (key, role) ∈ keywords) :
    Option.Rel (Same role) (members.lookup key) (members'.lookup key) :=
  optionRel_iff.mpr ⟨hkeys key role hkey, fun v v' => hvalues key role v v' hkey⟩

/-- Objects are the same schema if, under each keyword, both have values that are the same or
none. -/
theorem same_of_lookup_rel {members members' : List (String × Json)}
    (h : ∀ k ∈ keywords, Option.Rel (Same k.2) (members.lookup k.1) (members'.lookup k.1)) :
    Same .schema (.obj members) (.obj members') :=
  .object (fun key role hkey => (optionRel_iff.mp (h (key, role) hkey)).1)
    fun key role v v' hkey => (optionRel_iff.mp (h (key, role) hkey)).2 v v'

/-- Objects are the same schema if they have the same members under keywords, in any order. -/
theorem same_of_perm {members members' : List (String × Json)}
    (hnodup : (Table.keys members).Nodup) (hnodup' : (Table.keys members').Nodup)
    (h : (members.filter fun m => m.1 ∈ Table.keys keywords).Perm
      (members'.filter fun m => m.1 ∈ Table.keys keywords)) :
    Same .schema (.obj members) (.obj members') := by
  have heq : ∀ key role, (key, role) ∈ keywords → members.lookup key = members'.lookup key := by
    intro key role hkey
    have hkeyword : key ∈ Table.keys keywords := List.mem_map_of_mem (f := Prod.fst) hkey
    have hmem : ∀ v, (key, v) ∈ members ↔ (key, v) ∈ members' := by
      intro v
      have hfilter := h.mem_iff (a := (key, v))
      simpa [hkeyword] using hfilter
    refine Option.ext fun v => ⟨fun hv => ?_, fun hv => ?_⟩
    · exact Table.lookup_of_mem hnodup' ((hmem v).mp (Table.mem_of_lookup hv))
    · exact Table.lookup_of_mem hnodup ((hmem v).mpr (Table.mem_of_lookup hv))
  refine same_of_lookup_rel fun k hk => ?_
  rw [heq k.1 k.2 hk]
  cases members'.lookup k.1 with
  | none => exact .none
  | some v => exact .some (.refl k.2 v)

/-! ## Readings that agree -/

namespace Reading

/-- Two readings are the same in a role. -/
def AgreesAs (r r' : Reading) : Role → Prop
  | .plain => r = r'
  | .schema => r.schema = r'.schema
  | .branches => r.branches = r'.branches
  | .properties => r.properties = r'.properties
  | .items => r.items = r'.items

theorem AgreesAs.refl (r : Reading) (role : Role) : r.AgreesAs r role := by
  cases role <;> rfl

/-- Two objects, with the readings of their members, have the same keywords, and these agree. -/
structure SameKeywords (schema schema' : Json) (parts parts' : List (String × Reading)) :
    Prop where
  plain : ∀ key, (key, Role.plain) ∈ keywords → schema.member? key = schema'.member? key
  present : ∀ key role, (key, role) ∈ keywords →
    (schema.member? key).isSome = (schema'.member? key).isSome
  parts : ∀ key role, (key, role) ∈ keywords →
    Option.Rel (fun r r' => r.AgreesAs r' role) (part parts key) (part parts' key)

theorem schemas_congr {rs rs' : List Reading}
    (h : List.Forall₂ (fun r r' => r.AgreesAs r' .schema) rs rs') (path : String) (i : Nat) :
    schemas path i rs = schemas path i rs' := by
  induction h generalizing i with
  | nil => rfl
  | cons hr _ ih =>
    have hr : _ = _ := hr
    rw [schemas, schemas, hr, ih]

theorem table_congr {parts parts' : List (String × Reading)}
    (hnames : parts.map Prod.fst = parts'.map Prod.fst)
    (h : List.Forall₂ (fun r r' => r.AgreesAs r' .schema) (parts.map Prod.snd)
      (parts'.map Prod.snd)) (required : List Json) (path : String) :
    table required path parts = table required path parts' := by
  induction parts generalizing parts' with
  | nil =>
    cases parts' with
    | nil => rfl
    | cons p' rest' => cases hnames
  | cons p rest ih =>
    cases parts' with
    | nil => cases hnames
    | cons p' rest' =>
      obtain ⟨name, r⟩ := p
      obtain ⟨name', r'⟩ := p'
      obtain ⟨hname, hnames⟩ := List.cons.inj hnames
      cases h with
      | cons hr hrest =>
        have hname : name = name' := hname
        have hr : r.schema = r'.schema := hr
        rw [table, table, hname, hr, ih hnames hrest]

section Objects

variable {schema schema' : Json} {parts parts' : List (String × Reading)}

theorem SameKeywords.memberD (h : SameKeywords schema schema' parts parts') (key : String)
    (hkey : (key, Role.plain) ∈ keywords) : schema.memberD key = schema'.memberD key := by
  unfold Json.memberD
  rw [h.plain key hkey]

theorem requiredNames_congr (h : SameKeywords schema schema' parts parts') :
    requiredNames schema = requiredNames schema' := by
  unfold requiredNames
  rw [h.memberD "required" (by decide)]

theorem typed_congr (h : SameKeywords schema schema' parts parts') (name : TypeName)
    (info : Info) : typed name info schema parts = typed name info schema' parts' := by
  cases name with
  | primitive p => rfl
  | object =>
    have hproperties := h.parts "properties" .properties (by decide)
    rw [typed, typed, requiredNames_congr h]
    generalize part parts "properties" = r at hproperties ⊢
    generalize part parts' "properties" = r' at hproperties ⊢
    cases hproperties with
    | none => rfl
    | some hr =>
      have hr : _ = _ := hr
      simp only [hr]
  | array =>
    have hitems := h.parts "items" .items (by decide)
    rw [typed, typed]
    generalize part parts "items" = r at hitems ⊢
    generalize part parts' "items" = r' at hitems ⊢
    cases hitems with
    | none => rfl
    | some hr =>
      have hr : _ = _ := hr
      simp only [hr]

/-- The value of a keyword that is taken as it is agrees in all roles. -/
theorem branchesUnder_congr (h : SameKeywords schema schema' parts parts') {key : String}
    (hkey : (key, Role.branches) ∈ keywords ∨ (key, Role.plain) ∈ keywords) (path : String) :
    branchesUnder parts key path = branchesUnder parts' key path := by
  obtain ⟨role, hkey, hrole⟩ : ∃ role, (key, role) ∈ keywords ∧
      ∀ r r' : Reading, r.AgreesAs r' role → r.branches = r'.branches := by
    rcases hkey with hkey | hkey
    · exact ⟨.branches, hkey, fun _ _ hr => hr⟩
    · exact ⟨.plain, hkey, fun _ _ hr => congrArg Reading.branches hr⟩
  have hparts := h.parts key role hkey
  unfold branchesUnder
  generalize part parts key = r at hparts ⊢
  generalize part parts' key = r' at hparts ⊢
  cases hparts with
  | none => rfl
  | some hr => simp only [hrole _ _ hr]

theorem alternatives_congr (h : SameKeywords schema schema' parts parts') (path : String)
    (names : List TypeName) :
    alternatives schema parts path names = alternatives schema' parts' path names := by
  induction names with
  | nil => rfl
  | cons name rest ih => rw [alternatives, alternatives, typed_congr h, ih]

theorem shape_congr (h : SameKeywords schema schema' parts parts') :
    Shape.ofSchema schema = Shape.ofSchema schema' := by
  have hnone : ∀ key role, (key, role) ∈ keywords →
      (schema.member? key).isNone = (schema'.member? key).isNone := fun key role hkey => by
    rw [← Option.not_isSome, ← Option.not_isSome, h.present key role hkey]
  have huntyped : Shape.untyped schema = Shape.untyped schema' := by
    unfold Shape.untyped
    rw [h.present "oneOf" .branches (by decide), h.present "anyOf" .branches (by decide),
      h.present "allOf" .branches (by decide), h.present "properties" .properties (by decide),
      hnone "type" .plain (by decide), h.memberD "type" (by decide)]
  unfold Shape.ofSchema Shape.unlisted
  rw [h.plain "$ref" (by decide), h.memberD "enum" (by decide), h.memberD "type" (by decide),
    huntyped]

theorem documentation_congr (h : SameKeywords schema schema' parts parts') :
    Documentation.ofSchema schema = Documentation.ofSchema schema' := by
  unfold Documentation.ofSchema
  rw [h.memberD "title" (by decide), h.memberD "description" (by decide),
    h.memberD "deprecated" (by decide)]

/-- The tree of an object depends on its keywords alone. -/
theorem node_congr (h : SameKeywords schema schema' parts parts') :
    node schema parts = node schema' parts' := by
  funext path
  unfold node
  rw [documentation_congr h, shape_congr h]
  dsimp only
  generalize Shape.ofSchema schema' = shape
  cases shape with
  | reference target => rfl
  | enumeration values => rfl
  | typed name => exact typed_congr h name _
  | types declared known =>
    match known with
    | [] => rfl
    | [name] => exact typed_congr h name _
    | name :: name' :: rest => simp only [alternatives_congr h]
  | choice c =>
    have hkey : (c.keyword, Role.branches) ∈ keywords ∨ (c.keyword, Role.plain) ∈ keywords := by
      cases c with
      | oneOf | anyOf => exact .inl (by decide)
      | types => exact .inr (by decide)
    simp only [branchesUnder_congr h hkey]
  | composition =>
    have hkey : ("allOf", Role.branches) ∈ keywords := by decide
    simp only [branchesUnder_congr h (.inl hkey)]
  | record => exact typed_congr h _ _
  | unknown declared => rfl

end Objects

theorem keys_ofMembers (members : List (String × Json)) :
    (ofMembers members).map Prod.fst = members.map Prod.fst := by
  rw [ofMembers_eq_map, List.map_map]
  rfl

theorem values_ofMembers (members : List (String × Json)) :
    (ofMembers members).map Prod.snd = (members.map Prod.snd).map ofJson := by
  rw [ofMembers_eq_map, List.map_map, List.map_map]
  rfl

theorem forall₂_map_ofJson {vs vs' : List Json}
    (ih : ∀ v ∈ vs, ∀ v', Same .schema v v' → (ofJson v).AgreesAs (ofJson v') .schema)
    (h : List.Forall₂ (Same .schema) vs vs') :
    List.Forall₂ (fun r r' => r.AgreesAs r' .schema) (vs.map ofJson) (vs'.map ofJson) := by
  rw [List.forall₂_map_left_iff, List.forall₂_map_right_iff]
  rw [List.forall₂_iff_zip] at h ⊢
  exact ⟨h.1, fun {v v'} hv => ih v (List.of_mem_zip hv).1 v' (h.2 hv)⟩

/-- Objects with the same keywords have parts that agree. -/
theorem sameKeywords_of_lookup {members members' : List (String × Json)}
    (ih : ∀ m ∈ members, ∀ role v', Same role m.2 v' → (ofJson m.2).AgreesAs (ofJson v') role)
    (h : ∀ key role, (key, role) ∈ keywords →
      Option.Rel (Same role) (members.lookup key) (members'.lookup key)) :
    SameKeywords (.obj members) (.obj members') (ofMembers members) (ofMembers members') := by
  refine ⟨fun key hkey => ?_, fun key role hkey => ?_, fun key role hkey => ?_⟩
  · have hsame := h key .plain hkey
    change members.lookup key = members'.lookup key
    generalize members.lookup key = v at hsame ⊢
    generalize members'.lookup key = v' at hsame ⊢
    cases hsame with
    | none => rfl
    | some hsame =>
      cases hsame
      rfl
  · exact (optionRel_iff.mp (h key role hkey)).1
  · have hsame := h key role hkey
    have hmem : ∀ v, members.lookup key = some v → (key, v) ∈ members :=
      fun _ => Table.mem_of_lookup
    rw [part_ofMembers, part_ofMembers]
    generalize members.lookup key = v at hsame hmem ⊢
    generalize members'.lookup key = v' at hsame ⊢
    cases hsame with
    | none => exact .none
    | @some v v' hsame => exact .some (ih (key, v) (hmem v rfl) role v' hsame)

/-- Values that are the same in a role have readings that are the same in it. -/
theorem agreesAs_of_same {role : Role} {v v' : Json} (h : Same role v v') :
    (ofJson v).AgreesAs (ofJson v') role := by
  induction v generalizing role v' with
  | null | bool _ | int _ | float _ | str _ =>
    cases h with
    | refl => exact .refl _ _
    | item h =>
      cases h
      rfl
  | arr items ih =>
    have hschemas : ∀ {items' : List Json}, List.Forall₂ (Same .schema) items items' →
        ∀ path, schemas path 0 (ofItems items) = schemas path 0 (ofItems items') := by
      intro items' h path
      rw [ofItems_eq_map, ofItems_eq_map]
      exact schemas_congr (forall₂_map_ofJson (fun v hv _ => ih v hv) h) path 0
    cases h with
    | refl => exact .refl _ _
    | branches h => exact funext (hschemas h)
    | item h =>
      cases h
      rfl
    | places h => exact funext fun path => congrArg (Items.places <$> ·) (hschemas h path)
  -- As a schema an object counts by its keywords, as a table by all its members in order.
  | obj members ih =>
    cases h with
    | refl => exact .refl _ _
    | object hkeys hvalues =>
      exact node_congr (sameKeywords_of_lookup (fun m hm _ _ => ih m hm)
        (lookup_rel_of_same hkeys hvalues))
    | @properties _ members' hnames h =>
      have hvalues : ∀ v ∈ members.map Prod.snd, ∀ v', Same .schema v v' →
          (ofJson v).AgreesAs (ofJson v') .schema := by
        intro v hv v' hsame
        obtain ⟨m, hm, rfl⟩ := List.mem_map.mp hv
        exact ih m hm hsame
      have hparts := forall₂_map_ofJson hvalues h
      rw [← values_ofMembers, ← values_ofMembers] at hparts
      have hkeys : (ofMembers members).map Prod.fst = (ofMembers members').map Prod.fst := by
        rw [keys_ofMembers, keys_ofMembers, hnames]
      exact funext fun required => funext fun path => table_congr hkeys hparts required path
    | item h =>
      cases h with
      | refl => rfl
      | object hkeys hvalues =>
        have hnode := node_congr (sameKeywords_of_lookup (fun m hm _ _ => ih m hm)
          (lookup_rel_of_same hkeys hvalues))
        exact funext fun path => congrArg (Items.each <$> ·) (congrFun hnode path)

end Reading

/-- Values that are the same as schemas have the same tree, or fail for the same reason: neither the
order of the members of schema objects matters, at any depth, nor do members whose keys are no
keywords. -/
theorem ofJson_eq_of_same_schema {v v' : Json} (h : Same .schema v v') (path : String) :
    Node.ofJson v path = Node.ofJson v' path :=
  congrFun (Reading.agreesAs_of_same h) path

/-- A note: an object with two properties, or else a list of one place. -/
def note : Json :=
  .obj [("type", .arr [.str "object", .str "array"]), ("title", .str "Note"),
    ("properties", .obj [
      ("text", .obj [("type", .str "string"), ("description", .str "What it says")]),
      ("tag", .obj [("oneOf", .arr [.obj [("enum", .arr [.str "x"]), ("title", .str "X")]])])]),
    ("required", .arr [.str "text"]), ("items", .arr [.obj [("type", .str "null")]])]

/-- The same note in another order, with remarks. -/
def remarkedNote : Json :=
  .obj [("items", .arr [.obj [("nullable", .bool true), ("type", .str "null")]]),
    ("x-note", .int 1), ("title", .str "Note"), ("required", .arr [.str "text"]),
    ("properties", .obj [
      ("text", .obj [("description", .str "What it says"), ("type", .str "string")]),
      ("tag", .obj [("default", .null),
        ("oneOf", .arr [.obj [("title", .str "X"), ("enum", .arr [.str "x"])]])])]),
    ("type", .arr [.str "object", .str "array"])]

/-- Both notes have the same tree, and it is one. -/
theorem ofJson_eq_of_same_schema_notes :
    Node.ofJson note "#" = Node.ofJson remarkedNote "#" ∧
      ∃ tree, Node.ofJson remarkedNote "#" = .ok tree := by
  have hitem : Same .schema (.obj [("type", .str "null")])
      (.obj [("nullable", .bool true), ("type", .str "null")]) :=
    same_of_perm (by decide) (by decide) (.refl _)
  have htext : Same .schema
      (.obj [("type", .str "string"), ("description", .str "What it says")])
      (.obj [("description", .str "What it says"), ("type", .str "string")]) :=
    same_of_perm (by decide) (by decide) (.swap _ _ _)
  have hbranch : Same .schema (.obj [("enum", .arr [.str "x"]), ("title", .str "X")])
      (.obj [("title", .str "X"), ("enum", .arr [.str "x"])]) :=
    same_of_perm (by decide) (by decide) (.swap _ _ _)
  have htag : Same .schema
      (.obj [("oneOf", .arr [.obj [("enum", .arr [.str "x"]), ("title", .str "X")]])])
      (.obj [("default", .null),
        ("oneOf", .arr [.obj [("title", .str "X"), ("enum", .arr [.str "x"])]])]) := by
    refine same_of_lookup_rel ?_
    simp only [keywords, List.forall_mem_cons]
    exact ⟨.none, .none, .none, .some (.branches (.cons hbranch .nil)), .none, .none, .none, .none,
      .none, .none, .none, .none, nofun⟩
  have hsame : Same .schema note remarkedNote := by
    refine same_of_lookup_rel ?_
    simp only [keywords, List.forall_mem_cons]
    exact ⟨.none, .none, .some (.refl _ _), .none, .none, .none,
      .some (.properties rfl (.cons htext (.cons htag .nil))), .some (.refl _ _),
      .some (.places (.cons hitem .nil)), .some (.refl _ _), .none, .none, nofun⟩
  exact ⟨ofJson_eq_of_same_schema hsame "#", _, rfl⟩

end SchemaTypes.Schema

import SchemaTypes.Proofs.Chains
import SchemaTypes.Proofs.Undocumented

/-!
# Schema trees that differ in documentation

Values that are alike are read into trees that are alike: `Node.Alike` compares all of two trees but
the documentation at their nodes. A value is read in several roles, and the readings of two values
that are alike are alike in every role. In the role of a schema two texts are alike too, whatever
they say, and this is the only role in which the value of a title or a description is ever read.
-/

namespace SchemaTypes

open Schema (Node Property Shape Reading Info TypeName Items)

variable {P : Documentation → Prop}

namespace Schema

/-! ## Trees -/

/-- The documentation of two nodes is of one kind. -/
structure Info.Alike (P : Documentation → Prop) (info info' : Info) : Prop where
  left : P info.doc
  right : P info'.doc

mutual

/-- Two trees are the same but for their documentation, which is of one kind. -/
inductive Node.Alike (P : Documentation → Prop) : Node → Node → Prop
  | reference {info info' : Info} {target target' : Json} (hinfo : info.Alike P info')
      (htarget : Json.Alike P target target') :
      Node.Alike P (.reference info target) (.reference info' target')
  | enumeration {info info' : Info} (hinfo : info.Alike P info') (values : List Json) :
      Node.Alike P (.enumeration info values) (.enumeration info' values)
  | primitive {info info' : Info} (hinfo : info.Alike P info') (name : Primitive) :
      Node.Alike P (.primitive info name) (.primitive info' name)
  | record {info info' : Info} {properties properties' : List Property} (hinfo : info.Alike P info')
      (h : List.Forall₂ (Property.Alike P) properties properties') (required : List Json) :
      Node.Alike P (.record info properties required) (.record info' properties' required)
  | openArray {info info' : Info} (hinfo : info.Alike P info') :
      Node.Alike P (.openArray info) (.openArray info')
  | array {info info' : Info} {item item' : Node} (hinfo : info.Alike P info')
      (h : Node.Alike P item item') : Node.Alike P (.array info item) (.array info' item')
  | tuple {info info' : Info} {items items' : List Node} (hinfo : info.Alike P info')
      (h : List.Forall₂ (Node.Alike P) items items') :
      Node.Alike P (.tuple info items) (.tuple info' items')
  | union {info info' : Info} {variants variants' : List Node} (hinfo : info.Alike P info')
      (choice : Choice) (h : List.Forall₂ (Node.Alike P) variants variants') :
      Node.Alike P (.union info choice variants) (.union info' choice variants')
  | intersection {info info' : Info} {parts parts' : List Node} (hinfo : info.Alike P info')
      (h : List.Forall₂ (Node.Alike P) parts parts') :
      Node.Alike P (.intersection info parts) (.intersection info' parts')
  | unknown {info info' : Info} (hinfo : info.Alike P info') (declared declared' : Json) :
      Node.Alike P (.unknown info declared) (.unknown info' declared')

/-- Two properties are the same but for the documentation of their types. -/
inductive Property.Alike (P : Documentation → Prop) : Property → Property → Prop
  | mk (path path' name : String) (required : Bool) {type type' : Node}
      (h : Node.Alike P type type') :
      Property.Alike P (.mk path name required type) (.mk path' name required type')

end

theorem Node.Alike.info {node node' : Node} (h : node.Alike P node') :
    node.info.Alike P node'.info := by
  cases h <;> assumption

/-- What two arrays say about their items. -/
inductive Items.Alike (P : Documentation → Prop) : Items → Items → Prop
  | unspecified : Items.Alike P .unspecified .unspecified
  | each {item item' : Node} (h : item.Alike P item') : Items.Alike P (.each item) (.each item')
  | places {items items' : List Node} (h : List.Forall₂ (Node.Alike P) items items') :
      Items.Alike P (.places items) (.places items')

/-! ## Shapes -/

/-- Two shapes are the same but for documentation. -/
inductive Shape.Alike (P : Documentation → Prop) : Shape → Shape → Prop
  | reference {target target' : Json} (h : Json.Alike P target target') :
      Shape.Alike P (.reference target) (.reference target')
  | enumeration {values values' : Json} (h : values.entries? = values'.entries?) :
      Shape.Alike P (.enumeration values) (.enumeration values')
  | typed (name : TypeName) : Shape.Alike P (.typed name) (.typed name)
  | types (declared declared' : Json) (known : List TypeName) :
      Shape.Alike P (.types declared known) (.types declared' known)
  | choice (c : Choice) : Shape.Alike P (.choice c) (.choice c)
  | composition : Shape.Alike P .composition .composition
  | record : Shape.Alike P .record .record
  | unknown (declared declared' : Json) : Shape.Alike P (.unknown declared) (.unknown declared')

variable {schema schema' : Json}

/-- Objects that are alike have the same keys. -/
theorem member?_isSome_eq (h : Json.Alike P schema schema') (key : String) :
    (schema.member? key).isSome = (schema'.member? key).isSome := by
  have hrel := h.member?_rel key
  cases hv : schema.member? key <;> cases hv' : schema'.member? key <;> rw [hv, hv'] at hrel <;>
    first | rfl | cases hrel

/-- Values that are alike name the same type. -/
theorem TypeName.ofJson?_eq {v v' : Json} (h : Json.Alike P v v') : ofJson? v = ofJson? v' := by
  cases v with
  | arr items =>
    obtain ⟨items', rfl, -⟩ := h.items
    rfl
  | obj members =>
    obtain ⟨members', rfl, -⟩ := h.members
    rfl
  | _ => rw [h.eq_of_not_isContainer rfl]

theorem Shape.untyped_alike (h : Json.Alike P schema schema') :
    (untyped schema).Alike P (untyped schema') := by
  have hnone : ∀ key, (schema.member? key).isNone = (schema'.member? key).isNone := fun key => by
    rw [← Option.not_isSome, ← Option.not_isSome, member?_isSome_eq h]
  unfold untyped
  simp only [member?_isSome_eq h, hnone]
  split
  · exact .choice .oneOf
  · split
    · exact .choice .anyOf
    · split
      · exact .composition
      · split
        · exact .record
        · exact .unknown _ _

theorem Shape.unlisted_alike (h : Json.Alike P schema schema') :
    (unlisted schema).Alike P (unlisted schema') := by
  have htype := h.memberD "type" rfl
  unfold unlisted
  generalize schema.memberD "type" = v at htype ⊢
  generalize schema'.memberD "type" = v' at htype ⊢
  cases v with
  | arr names =>
    obtain ⟨names', rfl, hnames⟩ := htype.items
    have hknown : names.filterMap TypeName.ofJson? = names'.filterMap TypeName.ofJson? := by
      clear htype
      induction hnames with
      | nil => rfl
      | cons hname _ ih =>
        rw [List.filterMap_cons, List.filterMap_cons, TypeName.ofJson?_eq hname, ih]
    dsimp only
    rw [hknown]
    exact .types _ _ _
  | obj members =>
    obtain ⟨members', rfl, -⟩ := htype.members
    exact untyped_alike h
  | _ =>
    rw [← htype.eq_of_not_isContainer rfl]
    dsimp only
    split
    · exact .typed _
    · exact untyped_alike h

theorem Shape.ofSchema_alike (h : Json.Alike P schema schema') :
    (ofSchema schema).Alike P (ofSchema schema') := by
  have hreference := h.member?_rel "$ref"
  have hvalues := h.memberD "enum" rfl
  have hentries : (schema.memberD "enum").entries? = (schema'.memberD "enum").entries? := by
    have henum := h.member?_rel "enum"
    unfold Json.memberD
    cases hv : schema.member? "enum" <;> cases hv' : schema'.member? "enum" <;>
      rw [hv, hv'] at henum <;> cases henum
    next h => exact h.entries_eq
  unfold ofSchema
  cases htarget : schema.member? "$ref" <;> cases htarget' : schema'.member? "$ref" <;>
    rw [htarget, htarget'] at hreference <;> cases hreference
  · generalize schema.memberD "enum" = v at hvalues hentries ⊢
    generalize schema'.memberD "enum" = v' at hvalues hentries ⊢
    cases v with
    | null =>
      rw [← hvalues.eq_of_not_isContainer rfl]
      exact unlisted_alike h
    | arr items =>
      obtain ⟨items', rfl, -⟩ := hvalues.items
      exact .enumeration hentries
    | obj members =>
      obtain ⟨members', rfl, -⟩ := hvalues.members
      exact .enumeration hentries
    | _ =>
      rw [← hvalues.eq_of_not_isContainer rfl]
      exact .enumeration rfl
  · next h => exact .reference (h.alike rfl)

/-! ## Readings -/

namespace Reading

/-- Two readings have trees that are alike in every role. -/
structure Alike (P : Documentation → Prop) (r r' : Reading) : Prop where
  schema : ∀ path path', Coupled (Node.Alike P) (r.schema path) (r'.schema path')
  properties : ∀ required path path', Coupled (List.Forall₂ (Property.Alike P))
    (r.properties required path) (r'.properties required path')
  items : ∀ path path', Coupled (Items.Alike P) (r.items path) (r'.items path')
  branches : ∀ path path',
    Coupled (List.Forall₂ (Node.Alike P)) (r.branches path) (r'.branches path')

/-- The parts of two objects are alike as schemas, and in every role where they are no remarks. -/
structure PartsAlike (P : Documentation → Prop) (parts parts' : List (String × Reading)) :
    Prop where
  schemas : List.Forall₂ (fun p p' => p.1 = p'.1 ∧
    ∀ path path', Coupled (Node.Alike P) (p.2.schema path) (p'.2.schema path')) parts parts'
  roles : ∀ key, Json.isRemark key = false →
    Option.Rel (Alike P) (part parts key) (part parts' key)

theorem schemas_coupled {rs rs' : List Reading} (h : List.Forall₂ (Alike P) rs rs')
    (path path' : String) (i : Nat) :
    Coupled (List.Forall₂ (Node.Alike P)) (schemas path i rs) (schemas path' i rs') := by
  induction h generalizing i with
  | nil => exact coupled_ok .nil
  | cons hr _ ih =>
    exact (hr.schema _ _).bind fun _ _ hnode => (ih (i + 1)).bind fun _ _ hnodes =>
      coupled_ok (.cons hnode hnodes)

theorem table_coupled {parts parts' : List (String × Reading)}
    (h : List.Forall₂ (fun p p' => p.1 = p'.1 ∧
      ∀ path path', Coupled (Node.Alike P) (p.2.schema path) (p'.2.schema path')) parts parts')
    (required : List Json) (path path' : String) :
    Coupled (List.Forall₂ (Property.Alike P)) (table required path parts)
      (table required path' parts') := by
  induction h with
  | nil => exact coupled_ok .nil
  | @cons p p' _ _ hp _ ih =>
    obtain ⟨name, r⟩ := p
    obtain ⟨name', r'⟩ := p'
    obtain ⟨rfl : name = name', hr⟩ := hp
    exact (hr _ _).bind fun _ _ htype => ih.bind fun _ _ hproperties =>
      coupled_ok (.cons (.mk _ _ name _ htype) hproperties)

theorem unknown_alike (hP : P {}) (path path' : String) (declared declared' : Json) :
    Node.Alike P (.unknown ⟨path, {}⟩ declared) (.unknown ⟨path', {}⟩ declared') :=
  .unknown ⟨hP, hP⟩ _ _

theorem unknowns_alike (hP : P {}) (path path' : String) (n : Nat) :
    List.Forall₂ (Node.Alike P) (unknowns path n) (unknowns path' n) := by
  unfold unknowns
  rw [List.forall₂_map_left_iff, List.forall₂_map_right_iff]
  exact List.forall₂_same.mpr fun i _ => unknown_alike hP _ _ _ _

variable {schema schema' : Json} {parts parts' : List (String × Reading)} {info info' : Info}

/-- Objects that are alike require the same properties. -/
theorem requiredNames_coupled (h : Json.Alike P schema schema') :
    Coupled Eq (requiredNames schema) (requiredNames schema') := by
  have hgiven := h.memberD "required" rfl
  unfold requiredNames
  dsimp only
  rw [hgiven.truthy]
  split
  · refine hgiven.entries.bind fun names names' hnames => ?_
    intro a b ha hb
    split at ha
    · cases ha
    · next hplain =>
      obtain rfl := Except.ok.inj ha
      split at hb
      · cases hb
      · obtain rfl := Except.ok.inj hb
        rw [List.find?_eq_none] at hplain
        rw [← List.forall₂_eq_eq_eq]
        rw [List.forall₂_iff_zip] at hnames ⊢
        refine ⟨hnames.1, fun {v v'} hv => (hnames.2 hv).eq_of_not_isContainer ?_⟩
        simpa using hplain v (List.of_mem_zip hv).1
  · exact coupled_ok rfl

theorem typed_coupled (hschema : Json.Alike P schema schema') (hparts : PartsAlike P parts parts')
    (hinfo : info.Alike P info') (name : TypeName) :
    Coupled (Node.Alike P) (typed name info schema parts) (typed name info' schema' parts') := by
  cases name with
  | primitive p => exact coupled_ok (.primitive hinfo p)
  | object =>
    have hproperties := hparts.roles "properties" rfl
    refine (requiredNames_coupled hschema).bind fun required required' hrequired => ?_
    subst hrequired
    cases hp : part parts "properties" <;> cases hp' : part parts' "properties" <;>
      rw [hp, hp'] at hproperties <;> cases hproperties
    · exact coupled_ok (.record hinfo .nil required)
    · next hr =>
      exact (hr.properties required _ _).bind fun _ _ h => coupled_ok (.record hinfo h required)
  | array =>
    have hitems := hparts.roles "items" rfl
    unfold typed
    cases hp : part parts "items" <;> cases hp' : part parts' "items" <;>
      rw [hp, hp'] at hitems <;> cases hitems
    · exact coupled_ok (.openArray hinfo)
    · next hr =>
      refine (hr.items _ _).bind fun items items' h => ?_
      cases h with
      | unspecified => exact coupled_ok (.openArray hinfo)
      | each h => exact coupled_ok (.array hinfo h)
      | places h => exact coupled_ok (.tuple hinfo h)

theorem branchesUnder_coupled (hparts : PartsAlike P parts parts') {key : String}
    (hkey : Json.isRemark key = false) (path path' : String) :
    Coupled (List.Forall₂ (Node.Alike P)) (branchesUnder parts key path)
      (branchesUnder parts' key path') := by
  have hbranches := hparts.roles key hkey
  unfold branchesUnder
  cases hp : part parts key <;> cases hp' : part parts' key <;>
    rw [hp, hp'] at hbranches <;> cases hbranches
  · exact coupled_ok .nil
  · next hr => exact hr.branches _ _

theorem alternatives_coupled (hP : P {}) (hschema : Json.Alike P schema schema')
    (hparts : PartsAlike P parts parts') (path path' : String) (names : List TypeName) :
    Coupled (List.Forall₂ (Node.Alike P)) (alternatives schema parts path names)
      (alternatives schema' parts' path' names) := by
  induction names with
  | nil => exact coupled_ok .nil
  | cons name rest ih =>
    exact (typed_coupled hschema hparts ⟨hP, hP⟩ name).bind fun _ _ hnode =>
      ih.bind fun _ _ hnodes => coupled_ok (.cons hnode hnodes)

theorem node_coupled (hP : P {}) (hschema : Json.Alike P schema schema')
    (hparts : PartsAlike P parts parts') (hdoc : P (.ofSchema schema))
    (hdoc' : P (.ofSchema schema')) (path path' : String) :
    Coupled (Node.Alike P) (node schema parts path) (node schema' parts' path') := by
  have hinfo : Info.Alike P ⟨path, .ofSchema schema⟩ ⟨path', .ofSchema schema'⟩ := ⟨hdoc, hdoc'⟩
  have hshape := Shape.ofSchema_alike hschema
  unfold node
  dsimp only
  generalize Shape.ofSchema schema = shape at hshape ⊢
  generalize Shape.ofSchema schema' = shape' at hshape ⊢
  cases hshape with
  | reference h => exact coupled_ok (.reference hinfo h)
  | @enumeration values values' h =>
    have hentries : Coupled Eq values.entries values'.entries := by
      unfold Json.entries
      rw [h]
      split
      · exact coupled_ok rfl
      · exact coupled_error _ _
    refine hentries.bind fun vs vs' hvs => ?_
    subst hvs
    exact coupled_ok (.enumeration hinfo vs)
  | typed name => exact typed_coupled hschema hparts hinfo name
  | types declared declared' known =>
    match known with
    | [] => exact coupled_ok (.unknown hinfo _ _)
    | [name] => exact typed_coupled hschema hparts hinfo name
    | name :: name' :: names =>
      exact (alternatives_coupled hP hschema hparts path path' (name :: name' :: names)).bind
        fun _ _ h => coupled_ok (.union hinfo .types h)
  | choice c =>
    have hkey : Json.isRemark c.keyword = false := by cases c <;> rfl
    exact (branchesUnder_coupled hparts hkey path path').bind fun _ _ h =>
      coupled_ok (.union hinfo c h)
  | composition =>
    exact (branchesUnder_coupled hparts rfl path path').bind fun _ _ h =>
      coupled_ok (.intersection hinfo h)
  | record => exact typed_coupled hschema hparts hinfo .object
  | unknown declared declared' => exact coupled_ok (.unknown hinfo _ _)

theorem noTable_coupled (v v' : Json) :
    Coupled (List.Forall₂ (Property.Alike P)) (noTable v) (noTable v') := by
  unfold noTable
  split
  · exact coupled_error _ _
  · split
    · exact fun _ _ _ hb => nomatch hb
    · exact coupled_ok .nil

/-- Two texts are alike as schemas. -/
theorem text_coupled (hP : P {}) (s s' path path' : String) :
    Coupled (Node.Alike P) ((ofJson (.str s)).schema path) ((ofJson (.str s')).schema path') :=
  coupled_ok (unknown_alike hP _ _ _ _)

/-- The readings of items that are alike in pairs are alike in pairs, if those of each pair are. -/
theorem ofItems_alike {items items' : List Json} (hitems : List.Forall₂ (Json.Alike P) items items')
    (ih : ∀ v ∈ items, ∀ v', Json.Alike P v v' → Alike P (ofJson v) (ofJson v')) :
    List.Forall₂ (Alike P) (ofItems items) (ofItems items') := by
  rw [ofItems_eq_map, ofItems_eq_map, List.forall₂_map_left_iff, List.forall₂_map_right_iff]
  rw [List.forall₂_iff_zip] at hitems ⊢
  exact ⟨hitems.1, fun {a b} hab => ih a (List.of_mem_zip hab).1 b (hitems.2 hab)⟩

/-- The parts of members that are alike under their keys are alike. A remark may be two different
texts: these are alike as schemas, which is all that is asked of parts that have no role. -/
theorem ofMembers_alike (hP : P {}) {members members' : List (String × Json)}
    (hmembers : List.Forall₂ (fun m m' => m.1 = m'.1 ∧ Json.AlikeUnder P m.1 m.2 m'.2)
      members members')
    (ih : ∀ m ∈ members, ∀ v', Json.Alike P m.2 v' → Alike P (ofJson m.2) (ofJson v')) :
    PartsAlike P (ofMembers members) (ofMembers members') := by
  constructor
  · rw [ofMembers_eq_map, ofMembers_eq_map, List.forall₂_map_left_iff, List.forall₂_map_right_iff]
    have hzip := List.forall₂_iff_zip.mp hmembers
    rw [List.forall₂_iff_zip]
    refine ⟨hzip.1, fun {m m'} hm => ⟨(hzip.2 hm).1, fun path path' => ?_⟩⟩
    rcases (hzip.2 hm).2.alike_or_texts with halike | ⟨s, s', hs, hs'⟩
    · exact (ih m (List.of_mem_zip hm).1 m'.2 halike).schema path path'
    · rw [hs, hs']
      exact text_coupled hP s s' path path'
  · intro key hkey
    have hrel := Json.lookup_rel hmembers key
    rw [part_ofMembers, part_ofMembers]
    cases hv : members.lookup key <;> cases hv' : members'.lookup key <;>
      rw [hv, hv'] at hrel <;> cases hrel
    · exact .none
    · next halike => exact .some (ih (key, _) (Table.mem_of_lookup hv) _ (halike.alike hkey))

/-- The readings of values that are alike are alike. -/
theorem ofJson_alike (hP : P {}) {v v' : Json} (h : Json.Alike P v v') :
    Alike P (ofJson v) (ofJson v') := by
  -- In each case: the readings as a schema, as a table of properties, as items, and as branches.
  induction v generalizing v' with
  | null =>
    obtain rfl := h.eq_of_not_isContainer rfl
    refine ⟨fun path path' => ?_, fun _ path path' => ?_, fun path path' => ?_,
      fun path path' => ?_⟩
    · exact coupled_ok (unknown_alike hP _ _ _ _)
    · exact coupled_ok .nil
    · exact coupled_ok .unspecified
    · exact coupled_error _ _
  | str s =>
    obtain rfl := h.eq_of_not_isContainer rfl
    refine ⟨fun path path' => ?_, fun _ path path' => ?_, fun path path' => ?_,
      fun path path' => ?_⟩
    · exact coupled_ok (unknown_alike hP _ _ _ _)
    · exact noTable_coupled _ _
    · exact coupled_ok (.each (unknown_alike hP _ _ _ _))
    · exact coupled_ok (unknowns_alike hP _ _ _)
  | bool _ | int _ | float _ =>
    obtain rfl := h.eq_of_not_isContainer rfl
    refine ⟨fun path path' => ?_, fun _ path path' => ?_, fun path path' => ?_,
      fun path path' => ?_⟩
    · exact coupled_ok (unknown_alike hP _ _ _ _)
    · exact noTable_coupled _ _
    · exact coupled_ok (.each (unknown_alike hP _ _ _ _))
    · exact coupled_error _ _
  | arr items ih =>
    obtain ⟨items', rfl, hitems⟩ := h.items
    have hparts : List.Forall₂ (Alike P) (ofItems items) (ofItems items') :=
      ofItems_alike hitems fun v hv v' => ih v hv
    unfold ofJson
    refine ⟨fun path path' => ?_, fun _ path path' => ?_, fun path path' => ?_,
      fun path path' => ?_⟩
    · exact coupled_ok (unknown_alike hP _ _ _ _)
    · exact noTable_coupled _ _
    · exact (schemas_coupled hparts path path' 0).map fun _ _ => .places
    · exact schemas_coupled hparts path path' 0
  | obj members ih =>
    obtain ⟨members', rfl, hdoc, hdoc', hmembers⟩ := h.members
    have hparts : PartsAlike P (ofMembers members) (ofMembers members') :=
      ofMembers_alike hP hmembers fun m hm v' => ih m hm
    have hnode := node_coupled hP h hparts hdoc hdoc'
    unfold ofJson
    refine ⟨hnode, fun required path path' => ?_, fun path path' => ?_, fun path path' => ?_⟩
    · exact table_coupled hparts.schemas required path path'
    · exact (hnode path path').map fun _ _ => .each
    · rw [hmembers.length_eq]
      exact coupled_ok (unknowns_alike hP _ _ _)

end Reading

/-- Values that are alike are read into trees that are alike. -/
theorem Node.ofJson_coupled (hP : P {}) {v v' : Json} (h : Json.Alike P v v')
    (path path' : String) : Coupled (Node.Alike P) (Node.ofJson v path) (Node.ofJson v' path') :=
  (Reading.ofJson_alike hP h).schema path path'

end Schema

/-! ## Following references -/

/-- Values that are alike are the same text, if they are texts. -/
theorem Json.Alike.asText {v v' : Json} (h : v.Alike P v') : Coupled Eq v.asText v'.asText := by
  cases hv : v.isContainer with
  | false =>
    rw [h.eq_of_not_isContainer hv]
    exact coupled_refl _
  | true =>
    cases v <;> first | exact coupled_error _ _ | cases hv

namespace Expression

open Schema.Node (exists_of_isReference)

variable {document document' : Json}

theorem targetNode_coupled (hP : P {}) (hdocument : Json.Alike P document document')
    {target target' : Json} (h : Json.Alike P target target') :
    Coupled (Node.Alike P) (targetNode document target) (targetNode document' target') := by
  refine h.asText.bind fun reference _ hreference => ?_
  subst hreference
  exact (Reference.target_coupled hdocument reference).bind fun schema schema' hschema =>
    Node.ofJson_coupled hP hschema _ _

/-- One link of two chains: what follows it is alike if this holds with a smaller bound. -/
theorem follow_coupled_of_next (hP : P {}) (hdocument : Json.Alike P document document')
    {bound : Nat} (hnext : ∀ n, bound = n + 1 → ∀ seen node node', node.Alike P node' →
      Coupled (Node.Alike P) (follow document n seen node) (follow document' n seen node'))
    (seen : List String) {node node' : Node} (h : node.Alike P node') :
    Coupled (Node.Alike P) (follow document bound seen node)
      (follow document' bound seen node') := by
  cases href : node.isReference with
  | false =>
    have href' : node'.isReference = false := by
      cases h <;> first | rfl | cases href
    rw [follow_of_not_isReference href, follow_of_not_isReference href']
    exact coupled_ok h
  | true =>
    obtain ⟨info, target, rfl⟩ := exists_of_isReference href
    cases h with
    | @reference _ info' _ target' hinfo htarget =>
      rw [follow, follow, htarget.isContainer]
      split
      · exact coupled_error _ _
      · refine htarget.asText.bind fun r _ hr => ?_
        subst hr
        split
        · exact coupled_ok (.reference hinfo htarget)
        · cases bound with
          | zero => exact coupled_error _ _
          | succ n =>
            exact (targetNode_coupled hP hdocument htarget).bind fun next next' h =>
              hnext n rfl (r :: seen) next next' h

/-- Chains of references that start at nodes that are alike end at nodes that are alike. -/
theorem follow_coupled (hP : P {}) (hdocument : Json.Alike P document document') (bound : Nat)
    (seen : List String) {node node' : Node} (h : node.Alike P node') :
    Coupled (Node.Alike P) (follow document bound seen node)
      (follow document' bound seen node') := by
  induction bound generalizing seen node node' with
  | zero =>
    have hnone : ∀ n, 0 ≠ n + 1 := fun n => (Nat.succ_ne_zero n).symm
    exact follow_coupled_of_next hP hdocument (fun n hn => absurd hn (hnone n)) seen h
  | succ bound ih =>
    refine follow_coupled_of_next hP hdocument (fun n hn seen node node' h => ?_) seen h
    obtain rfl : bound = n := Nat.succ.inj hn
    exact ih seen h

/-- Nodes that are alike describe nodes that are alike. -/
theorem described_coupled (hP : P {}) (hdocument : Json.Alike P document document')
    {node node' : Node} (h : node.Alike P node') :
    Coupled (Node.Alike P) (described document node) (described document' node') := by
  have hbound : linkBound document = linkBound document' := by
    unfold linkBound
    rw [hdocument.references]
  rw [described_eq_follow, described_eq_follow, hbound]
  exact follow_coupled hP hdocument _ [] h

end Expression

end SchemaTypes

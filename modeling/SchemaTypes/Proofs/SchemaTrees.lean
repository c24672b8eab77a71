import SchemaTypes.Expression.Links
import SchemaTypes.Proofs.Renderings
import SchemaTypes.Table

/-!
# References in schema trees

The references of a schema tree come out of the value that was read: `Node.targets` lists them in
the order of the tree, and every text among them is the text of a `$ref` member of the value. The
value that a reference leads to is a part of the document, so its references are references of the
document.

Nothing of this is bounded: neither reading a schema nor resolving a reference ends for want of a
bound.
-/

namespace SchemaTypes

/-! ## References in a value -/

namespace Json

theorem mem_itemReferences {items : List Json} {r : String} :
    r ∈ itemReferences items ↔ ∃ v ∈ items, r ∈ v.references := by
  induction items with
  | nil => simp [itemReferences]
  | cons v rest ih => simp [itemReferences, ih]

theorem mem_memberReferences {members : List (String × Json)} {r : String} :
    r ∈ memberReferences members ↔
      ∃ m ∈ members, m = ("$ref", str r) ∨ r ∈ m.2.references := by
  induction members with
  | nil => simp [memberReferences]
  | cons m rest ih =>
    obtain ⟨key, v⟩ := m
    unfold memberReferences
    simp only [List.mem_append, ih, List.mem_cons, exists_eq_or_imp]
    refine or_congr_left (or_congr_left ?_)
    split
    · simp [eq_comm]
    · next h => simpa using h r

theorem references_subset_of_mem_items {items : List Json} {v : Json} (h : v ∈ items) :
    v.references ⊆ (arr items).references := by
  intro r hr
  rw [references, mem_itemReferences]
  exact ⟨v, h, hr⟩

theorem references_subset_of_mem_members {members : List (String × Json)} {m : String × Json}
    (h : m ∈ members) : m.2.references ⊆ (obj members).references := by
  intro r hr
  rw [references, mem_memberReferences]
  exact ⟨m, h, Or.inr hr⟩

/-- The text of a `$ref` member is a reference of the object. -/
theorem mem_references_of_mem_members {members : List (String × Json)} {r : String}
    (h : ("$ref", str r) ∈ members) : r ∈ (obj members).references := by
  rw [references, mem_memberReferences]
  exact ⟨_, h, Or.inl rfl⟩

end Json

/-! ## References in a tree -/

namespace Schema

mutual

/-- The values of the references in a tree, from left to right. -/
def Node.targets : Node → List Json
  | .reference _ target => [target]
  | .record _ properties _ => propertyTargets properties
  | .array _ item => item.targets
  | .tuple _ nodes | .union _ _ nodes | .intersection _ nodes => nodeTargets nodes
  | .enumeration _ _ | .primitive _ _ | .openArray _ | .unknown _ _ => []

/-- The values of the references in the types of some properties. -/
def propertyTargets : List Property → List Json
  | [] => []
  | .mk _ _ _ type :: rest => type.targets ++ propertyTargets rest

/-- The values of the references in some trees. -/
def nodeTargets : List Node → List Json
  | [] => []
  | node :: rest => node.targets ++ nodeTargets rest

end

theorem propertyTargets_eq_flatMap (properties : List Property) :
    propertyTargets properties = properties.flatMap fun p => p.type.targets := by
  induction properties with
  | nil => rw [propertyTargets, List.flatMap_nil]
  | cons p rest ih =>
    obtain ⟨path, name, required, type⟩ := p
    rw [propertyTargets, List.flatMap_cons, ih]
    rfl

/-- The references in the type of a property are references of the record. -/
theorem mem_targets_record {info : Info} {properties : List Property} {required : List Json}
    {p : Property} {target : Json} (hp : p ∈ properties) (h : target ∈ p.type.targets) :
    target ∈ (Node.record info properties required).targets := by
  rw [Node.targets, propertyTargets_eq_flatMap]
  exact List.mem_flatMap.mpr ⟨p, hp, h⟩

theorem nodeTargets_eq_flatMap (nodes : List Node) :
    nodeTargets nodes = nodes.flatMap Node.targets := by
  induction nodes with
  | nil => rw [nodeTargets, List.flatMap_nil]
  | cons node rest ih => rw [nodeTargets, List.flatMap_cons, ih]

/-- The texts among the references of a tree are known. -/
def Node.RefersTo (known : List String) (node : Node) : Prop :=
  ∀ r, .str r ∈ node.targets → r ∈ known

variable {known : List String}

theorem refersTo_record {info : Info} {properties : List Property} {required : List Json}
    (h : ∀ p ∈ properties, p.type.RefersTo known) :
    (Node.record info properties required).RefersTo known := by
  intro r hr
  rw [Node.targets, propertyTargets_eq_flatMap] at hr
  obtain ⟨p, hp, hr⟩ := List.mem_flatMap.mp hr
  exact h p hp r hr

theorem mem_nodeTargets {nodes : List Node} {target : Json} :
    target ∈ nodeTargets nodes ↔ ∃ node ∈ nodes, target ∈ node.targets := by
  rw [nodeTargets_eq_flatMap, List.mem_flatMap]

/-! ## Reading -/

/-- An object is read as a reference exactly if it has a `$ref`. -/
theorem Shape.ofSchema_eq_reference {schema target : Json} :
    Shape.ofSchema schema = .reference target ↔ schema.member? "$ref" = some target := by
  unfold Shape.ofSchema
  cases schema.member? "$ref" with
  | some target' => simp
  | none => grind [Shape.unlisted, Shape.untyped]

namespace Reading

/-- In every role, a reading gives trees that refer to known references only, and it never ends for
want of a bound. -/
structure Grounded (known : List String) (r : Reading) : Prop where
  schema : ∀ path, Settles (r.schema path) (Node.RefersTo known)
  properties : ∀ required path,
    Settles (r.properties required path) fun ps => ∀ p ∈ ps, p.type.RefersTo known
  items : ∀ path, Settles (r.items path) fun
    | .unspecified => True
    | .each item => item.RefersTo known
    | .places items => ∀ item ∈ items, item.RefersTo known
  branches : ∀ path, Settles (r.branches path) fun ns => ∀ n ∈ ns, n.RefersTo known

theorem refersTo_unknown (info : Info) (declared : Json) :
    (Node.unknown info declared).RefersTo known := by
  simp [Node.RefersTo, Node.targets]

theorem schemas_settles {rs : List Reading} (h : ∀ r ∈ rs, r.Grounded known) (path : String)
    (i : Nat) : Settles (schemas path i rs) fun ns => ∀ n ∈ ns, n.RefersTo known := by
  induction rs generalizing i with
  | nil => exact settles_ok (by simp)
  | cons r rest ih =>
    rw [schemas]
    refine ((h r (by simp)).schema _).bind fun node hnode => ?_
    refine (ih (fun r hr => h r (by simp [hr])) (i + 1)).bind fun nodes hnodes => ?_
    exact settles_ok (List.forall_mem_cons.mpr ⟨hnode, hnodes⟩)

theorem table_settles {parts : List (String × Reading)} (h : ∀ p ∈ parts, p.2.Grounded known)
    (required : List Json) (path : String) :
    Settles (table required path parts) fun ps => ∀ p ∈ ps, p.type.RefersTo known := by
  induction parts with
  | nil => exact settles_ok (by simp)
  | cons m rest ih =>
    obtain ⟨name, r⟩ := m
    rw [table]
    refine ((h (name, r) (by simp)).schema _).bind fun type htype => ?_
    refine (ih fun p hp => h p (by simp [hp])).bind fun ps hps => ?_
    exact settles_ok (List.forall_mem_cons.mpr ⟨htype, hps⟩)

theorem entries_settles (v : Json) : Settles v.entries fun _ => True := by
  unfold Json.entries
  split
  · exact settles_ok trivial
  · exact settles_error (by simp)

theorem requiredNames_settles (schema : Json) : Settles (requiredNames schema) fun _ => True := by
  unfold requiredNames
  dsimp only
  split
  · refine (entries_settles _).bind fun names _ => ?_
    split
    · exact settles_error (by simp)
    · exact settles_ok trivial
  · exact settles_ok trivial

variable {parts : List (String × Reading)}

theorem typed_settles (h : ∀ p ∈ parts, p.2.Grounded known) (name : TypeName) (info : Info)
    (schema : Json) : Settles (typed name info schema parts) (Node.RefersTo known) := by
  cases name with
  | primitive p => exact settles_ok (by simp [Node.RefersTo, Node.targets])
  | object =>
    rw [typed]
    refine (requiredNames_settles schema).bind fun required _ => ?_
    split
    · next r hr =>
      refine ((h _ (Table.mem_of_lookup hr)).properties _ _).bind fun ps hps => ?_
      exact settles_ok (refersTo_record hps)
    · exact settles_ok (refersTo_record (by simp))
  | array =>
    rw [typed]
    split
    · exact settles_ok (by simp [Node.RefersTo, Node.targets])
    · next r hr =>
      refine ((h _ (Table.mem_of_lookup hr)).items _).bind fun items hitems => ?_
      cases items with
      | unspecified => exact settles_ok (by simp [Node.RefersTo, Node.targets])
      | each item => exact settles_ok (by simpa [Node.RefersTo, Node.targets] using hitems)
      | places items =>
        refine settles_ok fun r hr => ?_
        obtain ⟨item, hitem, hr⟩ := mem_nodeTargets.mp hr
        exact hitems item hitem r hr

theorem branchesUnder_settles (h : ∀ p ∈ parts, p.2.Grounded known) (key path : String) :
    Settles (branchesUnder parts key path) fun ns => ∀ n ∈ ns, n.RefersTo known := by
  unfold branchesUnder
  split
  · next r hr => exact (h _ (Table.mem_of_lookup hr)).branches _
  · exact settles_ok (by simp)

theorem alternatives_settles (h : ∀ p ∈ parts, p.2.Grounded known) (schema : Json) (path : String)
    (names : List TypeName) :
    Settles (alternatives schema parts path names) fun ns => ∀ n ∈ ns, n.RefersTo known := by
  induction names with
  | nil => exact settles_ok (by simp)
  | cons name rest ih =>
    rw [alternatives]
    refine (typed_settles h name _ schema).bind fun node hnode => ?_
    refine ih.bind fun nodes hnodes => ?_
    exact settles_ok (List.forall_mem_cons.mpr ⟨hnode, hnodes⟩)

/-- The node of an object refers to nothing but its own `$ref` and what its parts refer to. -/
theorem node_settles (h : ∀ p ∈ parts, p.2.Grounded known) {schema : Json}
    (hown : ∀ r, schema.member? "$ref" = some (.str r) → r ∈ known) (path : String) :
    Settles (node schema parts path) (Node.RefersTo known) := by
  have hall : ∀ {ns : List Node}, (∀ n ∈ ns, n.RefersTo known) →
      ∀ r, .str r ∈ nodeTargets ns → r ∈ known := by
    intro ns hns r hr
    obtain ⟨n, hn, hr⟩ := mem_nodeTargets.mp hr
    exact hns n hn r hr
  unfold node
  cases hshape : Shape.ofSchema schema with
  | reference target =>
    refine settles_ok fun r hr => hown r ?_
    obtain rfl : target = .str r := by simpa [Node.targets, eq_comm] using hr
    exact Shape.ofSchema_eq_reference.mp hshape
  | enumeration values =>
    exact (entries_settles values).bind fun vs _ =>
      settles_ok (by simp [Node.RefersTo, Node.targets])
  | typed name => exact typed_settles h name _ schema
  | types declared names =>
    match names with
    | [] => exact settles_ok (refersTo_unknown _ _)
    | [name] => exact typed_settles h name _ schema
    | name :: name' :: rest =>
      exact (alternatives_settles h schema path _).bind fun ns hns => settles_ok (hall hns)
  | choice c =>
    exact (branchesUnder_settles h _ path).bind fun ns hns => settles_ok (hall hns)
  | composition =>
    exact (branchesUnder_settles h _ path).bind fun ns hns => settles_ok (hall hns)
  | record => exact typed_settles h _ _ schema
  | unknown declared => exact settles_ok (refersTo_unknown _ _)

theorem noTable_settles (v : Json) :
    Settles (noTable v) fun ps => ∀ p ∈ ps, p.type.RefersTo known := by
  unfold noTable
  split
  · exact settles_error (by simp)
  · exact settles_ok (by simp)

theorem refersTo_of_mem_unknowns {path : String} {n : Nat} :
    ∀ node ∈ unknowns path n, node.RefersTo known := by
  intro node hnode
  obtain ⟨i, -, rfl⟩ := List.mem_map.mp hnode
  exact refersTo_unknown _ _

theorem Grounded.mono {r : Reading} {known known' : List String} (h : r.Grounded known)
    (hsub : known ⊆ known') : r.Grounded known' := by
  have hnode : ∀ {n : Node}, n.RefersTo known → n.RefersTo known' :=
    fun hn r hr => hsub (hn r hr)
  refine ⟨fun path => ?_, fun required path => ?_, fun path => ?_, fun path => ?_⟩
  · exact (h.schema path).mono fun _ => hnode
  · exact (h.properties required path).mono fun _ hps p hp => hnode (hps p hp)
  · refine (h.items path).mono fun items hitems => ?_
    cases items with
    | unspecified => exact trivial
    | each item => exact hnode hitems
    | places items => exact fun n hn => hnode (hitems n hn)
  · exact (h.branches path).mono fun _ hns n hn => hnode (hns n hn)

/-- The reading of a value refers to nothing but the references of the value. -/
theorem ofJson_grounded (v : Json) : (ofJson v).Grounded v.references := by
  -- In each case: the readings as a schema, as a table of properties, as items, and as branches.
  induction v with
  | null | bool _ | int _ | float _ =>
    unfold ofJson
    refine ⟨fun path => ?_, fun required path => ?_, fun path => ?_, fun path => ?_⟩
    · exact settles_ok (refersTo_unknown _ _)
    · first | exact settles_ok (by simp) | exact noTable_settles _
    · first | exact settles_ok trivial | exact settles_ok (refersTo_unknown _ _)
    · exact settles_error (by simp)
  | str s =>
    unfold ofJson
    refine ⟨fun path => ?_, fun required path => ?_, fun path => ?_, fun path => ?_⟩
    · exact settles_ok (refersTo_unknown _ _)
    · exact noTable_settles _
    · exact settles_ok (refersTo_unknown _ _)
    · exact settles_ok refersTo_of_mem_unknowns
  | arr items ih =>
    have hparts : ∀ r ∈ ofItems items, r.Grounded (Json.arr items).references := by
      intro r hr
      rw [ofItems_eq_map] at hr
      obtain ⟨v, hv, rfl⟩ := List.mem_map.mp hr
      exact (ih v hv).mono (Json.references_subset_of_mem_items hv)
    unfold ofJson
    refine ⟨fun path => ?_, fun required path => ?_, fun path => ?_, fun path => ?_⟩
    · exact settles_ok (refersTo_unknown _ _)
    · exact noTable_settles _
    · exact (schemas_settles hparts path 0).map fun _ hns => hns
    · exact schemas_settles hparts path 0
  | obj members ih =>
    have hparts : ∀ p ∈ ofMembers members, p.2.Grounded (Json.obj members).references := by
      intro p hp
      rw [ofMembers_eq_map] at hp
      obtain ⟨m, hm, rfl⟩ := List.mem_map.mp hp
      exact (ih m hm).mono (Json.references_subset_of_mem_members hm)
    have hown : ∀ r, (Json.obj members).member? "$ref" = some (.str r) →
        r ∈ (Json.obj members).references :=
      fun r hr => Json.mem_references_of_mem_members (Table.mem_of_lookup hr)
    have hnode := node_settles hparts hown
    unfold ofJson
    refine ⟨fun path => ?_, fun required path => ?_, fun path => ?_, fun path => ?_⟩
    · exact hnode path
    · exact table_settles hparts required path
    · exact (hnode path).map fun _ hn => hn
    · exact settles_ok refersTo_of_mem_unknowns

end Reading

/-- A schema tree refers to nothing but the references of the value that was read. -/
theorem Node.ofJson_settles (v : Json) (path : String) :
    Settles (Node.ofJson v path) (Node.RefersTo v.references) :=
  (Reading.ofJson_grounded v).schema path

/-- A schema that counts as false is not recognised. -/
theorem exists_unknown_of_not_truthy {schema : Json} (h : schema.truthy = false)
    (path : String) :
    ∃ info declared, Node.ofJson schema path = .ok (.unknown info declared) := by
  cases schema with
  | obj members =>
    obtain rfl : members = [] := by simpa [Json.truthy] using h
    exact ⟨_, _, rfl⟩
  | _ => exact ⟨_, _, rfl⟩

theorem isRecord_settles (schema : Json) : Settles (isRecord schema) fun _ => True := by
  unfold isRecord
  split
  · exact (Node.ofJson_settles schema "#").map fun _ _ => trivial
  · exact settles_ok trivial

end Schema

/-! ## Targets of references -/

namespace Pointer

/-- The references in the value at a place, if there is one. -/
def Place.references : Place → List String
  | .value v => v.references
  | .pastEnd => []

theorem references_subset_of_step {token : String} {place next : Place}
    (h : step token place = .ok next) : next.references ⊆ place.references := by
  unfold step at h
  split at h
  · split at h
    · next v hv =>
      cases h
      exact Json.references_subset_of_mem_members (Table.mem_of_lookup hv)
    · cases h
  · cases h
  · split at h
    · cases h
      exact List.nil_subset _
    · split at h
      · cases h
      · split at h
        · next v hv =>
          cases h
          exact Json.references_subset_of_mem_items (List.mem_of_getElem? hv)
        · cases h
  · cases h

theorem references_subset_of_walk {tokens : List String} {place last : Place}
    (h : walk tokens place = .ok last) : last.references ⊆ place.references := by
  induction tokens generalizing place with
  | nil => cases h; exact List.Subset.refl _
  | cons token rest ih =>
    obtain ⟨next, hnext, hrest⟩ := bind_eq_ok.mp h
    exact List.Subset.trans (ih hrest) (references_subset_of_step hnext)

theorem references_subset_of_resolve {document : Json} {pointer : String} {place : Place}
    (h : resolve document pointer = .ok place) : place.references ⊆ document.references := by
  unfold resolve at h
  split at h
  · cases h
  · split at h
    · exact references_subset_of_walk h
    · cases h

end Pointer

/-- The target of a reference is a part of the document, and looking for it needs no bound. -/
theorem Reference.target_settles (document : Json) (reference : String) :
    Settles (Reference.target document reference) fun v =>
      v.references ⊆ document.references := by
  unfold Reference.target
  split
  · exact settles_error (by simp)
  · split
    · exact settles_error (by simp)
    · next h => exact settles_ok (Pointer.references_subset_of_resolve h)
    · exact settles_error (by simp)

theorem Json.asText_settles (v : Json) : Settles v.asText fun r => v = .str r := by
  cases v <;> first | exact settles_ok rfl | exact settles_error (by simp)

theorem Reference.targetOf_settles (document reference : Json) :
    Settles (Reference.targetOf document reference) fun v =>
      v.references ⊆ document.references :=
  (Json.asText_settles reference).bind fun r _ => Reference.target_settles document r

/-- The tree of a target refers to nothing but the references of the document. -/
theorem Expression.targetNode_settles (document target : Json) :
    Settles (Expression.targetNode document target)
      (Schema.Node.RefersTo document.references) := by
  refine (Json.asText_settles target).bind fun reference _ => ?_
  refine (Reference.target_settles document reference).bind fun schema hschema => ?_
  exact (Schema.Node.ofJson_settles schema reference).mono fun node hnode r hr =>
    hschema (hnode r hr)

end SchemaTypes

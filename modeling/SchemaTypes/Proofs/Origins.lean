import SchemaTypes.Proofs.Paths
import SchemaTypes.Proofs.Precedence
import SchemaTypes.Table

/-!
# Origins of nodes

Every node of a schema tree comes out of some part of the schema. `Node.ComesFrom` says of which
one, along the rules by which a schema is read: a property comes from the entry of the table in the
same place, a branch of a choice from the entry of the list in the same place, and so on.

The path of a node is put together while the schema is read, and nothing is escaped in it. It leads
back to where the node comes from as long as no name on the way has a character that means something
in a reference, and no object is read more than once, for a list of types.
-/

namespace SchemaTypes

/-! ## Objects without repeated keys -/

namespace Json

mutual

/-- Whether no object inside a value has two members of one key. -/
def distinctKeys : Json → Bool
  | arr items => itemsDistinctKeys items
  | obj members => decide (Table.keys members).Nodup && membersDistinctKeys members
  | _ => true

/-- Whether no object inside some values has two members of one key. -/
def itemsDistinctKeys : List Json → Bool
  | [] => true
  | v :: rest => v.distinctKeys && itemsDistinctKeys rest

/-- Whether no object inside the values of some members has two members of one key. -/
def membersDistinctKeys : List (String × Json) → Bool
  | [] => true
  | (_, v) :: rest => v.distinctKeys && membersDistinctKeys rest

end

theorem distinctKeys_arr {items : List Json} :
    (arr items).distinctKeys = true ↔ ∀ v ∈ items, v.distinctKeys = true := by
  rw [distinctKeys]
  induction items with
  | nil => simp [itemsDistinctKeys]
  | cons v rest ih => simp [itemsDistinctKeys, ih]

theorem distinctKeys_obj {members : List (String × Json)} :
    (obj members).distinctKeys = true ↔
      (Table.keys members).Nodup ∧ ∀ m ∈ members, m.2.distinctKeys = true := by
  have hmembers : membersDistinctKeys members = true ↔ ∀ m ∈ members, m.2.distinctKeys = true := by
    induction members with
    | nil => simp [membersDistinctKeys]
    | cons m rest ih => simp [membersDistinctKeys, ih]
  rw [distinctKeys, Bool.and_eq_true, decide_eq_true_iff, hmembers]

theorem distinctKeys_of_child? {v w : Json} {token : Pointer.Token} (h : v.distinctKeys = true)
    (hw : Pointer.child? v token = some w) : w.distinctKeys = true := by
  cases v <;> cases token <;> simp only [Pointer.child?, reduceCtorEq] at hw
  · exact distinctKeys_arr.mp h w (List.mem_of_getElem? hw)
  · exact (distinctKeys_obj.mp h).2 _ (Table.mem_of_lookup hw)

theorem distinctKeys_of_descend? {path : List Pointer.Token} {v w : Json}
    (h : v.distinctKeys = true) (hw : Pointer.descend? path v = some w) :
    w.distinctKeys = true := by
  induction path generalizing v with
  | nil =>
    obtain rfl := Option.some.inj hw
    exact h
  | cons token path ih =>
    obtain ⟨u, hu, hw⟩ := Option.bind_eq_some_iff.mp hw
    exact ih (distinctKeys_of_child? h hu) hw

/-- The entries of other values than lists are texts. -/
theorem eq_arr_of_entries? {v w : Json} {entries : List Json} (hentries : v.entries? = some entries)
    (hw : w ∈ entries) (hkind : w.kind = .obj) : v = arr entries := by
  cases v with
  | arr items =>
    obtain rfl := Option.some.inj hentries
    rfl
  | str s =>
    obtain rfl := Option.some.inj hentries
    obtain ⟨c, -, rfl⟩ := List.mem_map.mp hw
    cases hkind
  | obj members =>
    obtain rfl := Option.some.inj hentries
    obtain ⟨m, -, rfl⟩ := List.mem_map.mp hw
    cases hkind
  | _ => cases hentries

end Json

/-! ## References that are written without escapes -/

namespace Pointer

/-- Going one step further leads to what is there. -/
theorem descend?_concat (path : List Token) (token : Token) (v : Json) :
    descend? (path ++ [token]) v = descend? path v >>= fun w => child? w token := by
  induction path generalizing v with
  | nil =>
    change child? v token >>= descend? [] = child? v token
    cases child? v token <;> rfl
  | cons first path ih =>
    change (child? v first >>= descend? (path ++ [token])) =
      (child? v first >>= descend? path) >>= fun w => child? w token
    cases child? v first with
    | none => rfl
    | some w => exact ih w

theorem descend?_member {v w : Json} {key : String} (h : v.member? key = some w) :
    descend? [.key key] v = some w := by
  cases v with
  | obj members =>
    change members.lookup key >>= some = some w
    rw [show members.lookup key = some w from h]
    rfl
  | _ => cases h

theorem descend?_below_member {v u w : Json} {key : String} {token : Token}
    (hu : v.member? key = some u) (hw : child? u token = some w) :
    descend? [.key key, token] v = some w := by
  have hconcat := descend?_concat [.key key] token v
  rw [descend?_member hu] at hconcat
  exact hconcat.trans hw

end Pointer

namespace Reference

open Pointer (Token child? descend? descend?_concat escapeChar_of_ne)

/-- A text stands for itself in a reference. -/
def Plain (text : String) : Prop :=
  '/' ∉ text.toList ∧ '~' ∉ text.toList ∧ '%' ∉ text.toList

instance : DecidablePred Plain :=
  fun text => inferInstanceAs (Decidable ('/' ∉ text.toList ∧ '~' ∉ text.toList ∧ _))

theorem plain_repr (i : Nat) : Plain i.repr := by
  have hdigit : ∀ c ∈ i.repr.toList, c.isDigit = true := by
    rw [Nat.toList_repr]
    exact fun c hc => Nat.isDigit_of_mem_toDigits (by decide) (by decide) hc
  exact ⟨fun h => absurd (hdigit _ h) (by decide), fun h => absurd (hdigit _ h) (by decide),
    fun h => absurd (hdigit _ h) (by decide)⟩

theorem encodesStep_of_plain {token : Token} (h : Plain token.text) :
    EncodesStep token token.text.toList := by
  obtain ⟨hslash, htilde, hpercent⟩ := h
  have hescape : token.text.toList.flatMap Pointer.escapeChar = token.text.toList := by
    calc token.text.toList.flatMap Pointer.escapeChar
        = token.text.toList.flatMap fun c => [c] :=
          List.flatMap_congr fun c hc =>
            escapeChar_of_ne (fun h => htilde (h ▸ hc)) fun h => hslash (h ▸ hc)
      _ = token.text.toList := List.flatMap_singleton' _
  unfold EncodesStep
  rw [hescape]
  exact Text.Encodes.refl hpercent

/-- A path that goes one step further is spelled with one more token behind a slash. -/
theorem Spells.concat {reference : String} {path : List Token} (h : Spells reference path)
    {token : Token} (hplain : Plain token.text) :
    Spells (reference ++ "/" ++ token.text) (path ++ [token]) := by
  obtain ⟨segments, hreference, hsegments⟩ := h
  refine ⟨segments ++ [token.text.toList], ?_, ?_⟩
  · rw [String.toList_append, String.toList_append, hreference, List.flatMap_append,
      List.flatMap_singleton, List.append_assoc]
    rfl
  · exact List.rel_append hsegments (.cons (encodesStep_of_plain hplain) .nil)

/-- A reference with some steps more, written as they are. -/
def extend (reference : String) : List Token → String
  | [] => reference
  | token :: path => extend (reference ++ "/" ++ token.text) path

/-- A reference spells a path in a document that ends at a value. -/
def ArrivesAt (document : Json) (reference : String) (v : Json) : Prop :=
  ∃ path, descend? path document = some v ∧ Spells reference path

theorem arrivesAt_root (document : Json) : ArrivesAt document "#" document :=
  ⟨[], rfl, [], rfl, .nil⟩

section Arrivals

variable {document v w : Json} {reference : String}

theorem ArrivesAt.extend (h : ArrivesAt document reference v) {path : List Token}
    (hw : descend? path v = some w) (hplain : ∀ token ∈ path, Plain token.text) :
    ArrivesAt document (extend reference path) w := by
  induction path generalizing reference v with
  | nil =>
    obtain rfl := Option.some.inj hw
    exact h
  | cons token path ih =>
    obtain ⟨u, hu, hw⟩ := Option.bind_eq_some_iff.mp hw
    obtain ⟨first, hplace, hspells⟩ := h
    have hnext : ArrivesAt document (reference ++ "/" ++ token.text) u := by
      refine ⟨first ++ [token], ?_, hspells.concat (hplain token List.mem_cons_self)⟩
      rw [descend?_concat, hplace]
      exact hu
    exact ih hnext hw fun t ht => hplain t (List.mem_cons_of_mem _ ht)

theorem ArrivesAt.distinctKeys (h : ArrivesAt document reference v)
    (hkeys : document.distinctKeys = true) : v.distinctKeys = true := by
  obtain ⟨path, hplace, -⟩ := h
  exact Json.distinctKeys_of_descend? hkeys hplace

theorem ArrivesAt.target (h : ArrivesAt document reference v) (hkind : v.kind = .obj) :
    Reference.target document reference = .ok v := by
  obtain ⟨path, hplace, segments, hreference, hsegments⟩ := h
  have hdecoded := Text.percentDecodeList_of_encodes (encodes_writtenPath hsegments)
  rw [target_of_decoded hplace hreference hdecoded]
  cases v with
  | obj members => rfl
  | _ => cases hkind

end Arrivals

end Reference

namespace Schema

open Pointer (Token descend?_below_member descend?_member)
open Reference (ArrivesAt Plain extend plain_repr)

/-! ## What is read into the nodes below a node -/

namespace Reading

/-- The nodes are read from the values, one after the other, under the paths `path/0`, `path/1` and
so on. -/
def ReadInOrder (path : String) (values : List Json) (nodes : List Node) : Prop :=
  ∀ (i : Nat) (node : Node), nodes[i]? = some node →
    ∃ v, values[i]? = some v ∧ Node.ofJson v (path ++ "/" ++ toString i) = .ok node

theorem schemas_eq_ok {values : List Json} {nodes : List Node} {path : String} {start : Nat}
    (h : schemas path start (ofItems values) = .ok nodes) (i : Nat) (node : Node)
    (hnode : nodes[i]? = some node) :
    ∃ v, values[i]? = some v ∧ Node.ofJson v (path ++ "/" ++ toString (start + i)) = .ok node := by
  induction values generalizing nodes start i with
  | nil =>
    rw [ofItems, schemas] at h
    cases h
    cases hnode
  | cons v rest ih =>
    rw [ofItems, schemas] at h
    obtain ⟨first, hfirst, h⟩ := bind_eq_ok.mp h
    obtain ⟨others, hothers, h⟩ := bind_eq_ok.mp h
    cases h
    cases i with
    | zero =>
      obtain rfl := Option.some.inj hnode
      exact ⟨v, rfl, hfirst⟩
    | succ i =>
      obtain ⟨w, hw, hread⟩ := ih hothers i hnode
      refine ⟨w, hw, ?_⟩
      rwa [Nat.add_right_comm, Nat.add_assoc] at hread

theorem readInOrder_of_schemas {values : List Json} {nodes : List Node} {path : String}
    (h : schemas path 0 (ofItems values) = .ok nodes) : ReadInOrder path values nodes := by
  intro i node hnode
  obtain ⟨v, hv, hread⟩ := schemas_eq_ok h i node hnode
  rw [Nat.zero_add] at hread
  exact ⟨v, hv, hread⟩

/-- The property is read from the member of a table of properties, which stands at the path. -/
structure ReadFrom (path : String) (p : Property) (m : String × Json) : Prop where
  name : p.name = m.1
  path : p.path = path ++ "/" ++ m.1
  type : Node.ofJson m.2 p.path = .ok p.type

theorem table_eq_ok {members : List (String × Json)} {properties : List Property}
    {required : List Json} {path : String}
    (h : table required path (ofMembers members) = .ok properties) (i : Nat) (p : Property)
    (hp : properties[i]? = some p) : ∃ m, members[i]? = some m ∧ ReadFrom path p m := by
  induction members generalizing properties i with
  | nil =>
    rw [ofMembers, table] at h
    cases h
    cases hp
  | cons m rest ih =>
    obtain ⟨name, v⟩ := m
    rw [ofMembers, table] at h
    obtain ⟨type, htype, h⟩ := bind_eq_ok.mp h
    obtain ⟨others, hothers, h⟩ := bind_eq_ok.mp h
    cases h
    cases i with
    | zero =>
      obtain rfl := Option.some.inj hp
      exact ⟨(name, v), rfl, rfl, rfl, htype⟩
    | succ i => exact ih hothers i hp

/-- Only an object is read as a table with properties. -/
theorem properties_eq_ok {v : Json} {properties : List Property} {required : List Json}
    {path : String} (h : (ofJson v).properties required path = .ok properties) (i : Nat)
    (p : Property) (hp : properties[i]? = some p) :
    ∃ members m, v = .obj members ∧ members[i]? = some m ∧ ReadFrom path p m := by
  have hempty : ∀ w, noTable w ≠ .ok properties := by
    intro w hw
    unfold noTable at hw
    split at hw
    · cases hw
    · cases hw
      cases hp
  cases v with
  | obj members =>
    unfold ofJson at h
    obtain ⟨m, hm, hread⟩ := table_eq_ok h i p hp
    exact ⟨members, m, rfl, hm, hread⟩
  | null =>
    unfold ofJson at h
    cases h
    cases hp
  | bool _ | int _ | float _ | str _ | arr _ =>
    unfold ofJson at h
    exact absurd h (hempty _)

theorem items_eq_each {v : Json} {item : Node} {path : String}
    (h : (ofJson v).items path = .ok (.each item)) : Node.ofJson v path = .ok item := by
  cases v with
  | obj members =>
    unfold ofJson at h
    obtain ⟨node, hnode, h⟩ := map_eq_ok.mp h
    cases h
    rwa [Node.ofJson, ofJson]
  | arr items =>
    unfold ofJson at h
    obtain ⟨nodes, -, h⟩ := map_eq_ok.mp h
    cases h
  | null =>
    unfold ofJson at h
    cases h
  | bool _ | int _ | float _ | str _ =>
    unfold ofJson at h
    cases h
    rfl

theorem items_eq_places {v : Json} {nodes : List Node} {path : String}
    (h : (ofJson v).items path = .ok (.places nodes)) :
    ∃ values, v = .arr values ∧ ReadInOrder path values nodes := by
  cases v with
  | arr values =>
    unfold ofJson at h
    obtain ⟨nodes', hnodes, h⟩ := map_eq_ok.mp h
    cases h
    exact ⟨values, rfl, readInOrder_of_schemas hnodes⟩
  | obj members =>
    unfold ofJson at h
    obtain ⟨node, -, h⟩ := map_eq_ok.mp h
    cases h
  | _ =>
    unfold ofJson at h
    cases h

/-- Texts that stand in the place of schemas are not recognised. -/
theorem readInOrder_unknowns (path : String) (texts : List String) :
    ReadInOrder path (texts.map .str) (unknowns path texts.length) := by
  intro i node hnode
  rw [unknowns, List.getElem?_map] at hnode
  obtain ⟨j, hj, rfl⟩ := Option.map_eq_some_iff.mp hnode
  obtain ⟨hi, hj⟩ := List.getElem?_eq_some_iff.mp hj
  rw [List.getElem_range] at hj
  subst hj
  rw [List.length_range] at hi
  refine ⟨.str texts[i], ?_, rfl⟩
  rw [List.getElem?_map, List.getElem?_eq_getElem hi]
  rfl

theorem branches_eq_ok {v : Json} {nodes : List Node} {path : String}
    (h : (ofJson v).branches path = .ok nodes) :
    ∃ values, v.entries? = some values ∧ ReadInOrder path values nodes := by
  cases v with
  | arr values =>
    unfold ofJson at h
    exact ⟨values, rfl, readInOrder_of_schemas h⟩
  | str s =>
    unfold ofJson at h
    cases h
    have hread := readInOrder_unknowns path (s.toList.map String.singleton)
    rw [List.map_map, List.length_map] at hread
    exact ⟨_, rfl, hread⟩
  | obj members =>
    unfold ofJson at h
    cases h
    have hread := readInOrder_unknowns path (members.map Prod.fst)
    rw [List.map_map, List.length_map] at hread
    exact ⟨_, rfl, hread⟩
  | _ =>
    unfold ofJson at h
    cases h

/-- The nodes are read from the entries of a member, one after the other. -/
def ReadUnder (v : Json) (key path : String) (nodes : List Node) : Prop :=
  ∀ (i : Nat) (node : Node), nodes[i]? = some node →
    ∃ u values w, v.member? key = some u ∧ u.entries? = some values ∧ values[i]? = some w ∧
      Node.ofJson w (path ++ "/" ++ key ++ "/" ++ toString i) = .ok node

/-- The entry in the same place is what a node is read from. -/
theorem ReadUnder.ofJson_eq_ok {v u w : Json} {key path : String} {values : List Json}
    {nodes : List Node} (h : ReadUnder v key path nodes) (hu : v.member? key = some u)
    (hvalues : u.entries? = some values) {i : Nat} {node : Node} (hnode : nodes[i]? = some node)
    (hw : values[i]? = some w) :
    Node.ofJson w (path ++ "/" ++ key ++ "/" ++ toString i) = .ok node := by
  obtain ⟨u', values', w', hu', hvalues', hw', hread⟩ := h i node hnode
  cases hu.symm.trans hu'
  cases hvalues.symm.trans hvalues'
  cases hw.symm.trans hw'
  exact hread

/-- What the nodes right below a node are read from, among the members of the object that the node
is read from. Types in a list are left out. -/
def Sprouts (v : Json) : Node → Prop
  | .record info properties _ => ∀ (i : Nat) (p : Property), properties[i]? = some p →
      ∃ members m, v.member? "properties" = some (.obj members) ∧ members[i]? = some m ∧
        ReadFrom (info.path ++ "/properties") p m
  | .array info item => ∃ w, v.member? "items" = some w ∧
      Node.ofJson w (info.path ++ "/items") = .ok item
  | .tuple info items => ∃ values, v.member? "items" = some (.arr values) ∧
      ReadInOrder (info.path ++ "/items") values items
  | .union info choice variants => choice ≠ .types →
      ReadUnder v choice.keyword info.path variants
  | .intersection info parts => ReadUnder v "allOf" info.path parts
  | _ => True

theorem typed_eq_ok {members : List (String × Json)} {name : TypeName} {info : Info} {schema : Json}
    {node : Node} (h : typed name info schema (ofMembers members) = .ok node) :
    node.info = info ∧ Sprouts (.obj members) node := by
  cases name with
  | primitive p =>
    rw [typed] at h
    cases h
    exact ⟨rfl, trivial⟩
  | object =>
    rw [typed, part_ofMembers] at h
    obtain ⟨required, -, h⟩ := bind_eq_ok.mp h
    cases hlookup : members.lookup "properties" with
    | none =>
      rw [hlookup] at h
      cases h
      exact ⟨rfl, fun i p hp => by cases hp⟩
    | some v =>
      rw [hlookup] at h
      obtain ⟨properties, hproperties, h⟩ := bind_eq_ok.mp h
      cases h
      refine ⟨rfl, fun i p hp => ?_⟩
      obtain ⟨table, m, rfl, hm, hread⟩ := properties_eq_ok hproperties i p hp
      exact ⟨table, m, hlookup, hm, hread⟩
  | array =>
    rw [typed, part_ofMembers] at h
    cases hlookup : members.lookup "items" with
    | none =>
      rw [hlookup] at h
      cases h
      exact ⟨rfl, trivial⟩
    | some v =>
      rw [hlookup] at h
      obtain ⟨items, hitems, h⟩ := bind_eq_ok.mp h
      cases items with
      | unspecified =>
        cases h
        exact ⟨rfl, trivial⟩
      | each item =>
        cases h
        exact ⟨rfl, v, hlookup, items_eq_each hitems⟩
      | places items =>
        cases h
        obtain ⟨values, rfl, hread⟩ := items_eq_places hitems
        exact ⟨rfl, values, hlookup, hread⟩

theorem branchesUnder_eq_ok {members : List (String × Json)} {key path : String}
    {nodes : List Node} (h : branchesUnder (ofMembers members) key path = .ok nodes) :
    ReadUnder (.obj members) key path nodes := by
  intro i node hnode
  rw [branchesUnder, part_ofMembers] at h
  cases hlookup : members.lookup key with
  | none =>
    rw [hlookup] at h
    cases h
    cases hnode
  | some u =>
    rw [hlookup] at h
    obtain ⟨values, hvalues, hread⟩ := branches_eq_ok h
    obtain ⟨w, hw, hnode⟩ := hread i node hnode
    exact ⟨u, values, w, hlookup, hvalues, hw, hnode⟩

theorem node_eq_ok {members : List (String × Json)} {path : String} {n : Node}
    (h : node (.obj members) (ofMembers members) path = .ok n) :
    n.info.path = path ∧ Sprouts (.obj members) n := by
  -- Wherever a type is named, the node is what is read for that type.
  have htyped : ∀ {name info}, info.path = path →
      typed name info (.obj members) (ofMembers members) = .ok n →
      n.info.path = path ∧ Sprouts (.obj members) n := by
    intro name info hpath h
    obtain ⟨hinfo, hsprouts⟩ := typed_eq_ok h
    exact ⟨hinfo ▸ hpath, hsprouts⟩
  unfold node at h
  dsimp only at h
  generalize Shape.ofSchema (.obj members) = shape at h
  cases shape with
  | reference target =>
    cases h
    exact ⟨rfl, trivial⟩
  | enumeration values =>
    obtain ⟨vs, -, h⟩ := bind_eq_ok.mp h
    cases h
    exact ⟨rfl, trivial⟩
  | typed name => exact htyped rfl h
  | types declared known =>
    match known with
    | [] =>
      cases h
      exact ⟨rfl, trivial⟩
    | [name] => exact htyped rfl h
    | name :: name' :: rest =>
      obtain ⟨variants, -, h⟩ := bind_eq_ok.mp h
      cases h
      exact ⟨rfl, fun hne => absurd rfl hne⟩
  | choice c =>
    obtain ⟨variants, hvariants, h⟩ := bind_eq_ok.mp h
    cases h
    exact ⟨rfl, fun _ => branchesUnder_eq_ok hvariants⟩
  | composition =>
    obtain ⟨nodes, hnodes, h⟩ := bind_eq_ok.mp h
    cases h
    exact ⟨rfl, branchesUnder_eq_ok hnodes⟩
  | record => exact htyped rfl h
  | unknown declared =>
    cases h
    exact ⟨rfl, trivial⟩

end Reading

open Reading (Sprouts)

namespace Node

/-- The properties of a record; other nodes have none. -/
def properties : Node → List Property
  | record _ properties _ => properties
  | _ => []

/-- A tree has a node: it is the tree itself, or it is right below a node of the tree. -/
inductive Holds (tree : Node) : Node → Prop where
  | root : Holds tree tree
  | child {node child : Node} (h : Holds tree node) (hchild : child ∈ node.children) :
      Holds tree child

/-- A tree has no other nodes than some that it is among, if what is right below them is among them
as well. -/
theorem Holds.mem_of_closed {tree : Node} {nodes : List Node} (hroot : tree ∈ nodes)
    (hchildren : ∀ node ∈ nodes, ∀ child ∈ node.children, child ∈ nodes) {node : Node}
    (h : tree.Holds node) : node ∈ nodes := by
  induction h with
  | root => exact hroot
  | child h hchild ih => exact hchildren _ ih _ hchild

end Node

/-- A node has the path it was read under, and what is below it comes from the members of the
value. -/
theorem Node.sprouts_of_ofJson {v : Json} {path : String} {node : Node}
    (h : Node.ofJson v path = .ok node) : node.info.path = path ∧ Sprouts v node := by
  rw [Node.ofJson] at h
  cases v with
  | obj members =>
    unfold Reading.ofJson at h
    exact Reading.node_eq_ok h
  | _ =>
    unfold Reading.ofJson at h
    cases h
    exact ⟨rfl, trivial⟩

/-- Only an object is read as a node with others below it. -/
theorem Node.kind_of_mem_children {v : Json} {path : String} {node : Node}
    (h : Node.ofJson v path = .ok node) {child : Node} (hchild : child ∈ node.children) :
    v.kind = .obj := by
  cases v with
  | obj members => rfl
  | _ =>
    rw [Node.ofJson] at h
    unfold Reading.ofJson at h
    cases h
    cases hchild

/-- The type of a property has the path of the property. -/
theorem Node.path_type_of_mem {v : Json} {path : String} {node : Node}
    (h : Node.ofJson v path = .ok node) {p : Property} (hp : p ∈ node.properties) :
    p.type.info.path = p.path := by
  cases node with
  | record info properties required =>
    obtain ⟨i, hp⟩ := List.mem_iff_getElem?.mp hp
    obtain ⟨members, m, -, -, hread⟩ := (sprouts_of_ofJson h).2 i p hp
    exact (sprouts_of_ofJson hread.type).1
  | _ => cases hp

/-! ## Where nodes come from -/

/-- A value that is read as a node provides, at the end of a path into it, for a node right
below. -/
inductive Provides : Json → Node → List Token → Json → Node → Prop where
  | property {v : Json} {info : Info} {properties : List Property} {required : List Json}
      {members : List (String × Json)} {i : Nat} {p : Property} {m : String × Json}
      (htable : v.member? "properties" = some (.obj members)) (hp : properties[i]? = some p)
      (hm : members[i]? = some m) :
      Provides v (.record info properties required) [.key "properties", .key m.1] m.2 p.type
  | item {v w : Json} {info : Info} {item : Node} (hw : v.member? "items" = some w) :
      Provides v (.array info item) [.key "items"] w item
  | place {v w : Json} {info : Info} {values : List Json} {nodes : List Node} {i : Nat}
      {node : Node} (hitems : v.member? "items" = some (.arr values))
      (hnode : nodes[i]? = some node) (hw : values[i]? = some w) :
      Provides v (.tuple info nodes) [.key "items", .index i] w node
  | variant {v u w : Json} {info : Info} {choice : Choice} {values : List Json}
      {variants : List Node} {i : Nat} {variant : Node} (hchoice : choice ≠ .types)
      (hu : v.member? choice.keyword = some u) (hvalues : u.entries? = some values)
      (hvariant : variants[i]? = some variant) (hw : values[i]? = some w) :
      Provides v (.union info choice variants) [.key choice.keyword, .index i] w variant
  /-- Each type of a list is one of the object itself. -/
  | alternative {v : Json} {info : Info} {variants : List Node} {variant : Node}
      (hvariant : variant ∈ variants) : Provides v (.union info .types variants) [] v variant
  | part {v u w : Json} {info : Info} {values : List Json} {parts : List Node} {i : Nat}
      {part : Node} (hu : v.member? "allOf" = some u) (hvalues : u.entries? = some values)
      (hpart : parts[i]? = some part) (hw : values[i]? = some w) :
      Provides v (.intersection info parts) [.key "allOf", .index i] w part

/-- A node of a tree comes from a value inside the schema that the tree is read from. -/
inductive Node.ComesFrom (schema : Json) (tree : Node) : Node → Json → Prop where
  | root : ComesFrom schema tree tree schema
  | child {node child : Node} {v w : Json} {path : List Token} (h : ComesFrom schema tree node v)
      (hprovides : Provides v node path w child) : ComesFrom schema tree child w

/-- Everything right below a node that was read is provided for. -/
theorem exists_provides {v : Json} {path : String} {node : Node}
    (h : Node.ofJson v path = .ok node) {child : Node} (hchild : child ∈ node.children) :
    ∃ path w, Provides v node path w child := by
  have hsprouts := (Node.sprouts_of_ofJson h).2
  cases node with
  | record info properties required =>
    obtain ⟨p, hp, rfl⟩ := List.mem_map.mp hchild
    obtain ⟨i, hp⟩ := List.mem_iff_getElem?.mp hp
    obtain ⟨members, m, htable, hm, -⟩ := hsprouts i p hp
    exact ⟨_, _, .property htable hp hm⟩
  | array info item =>
    obtain rfl := List.mem_singleton.mp hchild
    obtain ⟨w, hw, -⟩ := hsprouts
    exact ⟨_, _, .item hw⟩
  | tuple info items =>
    obtain ⟨i, hnode⟩ := List.mem_iff_getElem?.mp hchild
    obtain ⟨values, hitems, hread⟩ := hsprouts
    obtain ⟨w, hw, -⟩ := hread i child hnode
    exact ⟨_, _, .place hitems hnode hw⟩
  | union info choice variants =>
    by_cases hchoice : choice = .types
    · subst hchoice
      exact ⟨_, _, .alternative hchild⟩
    · obtain ⟨i, hvariant⟩ := List.mem_iff_getElem?.mp hchild
      obtain ⟨u, values, w, hu, hvalues, hw, -⟩ := hsprouts hchoice i child hvariant
      exact ⟨_, _, .variant hchoice hu hvalues hvariant hw⟩
  | intersection info parts =>
    obtain ⟨i, hpart⟩ := List.mem_iff_getElem?.mp hchild
    obtain ⟨u, values, w, hu, hvalues, hw, -⟩ := hsprouts i child hpart
    exact ⟨_, _, .part hu hvalues hpart hw⟩
  | _ => cases hchild

theorem Choice.plain_keyword (choice : Choice) : Plain choice.keyword := by
  cases choice <;> decide

section Steps

variable {v w : Json} {node child : Node} {path : List Token}

theorem Provides.mem_children (h : Provides v node path w child) : child ∈ node.children := by
  cases h with
  | property htable hp hm => exact List.mem_map_of_mem (List.mem_of_getElem? hp)
  | item hw => exact List.mem_singleton_self _
  | place hitems hnode hw => exact List.mem_of_getElem? hnode
  | variant hchoice hu hvalues hvariant hw => exact List.mem_of_getElem? hvariant
  | alternative hvariant => exact hvariant
  | part hu hvalues hpart hw => exact List.mem_of_getElem? hpart

/-- An object that is provided is where the path leads to. -/
theorem Provides.descend? (h : Provides v node path w child) (hkeys : v.distinctKeys = true)
    (hkind : w.kind = .obj) : Pointer.descend? path v = some w := by
  cases h with
  | property htable hp hm =>
    -- a name leads to the first member of that name, which is the one in this place only if no
    -- other member has the name
    have htableKeys := Json.distinctKeys_of_descend? hkeys (descend?_member htable)
    refine descend?_below_member htable ?_
    exact Table.lookup_of_mem (Json.distinctKeys_obj.mp htableKeys).1 (List.mem_of_getElem? hm)
  | item hw => exact descend?_member hw
  | place hitems hnode hw => exact descend?_below_member hitems hw
  | variant hchoice hu hvalues hvariant hw =>
    obtain rfl := Json.eq_arr_of_entries? hvalues (List.mem_of_getElem? hw) hkind
    exact descend?_below_member hu hw
  | alternative hvariant => rfl
  | part hu hvalues hpart hw =>
    obtain rfl := Json.eq_arr_of_entries? hvalues (List.mem_of_getElem? hw) hkind
    exact descend?_below_member hu hw

/-- What is provided for a node right below is read as this node, under the path of the node above
with the steps to what is provided. -/
theorem Provides.ofJson_extend (h : Provides v node path w child)
    (hnode : Node.ofJson v node.info.path = .ok node)
    (htypes : ∀ info variants, node ≠ .union info .types variants) :
    Node.ofJson w (extend node.info.path path) = .ok child := by
  have hkeyword : ∀ (path key suffix : String), suffix = "/" ++ key →
      path ++ suffix = path ++ "/" ++ key := by
    rintro path key suffix rfl
    rw [String.append_assoc]
  have hsprouts := (Node.sprouts_of_ofJson hnode).2
  cases h with
  | property htable hp hm =>
    obtain ⟨members', m', htable', hm', hfrom⟩ := hsprouts _ _ hp
    cases htable.symm.trans htable'
    cases hm.symm.trans hm'
    have htype := hfrom.type
    rw [hfrom.path, hkeyword _ "properties" "/properties" rfl] at htype
    exact htype
  | item hw =>
    obtain ⟨w', hw', hitem⟩ := hsprouts
    cases hw.symm.trans hw'
    rw [hkeyword _ "items" "/items" rfl] at hitem
    exact hitem
  | place hitems hplace hw =>
    obtain ⟨values', hitems', hplaces⟩ := hsprouts
    cases hitems.symm.trans hitems'
    obtain ⟨w', hw', hplace⟩ := hplaces _ _ hplace
    cases hw.symm.trans hw'
    rw [hkeyword _ "items" "/items" rfl] at hplace
    exact hplace
  | variant hchoice hu hvalues hvariant hw =>
    exact (hsprouts hchoice).ofJson_eq_ok hu hvalues hvariant hw
  | alternative hvariant =>
    -- the path of a type goes into the list of types, by the name of the type
    exact absurd rfl (htypes _ _)
  | part hu hvalues hpart hw =>
    have hparts : Reading.ReadUnder v "allOf" _ _ := hsprouts
    exact hparts.ofJson_eq_ok hu hvalues hpart hw

/-- The steps to what is provided are plain if the names of the properties are. -/
theorem Provides.plain (h : Provides v node path w child)
    (hnode : Node.ofJson v node.info.path = .ok node)
    (hnames : ∀ p ∈ node.properties, Plain p.name) : ∀ token ∈ path, Plain token.text := by
  have hpair : ∀ {first second : Token}, Plain first.text → Plain second.text →
      ∀ token ∈ [first, second], Plain token.text := by
    intro first second hfirst hsecond
    exact List.forall_mem_cons.mpr ⟨hfirst, List.forall_mem_singleton.mpr hsecond⟩
  cases h with
  | property htable hp hm =>
    obtain ⟨members', m', htable', hm', hfrom⟩ := (Node.sprouts_of_ofJson hnode).2 _ _ hp
    cases htable.symm.trans htable'
    cases hm.symm.trans hm'
    have hname := hnames _ (List.mem_of_getElem? hp)
    rw [hfrom.name] at hname
    exact hpair (by decide) hname
  | item hw => exact List.forall_mem_singleton.mpr (by decide)
  | place hitems hplace hw => exact hpair (by decide) (plain_repr _)
  | variant hchoice hu hvalues hvariant hw =>
    exact hpair (Choice.plain_keyword _) (plain_repr _)
  | alternative hvariant => exact List.forall_mem_nil _
  | part hu hvalues hpart hw => exact hpair (by decide) (plain_repr _)

end Steps

/-! ## Paths lead back -/

/-- A node comes from a part of the schema that the path leads to, if it is an object, and that is
read as the node under this path. -/
structure TracesBack (schema : Json) (tree node : Node) (path : String) : Prop where
  comesFrom : ∃ v, Node.ComesFrom schema tree node v
  read : ∀ v, Node.ComesFrom schema tree node v → Node.ofJson v path = .ok node
  target : ∀ v, Node.ComesFrom schema tree node v → v.kind = .obj →
    Reference.target schema path = .ok v

section Trees

variable {schema : Json} {tree : Node}

theorem Node.ComesFrom.holds {node : Node} {v : Json} (h : Node.ComesFrom schema tree node v) :
    tree.Holds node := by
  induction h with
  | root => exact .root
  | child _ hprovides ih => exact ih.child hprovides.mem_children

/-- The value is read as the node under the path of the node, and this path arrives at the value if
it is an object. -/
structure Node.Origin (schema : Json) (node : Node) (v : Json) : Prop where
  read : Node.ofJson v node.info.path = .ok node
  arrives : v.kind = .obj → ArrivesAt schema node.info.path v

/-- Along the way from the root to a node, the path grows with the steps that are taken. -/
theorem Node.ComesFrom.origin (htree : Node.ofJson schema "#" = .ok tree)
    (hkeys : schema.distinctKeys = true)
    (hnames : ∀ node, tree.Holds node → ∀ p ∈ node.properties, Plain p.name)
    (htypes : ∀ info variants, ¬ tree.Holds (.union info .types variants)) {node : Node}
    {v : Json} (h : Node.ComesFrom schema tree node v) : Node.Origin schema node v := by
  induction h with
  | root =>
    have hpath := (Node.sprouts_of_ofJson htree).1
    refine ⟨?_, fun _ => ?_⟩
    · rwa [hpath]
    · rw [hpath]
      exact Reference.arrivesAt_root schema
  | @child node child v w path h hprovides ih =>
    have hnotTypes : ∀ info variants, node ≠ .union info .types variants := by
      rintro info variants rfl
      exact htypes info variants h.holds
    have hread := hprovides.ofJson_extend ih.read hnotTypes
    have hpath := (Node.sprouts_of_ofJson hread).1
    -- what is above an object is an object as well, so the path has arrived there before
    refine ⟨?_, fun hkind => ?_⟩
    · rwa [hpath]
    · have hobject := Node.kind_of_mem_children ih.read hprovides.mem_children
      have harrives := ih.arrives hobject
      have hdescend := hprovides.descend? (harrives.distinctKeys hkeys) hkind
      rw [hpath]
      exact harrives.extend hdescend (hprovides.plain ih.read (hnames node h.holds))

/-- Every node of a tree comes from some part of the schema. -/
theorem Node.exists_comesFrom
    (hread : ∀ {node v}, Node.ComesFrom schema tree node v →
      Node.ofJson v node.info.path = .ok node)
    {node : Node} (h : tree.Holds node) : ∃ v, Node.ComesFrom schema tree node v := by
  induction h with
  | root => exact ⟨schema, .root⟩
  | child h hchild ih =>
    obtain ⟨v, hv⟩ := ih
    obtain ⟨path, w, hprovides⟩ := exists_provides (hread hv) hchild
    exact ⟨w, hv.child hprovides⟩

/-- The path of a node leads back to the part of the schema that the node comes from, and the path
of a property to what its type comes from, as long as no property has a name with a character that
means something in a reference, and no object has several types in a list. The keys of an object are
never repeated. -/
theorem ofJson_tracesBack (htree : Node.ofJson schema "#" = .ok tree)
    (hkeys : schema.distinctKeys = true)
    (hnames : ∀ node, tree.Holds node → ∀ p ∈ node.properties, Plain p.name)
    (htypes : ∀ info variants, ¬ tree.Holds (.union info .types variants)) {node : Node}
    (hnode : tree.Holds node) :
    TracesBack schema tree node node.info.path ∧
      ∀ p ∈ node.properties, TracesBack schema tree p.type p.path := by
  have horigin : ∀ {node v}, Node.ComesFrom schema tree node v → Node.Origin schema node v :=
    fun hv => hv.origin htree hkeys hnames htypes
  have hexists : ∀ {node}, tree.Holds node → ∃ v, Node.ComesFrom schema tree node v :=
    Node.exists_comesFrom fun hv => (horigin hv).read
  have htraces : ∀ {node}, tree.Holds node → TracesBack schema tree node node.info.path :=
    fun hnode => ⟨hexists hnode, fun v hv => (horigin hv).read,
      fun v hv hkind => ((horigin hv).arrives hkind).target hkind⟩
  refine ⟨htraces hnode, fun p hp => ?_⟩
  obtain ⟨v, hv⟩ := hexists hnode
  have hchild : p.type ∈ node.children := by
    cases node with
    | record info properties required => exact List.mem_map_of_mem hp
    | _ => cases hp
  have htype := htraces (hnode.child hchild)
  rwa [Node.path_type_of_mem (horigin hv).read hp] at htype

end Trees

/-! ### A note on a shelf -/

/-- A schema that is nothing but its title. -/
def noteSchema : Json :=
  .obj [("title", .str "Note")]

/-- A record of books, each a choice of a composition with places, down to a note. -/
def shelfSchema : Json :=
  .obj [("properties", .obj [("books", .obj [("type", .arr [.str "array"]),
    ("items", .obj [("oneOf", .arr [.obj [("allOf", .arr [
      .obj [("type", .str "array"), ("items", .arr [noteSchema])]])]])])])])]

/-- The note on the shelf. -/
def noteNode : Node :=
  .unknown ⟨"#/properties/books/items/oneOf/0/allOf/0/items/0", .ofSchema noteSchema⟩ .null

/-- The pages of a book. -/
def pagesNode : Node :=
  .tuple ⟨"#/properties/books/items/oneOf/0/allOf/0", {}⟩ [noteNode]

/-- The only book there can be. -/
def bookNode : Node :=
  .intersection ⟨"#/properties/books/items/oneOf/0", {}⟩ [pagesNode]

/-- A choice of books. -/
def choiceNode : Node :=
  .union ⟨"#/properties/books/items", {}⟩ .oneOf [bookNode]

/-- The books of the shelf. -/
def booksNode : Node :=
  .array ⟨"#/properties/books", {}⟩ choiceNode

/-- The only property of the shelf. -/
def booksProperty : Property :=
  .mk "#/properties/books" "books" false booksNode

/-- The tree of the shelf. -/
def shelfNode : Node :=
  .record ⟨"#", {}⟩ [booksProperty] []

theorem ofJson_shelfSchema : Node.ofJson shelfSchema "#" = .ok shelfNode :=
  rfl

/-- The nodes on the shelf hang from each other in a row. -/
theorem mem_of_holds_shelfNode {node : Node} (h : shelfNode.Holds node) :
    node ∈ [shelfNode, booksNode, choiceNode, bookNode, pagesNode, noteNode] := by
  refine h.mem_of_closed List.mem_cons_self ?_
  simp [shelfNode, booksNode, choiceNode, bookNode, pagesNode, noteNode, Node.children,
    booksProperty, Property.type]

/-- The note comes from its schema, and its path leads there. -/
theorem ofJson_tracesBack_shelf :
    Node.ComesFrom shelfSchema shelfNode noteNode noteSchema ∧
      Reference.target shelfSchema "#/properties/books/items/oneOf/0/allOf/0/items/0" =
        .ok noteSchema := by
  have hbooks : Node.ComesFrom shelfSchema shelfNode booksNode _ :=
    .child .root (.property (p := booksProperty) (m := ("books", _)) (i := 0) rfl rfl rfl)
  have hchoice := hbooks.child (.item rfl)
  have hbook := hchoice.child (.variant (by decide) rfl rfl (i := 0) rfl rfl)
  have hpages := hbook.child (.part rfl rfl (i := 0) rfl rfl)
  have hnote : Node.ComesFrom shelfSchema shelfNode noteNode noteSchema :=
    hpages.child (.place rfl (i := 0) rfl rfl)
  have hnames : ∀ node, shelfNode.Holds node → ∀ p ∈ node.properties, Plain p.name := by
    intro node hnode
    have hproperties : ∀ node ∈ [booksNode, choiceNode, bookNode, pagesNode, noteNode],
        node.properties = [] := by
      decide
    rcases List.mem_cons.mp (mem_of_holds_shelfNode hnode) with rfl | hmem
    · exact List.forall_mem_singleton.mpr (by decide)
    · rw [hproperties node hmem]
      exact List.forall_mem_nil _
  have htypes : ∀ info variants, ¬ shelfNode.Holds (.union info .types variants) := by
    intro info variants hholds
    have hmem := mem_of_holds_shelfNode hholds
    simp [shelfNode, booksNode, choiceNode, bookNode, pagesNode, noteNode] at hmem
  obtain ⟨htraces, -⟩ := ofJson_tracesBack ofJson_shelfSchema (by decide) hnames htypes hnote.holds
  exact ⟨hnote, htraces.target noteSchema hnote rfl⟩

end Schema

end SchemaTypes

import SchemaTypes.Proofs.Inlining

/-!
# Occurrences of references

Whoever watches a type expression being written is told of every reference that is met. In shallow
mode these are the references of the schema tree, from left to right. In deep mode a reference is
unfolded: behind it come the references of its target, which are unfolded in turn, unless its name
is being unfolded around it or is under way elsewhere; so they are the references of an unfolded
tree in pre-order.

What is written around a node looks through references, too: comments, the shapes of arrays and the
parentheses in intersections depend on what a reference leads to. `Silent` says that nobody is told
of these.
-/

namespace SchemaTypes.Expression

open Schema (Node Property)
open Reference (displayNameOf)

/-! ## Unfolded references -/

/-- A reference where it occurs: as a name, or unfolded into the references of its target. -/
inductive Occurrence where
  | named (reference : Json)
  | unfolded (reference : Json) (inside : List Occurrence)

mutual

/-- A reference and the references that it is unfolded into, in pre-order. -/
def Occurrence.preorder : Occurrence → List Json
  | .named reference => [reference]
  | .unfolded reference inside => reference :: preorderAll inside

/-- Some references and those that they are unfolded into, in pre-order. -/
def preorderAll : List Occurrence → List Json
  | [] => []
  | o :: rest => o.preorder ++ preorderAll rest

end

/-- What some references are unfolded into, inside targets of the names `path`: a reference stays a
name if its display name is one of these or is under way, and it is unfolded otherwise. -/
inductive Unfolds (document : Json) (underWay : String → Bool) :
    List String → List Json → List Occurrence → Prop where
  | nil {path : List String} : Unfolds document underWay path [] []
  | named {path : List String} {target : Json} {name : String} {rest : List Json}
      {others : List Occurrence} (hname : displayNameOf target = .ok name)
      (h : name ∈ path ∨ underWay name = true)
      (hrest : Unfolds document underWay path rest others) :
      Unfolds document underWay path (target :: rest) (.named target :: others)
  | unfolded {path : List String} {target : Json} {name : String} {node : Node} {rest : List Json}
      {inside others : List Occurrence} (hname : displayNameOf target = .ok name)
      (hnew : name ∉ path) (hunderWay : underWay name = false)
      (hnode : targetNode document target = .ok node)
      (hinside : Unfolds document underWay (name :: path) node.targets inside)
      (hrest : Unfolds document underWay path rest others) :
      Unfolds document underWay path (target :: rest) (.unfolded target inside :: others)

variable {document : Json} {underWay : String → Bool} {path : List String}

/-- References are unfolded in one way only. -/
theorem Unfolds.unique {targets : List Json} {forest forest' : List Occurrence}
    (h : Unfolds document underWay path targets forest)
    (h' : Unfolds document underWay path targets forest') : forest = forest' := by
  induction h generalizing forest' with
  | nil =>
    cases h'
    rfl
  | @named path target name rest others hname hnamed _ ih =>
    cases h' with
    | named _ _ hrest' => rw [ih hrest']
    | unfolded hname' hnew hunderWay =>
      obtain rfl := Except.ok.inj (hname.symm.trans hname')
      rcases hnamed with hmem | htrue
      · exact absurd hmem hnew
      · rw [hunderWay] at htrue
        cases htrue
  | @unfolded path target name node rest inside others hname hnew hunderWay hnode _ _ ihInside ih =>
    cases h' with
    | named hname' hnamed =>
      obtain rfl := Except.ok.inj (hname.symm.trans hname')
      rcases hnamed with hmem | htrue
      · exact absurd hmem hnew
      · rw [hunderWay] at htrue
        cases htrue
    | unfolded hname' _ _ hnode' hinside' hrest' =>
      obtain rfl := Except.ok.inj (hname.symm.trans hname')
      obtain rfl := Except.ok.inj (hnode.symm.trans hnode')
      rw [ihInside hinside', ih hrest']

/-! ## What is met for some references -/

/-- The references that are met while some references are written, one after the other. -/
inductive Met (underWay : String → Bool) (f : Json → Rendering String) :
    List Json → List Json → Prop where
  | nil : Met underWay f [] []
  | cons {target : Json} {text : String} {rest met others : List Json}
      (h : (f target).observe underWay = (met, .ok text)) (hrest : Met underWay f rest others) :
      Met underWay f (target :: rest) (met ++ others)

variable {f : Json → Rendering String} {s : Scope}

theorem Met.append {targets targets' met met' : List Json} (h : Met underWay f targets met)
    (h' : Met underWay f targets' met') : Met underWay f (targets ++ targets') (met ++ met') := by
  induction h with
  | nil => exact h'
  | cons hone _ ih =>
    rw [List.cons_append, List.append_assoc]
    exact .cons hone ih

/-- A reference by itself. -/
theorem Met.single {target : Json} {text : String} {met : List Json}
    (h : (f target).observe underWay = (met, .ok text)) : Met underWay f [target] met := by
  have hcons := Met.cons h .nil
  rwa [List.append_nil] at hcons

/-! ## Silent lookups -/

/-- What is done behind a work is silent if it meets no references, whatever the work gives. -/
theorem fst_observe_bind {α β : Type} (x : Rendering α) {g : α → Rendering β}
    (hg : ∀ a, ((g a).observe underWay).1 = []) :
    ((x >>= g).observe underWay).1 = (x.observe underWay).1 := by
  rw [Rendering.observe_bind]
  rcases x.observe underWay with ⟨met, e | a⟩
  · rfl
  · change met ++ ((g a).observe underWay).1 = met
    rw [hg a, List.append_nil]

/-- A mapped work meets the references of the work. -/
theorem fst_observe_map {α β : Type} (x : Rendering α) (g : α → β) :
    ((g <$> x).observe underWay).1 = (x.observe underWay).1 := by
  rw [map_eq_pure_bind]
  exact fst_observe_bind x fun a => rfl

theorem fst_observe_ofPart (part : Node) :
    ((ofPart s f part).observe underWay).1 = ((ofNode s f part).observe underWay).1 :=
  fst_observe_bind _ fun text => by rw [fst_observe_map, Rendering.observe_lift]

theorem fst_observe_array (info : Schema.Info) (item : Node) :
    ((ofNode s f (.array info item)).observe underWay).1 =
      ((ofNode s f item).observe underWay).1 := by
  rw [ofNode_array]
  exact fst_observe_bind _ fun text => by rw [Rendering.observe_lift]

/-- A property whose comment is missing is not written at all. -/
theorem fst_observe_ofProperty (p : Property) :
    ((ofProperty s f p).observe underWay).1 =
      match s.commentOf p.type p.required with
      | .ok _ => ((ofNode s f p.type).observe underWay).1
      | .error _ => [] := by
  unfold ofProperty
  cases s.commentOf p.type p.required with
  | error e => rfl
  | ok comment =>
    refine fst_observe_bind (ofNode s f p.type) fun text => ?_
    exact congrArg Prod.fst (Rendering.observe_lift underWay _)

/-- The comment above a property, the brackets around items and the parentheses around a part are
silent: no other references are met than where the node itself is written, and none at all if the
comment is missing. -/
structure Silent (s : Scope) (underWay : String → Bool) : Prop where
  comment : ∀ (f : Json → Rendering String) (p : Property),
    ((ofProperty s f p).observe underWay).1 =
      match s.commentOf p.type p.required with
      | .ok _ => ((ofNode s f p.type).observe underWay).1
      | .error _ => []
  items : ∀ (f : Json → Rendering String) (info : Schema.Info) (item : Node),
    ((ofNode s f (.array info item)).observe underWay).1 = ((ofNode s f item).observe underWay).1
  part : ∀ (f : Json → Rendering String) (part : Node),
    ((ofPart s f part).observe underWay).1 = ((ofNode s f part).observe underWay).1

theorem silent (s : Scope) (underWay : String → Bool) : Silent s underWay :=
  ⟨fun _ p => fst_observe_ofProperty p, fun _ info item => fst_observe_array info item,
    fun _ part => fst_observe_ofPart part⟩

/-! ## Trees -/

/-- If what is met for each of some things is met for its references, then what is met for all of
them is met for all references. -/
theorem met_of_collect {α : Type} {one : α → Rendering (List String)} {targetsOf : α → List Json}
    {l : List α} {met : List Json} {texts : List String}
    (hrun : (collect one l).observe underWay = (met, .ok texts))
    (h : ∀ a ∈ l, ∀ met texts, (one a).observe underWay = (met, .ok texts) →
      Met underWay f (targetsOf a) met) : Met underWay f (l.flatMap targetsOf) met := by
  induction l generalizing met texts with
  | nil =>
    obtain ⟨rfl, -⟩ := Rendering.observe_pure_eq_ok.mp hrun
    exact .nil
  | cons a rest ih =>
    obtain ⟨m₁, first, m₂, others, hone, hothers, rfl, -⟩ := observe_collect_cons_eq_ok.mp hrun
    have hfirst : Met underWay f (targetsOf a) m₁ := h a List.mem_cons_self m₁ first hone
    have hlater : Met underWay f (rest.flatMap targetsOf) m₂ :=
      ih hothers fun b hb => h b (List.mem_cons_of_mem a hb)
    rw [List.flatMap_cons]
    exact hfirst.append hlater

/-- What is met while a tree is written is met while its references are, from left to right. -/
theorem met_ofNode {node : Node} {met : List Json} {text : String}
    (hrun : (ofNode s f node).observe underWay = (met, .ok text)) :
    Met underWay f node.targets met := by
  -- Comments and brackets are results without work, so only the trees below meet references.
  induction node generalizing met text with
  | reference info target =>
    rw [ofNode_reference] at hrun
    exact .single hrun
  | enumeration _ _ | primitive _ _ | openArray _ | unknown _ _ =>
    rw [ofNode] at hrun
    obtain ⟨rfl, -⟩ := Rendering.observe_pure_eq_ok.mp hrun
    exact .nil
  | record info properties required ih =>
    rw [ofNode_record] at hrun
    rw [Node.targets, Schema.propertyTargets_eq_flatMap]
    split at hrun
    · next hempty =>
      obtain ⟨rfl, -⟩ := Rendering.observe_pure_eq_ok.mp hrun
      rw [hempty]
      exact .nil
    · obtain ⟨lines, hlines, -⟩ := Rendering.observe_map_eq_ok.mp hrun
      refine met_of_collect hlines fun p hp m ls hproperty => ?_
      obtain ⟨comment, type, -, htype, -⟩ := observe_ofProperty_eq_ok.mp hproperty
      exact ih p hp htype
  | array info item ih =>
    obtain ⟨t, hitem, -⟩ := observe_ofNode_array_eq_ok.mp hrun
    exact ih hitem
  | tuple info items ih =>
    rw [ofNode_tuple] at hrun
    obtain ⟨lines, hlines, -⟩ := Rendering.observe_map_eq_ok.mp hrun
    rw [Node.targets, Schema.nodeTargets_eq_flatMap]
    refine met_of_collect hlines fun item hitem m ls hplace => ?_
    obtain ⟨t, hwritten, -⟩ := observe_ofPlace_eq_ok.mp hplace
    exact ih item hitem hwritten
  | union info choice variants ih =>
    rw [ofNode_union] at hrun
    obtain ⟨texts, htexts, -⟩ := Rendering.observe_map_eq_ok.mp hrun
    rw [Node.targets, Schema.nodeTargets_eq_flatMap]
    refine met_of_collect htexts fun variant hvariant m ts hwritten => ?_
    obtain ⟨t, ht, -⟩ := observe_ofVariant_eq_ok.mp hwritten
    exact ih variant hvariant ht
  | intersection info parts ih =>
    rw [ofNode_intersection] at hrun
    obtain ⟨texts, htexts, -⟩ := Rendering.observe_map_eq_ok.mp hrun
    rw [Node.targets, Schema.nodeTargets_eq_flatMap]
    refine met_of_collect htexts fun part hpart m ts hwritten => ?_
    obtain ⟨t, ht, -⟩ := observe_ofPart_eq_ok.mp hwritten
    exact ih part hpart ht

/-! ## Shallow and deep mode -/

variable {inlined : List String → Node → Rendering String} {target : Json} {met : List Json}
  {text : String}

/-- In shallow mode a reference meets itself and nothing else. -/
theorem met_ofReference_shallow (hdeep : s.settings.deep = false)
    (hrun : (ofReference s inlined path target).observe underWay = (met, .ok text)) :
    met = [target] := by
  obtain ⟨name, -, hwritten⟩ := observe_ofReference_eq_ok.mp hrun
  rw [if_pos (Or.inl hdeep)] at hwritten
  exact hwritten.1

/-- In deep mode a reference meets what it is unfolded into, if its target does. -/
theorem unfolds_ofReference (hdeep : s.settings.deep = true)
    (hinlined : ∀ name node met text,
      (inlined (name :: path) node).observe underWay = (met, .ok text) →
        ∃ forest, Unfolds s.document underWay (name :: path) node.targets forest ∧
          met = preorderAll forest)
    (hrun : (ofReference s inlined path target).observe underWay = (met, .ok text))
    {rest : List Json} {others : List Occurrence}
    (hrest : Unfolds s.document underWay path rest others) :
    ∃ o, Unfolds s.document underWay path (target :: rest) (o :: others) ∧ met = o.preorder := by
  obtain ⟨name, hname, hwritten⟩ := observe_ofReference_eq_ok.mp hrun
  split at hwritten
  · next hnamed =>
    obtain ⟨rfl, -⟩ := hwritten
    have hpath : name ∈ path ∨ underWay name = true :=
      hnamed.resolve_left (by simp [hdeep])
    exact ⟨.named target, .named hname hpath hrest, rfl⟩
  · next hnot =>
    have hpath : name ∉ path := fun h => hnot (Or.inr (Or.inl h))
    have hunderWay : underWay name = false :=
      Bool.eq_false_iff.mpr fun h => hnot (Or.inr (Or.inr h))
    obtain ⟨node, others', hnode, hinside, rfl⟩ := hwritten
    obtain ⟨forest, hforest, rfl⟩ := hinlined name node others' text hinside
    exact ⟨.unfolded target forest, .unfolded hname hpath hunderWay hnode hforest hrest, rfl⟩

/-- If every reference meets itself, then some references meet themselves. -/
theorem Met.eq_targets {targets : List Json}
    (h : ∀ target met text, (f target).observe underWay = (met, .ok text) → met = [target])
    (hmet : Met underWay f targets met) : met = targets := by
  induction hmet with
  | nil => rfl
  | cons hone _ ih =>
    rw [h _ _ _ hone, ih]
    rfl

/-- If every reference meets what it is unfolded into, then so do some references. -/
theorem Met.unfolds {targets : List Json}
    (h : ∀ target met text, (f target).observe underWay = (met, .ok text) →
      ∀ rest others, Unfolds document underWay path rest others →
        ∃ o, Unfolds document underWay path (target :: rest) (o :: others) ∧ met = o.preorder)
    (hmet : Met underWay f targets met) :
    ∃ forest, Unfolds document underWay path targets forest ∧ met = preorderAll forest := by
  induction hmet with
  | nil => exact ⟨[], .nil, rfl⟩
  | cons hone _ ih =>
    obtain ⟨others, hothers, rfl⟩ := ih
    obtain ⟨o, ho, rfl⟩ := h _ _ _ hone _ _ hothers
    exact ⟨o :: others, ho, rfl⟩

/-- In deep mode a tree meets what its references are unfolded into, inside targets of any names. -/
theorem unfolds_ofTree (hdeep : s.settings.deep = true) {bound : Nat} {node : Node}
    (hrun : (ofTree s bound path node).observe underWay = (met, .ok text)) :
    ∃ forest, Unfolds s.document underWay path node.targets forest ∧ met = preorderAll forest := by
  induction bound generalizing path node met text with
  | zero => cases hrun
  | succ bound ih =>
    rw [ofTree] at hrun
    refine (met_ofNode hrun).unfolds fun target m t htarget rest others hrest => ?_
    exact unfolds_ofReference hdeep (fun name next m' t' hnext => ih hnext) htarget hrest

/-- Whoever watches a schema being written is told of each reference where it occurs, once and in
order: in shallow mode of the references of the schema tree, whatever the document holds, and in
deep mode of those of the unfolded tree in pre-order; of nothing else, since all other lookups are
silent. -/
theorem ofSchema_meets_preorder (document : Json) (settings : Settings) (schema : Json)
    (underWay : String → Bool) (met : List Json) (text : String)
    (hrun : (ofSchema document settings schema).observe underWay = (met, .ok text)) :
    (∃ root, Node.ofJson schema "#" = .ok root ∧
      (settings.deep = false → met = root.targets) ∧
      (settings.deep = true → ∃ forest, Unfolds document underWay [] root.targets forest ∧
        (∀ other, Unfolds document underWay [] root.targets other → other = forest) ∧
        met = preorderAll forest)) ∧
    Silent ⟨document, settings⟩ underWay := by
  refine ⟨?_, silent _ _⟩
  rw [ofSchema_eq_ofTree] at hrun
  obtain ⟨m₁, root, m₂, hread, hwritten, rfl⟩ := Rendering.observe_bind_eq_ok.mp hrun
  obtain ⟨rfl, hroot⟩ := Rendering.observe_lift_eq_ok.mp hread
  refine ⟨root, hroot, fun hshallow => ?_, fun hdeep => ?_⟩
  · have hmet : Met underWay _ root.targets m₂ := met_ofNode hwritten
    exact hmet.eq_targets fun target m t htarget => met_ofReference_shallow hshallow htarget
  · obtain ⟨forest, hforest, hmet⟩ := unfolds_ofTree (s := ⟨document, settings⟩) hdeep hwritten
    exact ⟨forest, hforest, fun other hother => hother.unique hforest, hmet⟩

/-- A document with trees, whose items have another name for their labels. -/
def treeDocument : Json :=
  .obj [("definitions", .obj [
    ("Tree", .obj [("properties", .obj [
      ("label", .obj [("$ref", .str "#/definitions/Label")]),
      ("trees", .obj [("type", .str "array"),
        ("items", .obj [("$ref", .str "#/definitions/Tree")])])])]),
    ("Label", .obj [("$ref", .str "#/definitions/Word")]),
    ("Word", .obj [("type", .str "string"), ("title", .str "A word")])])]

/-- A schema with a tree as a part, and with labels as a property and as the items of an array. -/
def labelledTree : Json :=
  .obj [("allOf", .arr [
    .obj [("$ref", .str "#/definitions/Tree")],
    .obj [("properties", .obj [
      ("first", .obj [("$ref", .str "#/definitions/Label")]),
      ("more", .obj [("type", .str "array"),
        ("items", .obj [("$ref", .str "#/definitions/Label")])])])]])]

/-- Labels have another name for words, and these are not met in shallow mode, though a comment
comes from them; in deep mode, with labels under way, the tree is unfolded once, and labels are
not. -/
theorem ofSchema_meets_preorder_trees :
    (∃ root, Node.ofJson labelledTree "#" = .ok root ∧
      (ofSchema treeDocument { deep := false } labelledTree).observe (fun _ => false) =
        (root.targets,
          .ok "Tree & \x7b\n  // [title] A word\n  first?: Label;\n  more?: Label[];\n\x7d") ∧
      root.targets = [.str "#/definitions/Tree", .str "#/definitions/Label",
        .str "#/definitions/Label"]) ∧
    ∃ root forest, Node.ofJson labelledTree "#" = .ok root ∧
      Unfolds treeDocument (· == "Label") [] root.targets forest ∧
      ((ofSchema treeDocument {} labelledTree).observe (· == "Label")).1 = preorderAll forest ∧
      preorderAll forest = [.str "#/definitions/Tree", .str "#/definitions/Label",
        .str "#/definitions/Tree", .str "#/definitions/Label", .str "#/definitions/Label"] := by
  have hshallow : (ofSchema treeDocument { deep := false } labelledTree).observe
      (fun _ => false) =
        ([.str "#/definitions/Tree", .str "#/definitions/Label", .str "#/definitions/Label"],
          .ok "Tree & \x7b\n  // [title] A word\n  first?: Label;\n  more?: Label[];\n\x7d") := rfl
  have hdeep : (ofSchema treeDocument {} labelledTree).observe (· == "Label") =
      ([.str "#/definitions/Tree", .str "#/definitions/Label", .str "#/definitions/Tree",
        .str "#/definitions/Label", .str "#/definitions/Label"],
        .ok ("\x7b\n  // [title] A word\n  label?: Label;\n  trees?: Array<Tree>;\n\x7d & \x7b\n" ++
          "  // [title] A word\n  first?: Label;\n  more?: Label[];\n\x7d")) := rfl
  constructor
  · obtain ⟨⟨root, hroot, hmet, -⟩, -⟩ := ofSchema_meets_preorder _ _ _ _ _ _ hshallow
    have htargets := hmet rfl
    refine ⟨root, hroot, ?_, htargets.symm⟩
    rw [← htargets]
    exact hshallow
  · obtain ⟨⟨root, hroot, -, hunfolded⟩, -⟩ :=
      ofSchema_meets_preorder _ _ _ _ _ _ hdeep
    obtain ⟨forest, hforest, -, hmet⟩ := hunfolded rfl
    refine ⟨root, forest, hroot, hforest, ?_, hmet.symm⟩
    rw [hdeep, hmet]

end SchemaTypes.Expression

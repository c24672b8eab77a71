import SchemaTypes.Proofs.Expressions

/-!
# Grafting trees

`Node.graft f` puts the tree `f target` in the place of every reference to `target`. What is written
around a place looks at the node that stands there: at its documentation, and at its kind, where
brackets are in question. If that node is a reference, it looks at the node that the reference
describes. So a tree and its graft are written alike if each reference is written like the tree that
is put in its place and describes a node that passes for this tree.
-/

namespace SchemaTypes

namespace Schema

mutual

/-- Puts the tree `f target` in the place of every reference to `target`. -/
def Node.graft (f : Json → Node) : Node → Node
  | .reference _ target => f target
  | .record info properties required => .record info (graftProperties f properties) required
  | .array info item => .array info (item.graft f)
  | .tuple info items => .tuple info (graftNodes f items)
  | .union info choice variants => .union info choice (graftNodes f variants)
  | .intersection info parts => .intersection info (graftNodes f parts)
  | .enumeration info values => .enumeration info values
  | .primitive info name => .primitive info name
  | .openArray info => .openArray info
  | .unknown info declared => .unknown info declared

/-- Puts trees in the place of the references in the types of some properties. -/
def graftProperties (f : Json → Node) : List Property → List Property
  | [] => []
  | .mk path name required type :: rest =>
    .mk path name required (type.graft f) :: graftProperties f rest

/-- Puts trees in the place of the references in some trees. -/
def graftNodes (f : Json → Node) : List Node → List Node
  | [] => []
  | node :: rest => node.graft f :: graftNodes f rest

end

/-- Puts trees in the place of the references in the type of a property. -/
def Property.graft (f : Json → Node) (p : Property) : Property :=
  .mk p.path p.name p.required (p.type.graft f)

variable {f g : Json → Node}

theorem graftProperties_eq_map (properties : List Property) :
    graftProperties f properties = properties.map (Property.graft f) := by
  induction properties with
  | nil => rfl
  | cons p rest ih =>
    obtain ⟨path, name, required, type⟩ := p
    rw [List.map_cons, ← ih]
    rfl

theorem graftNodes_eq_map (nodes : List Node) :
    graftNodes f nodes = nodes.map (Node.graft f) := by
  induction nodes with
  | nil => rfl
  | cons node rest ih =>
    rw [List.map_cons, ← ih]
    rfl

theorem graftNodes_congr {nodes : List Node}
    (ih : ∀ node ∈ nodes, (∀ t ∈ node.targets, f t = g t) → node.graft f = node.graft g)
    (h : ∀ t ∈ nodeTargets nodes, f t = g t) : graftNodes f nodes = graftNodes g nodes := by
  rw [graftNodes_eq_map, graftNodes_eq_map]
  refine List.map_congr_left fun node hnode => ih node hnode fun t ht => h t ?_
  exact mem_nodeTargets.mpr ⟨node, hnode, ht⟩

/-- A graft depends only on what is put in the place of the references of the tree. -/
theorem Node.graft_congr {node : Node} (h : ∀ target ∈ node.targets, f target = g target) :
    node.graft f = node.graft g := by
  induction node with
  | reference info target =>
    exact h target (by simp [targets])
  | enumeration info values => rfl
  | primitive info name => rfl
  | openArray info => rfl
  | unknown info declared => rfl
  | record info properties required ih =>
    rw [graft, graft, graftProperties_eq_map, graftProperties_eq_map]
    congr 1
    refine List.map_congr_left fun p hp => ?_
    unfold Property.graft
    rw [ih p hp fun t ht => h t (mem_targets_record hp ht)]
  | array info item ih => rw [graft, graft, ih fun t ht => h t (by rwa [targets])]
  | tuple info items ih => rw [graft, graft, graftNodes_congr ih (by rwa [targets] at h)]
  | union info choice variants ih =>
    rw [graft, graft, graftNodes_congr ih (by rwa [targets] at h)]
  | intersection info parts ih =>
    rw [graft, graft, graftNodes_congr ih (by rwa [targets] at h)]

/-- The references of some grafts are those of trees that were put in. -/
theorem exists_of_mem_nodeTargets_graftNodes {nodes : List Node} {t : Json}
    (ih : ∀ node ∈ nodes, t ∈ (node.graft f).targets →
      ∃ target ∈ node.targets, t ∈ (f target).targets)
    (h : t ∈ nodeTargets (graftNodes f nodes)) :
    ∃ target ∈ nodeTargets nodes, t ∈ (f target).targets := by
  rw [graftNodes_eq_map] at h
  obtain ⟨_, hgrafted, ht⟩ := mem_nodeTargets.mp h
  obtain ⟨node, hnode, rfl⟩ := List.mem_map.mp hgrafted
  obtain ⟨target, htarget, ht⟩ := ih node hnode ht
  exact ⟨target, mem_nodeTargets.mpr ⟨node, hnode, htarget⟩, ht⟩

/-- The references of a graft are those of the trees that were put in. -/
theorem Node.exists_of_mem_targets_graft {node : Node} {t : Json}
    (h : t ∈ (node.graft f).targets) : ∃ target ∈ node.targets, t ∈ (f target).targets := by
  induction node with
  | reference info target =>
    rw [graft] at h
    exact ⟨target, by simp [targets], h⟩
  | enumeration info values => simp [graft, targets] at h
  | primitive info name => simp [graft, targets] at h
  | openArray info => simp [graft, targets] at h
  | unknown info declared => simp [graft, targets] at h
  | record info properties required ih =>
    rw [graft, graftProperties_eq_map, targets, propertyTargets_eq_flatMap] at h
    obtain ⟨_, hgrafted, ht⟩ := List.mem_flatMap.mp h
    obtain ⟨p, hp, rfl⟩ := List.mem_map.mp hgrafted
    obtain ⟨target, htarget, ht⟩ := ih p hp ht
    exact ⟨target, mem_targets_record hp htarget, ht⟩
  | array info item ih =>
    rw [graft, targets] at h
    obtain ⟨target, htarget, ht⟩ := ih h
    exact ⟨target, by rwa [targets], ht⟩
  | tuple info items ih => exact exists_of_mem_nodeTargets_graftNodes ih (by rwa [graft] at h)
  | union info choice variants ih =>
    exact exists_of_mem_nodeTargets_graftNodes ih (by rwa [graft] at h)
  | intersection info parts ih =>
    exact exists_of_mem_nodeTargets_graftNodes ih (by rwa [graft] at h)

namespace Node

variable {node : Node}

/-- A graft of a tree that is no reference itself is none. -/
theorem isReference_graft (h : node.isReference = false) : (node.graft f).isReference = false := by
  cases node with
  | reference info target => cases h
  | _ => rfl

/-- A graft keeps the documentation of a tree that is no reference itself. -/
theorem info_graft (h : node.isReference = false) : (node.graft f).info = node.info := by
  cases node with
  | reference info target => cases h
  | _ => rfl

end Node

end Schema

namespace Expression

open Schema (Node Property)

variable {s s' : Scope} {f : Json → Node} {underWay : String → Bool}

/-! ## Looking at a place -/

theorem arrayOf_graft {node : Node} (h : node.isReference = false) (item : String) :
    arrayOf (node.graft f) item = arrayOf node item := by
  cases node with
  | reference info target => cases h
  | _ => rfl

theorem operandOf_graft {node : Node} (h : node.isReference = false) (part : String) :
    operandOf (node.graft f) part = operandOf node part := by
  cases node with
  | reference info target => cases h
  | _ => rfl

theorem described_of_not_isReference {document : Json} {node : Node}
    (h : node.isReference = false) : described document node = .ok node := by
  cases node with
  | reference info target => cases h
  | _ => rfl

/-- A node describes a node that is no reference and has the same graft. -/
def DescribesGraft (document : Json) (f : Json → Node) (node : Node) : Prop :=
  ∃ d, described document node = .ok d ∧ d.isReference = false ∧ node.graft f = d.graft f

/-- Every node has the graft of the node that it describes, if the references of the tree have. -/
theorem describesGraft_of_targets {document : Json} {node : Node}
    (h : ∀ target ∈ node.targets, ∀ info, DescribesGraft document f (.reference info target)) :
    DescribesGraft document f node := by
  cases hnode : node.isReference with
  | true =>
    obtain ⟨info, target, rfl⟩ := Schema.Node.exists_of_isReference hnode
    exact h target (by simp [Node.targets]) info
  | false => exact ⟨node, described_of_not_isReference hnode, hnode, rfl⟩

section Places

variable {node : Node}

/-- The comment above a property describes the graft of its type. -/
theorem commentOf_graft (h : DescribesGraft s.document f node)
    (hsettings : s.settings = s'.settings) (required : Bool) :
    s.commentOf node required = s'.commentOf (node.graft f) required := by
  obtain ⟨d, hd, hnot, hgraft⟩ := h
  unfold Scope.commentOf
  rw [hd, hgraft, described_of_not_isReference (Node.isReference_graft hnot), hsettings]
  change Comment.Style.check s'.settings.style >>= _ = Comment.Style.check s'.settings.style >>= _
  rw [Node.info_graft hnot]

/-- In deep mode the brackets around items are those around their graft. -/
theorem arrayText_graft (h : DescribesGraft s.document f node)
    (hsettings : s.settings = s'.settings) (hdeep : s.settings.deep = true) (text : String) :
    s.arrayText node text = s'.arrayText (node.graft f) text := by
  have harray : ∀ {t : Scope} {n : Node}, t.settings.deep = true →
      t.arrayText n text = (arrayOf · text) <$> described t.document n := by
    intro t n ht
    unfold Scope.arrayText
    rw [ht]
    cases n <;> rfl
  obtain ⟨d, hd, hnot, hgraft⟩ := h
  rw [harray hdeep, harray (hsettings ▸ hdeep), hd, hgraft,
    described_of_not_isReference (Node.isReference_graft hnot)]
  exact congrArg Except.ok (arrayOf_graft hnot text).symm

/-- The brackets around a part are those around its graft. -/
theorem operandText_graft (h : DescribesGraft s.document f node) (text : String) :
    s.operandText node text = s'.operandText (node.graft f) text := by
  obtain ⟨d, hd, hnot, hgraft⟩ := h
  unfold Scope.operandText
  rw [hd, hgraft, described_of_not_isReference (Node.isReference_graft hnot)]
  exact congrArg Except.ok (operandOf_graft hnot text).symm

end Places

/-! ## Writing a tree -/

/-- Works that have the same outcomes one by one have the same outcome one after the other. -/
theorem outcome_collect_congr {α β : Type} {one : α → Rendering (List String)}
    {one' : β → Rendering (List String)} {h : α → β} {l : List α}
    (hone : ∀ a ∈ l, (one a).outcome underWay = (one' (h a)).outcome underWay) :
    (collect one l).outcome underWay = (collect one' (l.map h)).outcome underWay := by
  induction l with
  | nil => rfl
  | cons a rest ih =>
    rw [List.map_cons, collect, collect, Rendering.outcome_bind, Rendering.outcome_bind,
      hone a List.mem_cons_self]
    refine congrArg (_ >>= ·) (funext fun texts => ?_)
    rw [Rendering.outcome_bind, Rendering.outcome_bind,
      ih fun b hb => hone b (List.mem_cons_of_mem a hb)]

section Members

variable {onReference onReference' : Json → Rendering String} {node : Node}

/-- The lines of a property are those of its graft, if its type is written like its graft. -/
theorem outcome_ofProperty_graft (hsettings : s.settings = s'.settings) {p : Property}
    (hdescribed : DescribesGraft s.document f p.type)
    (htype : (ofNode s onReference p.type).outcome underWay =
      (ofNode s' onReference' (p.type.graft f)).outcome underWay) :
    (ofProperty s onReference p).outcome underWay =
      (ofProperty s' onReference' (p.graft f)).outcome underWay := by
  have hcomment : s.commentOf p.type p.required = s'.commentOf (p.type.graft f) p.required :=
    commentOf_graft hdescribed hsettings p.required
  unfold ofProperty
  simp only [Rendering.outcome_bind, Rendering.outcome_lift]
  rw [hcomment, htype]
  simp only [Scope.indented, hsettings]
  rfl

/-- The lines of a place of a tuple are those of its graft, if it is written like its graft. -/
theorem outcome_ofPlace_graft (hsettings : s.settings = s'.settings)
    (hnode : (ofNode s onReference node).outcome underWay =
      (ofNode s' onReference' (node.graft f)).outcome underWay) :
    (ofPlace s onReference node).outcome underWay =
      (ofPlace s' onReference' (node.graft f)).outcome underWay := by
  unfold ofPlace
  simp only [Rendering.outcome_bind, Rendering.outcome_lift]
  rw [hnode]
  simp only [Scope.indented, hsettings]

/-- The operand of a variant is that of its graft, if it is written like its graft. -/
theorem outcome_ofVariant_graft
    (hnode : (ofNode s onReference node).outcome underWay =
      (ofNode s' onReference' (node.graft f)).outcome underWay) :
    (ofVariant s onReference node).outcome underWay =
      (ofVariant s' onReference' (node.graft f)).outcome underWay := by
  unfold ofVariant
  rw [Rendering.outcome_map, Rendering.outcome_map, hnode]

/-- The operand of a part is that of its graft, if it is written like its graft. -/
theorem outcome_ofPart_graft (hdescribed : DescribesGraft s.document f node)
    (hnode : (ofNode s onReference node).outcome underWay =
      (ofNode s' onReference' (node.graft f)).outcome underWay) :
    (ofPart s onReference node).outcome underWay =
      (ofPart s' onReference' (node.graft f)).outcome underWay := by
  unfold ofPart
  rw [Rendering.outcome_bind, Rendering.outcome_bind, hnode]
  refine congrArg (_ >>= ·) (funext fun text => ?_)
  rw [Rendering.outcome_map, Rendering.outcome_map, Rendering.outcome_lift,
    Rendering.outcome_lift]
  exact congrArg _ (operandText_graft hdescribed text)

end Members

variable {onReference onReference' : Json → Rendering String}

/-- A tree is written like its graft if every reference is written like the tree that is put in its
place, and describes a node with the same graft. In shallow mode this would be wrong for items. -/
theorem outcome_ofNode_graft (s s' : Scope) (hsettings : s.settings = s'.settings)
    (hdeep : s.settings.deep = true) {node : Node}
    (hwritten : ∀ target ∈ node.targets, (onReference target).outcome underWay =
      (ofNode s' onReference' (f target)).outcome underWay)
    (hdescribed : ∀ target ∈ node.targets, ∀ info,
      DescribesGraft s.document f (.reference info target)) :
    (ofNode s onReference node).outcome underWay =
      (ofNode s' onReference' (node.graft f)).outcome underWay := by
  -- The targets of a member are targets of the tree, so both hypotheses reach each member.
  induction node with
  | reference info target =>
    rw [ofNode_reference, Node.graft]
    exact hwritten target (by simp [Node.targets])
  | enumeration info values => rw [Node.graft, ofNode, ofNode]
  | primitive info name => rw [Node.graft, ofNode, ofNode]
  | openArray info => rw [Node.graft, ofNode, ofNode]
  | unknown info declared => rw [Node.graft, ofNode, ofNode, hsettings]
  | record info properties required ih =>
    rw [Node.graft, Schema.graftProperties_eq_map, ofNode_record, ofNode_record]
    by_cases hempty : properties = []
    · rw [if_pos hempty, if_pos (by rw [hempty, List.map_nil])]
    · rw [if_neg hempty, if_neg (by simpa using hempty), Rendering.outcome_map,
        Rendering.outcome_map]
      refine congrArg _ (outcome_collect_congr fun p hp => ?_)
      have htargets : ∀ t ∈ p.type.targets, t ∈ (Node.record info properties required).targets :=
        fun t ht => Schema.mem_targets_record hp ht
      exact outcome_ofProperty_graft hsettings
        (describesGraft_of_targets fun t ht => hdescribed t (htargets t ht))
        (ih p hp (fun t ht => hwritten t (htargets t ht)) fun t ht => hdescribed t (htargets t ht))
  | array info item ih =>
    have htargets : ∀ t ∈ item.targets, t ∈ (Node.array info item).targets := fun t ht => by
      rwa [Node.targets]
    rw [Node.graft, ofNode_array, ofNode_array, Rendering.outcome_bind, Rendering.outcome_bind,
      ih (fun t ht => hwritten t (htargets t ht)) fun t ht => hdescribed t (htargets t ht)]
    refine congrArg (_ >>= ·) (funext fun text => ?_)
    rw [Rendering.outcome_lift, Rendering.outcome_lift]
    exact arrayText_graft (describesGraft_of_targets fun t ht => hdescribed t (htargets t ht))
      hsettings hdeep text
  | tuple info items ih =>
    rw [Node.graft, Schema.graftNodes_eq_map, ofNode_tuple, ofNode_tuple, Rendering.outcome_map,
      Rendering.outcome_map]
    refine congrArg _ (outcome_collect_congr fun item hitem => ?_)
    have htargets : ∀ t ∈ item.targets, t ∈ (Node.tuple info items).targets :=
      fun t ht => Schema.mem_nodeTargets.mpr ⟨item, hitem, ht⟩
    exact outcome_ofPlace_graft hsettings
      (ih item hitem (fun t ht => hwritten t (htargets t ht))
        fun t ht => hdescribed t (htargets t ht))
  | union info choice variants ih =>
    rw [Node.graft, Schema.graftNodes_eq_map, ofNode_union, ofNode_union, Rendering.outcome_map,
      Rendering.outcome_map]
    refine congrArg _ (outcome_collect_congr fun variant hvariant => ?_)
    have htargets : ∀ t ∈ variant.targets, t ∈ (Node.union info choice variants).targets :=
      fun t ht => Schema.mem_nodeTargets.mpr ⟨variant, hvariant, ht⟩
    exact outcome_ofVariant_graft
      (ih variant hvariant (fun t ht => hwritten t (htargets t ht))
        fun t ht => hdescribed t (htargets t ht))
  | intersection info parts ih =>
    rw [Node.graft, Schema.graftNodes_eq_map, ofNode_intersection, ofNode_intersection,
      Rendering.outcome_map, Rendering.outcome_map]
    refine congrArg _ (outcome_collect_congr fun part hpart => ?_)
    have htargets : ∀ t ∈ part.targets, t ∈ (Node.intersection info parts).targets :=
      fun t ht => Schema.mem_nodeTargets.mpr ⟨part, hpart, ht⟩
    exact outcome_ofPart_graft
      (describesGraft_of_targets fun t ht => hdescribed t (htargets t ht))
      (ih part hpart (fun t ht => hwritten t (htargets t ht))
        fun t ht => hdescribed t (htargets t ht))

end Expression

end SchemaTypes

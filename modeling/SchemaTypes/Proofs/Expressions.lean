import SchemaTypes.Expression.Basic
import SchemaTypes.Proofs.Chains

/-!
# Laws of type expressions

The properties of a record, the places of a tuple, the variants of a union and the parts of an
intersection are written in the same way: one after the other, each as a list of texts, and the
lists are joined. `collect` is this way of writing. With it each kind of node has one equation, and
an induction on trees needs one lemma about lists.

How a tree is written depends on the writer of references only at the references of the tree, and
what it may do is what the writer of references may do, apart from failures.
-/

namespace SchemaTypes.Expression

open Schema (Node Property)

/-! ## Writing one after the other -/

section Collect

variable {α : Type}

/-- Writes some things one after the other, each as a list of texts. -/
def collect (one : α → Rendering (List String)) : List α → Rendering (List String)
  | [] => pure []
  | a :: rest => do
    let texts ← one a
    let others ← collect one rest
    return texts ++ others

theorem collect_congr {one one' : α → Rendering (List String)} {l : List α}
    (h : ∀ a ∈ l, one a = one' a) : collect one l = collect one' l := by
  induction l with
  | nil => rfl
  | cons a rest ih =>
    rw [collect, collect, h a List.mem_cons_self, ih fun b hb => h b (List.mem_cons_of_mem a hb)]

theorem collect_within {leave : Rendering.Leave} {one : α → Rendering (List String)} {l : List α}
    (h : ∀ a ∈ l, (one a).Within leave) : (collect one l).Within leave := by
  induction l with
  | nil => exact Rendering.within_pure []
  | cons a rest ih =>
    rw [collect]
    refine Rendering.within_bind (h a List.mem_cons_self) fun texts => ?_
    refine Rendering.within_bind (ih fun b hb => h b (List.mem_cons_of_mem a hb)) fun others => ?_
    exact Rendering.within_pure _

end Collect

/-! ## One equation for each kind of node -/

variable (s : Scope) (f : Json → Rendering String)

/-- The lines of a property. -/
def ofProperty (p : Property) : Rendering (List String) := do
  let comment ← s.commentOf p.type p.required
  let text ← ofNode s f p.type
  let mark := if p.required then "" else "?"
  s.indented (comment ++ propertyKey p.name ++ mark ++ ": " ++ text ++ ";")

/-- The lines of a place of a tuple. -/
def ofPlace (item : Node) : Rendering (List String) := do
  let text ← ofNode s f item
  s.indented (text ++ ",")

/-- The operand of a variant of a union. -/
def ofVariant (variant : Node) : Rendering (List String) :=
  ([·]) <$> ofNode s f variant

/-- The operand of a part of an intersection. -/
def ofPart (part : Node) : Rendering (List String) := do
  let text ← ofNode s f part
  ([·]) <$> (liftM (s.operandText part text) : Rendering String)

theorem ofProperties_eq_collect (ps : List Property) :
    ofProperties s f ps = collect (ofProperty s f) ps := by
  induction ps with
  | nil => rfl
  | cons p rest ih =>
    obtain ⟨path, name, required, type⟩ := p
    rw [collect, ofProperty, ← ih]
    simp only [Property.type, Property.required, Property.name, bind_assoc]
    rfl

theorem ofPlaces_eq_collect (items : List Node) :
    ofPlaces s f items = collect (ofPlace s f) items := by
  induction items with
  | nil => rfl
  | cons item rest ih =>
    rw [collect, ofPlace, ← ih]
    simp only [bind_assoc]
    rfl

theorem ofNodes_eq_collect (variants : List Node) :
    ofNodes s f variants = collect (ofVariant s f) variants := by
  induction variants with
  | nil => rfl
  | cons variant rest ih =>
    rw [collect, ofVariant, ← ih]
    simp only [bind_map_left, List.singleton_append]
    rfl

theorem ofParts_eq_collect (parts : List Node) :
    ofParts s f parts = collect (ofPart s f) parts := by
  induction parts with
  | nil => rfl
  | cons part rest ih =>
    rw [collect, ofPart, ← ih]
    simp only [bind_assoc, bind_map_left, List.singleton_append]
    rfl

variable (info : Schema.Info)

@[simp] theorem ofNode_reference (target : Json) :
    ofNode s f (.reference info target) = f target :=
  rfl

theorem ofNode_record (properties : List Property) (required : List Json) :
    ofNode s f (.record info properties required) =
      if properties = [] then pure "object"
      else block "\x7b" "\x7d" <$> collect (ofProperty s f) properties := by
  cases properties with
  | nil => rfl
  | cons p rest =>
    rw [if_neg (List.cons_ne_nil p rest), ← ofProperties_eq_collect]
    rfl

theorem ofNode_array (item : Node) :
    ofNode s f (.array info item) =
      ofNode s f item >>= fun text => liftM (s.arrayText item text) :=
  rfl

theorem ofNode_tuple (items : List Node) :
    ofNode s f (.tuple info items) = block "[" "]" <$> collect (ofPlace s f) items := by
  rw [← ofPlaces_eq_collect]
  rfl

theorem ofNode_union (choice : Schema.Choice) (variants : List Node) :
    ofNode s f (.union info choice variants) = unionOf <$> collect (ofVariant s f) variants := by
  rw [← ofNodes_eq_collect]
  rfl

theorem ofNode_intersection (parts : List Node) :
    ofNode s f (.intersection info parts) =
      intersectionOf <$> collect (ofPart s f) parts := by
  rw [← ofParts_eq_collect]
  rfl

/-! ## What was written -/

variable {s f info} {underWay : String → Bool} {met : List Json} {texts : List String}

/-- What was written one after the other: first the texts of the first thing, then the others. -/
theorem observe_collect_cons_eq_ok {α : Type} {one : α → Rendering (List String)} {a : α}
    {rest : List α} :
    (collect one (a :: rest)).observe underWay = (met, .ok texts) ↔
      ∃ m₁ first m₂ others, (one a).observe underWay = (m₁, .ok first) ∧
        (collect one rest).observe underWay = (m₂, .ok others) ∧
          met = m₁ ++ m₂ ∧ texts = first ++ others := by
  rw [collect, Rendering.observe_bind_eq_ok]
  constructor
  · rintro ⟨m₁, first, m₂, hfirst, hrest, rfl⟩
    obtain ⟨others, hothers, rfl⟩ := Rendering.observe_map_eq_ok.mp hrest
    exact ⟨m₁, first, m₂, others, hfirst, hothers, rfl, rfl⟩
  · rintro ⟨m₁, first, m₂, others, hfirst, hothers, rfl, rfl⟩
    exact ⟨m₁, first, m₂, hfirst, Rendering.observe_map_eq_ok.mpr ⟨others, hothers, rfl⟩, rfl⟩

/-- The lines of a property hold its comment and its type, and only the type meets references. -/
theorem observe_ofProperty_eq_ok {p : Property} :
    (ofProperty s f p).observe underWay = (met, .ok texts) ↔
      ∃ comment text, s.commentOf p.type p.required = .ok comment ∧
        (ofNode s f p.type).observe underWay = (met, .ok text) ∧
          s.indented (comment ++ propertyKey p.name ++ (if p.required then "" else "?") ++ ": " ++
            text ++ ";") = .ok texts := by
  unfold ofProperty
  rw [Rendering.observe_lift_bind_eq_ok]
  refine exists_congr fun comment => ?_
  rw [Rendering.observe_bind_lift_eq_ok, exists_and_left]

/-- The lines of a place hold its type. -/
theorem observe_ofPlace_eq_ok {item : Node} :
    (ofPlace s f item).observe underWay = (met, .ok texts) ↔
      ∃ text, (ofNode s f item).observe underWay = (met, .ok text) ∧
        s.indented (text ++ ",") = .ok texts :=
  Rendering.observe_bind_lift_eq_ok

/-- A variant is its own operand. -/
theorem observe_ofVariant_eq_ok {variant : Node} :
    (ofVariant s f variant).observe underWay = (met, .ok texts) ↔
      ∃ text, (ofNode s f variant).observe underWay = (met, .ok text) ∧ [text] = texts :=
  Rendering.observe_map_eq_ok

/-- The operand of a part holds its type, perhaps in brackets. -/
theorem observe_ofPart_eq_ok {part : Node} :
    (ofPart s f part).observe underWay = (met, .ok texts) ↔
      ∃ text, (ofNode s f part).observe underWay = (met, .ok text) ∧
        ∃ operand, s.operandText part text = .ok operand ∧ [operand] = texts := by
  have hlift : ∀ text, ([·]) <$> (liftM (s.operandText part text) : Rendering String) =
      liftM (([·]) <$> s.operandText part text) := by
    intro text
    cases s.operandText part text <;> rfl
  unfold ofPart
  simp only [hlift, Rendering.observe_bind_lift_eq_ok, map_eq_ok]

/-- An array holds the type of its items, perhaps in brackets. -/
theorem observe_ofNode_array_eq_ok {item : Node} {array : String} :
    (ofNode s f (.array info item)).observe underWay = (met, .ok array) ↔
      ∃ text, (ofNode s f item).observe underWay = (met, .ok text) ∧
        s.arrayText item text = .ok array :=
  Rendering.observe_bind_lift_eq_ok

/-! ## Which references count -/

/-- A tree is written in the same way by writers of references that agree on its references. -/
theorem ofNode_congr {g : Json → Rendering String} {node : Node}
    (h : ∀ target ∈ node.targets, f target = g target) : ofNode s f node = ofNode s g node := by
  induction node with
  | reference info target =>
    rw [ofNode_reference, ofNode_reference, h target (by simp [Node.targets])]
  | enumeration info values => rfl
  | primitive info name => rfl
  | openArray info => rfl
  | unknown info declared => rfl
  | record info properties required ih =>
    rw [ofNode_record, ofNode_record]
    congr 2
    refine collect_congr fun p hp => ?_
    rw [ofProperty, ofProperty, ih p hp fun t ht => h t (Schema.mem_targets_record hp ht)]
  | array info item ih =>
    rw [ofNode_array, ofNode_array, ih fun t ht => h t (by rwa [Node.targets])]
  | tuple info items ih =>
    rw [ofNode_tuple, ofNode_tuple]
    congr 1
    refine collect_congr fun item hitem => ?_
    rw [ofPlace, ofPlace, ih item hitem fun t ht => h t ?_]
    exact Schema.mem_nodeTargets.mpr ⟨item, hitem, ht⟩
  | union info choice variants ih =>
    rw [ofNode_union, ofNode_union]
    congr 1
    refine collect_congr fun variant hvariant => ?_
    rw [ofVariant, ofVariant, ih variant hvariant fun t ht => h t ?_]
    exact Schema.mem_nodeTargets.mpr ⟨variant, hvariant, ht⟩
  | intersection info parts ih =>
    rw [ofNode_intersection, ofNode_intersection]
    congr 1
    refine collect_congr fun part hpart => ?_
    rw [ofPart, ofPart, ih part hpart fun t ht => h t ?_]
    exact Schema.mem_nodeTargets.mpr ⟨part, hpart, ht⟩

/-! ## What a type expression may do -/

variable {leave : Rendering.Leave}

theorem indented_settles (text : String) : Settles (s.indented text) fun _ => True := by
  unfold Scope.indented
  cases s.settings.indent with
  | ok margin => exact settles_ok trivial
  | error v => exact settles_error (by simp)

theorem propertyComment_settles (style : Comment.Style) (doc : Documentation) (required : Bool) :
    Settles (propertyComment style doc required) fun _ => True := by
  unfold propertyComment
  dsimp only
  split
  · have hadd : Settles (Comment.addValue ((Comment.empty style).addIf doc.title.truthy
        (Comment.titleMarker ++ " " ++ doc.title.display)) doc.description) fun _ => True :=
      (Json.asText_settles _).map fun _ _ => trivial
    exact hadd.bind fun comment _ => settles_ok trivial
  · exact settles_ok trivial

theorem commentOf_settles (type : Node) (required : Bool) :
    Settles (s.commentOf type required) fun _ => True := by
  refine (described_settles s.document type).bind fun node _ => ?_
  have hstyle : Settles (Comment.Style.check s.settings.style) fun _ => True := by
    unfold Comment.Style.check
    cases s.settings.style with
    | ok style => exact settles_ok trivial
    | error v => exact settles_error (by simp)
  refine hstyle.bind fun style _ => ?_
  exact propertyComment_settles style _ required

theorem arrayText_settles (item : Node) (text : String) :
    Settles (s.arrayText item text) fun _ => True := by
  unfold Scope.arrayText
  split
  · exact settles_ok trivial
  · exact (described_settles s.document _).map fun _ _ => trivial

theorem operandText_settles (part : Node) (text : String) :
    Settles (s.operandText part text) fun _ => True := by
  unfold Scope.operandText
  exact (described_settles s.document part).map fun _ _ => trivial

/-- A settled result stays within every leave that forbids no failure but an exhausted bound. -/
theorem within_lift_of_settles {α : Type} {x : Except Failure α} {I : α → Prop}
    (hfail : ∀ e, e ≠ .boundExceeded → leave.failing e) (h : Settles x I) :
    (liftM x : Rendering α).Within leave :=
  Rendering.within_lift fun e he => hfail e fun hbound => h.2 (by rw [he, hbound])

/-- A tree may do what the writer of its references may do, and fail besides. -/
theorem ofNode_within (hfail : ∀ e, e ≠ .boundExceeded → leave.failing e) {node : Node}
    (h : ∀ target ∈ node.targets, (f target).Within leave) : (ofNode s f node).Within leave := by
  induction node with
  | reference info target => exact h target (by simp [Node.targets])
  | enumeration info values => exact Rendering.within_pure _
  | primitive info name => exact Rendering.within_pure _
  | openArray info => exact Rendering.within_pure _
  | unknown info declared => exact Rendering.within_pure _
  | record info properties required ih =>
    rw [ofNode_record]
    split
    · exact Rendering.within_pure _
    · refine Rendering.within_map (collect_within fun p hp => ?_)
      refine Rendering.within_bind
        (within_lift_of_settles hfail (commentOf_settles p.type p.required)) fun comment => ?_
      refine Rendering.within_bind (ih p hp fun t ht => h t (Schema.mem_targets_record hp ht))
        fun text => ?_
      exact within_lift_of_settles hfail (indented_settles _)
  | array info item ih =>
    rw [ofNode_array]
    refine Rendering.within_bind (ih fun t ht => h t (by rwa [Node.targets])) fun text => ?_
    exact within_lift_of_settles hfail (arrayText_settles item text)
  | tuple info items ih =>
    rw [ofNode_tuple]
    refine Rendering.within_map (collect_within fun item hitem => ?_)
    refine Rendering.within_bind (ih item hitem fun t ht => h t ?_) fun text => ?_
    · exact Schema.mem_nodeTargets.mpr ⟨item, hitem, ht⟩
    · exact within_lift_of_settles hfail (indented_settles _)
  | union info choice variants ih =>
    rw [ofNode_union]
    refine Rendering.within_map (collect_within fun variant hvariant => ?_)
    refine Rendering.within_map (ih variant hvariant fun t ht => h t ?_)
    exact Schema.mem_nodeTargets.mpr ⟨variant, hvariant, ht⟩
  | intersection info parts ih =>
    rw [ofNode_intersection]
    refine Rendering.within_map (collect_within fun part hpart => ?_)
    refine Rendering.within_bind (ih part hpart fun t ht => h t ?_) fun text => ?_
    · exact Schema.mem_nodeTargets.mpr ⟨part, hpart, ht⟩
    · exact Rendering.within_map (within_lift_of_settles hfail (operandText_settles part text))

end SchemaTypes.Expression

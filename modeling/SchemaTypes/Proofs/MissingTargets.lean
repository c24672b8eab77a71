import Mathlib.Logic.Relation
import SchemaTypes.Proofs.Precedence
import SchemaTypes.Proofs.Substitution

/-!
# Missing targets in shallow mode

In shallow mode references are named, so most of them may lead nowhere. Two kinds are looked up all
the same: the type of a property, since the comment above the property describes what the type leads
to, and the part of an intersection, since parentheses depend on it. `Node.lookedUp` lists these
references, from left to right.

A reference that is looked up starts a chain. `BreaksAt` says that a link of the chain leads
nowhere, `Intact` that none does; a chain that runs in a circle is intact. Writing a tree `Hinges`
on the references that are looked up: it gives a value if their chains are intact, and it fails at
the broken link of the first chain that is not.
-/

namespace SchemaTypes

namespace Schema

/-! ## References that are looked up -/

/-- A node as a list of references: itself, if it is one. -/
def Node.asReferences : Node → List Json
  | .reference _ target => [target]
  | _ => []

mutual

/-- The references in a tree that are types of properties or parts of intersections, from left to
right. -/
def Node.lookedUp : Node → List Json
  | .record _ properties _ => lookedUpAsTypes properties
  | .array _ item => item.lookedUp
  | .tuple _ nodes | .union _ _ nodes => lookedUpInside nodes
  | .intersection _ parts => lookedUpAsParts parts
  | _ => []

/-- The references that are looked up for some properties. -/
def lookedUpAsTypes : List Property → List Json
  | [] => []
  | .mk _ _ _ type :: rest => type.asReferences ++ type.lookedUp ++ lookedUpAsTypes rest

/-- The references that are looked up inside of some trees. -/
def lookedUpInside : List Node → List Json
  | [] => []
  | node :: rest => node.lookedUp ++ lookedUpInside rest

/-- The references that are looked up for the parts of an intersection. -/
def lookedUpAsParts : List Node → List Json
  | [] => []
  | part :: rest => part.asReferences ++ part.lookedUp ++ lookedUpAsParts rest

end

theorem lookedUpAsTypes_eq_flatMap (properties : List Property) :
    lookedUpAsTypes properties =
      properties.flatMap fun p => p.type.asReferences ++ p.type.lookedUp := by
  induction properties with
  | nil => rw [lookedUpAsTypes, List.flatMap_nil]
  | cons p rest ih =>
    obtain ⟨path, name, required, type⟩ := p
    rw [lookedUpAsTypes, List.flatMap_cons, ih]
    rfl

theorem lookedUpInside_eq_flatMap (nodes : List Node) :
    lookedUpInside nodes = nodes.flatMap Node.lookedUp := by
  induction nodes with
  | nil => rw [lookedUpInside, List.flatMap_nil]
  | cons node rest ih => rw [lookedUpInside, List.flatMap_cons, ih]

theorem lookedUpAsParts_eq_flatMap (parts : List Node) :
    lookedUpAsParts parts = parts.flatMap fun part => part.asReferences ++ part.lookedUp := by
  induction parts with
  | nil => rw [lookedUpAsParts, List.flatMap_nil]
  | cons part rest ih => rw [lookedUpAsParts, List.flatMap_cons, ih]

/-- A node that is no reference has none of its own. -/
theorem Node.asReferences_of_not_isReference {node : Node} (h : node.isReference = false) :
    node.asReferences = [] := by
  cases node with
  | reference info target => cases h
  | _ => rfl

/-- A reference has none inside of it, and any other node is none, so the order of the two does not
matter. -/
theorem Node.lookedUp_append_asReferences (node : Node) :
    node.lookedUp ++ node.asReferences = node.asReferences ++ node.lookedUp := by
  cases href : node.isReference with
  | false => rw [asReferences_of_not_isReference href, List.append_nil, List.nil_append]
  | true =>
    obtain ⟨info, target, rfl⟩ := exists_of_isReference href
    rfl

/-! ## Well-typed trees -/

/-- A description is a text, unless it counts as false. -/
def DescribedInText (doc : Documentation) : Prop :=
  doc.description.truthy = true → ∃ text, doc.description = .str text

/-- All references and descriptions in a tree are texts. -/
inductive Node.WellTyped : Node → Prop where
  | mk {node : Node} (href : ∀ target ∈ node.asReferences, ∃ r, target = .str r)
      (hdoc : DescribedInText node.info.doc) (hbelow : ∀ child ∈ node.children, child.WellTyped) :
      node.WellTyped

theorem Node.WellTyped.doc {node : Node} (h : node.WellTyped) : DescribedInText node.info.doc := by
  obtain ⟨-, hdoc, -⟩ := h
  exact hdoc

theorem Node.WellTyped.child {node child : Node} (h : node.WellTyped)
    (hchild : child ∈ node.children) : child.WellTyped := by
  obtain ⟨-, -, hbelow⟩ := h
  exact hbelow child hchild

theorem Node.WellTyped.exists_text {info : Info} {target : Json}
    (h : (Node.reference info target).WellTyped) : ∃ r, target = .str r := by
  obtain ⟨href, -, -⟩ := h
  exact href target (List.mem_singleton.mpr rfl)

end Schema

namespace Expression

open Schema (Node Property DescribedInText)
open Relation (ReflTransGen)

/-! ## Chains -/

/-- A reference leads to a schema that is nothing but another reference. -/
def Forwards (document : Json) (r r' : String) : Prop :=
  ∃ info, targetNode document (.str r) = .ok (.reference info (.str r'))

/-- A link `q` of the chain that starts at the reference `r` leads nowhere. -/
def BreaksAt (document : Json) (r q : String) (problem : Pointer.Problem) : Prop :=
  ReflTransGen (Forwards document) r q ∧
    Reference.target document q = .error (.unresolvable q problem)

/-- All links of the chain that starts at a reference lead somewhere. -/
def Intact (document : Json) (r : String) : Prop :=
  ∀ q, ReflTransGen (Forwards document) r q → ∃ schema, Reference.target document q = .ok schema

/-- All targets in the chain that starts at a reference are schemas and well typed. -/
def TypedAlong (document : Json) (r : String) : Prop :=
  ∀ q, ReflTransGen (Forwards document) r q → ∀ schema, Reference.target document q = .ok schema →
    ∃ node, Node.ofJson schema q = .ok node ∧ node.WellTyped

variable {document : Json}

theorem Intact.not_breaksAt {r q : String} {problem : Pointer.Problem} (h : Intact document r) :
    ¬ BreaksAt document r q problem := by
  rintro ⟨hlink, hmissing⟩
  obtain ⟨schema, hschema⟩ := h q hlink
  rw [hschema] at hmissing
  cases hmissing

/-- A reference that leads nowhere is unresolvable, and nothing else is wrong with it. -/
theorem target_eq_error {q : String} {e : Failure} (h : Reference.target document q = .error e) :
    ∃ problem, e = .unresolvable q problem := by
  unfold Reference.target at h
  split at h
  · exact ⟨_, (Except.error.inj h).symm⟩
  · split at h
    · exact ⟨_, (Except.error.inj h).symm⟩
    · cases h
    · exact ⟨_, (Except.error.inj h).symm⟩

/-- The tree that a reference leads to is read from its target. -/
theorem targetNode_text (document : Json) (q : String) :
    targetNode document (.str q) =
      Reference.target document q >>= fun schema => Node.ofJson schema q := rfl

theorem Forwards.unique {q r r' : String} (h : Forwards document q r)
    (h' : Forwards document q r') : r = r' := by
  obtain ⟨info, hinfo⟩ := h
  obtain ⟨info', hinfo'⟩ := h'
  have heq := Except.ok.inj (hinfo.symm.trans hinfo')
  injection heq with _ htext
  exact Json.str.inj htext

theorem Forwards.exists_target {q r : String} (h : Forwards document q r) :
    ∃ schema, Reference.target document q = .ok schema := by
  obtain ⟨info, hinfo⟩ := h
  rw [targetNode_text] at hinfo
  obtain ⟨schema, hschema, -⟩ := bind_eq_ok.mp hinfo
  exact ⟨schema, hschema⟩

/-- If some links lead on to each other only, and the first one is among them, then there are no
others. -/
theorem mem_of_link {r q : String} {links : List String} (hfirst : r ∈ links)
    (hclosed : ∀ l ∈ links, ∀ l', Forwards document l l' → l' ∈ links)
    (hlink : ReflTransGen (Forwards document) r q) : q ∈ links := by
  induction hlink with
  | refl => exact hfirst
  | tail _ hstep ih => exact hclosed _ ih _ hstep

/-- A chain is intact if the links up to one that was seen before, or up to one that leads on to no
other, lead somewhere. -/
theorem intact_of_seen {r r' : String} {seen : List String} (hfirst : r ∈ r' :: seen)
    (hseen : ∀ q ∈ seen, ∃ q' ∈ r' :: seen, Forwards document q q')
    (hlast : r' ∈ seen ∨ (∃ schema, Reference.target document r' = .ok schema) ∧
      ∀ q, ¬ Forwards document r' q) : Intact document r := by
  have hclosed : ∀ l ∈ r' :: seen, ∀ l', Forwards document l l' → l' ∈ r' :: seen := by
    intro l hl l' hstep
    rcases List.mem_cons.mp hl with rfl | hmem
    · rcases hlast with hmem | ⟨-, hstop⟩
      · obtain ⟨q', hq', hforwards⟩ := hseen l hmem
        rwa [hstep.unique hforwards]
      · exact absurd hstep (hstop l')
    · obtain ⟨q', hq', hforwards⟩ := hseen l hmem
      rwa [hstep.unique hforwards]
  intro q hlink
  rcases List.mem_cons.mp (mem_of_link hfirst hclosed hlink) with rfl | hmem
  · rcases hlast with hmem | ⟨hthere, -⟩
    · obtain ⟨q', -, hforwards⟩ := hseen q hmem
      exact hforwards.exists_target
    · exact hthere
  · obtain ⟨q', -, hforwards⟩ := hseen q hmem
    exact hforwards.exists_target

/-! ## Results that hinge on references -/

/-- A result hinges on some references: it is a value if the chains from all of them are intact, and
else it is a failure at the broken link of the first chain that is not. -/
inductive Hinges (document : Json) {α : Type} : List Json → Except Failure α → Prop where
  | stands {targets : List Json} {a : α}
      (h : ∀ target ∈ targets, ∃ r, target = .str r ∧ Intact document r) :
      Hinges document targets (.ok a)
  | falls {front back : List Json} {r q : String} {problem : Pointer.Problem}
      (hfront : ∀ target ∈ front, ∃ r, target = .str r ∧ Intact document r)
      (h : BreaksAt document r q problem) :
      Hinges document (front ++ .str r :: back) (.error (.unresolvable q problem))

namespace Hinges

variable {α β : Type} {targets targets' : List Json} {x : Except Failure α}

/-- A value that needs no references. -/
theorem ok (a : α) : Hinges document [] (.ok a) :=
  .stands fun _ h => absurd h List.not_mem_nil

/-- A result that goes on with a value hinges on more references behind those of the value. -/
theorem bind {f : α → Except Failure β} (hx : Hinges document targets x)
    (hf : ∀ a, x = .ok a → Hinges document targets' (f a)) :
    Hinges document (targets ++ targets') (x >>= f) := by
  cases hx with
  | falls hfront hbreak =>
    rw [List.append_assoc, List.cons_append]
    exact .falls hfront hbreak
  | @stands _ a hintact =>
    change Hinges document (targets ++ targets') (f a)
    cases hresult : f a with
    | ok b =>
      have hlater := hf a rfl
      rw [hresult] at hlater
      cases hlater with
      | stands hintact' =>
        refine .stands fun target htarget => ?_
        rcases List.mem_append.mp htarget with hmem | hmem
        · exact hintact target hmem
        · exact hintact' target hmem
    | error e =>
      have hlater := hf a rfl
      rw [hresult] at hlater
      cases hlater with
      | @falls front back r q problem hfront hbreak =>
        rw [← List.append_assoc]
        refine .falls (fun target htarget => ?_) hbreak
        rcases List.mem_append.mp htarget with hmem | hmem
        · exact hintact target hmem
        · exact hfront target hmem

theorem map {g : α → β} (hx : Hinges document targets x) : Hinges document targets (g <$> x) := by
  cases hx with
  | stands hintact => exact .stands hintact
  | falls hfront hbreak => exact .falls hfront hbreak

/-- What is done with a value and cannot fail needs no more references. -/
theorem bind_ok {f : α → Except Failure β} (hx : Hinges document targets x)
    (hf : ∀ a, x = .ok a → ∃ b, f a = .ok b) : Hinges document targets (x >>= f) := by
  have hbind : Hinges document (targets ++ []) (x >>= f) := by
    refine hx.bind fun a ha => ?_
    obtain ⟨b, hb⟩ := hf a ha
    rw [hb]
    exact .ok b
  rwa [List.append_nil] at hbind

/-- Things that are written one after the other hinge on their references in the same order. -/
theorem collect {A : Type} {one : A → Rendering (List String)} {targetsOf : A → List Json}
    {underWay : String → Bool} {l : List A}
    (h : ∀ a ∈ l, Hinges document (targetsOf a) ((one a).outcome underWay)) :
    Hinges document (l.flatMap targetsOf) ((Expression.collect one l).outcome underWay) := by
  induction l with
  | nil => exact .ok []
  | cons a rest ih =>
    rw [Expression.collect, Rendering.outcome_bind, List.flatMap_cons]
    refine (h a List.mem_cons_self).bind fun texts _ => ?_
    rw [Rendering.outcome_bind]
    refine (ih fun b hb => h b (List.mem_cons_of_mem a hb)).bind_ok fun others _ => ?_
    exact ⟨texts ++ others, rfl⟩

end Hinges

/-! ## Following -/

/-- A node is looked up, and that hinges on some references; what is found has its description in
text. -/
structure LookedUp (document : Json) (targets : List Json) (x : Except Failure Node) : Prop where
  hinges : Hinges document targets x
  doc : ∀ node, x = .ok node → DescribedInText node.info.doc

theorem LookedUp.found {targets : List Json} {node : Node} (hdoc : DescribedInText node.info.doc)
    (h : ∀ target ∈ targets, ∃ r, target = .str r ∧ Intact document r) :
    LookedUp document targets (.ok node) :=
  ⟨.stands h, fun _ heq => Except.ok.inj heq ▸ hdoc⟩

theorem LookedUp.missing {r q : String} {problem : Pointer.Problem}
    (h : BreaksAt document r q problem) :
    LookedUp document [.str r] (.error (.unresolvable q problem)) := by
  have hfalls : Hinges document ([] ++ .str r :: [])
      (.error (.unresolvable q problem) : Except Failure Node) :=
    .falls (fun _ h => absurd h List.not_mem_nil) h
  exact ⟨hfalls, fun node heq => by cases heq⟩

/-- If every link that was seen leads to a link that was seen or is at hand, then this still holds
one link later. -/
theorem forwards_seen_of_step {seen : List String} {r next : String}
    (hstep : Forwards document r next)
    (hseen : ∀ q ∈ seen, ∃ q' ∈ r :: seen, Forwards document q q') :
    ∀ q ∈ r :: seen, ∃ q' ∈ next :: r :: seen, Forwards document q q' := by
  intro q hq
  rcases List.mem_cons.mp hq with rfl | hq
  · exact ⟨next, List.mem_cons_self, hstep⟩
  · obtain ⟨q', hq', hforwards⟩ := hseen q hq
    exact ⟨q', List.mem_cons_of_mem next hq', hforwards⟩

/-- Following a chain comes to a node if the chain is intact, and ends at its broken link otherwise.
What was seen before are the links between the first one and the one at hand. -/
theorem lookedUp_follow {r : String} (htyped : TypedAlong document r) {bound : Nat}
    {seen : List String} {info : Schema.Info} {r' : String}
    (hlink : ReflTransGen (Forwards document) r r') (hdoc : DescribedInText info.doc)
    (hfirst : r ∈ r' :: seen)
    (hseen : ∀ q ∈ seen, ∃ q' ∈ r' :: seen, Forwards document q q')
    (hbound : follow document bound seen (.reference info (.str r')) ≠ .error .boundExceeded) :
    LookedUp document [.str r] (follow document bound seen (.reference info (.str r'))) := by
  have hfound : ∀ {node : Node}, DescribedInText node.info.doc → Intact document r →
      LookedUp document [.str r] (.ok node) := by
    intro node hnode hintact
    refine .found hnode fun target htarget => ?_
    exact ⟨r, List.mem_singleton.mp htarget, hintact⟩
  by_cases hmem : r' ∈ seen
  · rw [follow_of_mem hmem]
    exact hfound hdoc (intact_of_seen hfirst hseen (Or.inl hmem))
  induction bound generalizing seen info r' with
  | zero => exact absurd (follow_zero_of_not_mem hmem info) hbound
  | succ bound ih =>
    rw [follow_of_not_mem hmem] at hbound ⊢
    cases htarget : Reference.target document r' with
    | error e =>
      obtain ⟨problem, rfl⟩ := target_eq_error htarget
      rw [targetNode_text, htarget]
      exact .missing ⟨hlink, htarget⟩
    | ok schema =>
      obtain ⟨node, hread, hwell⟩ := htyped r' hlink schema htarget
      have hnode : targetNode document (.str r') = .ok node := by
        rw [targetNode_text, htarget]
        exact hread
      rw [hnode] at hbound ⊢
      change LookedUp document [.str r] (follow document bound (r' :: seen) node)
      cases href : node.isReference with
      | false =>
        rw [follow_of_not_isReference href]
        refine hfound hwell.doc (intact_of_seen hfirst hseen (Or.inr ⟨⟨schema, htarget⟩, ?_⟩))
        rintro q ⟨info', hforwards⟩
        obtain rfl := Except.ok.inj (hnode.symm.trans hforwards)
        cases href
      | true =>
        obtain ⟨info', target, rfl⟩ := Schema.Node.exists_of_isReference href
        obtain ⟨next, rfl⟩ := hwell.exists_text
        have hstep : Forwards document r' next := ⟨info', hnode⟩
        have hfirst' : r ∈ next :: r' :: seen := List.mem_cons_of_mem next hfirst
        have hseen' : ∀ q ∈ r' :: seen, ∃ q' ∈ next :: r' :: seen, Forwards document q q' :=
          forwards_seen_of_step hstep hseen
        have hdoc' : DescribedInText info'.doc := hwell.doc
        -- A chain that comes back to a link it has seen is intact: it goes round in a circle.
        by_cases hmem' : next ∈ r' :: seen
        · rw [follow_of_mem hmem']
          exact hfound hdoc' (intact_of_seen hfirst' hseen' (Or.inl hmem'))
        · exact ih (hlink.tail hstep) hdoc' hfirst' hseen' hbound hmem'

/-- What a well-typed node describes hinges on the node, if it is a reference. -/
theorem lookedUp_described {node : Node} (hwell : node.WellTyped)
    (htyped : ∀ r, .str r ∈ node.targets → TypedAlong document r) :
    LookedUp document node.asReferences (described document node) := by
  cases href : node.isReference with
  | false =>
    rw [Node.asReferences_of_not_isReference href, described_of_not_isReference href]
    exact .found hwell.doc fun _ h => absurd h List.not_mem_nil
  | true =>
    obtain ⟨info, target, rfl⟩ := Schema.Node.exists_of_isReference href
    obtain ⟨r, rfl⟩ := hwell.exists_text
    have hdoc : DescribedInText info.doc := hwell.doc
    have hbound := (described_settles document (.reference info (.str r))).2
    rw [described_eq_follow] at hbound ⊢
    exact lookedUp_follow (htyped r (by simp [Node.targets])) .refl hdoc List.mem_cons_self
      (fun q hq => absurd hq List.not_mem_nil) hbound

/-! ## Trees -/

section Trees

variable {s : Scope} {f : Json → Rendering String} {underWay : String → Bool}

/-- A comment above a property hinges on the type, if that is a reference. -/
theorem hinges_commentOf {style : Comment.Style} (hstyle : s.settings.style = .ok style)
    {type : Node} (hwell : type.WellTyped)
    (htyped : ∀ r, .str r ∈ type.targets → TypedAlong s.document r) (required : Bool) :
    Hinges s.document type.asReferences (s.commentOf type required) := by
  have hlooked := lookedUp_described hwell htyped
  refine hlooked.hinges.bind_ok fun node hnode => ?_
  have hdoc := hlooked.doc node hnode
  rw [hstyle]
  change ∃ comment, propertyComment style node.info.doc required = .ok comment
  unfold propertyComment
  dsimp only
  split
  · next htruthy =>
    obtain ⟨text, htext⟩ := hdoc htruthy
    rw [htext]
    exact ⟨_, rfl⟩
  · exact ⟨_, rfl⟩

/-- Parentheses around a part hinge on the part, if it is a reference. -/
theorem hinges_operandText {part : Node} (hwell : part.WellTyped)
    (htyped : ∀ r, .str r ∈ part.targets → TypedAlong s.document r) (text : String) :
    Hinges s.document part.asReferences (s.operandText part text) :=
  (lookedUp_described hwell htyped).hinges.map

/-- In shallow mode items are put in brackets without being looked up. -/
theorem exists_arrayText (hdeep : s.settings.deep = false) (item : Node) (text : String) :
    ∃ array, s.arrayText item text = .ok array := by
  cases href : item.isReference with
  | false =>
    unfold Scope.arrayText
    rw [described_of_not_isReference href]
    split
    · exact ⟨_, rfl⟩
    · exact ⟨_, rfl⟩
  | true =>
    obtain ⟨info, target, rfl⟩ := Schema.Node.exists_of_isReference href
    unfold Scope.arrayText
    rw [hdeep]
    exact ⟨_, rfl⟩

theorem exists_indented {margin : String} (hindent : s.settings.indent = .ok margin)
    (text : String) : ∃ lines, s.indented text = .ok lines := by
  unfold Scope.indented
  rw [hindent]
  exact ⟨_, rfl⟩

/-- The lines of a property hinge on its type, first for the comment above it and then for the
type itself. -/
theorem hinges_ofProperty {style : Comment.Style} {margin : String}
    (hstyle : s.settings.style = .ok style) (hindent : s.settings.indent = .ok margin)
    {p : Schema.Property} (hwell : p.type.WellTyped)
    (htyped : ∀ r, .str r ∈ p.type.targets → TypedAlong s.document r)
    (htype : Hinges s.document p.type.lookedUp ((ofNode s f p.type).outcome underWay)) :
    Hinges s.document (p.type.asReferences ++ p.type.lookedUp)
      ((ofProperty s f p).outcome underWay) := by
  rw [ofProperty, Rendering.outcome_bind, Rendering.outcome_lift]
  refine (hinges_commentOf hstyle hwell htyped p.required).bind fun comment _ => ?_
  rw [Rendering.outcome_bind]
  refine htype.bind_ok fun text _ => ?_
  rw [Rendering.outcome_lift]
  exact exists_indented hindent _

/-- The lines of a place hinge on its type. -/
theorem hinges_ofPlace {margin : String} (hindent : s.settings.indent = .ok margin) {item : Node}
    (hitem : Hinges s.document item.lookedUp ((ofNode s f item).outcome underWay)) :
    Hinges s.document item.lookedUp ((ofPlace s f item).outcome underWay) := by
  rw [ofPlace, Rendering.outcome_bind]
  refine hitem.bind_ok fun text _ => ?_
  rw [Rendering.outcome_lift]
  exact exists_indented hindent _

/-- The operand of a part hinges on the part, first for its text and then for the parentheses. -/
theorem hinges_ofPart {part : Node} (hwell : part.WellTyped)
    (htyped : ∀ r, .str r ∈ part.targets → TypedAlong s.document r)
    (hpart : Hinges s.document part.lookedUp ((ofNode s f part).outcome underWay)) :
    Hinges s.document (part.lookedUp ++ part.asReferences)
      ((ofPart s f part).outcome underWay) := by
  rw [ofPart, Rendering.outcome_bind]
  refine hpart.bind fun text _ => ?_
  rw [Rendering.outcome_map, Rendering.outcome_lift]
  exact (hinges_operandText hwell htyped text).map

/-- In shallow mode a well-typed tree hinges on the references that are looked up in it. -/
theorem hinges_ofNode {style : Comment.Style} {margin : String} (hdeep : s.settings.deep = false)
    (hstyle : s.settings.style = .ok style) (hindent : s.settings.indent = .ok margin)
    (hf : ∀ r, ∃ text, (f (.str r)).outcome underWay = .ok text) {node : Node}
    (hwell : node.WellTyped)
    (htyped : ∀ r, .str r ∈ node.targets → TypedAlong s.document r) :
    Hinges s.document node.lookedUp ((ofNode s f node).outcome underWay) := by
  -- References are written by name here; chains count only where a node is looked up.
  induction node with
  | reference info target =>
    obtain ⟨r, rfl⟩ := hwell.exists_text
    obtain ⟨text, htext⟩ := hf r
    rw [ofNode_reference, htext]
    exact .ok text
  | enumeration _ _ | primitive _ _ | openArray _ | unknown _ _ =>
    rw [ofNode]
    exact .ok _
  | record info properties required ih =>
    rw [ofNode_record, Node.lookedUp, Schema.lookedUpAsTypes_eq_flatMap]
    split
    · next hempty =>
      rw [hempty]
      exact .ok _
    · rw [Rendering.outcome_map]
      refine Hinges.map (Hinges.collect fun p hp => ?_)
      have htype : p.type.WellTyped := hwell.child (List.mem_map_of_mem hp)
      have htargets : ∀ r, .str r ∈ p.type.targets → TypedAlong s.document r :=
        fun r hr => htyped r (Schema.mem_targets_record hp hr)
      exact hinges_ofProperty hstyle hindent htype htargets (ih p hp htype htargets)
  | array info item ih =>
    rw [ofNode_array, Node.lookedUp, Rendering.outcome_bind]
    have hitem : item.WellTyped := hwell.child (List.mem_singleton.mpr rfl)
    refine (ih hitem fun r hr => htyped r (by rwa [Node.targets])).bind_ok fun text _ => ?_
    rw [Rendering.outcome_lift]
    exact exists_arrayText hdeep item text
  | tuple info items ih =>
    rw [ofNode_tuple, Node.lookedUp, Schema.lookedUpInside_eq_flatMap, Rendering.outcome_map]
    refine Hinges.map (Hinges.collect fun item hitem => ?_)
    have htargets : ∀ r, .str r ∈ item.targets → TypedAlong s.document r :=
      fun r hr => htyped r (Schema.mem_nodeTargets.mpr ⟨item, hitem, hr⟩)
    exact hinges_ofPlace hindent (ih item hitem (hwell.child hitem) htargets)
  | union info choice variants ih =>
    rw [ofNode_union, Node.lookedUp, Schema.lookedUpInside_eq_flatMap, Rendering.outcome_map]
    refine Hinges.map (Hinges.collect fun variant hvariant => ?_)
    rw [ofVariant, Rendering.outcome_map]
    refine Hinges.map (ih variant hvariant (hwell.child hvariant) fun r hr => ?_)
    exact htyped r (Schema.mem_nodeTargets.mpr ⟨variant, hvariant, hr⟩)
  | intersection info parts ih =>
    rw [ofNode_intersection, Node.lookedUp, Schema.lookedUpAsParts_eq_flatMap,
      Rendering.outcome_map]
    refine Hinges.map (Hinges.collect fun part hpart => ?_)
    have htargets : ∀ r, .str r ∈ part.targets → TypedAlong s.document r :=
      fun r hr => htyped r (Schema.mem_nodeTargets.mpr ⟨part, hpart, hr⟩)
    rw [← Node.lookedUp_append_asReferences]
    exact hinges_ofPart (hwell.child hpart) htargets (ih part hpart (hwell.child hpart) htargets)

/-- In shallow mode a reference that is a text is written as its display name. -/
theorem exists_ofReference_shallow (hdeep : s.settings.deep = false)
    (inlined : List String → Node → Rendering String) (inlining : List String) (r : String) :
    ∃ text, (ofReference s inlined inlining (.str r)).outcome underWay = .ok text := by
  have hname : Reference.displayNameOf (.str r) = .ok (Reference.displayName r) := rfl
  rw [ofReference_of_ok hname, Rendering.outcome_bind, Rendering.outcome_meet]
  exact ⟨Reference.displayName r, by rw [if_pos (Or.inl hdeep)]; rfl⟩

end Trees

/-! ## Schemas -/

variable {root : Node}

/-- The links of a chain that starts at a reference in a tree are reached from the tree. -/
theorem Reached.link {r q : String} (h : Reached document root (.str r))
    (hlink : ReflTransGen (Forwards document) r q) : Reached document root (.str q) := by
  induction hlink with
  | refl => exact h
  | tail _ hstep ih =>
    obtain ⟨info, hnode⟩ := hstep
    exact ih.next hnode (by simp [Node.targets])

/-- All targets that are reached from a tree are schemas and well typed. -/
def TypedTargets (document : Json) (root : Node) : Prop :=
  ∀ q, Reached document root (.str q) → ∀ schema, Reference.target document q = .ok schema →
    ∃ node, Node.ofJson schema q = .ok node ∧ node.WellTyped

/-- All targets that are reached are well typed if those of known references are, which refer to
known references only, and so does the tree itself. -/
theorem TypedTargets.of_known (known : List String)
    (hroot : ∀ target ∈ root.targets, ∃ r ∈ known, target = .str r)
    (hknown : ∀ r ∈ known, ∀ schema, Reference.target document r = .ok schema →
      ∃ node, Node.ofJson schema r = .ok node ∧ node.WellTyped ∧
        ∀ target ∈ node.targets, ∃ r' ∈ known, target = .str r') :
    TypedTargets document root := by
  have hreached : ∀ target, Reached document root target → ∃ r ∈ known, target = .str r := by
    intro target h
    induction h with
    | here h => exact hroot _ h
    | next _ hnode h' ih =>
      obtain ⟨r, hr, rfl⟩ := ih
      rw [targetNode_text] at hnode
      obtain ⟨schema, hschema, hread⟩ := bind_eq_ok.mp hnode
      obtain ⟨node, hnode', -, hrefers⟩ := hknown r hr schema hschema
      obtain rfl := Except.ok.inj (hread.symm.trans hnode')
      exact hrefers _ h'
  intro q hq schema hschema
  obtain ⟨r, hr, heq⟩ := hreached _ hq
  obtain rfl := Json.str.inj heq
  obtain ⟨node, hnode, hwell, -⟩ := hknown q hr schema hschema
  exact ⟨node, hnode, hwell⟩

/-- In shallow mode a well-typed schema hinges on the references that are looked up in its tree. -/
theorem hinges_ofSchema {settings : Settings} {schema : Json} {style : Comment.Style}
    {margin : String} (underWay : String → Bool) (hdeep : settings.deep = false)
    (hstyle : settings.style = .ok style) (hindent : settings.indent = .ok margin)
    (hroot : Node.ofJson schema "#" = .ok root) (hwell : root.WellTyped)
    (htargets : TypedTargets document root) :
    Hinges document root.lookedUp ((ofSchema document settings schema).outcome underWay) := by
  rw [ofSchema_eq_ofTree, hroot]
  refine hinges_ofNode (s := ⟨document, settings⟩) hdeep hstyle hindent
    (exists_ofReference_shallow hdeep _ _) hwell fun r hr q hlink => ?_
  exact htargets q (.link (.here hr) hlink)

/-- In shallow mode a well-typed schema with a style and a margin fails to be written for want of a
target exactly if a reference is looked up whose chain breaks. It is then the broken link of the
first such chain that is reported. If no chain breaks, a text is written, whatever other references
lead to. -/
theorem ofSchema_unresolvable_iff (document schema : Json) (settings : Settings)
    (style : Comment.Style) (margin : String) (root : Node) (underWay : String → Bool)
    (hdeep : settings.deep = false) (hstyle : settings.style = .ok style)
    (hindent : settings.indent = .ok margin) (hroot : Node.ofJson schema "#" = .ok root)
    (hwell : root.WellTyped) (htargets : TypedTargets document root) :
    ((∃ q problem, (ofSchema document settings schema).outcome underWay =
        .error (.unresolvable q problem)) ↔
      ∃ r, .str r ∈ root.lookedUp ∧ ∃ q problem, BreaksAt document r q problem) ∧
    (∀ q problem, (ofSchema document settings schema).outcome underWay =
        .error (.unresolvable q problem) →
      ∃ front r back, root.lookedUp = front ++ .str r :: back ∧
        (∀ r', .str r' ∈ front → Intact document r') ∧ BreaksAt document r q problem) ∧
    ((¬ ∃ r, .str r ∈ root.lookedUp ∧ ∃ q problem, BreaksAt document r q problem) →
      ∃ text, (ofSchema document settings schema).outcome underWay = .ok text) := by
  have hhinges := hinges_ofSchema underWay hdeep hstyle hindent hroot hwell htargets
  generalize (ofSchema document settings schema).outcome underWay = result at hhinges ⊢
  generalize root.lookedUp = targets at hhinges ⊢
  cases hhinges with
  | @stands _ text hintact =>
    have hnone : ¬ ∃ r, .str r ∈ targets ∧ ∃ q problem, BreaksAt document r q problem := by
      rintro ⟨r, hr, q, problem, hbreak⟩
      obtain ⟨r', heq, hr'⟩ := hintact _ hr
      obtain rfl := Json.str.inj heq
      exact hr'.not_breaksAt hbreak
    refine ⟨⟨?_, fun h => absurd h hnone⟩, ?_, fun _ => ⟨text, rfl⟩⟩
    · rintro ⟨q, problem, hfailed⟩
      cases hfailed
    · intro q problem hfailed
      cases hfailed
  | @falls front back r q problem hfront hbreak =>
    have hsome : ∃ r', .str r' ∈ front ++ .str r :: back ∧
        ∃ q problem, BreaksAt document r' q problem :=
      ⟨r, List.mem_append_right front List.mem_cons_self, q, problem, hbreak⟩
    refine ⟨⟨fun _ => hsome, fun _ => ⟨q, problem, rfl⟩⟩, ?_, fun h => absurd hsome h⟩
    rintro q' problem' hfailed
    injection hfailed with hsame
    injection hsame with hq hproblem
    subst hq hproblem
    refine ⟨front, r, back, rfl, fun r' hr' => ?_, hbreak⟩
    obtain ⟨r'', heq, hr''⟩ := hfront _ hr'
    obtain rfl := Json.str.inj heq
    exact hr''

/-- A document with two names for each other, and a name for something that is not there. -/
def namesDocument : Json :=
  .obj [("definitions", .obj [
    ("Loop", .obj [("$ref", .str "#/definitions/Back")]),
    ("Back", .obj [("$ref", .str "#/definitions/Loop")]),
    ("Alias", .obj [("$ref", .str "#/definitions/Gone")])])]

/-- A reference to a definition, as a node without documentation. -/
def named (path name : String) : Node :=
  .reference ⟨path, {}⟩ (.str ("#/definitions/" ++ name))

/-- A schema with items of a type that is not there, and with one of the two names as a property. -/
def loopInUse : Json :=
  .obj [("properties", .obj [
    ("lost", .obj [("type", .str "array"), ("items", .obj [("$ref", .str "#/definitions/Lost")])]),
    ("loop", .obj [("$ref", .str "#/definitions/Loop")])])]

/-- The tree of `loopInUse`. -/
def loopTree : Node :=
  .record ⟨"#", {}⟩ [
    .mk "#/properties/lost" "lost" false
      (.array ⟨"#/properties/lost", {}⟩ (named "#/properties/lost/items" "Lost")),
    .mk "#/properties/loop" "loop" false (named "#/properties/loop" "Loop")] []

/-- A schema with the name for something that is not there as a part, between one of the two names
and another reference that leads nowhere. -/
def aliasInUse : Json :=
  .obj [("allOf", .arr [
    .obj [("$ref", .str "#/definitions/Loop")],
    .obj [("$ref", .str "#/definitions/Alias")],
    .obj [("$ref", .str "#/definitions/Lost")]])]

/-- The tree of `aliasInUse`. -/
def aliasTree : Node :=
  .intersection ⟨"#", {}⟩
    [named "#/allOf/0" "Loop", named "#/allOf/1" "Alias", named "#/allOf/2" "Lost"]

theorem named_wellTyped (path name : String) : (named path name).WellTyped := by
  refine .mk (fun target htarget => ?_) (fun h => by cases h) fun child hchild => by cases hchild
  exact ⟨_, List.mem_singleton.mp htarget⟩

theorem typedTargets_namesDocument (names : List String)
    (hnames : names ⊆ ["Loop", "Back", "Alias", "Gone", "Lost"])
    (htargets : root.targets = names.map fun name => .str ("#/definitions/" ++ name)) :
    TypedTargets namesDocument root := by
  refine .of_known (["Loop", "Back", "Alias", "Gone", "Lost"].map ("#/definitions/" ++ ·))
    (fun target htarget => ?_) fun r hr schema hschema => ?_
  · rw [htargets] at htarget
    obtain ⟨name, hname, rfl⟩ := List.mem_map.mp htarget
    exact ⟨_, List.mem_map_of_mem (hnames hname), rfl⟩
  · have hread : ∀ path name, name ∈ ["Loop", "Back", "Alias", "Gone", "Lost"] →
        ∃ node, Node.ofJson (.obj [("$ref", .str ("#/definitions/" ++ name))]) path = .ok node ∧
          node.WellTyped ∧ ∀ target ∈ node.targets, ∃ r' ∈ ["Loop", "Back", "Alias", "Gone",
            "Lost"].map ("#/definitions/" ++ ·), target = .str r' := by
      intro path name hname
      refine ⟨named path name, rfl, named_wellTyped path name, fun target htarget => ?_⟩
      exact ⟨_, List.mem_map_of_mem hname, List.mem_singleton.mp htarget⟩
    simp only [List.map_cons, List.map_nil, List.mem_cons, List.not_mem_nil, or_false] at hr
    rcases hr with rfl | rfl | rfl | rfl | rfl
    · obtain rfl := Except.ok.inj hschema
      exact hread _ "Back" (by decide)
    · obtain rfl := Except.ok.inj hschema
      exact hread _ "Loop" (by decide)
    · obtain rfl := Except.ok.inj hschema
      exact hread _ "Gone" (by decide)
    · cases hschema
    · cases hschema

/-- The two names for each other are a circle, and so their chain is intact. -/
theorem loop_intact : Intact namesDocument "#/definitions/Loop" := by
  have hloop : Forwards namesDocument "#/definitions/Loop" "#/definitions/Back" := ⟨_, rfl⟩
  have hback : Forwards namesDocument "#/definitions/Back" "#/definitions/Loop" := ⟨_, rfl⟩
  have hfirst : "#/definitions/Loop" ∈
      "#/definitions/Loop" :: ["#/definitions/Back", "#/definitions/Loop"] := by
    decide
  refine intact_of_seen hfirst (fun q hq => ?_) (Or.inl (by decide))
  simp only [List.mem_cons, List.not_mem_nil, or_false] at hq
  rcases hq with rfl | rfl
  · exact ⟨_, by decide, hback⟩
  · exact ⟨_, by decide, hloop⟩

/-- A chain that runs in a circle does not break, and items may lead nowhere; but the name for
something that is not there breaks at what it is a name for, and this is reported, and not the part
behind it. -/
theorem ofSchema_unresolvable_iff_circles :
    (∃ text, (ofSchema namesDocument { deep := false } loopInUse).outcome (fun _ => false) =
      .ok text) ∧
    ∃ r problem, BreaksAt namesDocument r "#/definitions/Gone" problem ∧
      (ofSchema namesDocument { deep := false } aliasInUse).outcome (fun _ => false) =
        .error (.unresolvable "#/definitions/Gone" problem) := by
  constructor
  · have hwell : loopTree.WellTyped := by
      refine .mk (by simp [loopTree, Node.asReferences]) (fun h => by cases h)
        fun child hchild => ?_
      simp only [loopTree, Node.children, Property.type, List.map_cons, List.map_nil,
        List.mem_cons, List.not_mem_nil, or_false] at hchild
      rcases hchild with rfl | rfl
      · refine .mk (by simp [Node.asReferences]) (fun h => by cases h) fun child hchild => ?_
        rw [List.mem_singleton.mp hchild]
        exact named_wellTyped _ _
      · exact named_wellTyped _ _
    obtain ⟨-, -, hwritten⟩ := ofSchema_unresolvable_iff namesDocument loopInUse
      { deep := false } .line "  " loopTree (fun _ => false) rfl rfl rfl rfl hwell
      (typedTargets_namesDocument ["Lost", "Loop"] (by decide) rfl)
    refine hwritten ?_
    rintro ⟨r, hr, q, problem, hbreak⟩
    obtain rfl : r = "#/definitions/Loop" := by
      simpa [loopTree, named, Node.lookedUp, Schema.lookedUpAsTypes, Node.asReferences] using hr
    exact loop_intact.not_breaksAt hbreak
  · have hwell : aliasTree.WellTyped := by
      refine .mk (by simp [aliasTree, Node.asReferences]) (fun h => by cases h)
        fun child hchild => ?_
      simp only [aliasTree, Node.children, List.mem_cons, List.not_mem_nil, or_false] at hchild
      rcases hchild with rfl | rfl | rfl
      · exact named_wellTyped _ _
      · exact named_wellTyped _ _
      · exact named_wellTyped _ _
    obtain ⟨-, hreported, -⟩ := ofSchema_unresolvable_iff namesDocument aliasInUse
      { deep := false } .line "  " aliasTree (fun _ => false) rfl rfl rfl rfl hwell
      (typedTargets_namesDocument ["Loop", "Alias", "Lost"] (by decide) rfl)
    obtain ⟨problem, hproblem⟩ : ∃ problem,
        (ofSchema namesDocument { deep := false } aliasInUse).outcome (fun _ => false) =
          .error (.unresolvable "#/definitions/Gone" problem) := ⟨_, rfl⟩
    obtain ⟨front, r, back, -, -, hbreak⟩ := hreported _ problem hproblem
    exact ⟨r, problem, hbreak, hproblem⟩

/-- A schema with a single property. -/
def letterInUse : Json :=
  .obj [("properties", .obj [("a", .obj [("type", .str "string")])])]

/-- Without references no chain breaks; but the comment above a property asks for a style, and so no
text is written if a number is given in its place. -/
theorem ofSchema_number_style :
    ∃ settings root, Settings.ofMembers true [("deep", .bool false), ("comment_style", .int 5)] =
        .ok settings ∧ settings.deep = false ∧ settings.indent = .ok "  " ∧
      Node.ofJson letterInUse "#" = .ok root ∧ root.WellTyped ∧ root.targets = [] ∧
      (¬ ∃ r, .str r ∈ root.lookedUp ∧ ∃ q problem, BreaksAt (.obj []) r q problem) ∧
      ¬ ∃ text, (ofSchema (.obj []) settings letterInUse).outcome (fun _ => false) = .ok text := by
  refine ⟨{ deep := false, style := .error (.int 5) }, .record ⟨"#", {}⟩
    [.mk "#/properties/a" "a" false (.primitive ⟨"#/properties/a", {}⟩ .string)] [],
    rfl, rfl, rfl, rfl, ?_, rfl, ?_, ?_⟩
  · refine .mk (by simp [Node.asReferences]) (fun h => by cases h) fun child hchild => ?_
    rw [List.mem_singleton.mp hchild]
    exact .mk (by simp [Node.asReferences, Property.type]) (fun h => by cases h)
      fun child hchild => by cases hchild
  · rintro ⟨r, hr, -⟩
    cases hr
  · rintro ⟨text, htext⟩
    cases htext

end Expression

end SchemaTypes

import Mathlib.Data.List.Forall2
import SchemaTypes.Proofs.Grammar
import SchemaTypes.Proofs.Inlining

/-!
# Operators bind as they should

A schema is written as a text of the grammar, by a derivation that goes along its tree: every item
of an array is written as a primary with brackets behind it, or in brackets of its own; every part
of an intersection is an intersection, or it is put in parentheses; the variants of a union
contribute their operands. `Follows` says that a derivation goes along a tree in this way.

Where brackets are needed is decided by the node that a reference describes, whereas the text comes
from the reference itself, which may be named or inlined. The two agree since a target is inlined as
long as its name is new, and then its link is new as well: what is written is either an identifier,
or the text of the described node. `Spelled` carries this along, as the statement that the
derivation of a text `Fits` whatever node is described.
-/

namespace SchemaTypes

namespace Schema.Node

/-- The nodes right below a node. -/
def children : Node → List Node
  | record _ properties _ => properties.map Property.type
  | array _ item => [item]
  | tuple _ nodes | union _ _ nodes | intersection _ nodes => nodes
  | _ => []

/-- Whether a node has no operands where it should have some. -/
def isVoid : Node → Bool
  | enumeration _ values => values.isEmpty
  | union _ _ nodes | intersection _ nodes => nodes.isEmpty
  | _ => false

end Schema.Node

namespace Expression

open Schema (Node Property)
open Reference (displayName displayNameOf)
open Grammar

variable {ident : String → Prop}

/-! ## Derivations along a tree -/

/-- The margin of one level, or none if it is no text. -/
def Settings.margin (settings : Settings) : String :=
  match settings.indent with
  | .ok margin => margin
  | .error _ => ""

/-- A reference is named, and not inlined, in shallow mode, and where its name is being inlined or
is under way. -/
def Scope.Names (s : Scope) (underWay : String → Bool) (inlining : List String) (name : String) :
    Prop :=
  s.settings.deep = false ∨ name ∈ inlining ∨ underWay name = true

/-- A member is headed like a property: by its comment, its name, and the mark that it is not
required. -/
inductive Scope.Heads (s : Scope) (p : Property) : Member ident → Prop where
  | mk (remark : Remark) (type : Union ident)
      (h : s.commentOf p.type p.required = .ok remark.comment.text) :
      Heads s p (.mk remark p.name p.required type)

/-- The type of a member. -/
def Grammar.Member.type : Member ident → Union ident
  | .mk _ _ _ type => type

/-- A derivation goes along a tree, which is written inside targets of the names `inlining`. -/
inductive Follows (s : Scope) (underWay : String → Bool) :
    List String → Node → Union ident → Prop where
  | named {inlining : List String} {info : Schema.Info} {target : Json} {name : String}
      (hname : displayNameOf target = .ok name) (h : s.Names underWay inlining name)
      (hident : ident name) :
      Follows s underWay inlining (.reference info target) (.ofPrimary (.identifier name hident))
  | inlined {inlining : List String} {info : Schema.Info} {target : Json} {name : String}
      {node : Node} {u : Union ident} (hname : displayNameOf target = .ok name)
      (h : ¬ s.Names underWay inlining name) (hnode : targetNode s.document target = .ok node)
      (hu : Follows s underWay (name :: inlining) node u) :
      Follows s underWay inlining (.reference info target) u
  | enumeration {inlining : List String} {info : Schema.Info} (v : Json) (vs : List Json) :
      Follows s underWay inlining (.enumeration info (v :: vs)) (.literals v vs)
  | primitive {inlining : List String} {info : Schema.Info} (name : Schema.Primitive)
      (hident : ident (primitiveType name)) :
      Follows s underWay inlining (.primitive info name) (.ofPrimary (.identifier _ hident))
  | unknown {inlining : List String} {info : Schema.Info} (declared : Json)
      (hident : ident s.settings.defaultType.name) :
      Follows s underWay inlining (.unknown info declared) (.ofPrimary (.identifier _ hident))
  | object {inlining : List String} {info : Schema.Info} (required : List Json)
      (hident : ident "object") :
      Follows s underWay inlining (.record info [] required) (.ofPrimary (.identifier _ hident))
  | record {inlining : List String} {info : Schema.Info} {properties : List Property}
      {required : List Json} {members : List (Member ident)} (hne : properties ≠ [])
      (hheads : List.Forall₂ s.Heads properties members)
      (htypes : ∀ p m, (p, m) ∈ properties.zip members →
        Follows s underWay inlining p.type m.type) :
      Follows s underWay inlining (.record info properties required) (.ofPrimary (.record members))
  | openArray {inlining : List String} {info : Schema.Info} :
      Follows s underWay inlining (.openArray info) (.ofPrimary .brackets)
  | array {inlining : List String} {info : Schema.Info} {item : Node} {u : Union ident}
      {array : Suffixed ident} (h : Follows s underWay inlining item u) (hitems : u.Items array) :
      Follows s underWay inlining (.array info item) (.ofSuffixed array)
  | tuple {inlining : List String} {info : Schema.Info} {items : List Node}
      {places : List (Union ident)} (hlength : items.length = places.length)
      (h : ∀ item u, (item, u) ∈ items.zip places → Follows s underWay inlining item u) :
      Follows s underWay inlining (.tuple info items) (.ofPrimary (.tuple places))
  | union {inlining : List String} {info : Schema.Info} {choice : Schema.Choice}
      {variants : List Node} {u : Union ident} {us : List (Union ident)}
      (hlength : variants.length = (u :: us).length)
      (h : ∀ variant v, (variant, v) ∈ variants.zip (u :: us) →
        Follows s underWay inlining variant v) :
      Follows s underWay inlining (.union info choice variants) (u.concat us)
  | intersection {inlining : List String} {info : Schema.Info} {parts : List Node}
      {o : Union ident × Intersection ident} {os : List (Union ident × Intersection ident)}
      (hlength : parts.length = (o :: os).length)
      (h : ∀ part o', (part, o') ∈ parts.zip (o :: os) → Follows s underWay inlining part o'.1)
      (hoperands : ∀ part o', (part, o') ∈ parts.zip (o :: os) → o'.1.Operand o'.2) :
      Follows s underWay inlining (.intersection info parts)
        (.single (o.2.concat (os.map Prod.snd)))

/-- The nodes that are written, each with the names that are being inlined around it: the nodes of
the tree, and those of the targets that are inlined. -/
inductive Visited (s : Scope) (underWay : String → Bool) (root : Node) :
    List String → Node → Prop where
  | root : Visited s underWay root [] root
  | child {inlining : List String} {node child : Node} (h : Visited s underWay root inlining node)
      (hchild : child ∈ node.children) : Visited s underWay root inlining child
  | target {inlining : List String} {info : Schema.Info} {target : Json} {name : String}
      {node : Node} (h : Visited s underWay root inlining (.reference info target))
      (hname : displayNameOf target = .ok name) (hnew : ¬ s.Names underWay inlining name)
      (hnode : targetNode s.document target = .ok node) :
      Visited s underWay root (name :: inlining) node

/-- No other nodes are visited than some that hold the tree, and with a node those below it and the
targets of references. -/
theorem Visited.mem_of_closed {s : Scope} {underWay : String → Bool} {root : Node}
    {nodes : List Node} (hroot : root ∈ nodes)
    (hchildren : ∀ node ∈ nodes, ∀ child ∈ node.children, child ∈ nodes)
    (htargets : ∀ info target, .reference info target ∈ nodes →
      ∀ node, targetNode s.document target = .ok node → node ∈ nodes)
    {inlining : List String} {node : Node} (h : Visited s underWay root inlining node) :
    node ∈ nodes := by
  induction h with
  | root => exact hroot
  | child h hchild ih => exact hchildren _ ih _ hchild
  | target h hname hnew hnode ih => exact htargets _ _ ih _ hnode

/-! ## Derivations that fit a described node -/

/-- A derivation fits a node that is described: what is not put in brackets on account of the node
needs none. -/
structure Fits (d : Node) (u : Union ident) : Prop where
  suffixed : isCompound d = false → ∃ t, u = .ofSuffixed t
  single : isAlternative d = false → ∃ i, u = .single i

theorem fits_ofSuffixed (d : Node) (t : Suffixed ident) : Fits d (.ofSuffixed t) :=
  ⟨fun _ => ⟨t, rfl⟩, fun _ => ⟨_, rfl⟩⟩

/-- On account of an alternative, everything that needs brackets is put in brackets. -/
theorem fits_of_isAlternative {d : Node} (h : isAlternative d = true) (u : Union ident) :
    Fits d u := by
  have hcompound : isCompound d = true := by
    cases d <;> first | rfl | cases h
  refine ⟨fun hnot => ?_, fun hnot => ?_⟩
  · rw [hcompound] at hnot
    cases hnot
  · rw [h] at hnot
    cases hnot

theorem fits_intersection (info : Schema.Info) (parts : List Node) (i : Intersection ident) :
    Fits (.intersection info parts) (.single i) :=
  ⟨fun h => (by cases h), fun _ => ⟨i, rfl⟩⟩

/-- A text is spelled by a derivation that goes along a tree and fits the node at the end of its
chain of references, if the chain has not come by references that are being inlined. -/
structure Spelled (s : Scope) (underWay : String → Bool) (inlining : List String) (node : Node)
    (text : String) (u : Union ident) : Prop where
  follows : Follows s underWay inlining node u
  text_eq : u.text s.settings.margin = text
  fits : ∀ {bound : Nat} {seen : List String} {d : Node},
    (∀ q ∈ seen, displayName q ∈ inlining) → follow s.document bound seen node = .ok d → Fits d u

section Spelled

variable {s : Scope} {underWay : String → Bool} {inlining : List String} {node : Node}
  {text : String} {u : Union ident}

/-- A tree that is no reference describes itself. -/
theorem spelled_of_not_isReference (hnot : node.isReference = false)
    (hfollows : Follows s underWay inlining node u) (htext : u.text s.settings.margin = text)
    (hfits : Fits node u) : Spelled s underWay inlining node text u := by
  refine ⟨hfollows, htext, fun _ hd => ?_⟩
  rw [follow_of_not_isReference hnot] at hd
  obtain rfl := Except.ok.inj hd
  exact hfits

theorem Spelled.fits_described (h : Spelled s underWay inlining node text u) {d : Node}
    (hd : described s.document node = .ok d) : Fits d u :=
  h.fits (List.forall_mem_nil _) (by rwa [← described_eq_follow])

/-- The items of an array are put in brackets where they need them. -/
theorem Spelled.exists_items (h : Spelled s underWay inlining node text u) {array : String}
    (harray : s.arrayText node text = .ok array) :
    ∃ t, u.Items t ∧ t.text s.settings.margin = array := by
  have hbare : ∀ t, u = .ofSuffixed t →
      ∃ t', u.Items t' ∧ t'.text s.settings.margin = text ++ "[]" := by
    rintro t rfl
    refine ⟨.array t, .bare t, ?_⟩
    rw [Suffixed.text, ← h.text_eq, Union.text_ofSuffixed]
  have hfollows := h.follows
  unfold Scope.arrayText at harray
  split at harray
  · next hdeep =>
    obtain rfl := Except.ok.inj harray
    cases hfollows with
    | named hname hnamed hident => exact hbare _ rfl
    | inlined hname hnot hnode hu => exact absurd (Or.inl hdeep) hnot
  · obtain ⟨d, hd, rfl⟩ := map_eq_ok.mp harray
    have hfits := h.fits_described hd
    unfold arrayOf
    split
    · refine ⟨.bare (.generic u), .generic u, ?_⟩
      rw [Suffixed.text, Primary.text, h.text_eq]
    · split
      · refine ⟨.array (.bare (.parens u)), .parens u, ?_⟩
        have hclose : ")" ++ "[]" = ")[]" := by decide
        rw [Suffixed.text, Suffixed.text, Primary.text, h.text_eq, String.append_assoc, hclose]
      · next hcompound =>
        obtain ⟨t, ht⟩ := hfits.suffixed (Bool.eq_false_iff.mpr hcompound)
        exact hbare t ht

/-- A part of an intersection is put in parentheses where it needs them. -/
theorem Spelled.exists_operand (h : Spelled s underWay inlining node text u) {operand : String}
    (hoperand : s.operandText node text = .ok operand) :
    ∃ i, u.Operand i ∧ i.text s.settings.margin = operand := by
  have hbare : ∀ i, u = .single i →
      ∃ i', u.Operand i' ∧ i'.text s.settings.margin = text := by
    rintro i rfl
    refine ⟨i, .bare i, ?_⟩
    rw [← h.text_eq, Union.text]
  obtain ⟨d, hd, rfl⟩ := map_eq_ok.mp hoperand
  have hfits := h.fits_described hd
  unfold operandOf
  split
  · refine ⟨.parens u, .parens u, ?_⟩
    rw [Intersection.parens, Intersection.text, Suffixed.text, Primary.text, h.text_eq]
  · next hopen =>
    cases halternative : isAlternative d with
    | false =>
      obtain ⟨i, hi⟩ := hfits.single halternative
      exact hbare i hi
    | true =>
      -- an alternative without a bar in its text has one operand only
      have hbar : Text.contains " | " text = false := by simpa [halternative] using hopen
      rw [← h.text_eq] at hbar
      obtain ⟨i, hi⟩ := Union.exists_single_of_not_contains s.settings.margin hbar
      exact hbare i hi

end Spelled

/-! ## Writing references -/

/-- A name stands for every reference under it. -/
theorem spelled_identifier {s : Scope} {underWay : String → Bool} {inlining : List String}
    {info : Schema.Info} {target : Json} {name : String} (hname : displayNameOf target = .ok name)
    (h : s.Names underWay inlining name) (hident : ident name) :
    Spelled s underWay inlining (.reference info target) name
      (.ofPrimary (.identifier name hident)) := by
  refine ⟨.named hname h hident, ?_, fun _ _ => fits_ofSuffixed _ _⟩
  rw [Union.text_ofPrimary, Primary.text]

/-- What spells the target of a reference that is inlined spells the reference: since its name is
new, its link is new to the chain. -/
theorem Spelled.inlined {s : Scope} {underWay : String → Bool} {inlining : List String}
    {info : Schema.Info} {target : Json} {name text : String} {node : Node} {u : Union ident}
    (hname : displayNameOf target = .ok name) (hnew : ¬ s.Names underWay inlining name)
    (hnode : targetNode s.document target = .ok node)
    (h : Spelled s underWay (name :: inlining) node text u) :
    Spelled s underWay inlining (.reference info target) text u := by
  refine ⟨.inlined hname hnew hnode h.follows, h.text_eq, ?_⟩
  obtain ⟨r, rfl, rfl⟩ := displayNameOf_eq_ok.mp hname
  intro bound seen d hseen hd
  have hr : r ∉ seen := fun hr => hnew (Or.inr (Or.inl (hseen r hr)))
  cases bound with
  | zero =>
    rw [follow] at hd
    simp [Json.isContainer, Json.asText, hr, bind, Except.bind] at hd
  | succ bound =>
    rw [follow_of_not_mem hr, hnode] at hd
    refine h.fits (fun q hq => ?_) hd
    rcases List.mem_cons.mp hq with rfl | hq
    · exact List.mem_cons_self
    · exact List.mem_cons_of_mem _ (hseen q hq)

/-- Every text that a rendering ends with is spelled by a derivation, if the names of the references
that it meets are identifiers. -/
def Spells (ident : String → Prop) (s : Scope) (underWay : String → Bool) (inlining : List String)
    (node : Node) (x : Rendering String) : Prop :=
  ∀ met text, x.observe underWay = (met, .ok text) →
    (∀ target ∈ met, ∀ name, displayNameOf target = .ok name → ident name) →
      ∃ u : Union ident, Spelled s underWay inlining node text u

section References

variable {s : Scope} {underWay : String → Bool} {inlining : List String}

/-- A reference is spelled if its target is, where this is inlined. -/
theorem spells_ofReference {inlined : List String → Node → Rendering String} {info : Schema.Info}
    {target : Json}
    (hinlined : ∀ name node, displayNameOf target = .ok name →
      ¬ s.Names underWay inlining name → targetNode s.document target = .ok node →
        Spells ident s underWay (name :: inlining) node (inlined (name :: inlining) node)) :
    Spells ident s underWay inlining (.reference info target)
      (ofReference s inlined inlining target) := by
  intro met text hrun hmet
  obtain ⟨name, hname, hwritten⟩ := observe_ofReference_eq_ok.mp hrun
  split at hwritten
  · next hnames =>
    obtain ⟨rfl, rfl⟩ := hwritten
    have hident : ident text := hmet target (List.mem_singleton_self target) text hname
    exact ⟨_, spelled_identifier hname hnames hident⟩
  · next hnames =>
    obtain ⟨node, others, hnode, hinside, rfl⟩ := hwritten
    obtain ⟨u, hu⟩ := hinlined name node hname hnames hnode others text hinside
      fun r hr => hmet r (List.mem_cons_of_mem target hr)
    exact ⟨u, hu.inlined hname hnames hnode⟩

end References

/-! ## Writing trees -/

/-- The names of types without parts. -/
def basicNames : List String :=
  ["string", "number", "boolean", "null", "object", "unknown", "any"]

theorem primitiveType_mem (name : Schema.Primitive) : primitiveType name ∈ basicNames := by
  cases name <;> decide

theorem defaultType_mem (type : DefaultType) : type.name ∈ basicNames := by
  cases type <;> decide

/-- What is written one after the other comes from one derivation each, if each of them has one. -/
theorem exists_of_collect {α β : Type} {underWay : String → Bool} {P : Json → Prop}
    {Q : α → β → Prop} {linesOf : β → List String} {one : α → Rendering (List String)} {l : List α}
    (h : ∀ a ∈ l, ∀ met texts, (one a).observe underWay = (met, .ok texts) → (∀ r ∈ met, P r) →
      ∃ b, Q a b ∧ linesOf b = texts)
    {met : List Json} {texts : List String}
    (hrun : (collect one l).observe underWay = (met, .ok texts)) (hmet : ∀ r ∈ met, P r) :
    ∃ bs, List.Forall₂ Q l bs ∧ bs.flatMap linesOf = texts := by
  induction l generalizing met texts with
  | nil =>
    obtain ⟨-, rfl⟩ := Rendering.observe_pure_eq_ok.mp hrun
    exact ⟨[], .nil, rfl⟩
  | cons a rest ih =>
    obtain ⟨m₁, first, m₂, others, hfirst, hothers, rfl, rfl⟩ :=
      observe_collect_cons_eq_ok.mp hrun
    obtain ⟨b, hb, rfl⟩ := h a List.mem_cons_self m₁ first hfirst fun r hr => hmet r (by simp [hr])
    obtain ⟨bs, hbs, rfl⟩ := ih (fun a ha => h a (List.mem_cons_of_mem _ ha)) hothers
      fun r hr => hmet r (by simp [hr])
    exact ⟨b :: bs, .cons hb hbs, rfl⟩

section Trees

variable {s : Scope} {underWay : String → Bool} {inlining : List String}
  {f : Json → Rendering String}

theorem indented_eq_ok {text : String} {lines : List String} (h : s.indented text = .ok lines) :
    Text.indentLines s.settings.margin text = lines := by
  unfold Scope.indented at h
  unfold Settings.margin
  cases hindent : s.settings.indent with
  | ok margin =>
    rw [hindent] at h
    exact Except.ok.inj h
  | error v =>
    rw [hindent] at h
    cases h

/-- The lines of a property come from a member that is headed like it. -/
theorem exists_member {p : Property}
    (htype : Spells ident s underWay inlining p.type (ofNode s f p.type)) {met : List Json}
    {lines : List String} (hrun : (ofProperty s f p).observe underWay = (met, .ok lines))
    (hmet : ∀ target ∈ met, ∀ name, displayNameOf target = .ok name → ident name) :
    ∃ m : Member ident, (s.Heads p m ∧ Follows s underWay inlining p.type m.type) ∧
      m.lines s.settings.margin = lines := by
  obtain ⟨comment, text, hgiven, htext, hlines⟩ := observe_ofProperty_eq_ok.mp hrun
  obtain ⟨u, hu⟩ := htype met text htext hmet
  obtain ⟨remark, rfl⟩ : ∃ remark : Remark, remark.comment.text = comment := by
    obtain ⟨d, -, hstyle⟩ := bind_eq_ok.mp hgiven
    obtain ⟨style, -, hproperty⟩ := bind_eq_ok.mp hstyle
    exact (exists_remark hproperty).imp fun _ h => h.2
  refine ⟨.mk remark p.name p.required u, ⟨.mk remark u hgiven, hu.follows⟩, ?_⟩
  rw [Member.lines, hu.text_eq]
  exact indented_eq_ok hlines

/-- The lines of a place come from the derivation of the type at that place. -/
theorem exists_place {item : Node} (hitem : Spells ident s underWay inlining item (ofNode s f item))
    {met : List Json} {lines : List String}
    (hrun : (ofPlace s f item).observe underWay = (met, .ok lines))
    (hmet : ∀ target ∈ met, ∀ name, displayNameOf target = .ok name → ident name) :
    ∃ u : Union ident, Follows s underWay inlining item u ∧
      Text.indentLines s.settings.margin (u.text s.settings.margin ++ ",") = lines := by
  obtain ⟨text, htext, hlines⟩ := observe_ofPlace_eq_ok.mp hrun
  obtain ⟨u, hu⟩ := hitem met text htext hmet
  refine ⟨u, hu.follows, ?_⟩
  rw [hu.text_eq, indented_eq_ok hlines]

/-- The operand of a variant comes from the derivation of the variant. -/
theorem exists_variant {variant : Node}
    (hvariant : Spells ident s underWay inlining variant (ofNode s f variant)) {met : List Json}
    {texts : List String} (hrun : (ofVariant s f variant).observe underWay = (met, .ok texts))
    (hmet : ∀ target ∈ met, ∀ name, displayNameOf target = .ok name → ident name) :
    ∃ u : Union ident, Follows s underWay inlining variant u ∧
      [u.text s.settings.margin] = texts := by
  obtain ⟨text, htext, rfl⟩ := observe_ofVariant_eq_ok.mp hrun
  obtain ⟨u, hu⟩ := hvariant met text htext hmet
  exact ⟨u, hu.follows, by rw [hu.text_eq]⟩

/-- The operand of a part comes from the derivation of the part, in parentheses where needed. -/
theorem exists_part {part : Node}
    (hpart : Spells ident s underWay inlining part (ofNode s f part)) {met : List Json}
    {texts : List String} (hrun : (ofPart s f part).observe underWay = (met, .ok texts))
    (hmet : ∀ target ∈ met, ∀ name, displayNameOf target = .ok name → ident name) :
    ∃ o : Union ident × Intersection ident,
      (Follows s underWay inlining part o.1 ∧ o.1.Operand o.2) ∧
        [o.2.text s.settings.margin] = texts := by
  obtain ⟨text, htext, operand, hoperand, rfl⟩ := observe_ofPart_eq_ok.mp hrun
  obtain ⟨u, hu⟩ := hpart met text htext hmet
  obtain ⟨i, hi, rfl⟩ := hu.exists_operand hoperand
  exact ⟨(u, i), ⟨hu.follows, hi⟩, rfl⟩

/-- A tree that is a basic name is spelled by an identifier. -/
theorem spelled_basicName {node : Node} {name : String} (hnot : node.isReference = false)
    {hident : ident name}
    (h : Follows s underWay inlining node (.ofPrimary (.identifier name hident))) :
    Spelled s underWay inlining node name (.ofPrimary (.identifier name hident)) := by
  refine spelled_of_not_isReference hnot h ?_ (fits_ofSuffixed _ _)
  rw [Union.text_ofPrimary, Primary.text]

/-- A record is spelled if the types of its properties are. -/
theorem spells_record {info : Schema.Info} {properties : List Property} {required : List Json}
    (hobject : ident "object")
    (htypes : ∀ p ∈ properties, Spells ident s underWay inlining p.type (ofNode s f p.type)) :
    Spells ident s underWay inlining (.record info properties required)
      (ofNode s f (.record info properties required)) := by
  intro met text hrun hmet
  rw [ofNode_record] at hrun
  split at hrun
  · next hempty =>
    obtain ⟨-, rfl⟩ := Rendering.observe_pure_eq_ok.mp hrun
    rw [hempty]
    exact ⟨_, spelled_basicName rfl (.object required hobject)⟩
  · next hne =>
    obtain ⟨lines, hlines, rfl⟩ := Rendering.observe_map_eq_ok.mp hrun
    obtain ⟨members, hmembers, rfl⟩ := exists_of_collect
      (fun p hp _ _ hrun' hmet' => exists_member (htypes p hp) hrun' hmet') hlines hmet
    have hheads : List.Forall₂ s.Heads properties members := hmembers.imp fun _ _ h => h.1
    have hfollows : ∀ p m, (p, m) ∈ properties.zip members →
        Follows s underWay inlining p.type m.type := by
      intro p m hpm
      exact ((List.forall₂_iff_zip.mp hmembers).2 hpm).2
    refine ⟨_, spelled_of_not_isReference rfl (.record hne hheads hfollows) ?_
      (fits_ofSuffixed _ _)⟩
    rw [Union.text_ofPrimary, Primary.text, memberLines_eq_flatMap]

/-- An array is spelled if its items are. -/
theorem spells_array {info : Schema.Info} {item : Node}
    (hitem : Spells ident s underWay inlining item (ofNode s f item)) :
    Spells ident s underWay inlining (.array info item) (ofNode s f (.array info item)) := by
  intro met text hrun hmet
  obtain ⟨itemText, hwritten, harray⟩ := observe_ofNode_array_eq_ok.mp hrun
  obtain ⟨u, hu⟩ := hitem met itemText hwritten hmet
  obtain ⟨t, ht, rfl⟩ := hu.exists_items harray
  refine ⟨.ofSuffixed t, spelled_of_not_isReference rfl (.array hu.follows ht) ?_
    (fits_ofSuffixed _ _)⟩
  rw [Union.text_ofSuffixed]

/-- A tuple is spelled if its items are. -/
theorem spells_tuple {info : Schema.Info} {items : List Node}
    (hitems : ∀ item ∈ items, Spells ident s underWay inlining item (ofNode s f item)) :
    Spells ident s underWay inlining (.tuple info items) (ofNode s f (.tuple info items)) := by
  intro met text hrun hmet
  rw [ofNode_tuple] at hrun
  obtain ⟨lines, hlines, rfl⟩ := Rendering.observe_map_eq_ok.mp hrun
  obtain ⟨places, hplaces, rfl⟩ := exists_of_collect
    (fun item hitem _ _ hrun' hmet' => exists_place (hitems item hitem) hrun' hmet') hlines hmet
  have hfollows : ∀ item u, (item, u) ∈ items.zip places → Follows s underWay inlining item u := by
    intro item u hu
    exact (List.forall₂_iff_zip.mp hplaces).2 hu
  refine ⟨_, spelled_of_not_isReference rfl (.tuple hplaces.length_eq hfollows) ?_
    (fits_ofSuffixed _ _)⟩
  rw [Union.text_ofPrimary, Primary.text, placeLines_eq_flatMap]

/-- A union of variants is spelled if there are any and they are. -/
theorem spells_union {info : Schema.Info} {choice : Schema.Choice} {variants : List Node}
    (hne : variants ≠ [])
    (hvariants : ∀ variant ∈ variants,
      Spells ident s underWay inlining variant (ofNode s f variant)) :
    Spells ident s underWay inlining (.union info choice variants)
      (ofNode s f (.union info choice variants)) := by
  intro met text hrun hmet
  rw [ofNode_union] at hrun
  obtain ⟨texts, htexts, rfl⟩ := Rendering.observe_map_eq_ok.mp hrun
  obtain ⟨us, hus, rfl⟩ := exists_of_collect
    (fun variant hmem _ _ hrun' hmet' => exists_variant (hvariants variant hmem) hrun' hmet')
    htexts hmet
  cases us with
  | nil => exact absurd (List.forall₂_nil_right_iff.mp hus) hne
  | cons u us =>
    have hfollows : ∀ variant v, (variant, v) ∈ variants.zip (u :: us) →
        Follows s underWay inlining variant v := by
      intro variant v hv
      exact (List.forall₂_iff_zip.mp hus).2 hv
    refine ⟨_, spelled_of_not_isReference rfl (.union hus.length_eq hfollows) ?_
      (fits_of_isAlternative rfl _)⟩
    rw [Union.text_concat, ← List.map_eq_flatMap, List.map_cons]

/-- An intersection of parts is spelled if there are any and they are. -/
theorem spells_intersection {info : Schema.Info} {parts : List Node} (hne : parts ≠ [])
    (hparts : ∀ part ∈ parts, Spells ident s underWay inlining part (ofNode s f part)) :
    Spells ident s underWay inlining (.intersection info parts)
      (ofNode s f (.intersection info parts)) := by
  intro met text hrun hmet
  rw [ofNode_intersection] at hrun
  obtain ⟨texts, htexts, rfl⟩ := Rendering.observe_map_eq_ok.mp hrun
  obtain ⟨os, hos, rfl⟩ := exists_of_collect
    (fun part hpart _ _ hrun' hmet' => exists_part (hparts part hpart) hrun' hmet') htexts hmet
  cases os with
  | nil => exact absurd (List.forall₂_nil_right_iff.mp hos) hne
  | cons o os =>
    have hfollows : ∀ part o', (part, o') ∈ parts.zip (o :: os) →
        Follows s underWay inlining part o'.1 := by
      intro part o' ho
      exact ((List.forall₂_iff_zip.mp hos).2 ho).1
    have hoperands : ∀ part o', (part, o') ∈ parts.zip (o :: os) → o'.1.Operand o'.2 := by
      intro part o' ho
      exact ((List.forall₂_iff_zip.mp hos).2 ho).2
    refine ⟨_, spelled_of_not_isReference rfl (.intersection hos.length_eq hfollows hoperands) ?_
      (fits_intersection info parts _)⟩
    rw [Union.text, Intersection.text_concat, ← List.map_eq_flatMap, List.map_map, List.map_cons]
    rfl

/-- A tree is spelled if its references are, and no node without operands is visited. -/
theorem spells_ofNode {root : Node} (hwords : ∀ name ∈ basicNames, ident name)
    (hvoid : ∀ inlining node, Visited s underWay root inlining node → node.isVoid = false)
    (href : ∀ info target, Visited s underWay root inlining (.reference info target) →
      Spells ident s underWay inlining (.reference info target) (f target))
    {node : Node} (hvisited : Visited s underWay root inlining node) :
    Spells ident s underWay inlining node (ofNode s f node) := by
  -- A member of a visited tree is visited too, so what is asked of the tree is asked of it.
  induction node with
  | reference info target =>
    rw [ofNode_reference]
    exact href info target hvisited
  | enumeration info values =>
    intro met text hrun _
    rw [ofNode] at hrun
    obtain ⟨-, rfl⟩ := Rendering.observe_pure_eq_ok.mp hrun
    have hne := hvoid inlining _ hvisited
    cases values with
    | nil => cases hne
    | cons v vs =>
      exact ⟨_, spelled_of_not_isReference rfl (.enumeration v vs)
        (Union.text_literals s.settings.margin v vs) (fits_of_isAlternative rfl _)⟩
  | primitive info name =>
    intro met text hrun _
    rw [ofNode] at hrun
    obtain ⟨-, rfl⟩ := Rendering.observe_pure_eq_ok.mp hrun
    exact ⟨_, spelled_basicName rfl (.primitive name (hwords _ (primitiveType_mem name)))⟩
  | openArray info =>
    intro met text hrun _
    rw [ofNode] at hrun
    obtain ⟨-, rfl⟩ := Rendering.observe_pure_eq_ok.mp hrun
    refine ⟨_, spelled_of_not_isReference rfl .openArray ?_ (fits_ofSuffixed _ _)⟩
    rw [Union.text_ofPrimary, Primary.text]
  | unknown info declared =>
    intro met text hrun _
    rw [ofNode] at hrun
    obtain ⟨-, rfl⟩ := Rendering.observe_pure_eq_ok.mp hrun
    exact ⟨_, spelled_basicName rfl (.unknown declared (hwords _ (defaultType_mem _)))⟩
  | record info properties required ih =>
    refine spells_record (hwords _ (by decide)) fun p hp => ?_
    exact ih p hp (hvisited.child (List.mem_map_of_mem hp))
  | array info item ih =>
    exact spells_array (ih (hvisited.child List.mem_cons_self))
  | tuple info items ih =>
    exact spells_tuple fun item hitem => ih item hitem (hvisited.child hitem)
  | union info choice variants ih =>
    have hne : variants ≠ [] := by simpa [Node.isVoid] using hvoid inlining _ hvisited
    exact spells_union hne fun variant hvariant => ih variant hvariant (hvisited.child hvariant)
  | intersection info parts ih =>
    have hne : parts ≠ [] := by simpa [Node.isVoid] using hvoid inlining _ hvisited
    exact spells_intersection hne fun part hpart => ih part hpart (hvisited.child hpart)

/-- A tree is spelled inside targets of any names, however many targets are inlined in it. -/
theorem spells_ofTree {root : Node} (hwords : ∀ name ∈ basicNames, ident name)
    (hvoid : ∀ inlining node, Visited s underWay root inlining node → node.isVoid = false)
    (bound : Nat) {node : Node} (hvisited : Visited s underWay root inlining node) :
    Spells ident s underWay inlining node (ofTree s bound inlining node) := by
  induction bound generalizing inlining node with
  | zero =>
    intro met text hrun _
    cases hrun
  | succ bound ih =>
    rw [ofTree]
    refine spells_ofNode hwords hvoid (fun info target htarget => ?_) hvisited
    exact spells_ofReference fun name next hname hnew hnext =>
      ih (htarget.target hname hnew hnext)

end Trees

/-- Whenever a schema is written as a type expression, the text is spelled by a derivation of the
grammar that goes along the tree of the schema, with targets inlined where they are inlined: so
items of arrays and parts of intersections are bracketed where an operator in them would bind less
closely, and the variants of a union contribute their operands. The display names met have to be
identifiers, whatever counts as one besides the names of basic types, and every choice and
composition that is visited must have operands. -/
theorem ofSchema_follows_union (document : Json) (settings : Settings) (schema : Json)
    (underWay : String → Bool) (ident : String → Prop) (hwords : ∀ name ∈ basicNames, ident name)
    (met : List Json) (text : String)
    (hrun : (ofSchema document settings schema).observe underWay = (met, .ok text))
    (hmet : ∀ target ∈ met, ∀ name, displayNameOf target = .ok name → ident name)
    (hvoid : ∀ root, Node.ofJson schema "#" = .ok root → ∀ inlining node,
      Visited ⟨document, settings⟩ underWay root inlining node → node.isVoid = false) :
    ∃ root, Node.ofJson schema "#" = .ok root ∧
      ∃ u : Union ident, Follows ⟨document, settings⟩ underWay [] root u ∧
        u.text settings.margin = text := by
  unfold ofSchema at hrun
  cases htruthy : schema.truthy with
  | false =>
    rw [htruthy, if_neg Bool.false_ne_true] at hrun
    obtain ⟨-, rfl⟩ := Rendering.observe_pure_eq_ok.mp hrun
    obtain ⟨info, declared, hroot⟩ := Schema.exists_unknown_of_not_truthy htruthy "#"
    refine ⟨_, hroot, _, .unknown declared (hwords _ (defaultType_mem settings.defaultType)), ?_⟩
    rw [Union.text_ofPrimary, Primary.text]
  | true =>
    rw [htruthy, if_pos rfl, Rendering.observe_bind_eq_ok] at hrun
    obtain ⟨m₁, root, m₂, hread, hwritten, rfl⟩ := hrun
    obtain ⟨rfl, hroot⟩ := Rendering.observe_lift_eq_ok.mp hread
    obtain ⟨u, hu⟩ := spells_ofTree hwords (hvoid root hroot) (nestingBound document schema) .root
      m₂ text hwritten hmet
    exact ⟨root, hroot, u, hu.follows, hu.text_eq⟩

/-- A reference to a choice, in a schema at a path. -/
def toChoice (path : String) : Node :=
  .reference ⟨path, {}⟩ (.str "#/definitions/Choice")

/-- A document with the choice. -/
def choices : Json :=
  .obj [("definitions", .obj [("Choice", .obj [("oneOf", .arr [
    .obj [("type", .str "string")], .obj [("type", .str "number")]])])])]

/-- The tree of the choice. -/
def choiceTree : Node :=
  .union ⟨"#/definitions/Choice", {}⟩ .oneOf
    [.primitive ⟨"#/definitions/Choice/oneOf/0", {}⟩ .string,
      .primitive ⟨"#/definitions/Choice/oneOf/1", {}⟩ .number]

/-- A schema with the choice as a part, and as the items of another part. -/
def choicesInUse : Json :=
  .obj [("allOf", .arr [.obj [("$ref", .str "#/definitions/Choice")],
    .obj [("type", .str "array"), ("items", .obj [("$ref", .str "#/definitions/Choice")])]])]

/-- The tree of the schema. -/
def choicesInUseTree : Node :=
  .intersection ⟨"#", {}⟩
    [toChoice "#/allOf/0", .array ⟨"#/allOf/1", {}⟩ (toChoice "#/allOf/1/items")]

/-- A choice is put in parentheses as a part and as the items of an array. -/
theorem ofSchema_follows_union_choice :
    ∃ root, Node.ofJson choicesInUse "#" = .ok root ∧
      ∃ u : Union fun name => isIdentifier name = true,
        Follows ⟨choices, {}⟩ (fun _ => false) [] root u ∧
          u.text "  " = "(string | number) & (string | number)[]" := by
  have hwords : ∀ name ∈ basicNames, isIdentifier name = true := by decide
  have hrun : (ofSchema choices {} choicesInUse).observe (fun _ => false) =
      ([.str "#/definitions/Choice", .str "#/definitions/Choice"],
        .ok "(string | number) & (string | number)[]") := rfl
  have hroot : Node.ofJson choicesInUse "#" = .ok choicesInUseTree := rfl
  have hchoice : targetNode choices (.str "#/definitions/Choice") = .ok choiceTree := rfl
  refine ofSchema_follows_union choices {} choicesInUse (fun _ => false)
    (fun name => isIdentifier name = true) hwords _ _ hrun ?_ ?_
  · intro target htarget name hname
    have hname' : displayNameOf (.str "#/definitions/Choice") = .ok "Choice" := rfl
    obtain rfl : target = .str "#/definitions/Choice" := by simpa using htarget
    obtain rfl := Except.ok.inj (hname'.symm.trans hname)
    decide
  · intro root hroot' inlining node hvisited
    obtain rfl := Except.ok.inj (hroot.symm.trans hroot')
    have hmem : node ∈ choicesInUseTree :: choicesInUseTree.children ++ [toChoice "#/allOf/1/items"]
        ++ choiceTree :: choiceTree.children := by
      refine hvisited.mem_of_closed (by simp) ?_ fun info target hmem next hnext => ?_
      · simp [choicesInUseTree, choiceTree, toChoice, Node.children]
      · obtain rfl : target = .str "#/definitions/Choice" := by
          simp only [choicesInUseTree, choiceTree, toChoice, Node.children] at hmem
          grind
        obtain rfl := Except.ok.inj (hchoice.symm.trans hnext)
        simp
    simp only [choicesInUseTree, choiceTree, toChoice, Node.children] at hmem
    grind [Node.isVoid]

end Expression

end SchemaTypes

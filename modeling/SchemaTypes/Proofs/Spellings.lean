import SchemaTypes.Proofs.Courses
import SchemaTypes.Proofs.Expansions

/-!
# How names are spelled

A reference that is not inlined stands in a text under its display name. `Declaration.ofSchemaAs`
writes a declaration with these names in another spelling, and does everything else as before, so it
tells which names have been put into a text in place of types: a text in which no name is spelled
differently, whatever a spelling does to all names but certain ones, has only these.

Since a reference is met before it is written, both ways of writing ask for the same until a
reference has been met whose name is spelled differently. `Rendering.Alike` is this relation, and
`Rendering.Alike.run_eq` says that runs which meet no such reference are the same.
-/

namespace SchemaTypes

/-! ## Renderings that are alike -/

namespace Rendering

variable {α β σ : Type}

/-- Two renderings are alike as long as the references that they meet are good ones. -/
inductive Alike (good : Json → Prop) : Rendering α → Rendering α → Prop where
  | done (a : α) : Alike good (done a) (done a)
  | failed (e : Failure) : Alike good (failed e) (failed e)
  | meets {r : Json} {rest rest' : Rendering α} (h : good r → Alike good rest rest') :
    Alike good (meets r rest) (meets r rest')
  | asks {n : String} {rest rest' : Bool → Rendering α} (h : ∀ b, Alike good (rest b) (rest' b)) :
    Alike good (asks n rest) (asks n rest')
  | formats {code : String} {options : Formatter.Options} {rest rest' : String → Rendering α}
      (h : ∀ text, Alike good (rest text) (rest' text)) :
    Alike good (formats code options rest) (formats code options rest')

namespace Alike

variable {good : Json → Prop}

theorem refl (x : Rendering α) : Alike good x x := by
  induction x with
  | done a => exact .done a
  | failed e => exact .failed e
  | meets r rest ih => exact .meets fun _ => ih
  | asks n rest ih => exact .asks ih
  | formats code options rest ih => exact .formats ih

theorem bind {x x' : Rendering α} {f f' : α → Rendering β} (hx : Alike good x x')
    (hf : ∀ a, Alike good (f a) (f' a)) : Alike good (x >>= f) (x' >>= f') := by
  change Alike good (x.bind f) (x'.bind f')
  induction hx with
  | done a => exact hf a
  | failed e => exact .failed e
  | meets h ih => exact .meets ih
  | asks h ih => exact .asks ih
  | formats h ih => exact .formats ih

theorem map {x x' : Rendering α} (f : α → β) (hx : Alike good x x') :
    Alike good (f <$> x) (f <$> x') := by
  rw [map_eq_pure_bind, map_eq_pure_bind]
  exact hx.bind fun a => refl _

/-- A result that is lifted hands its value on, and so what follows may rely on it. -/
theorem lift_bind {x : Except Failure α} {f f' : α → Rendering β}
    (hf : ∀ a, x = .ok a → Alike good (f a) (f' a)) :
    Alike good ((liftM x : Rendering α) >>= f) ((liftM x : Rendering α) >>= f') := by
  cases x with
  | ok a => exact hf a rfl
  | error e => exact .failed e

/-- Runs of renderings that are alike are the same if all references that are met are good ones. -/
theorem run_eq {x y : Rendering α} (h : Alike good x y) (host : Host σ) {s : σ} {c : Course σ}
    (hgood : ∀ m ∈ (x.course host s c).meetings, good m.reference) :
    y.run host s = x.run host s := by
  induction h generalizing s c with
  | done a => rfl
  | failed e => rfl
  | @meets r rest rest' h ih =>
    rw [run, run]
    rw [course] at hgood
    rcases hmeet : host.meet r s with ⟨e | u, t⟩
    · rfl
    · rw [hmeet] at hgood
      have hmem : ⟨r, s, t⟩ ∈ (c.meets ⟨r, s, t⟩).meetings := by simp
      exact ih (hgood _ (mem_course_of_mem host rest t hmem)) hgood
  | asks h ih => exact ih _ hgood
  | @formats code options rest rest' h ih =>
    rw [run, run]
    rw [course] at hgood
    rcases hformat : host.format code options s with ⟨e | text, t⟩
    · rfl
    · rw [hformat] at hgood
      exact ih text hgood

end Alike

end Rendering

/-! ## Other spellings -/

namespace Expression

open Schema (Node)

variable (spelling : String → String)

/-- A reference as a type expression, like `ofReference`, but with its name in another spelling
where it is named. -/
def ofReferenceAs (s : Scope) (inlined : List String → Node → Rendering String)
    (inlining : List String) (target : Json) : Rendering String := do
  Rendering.meet target
  let name ← Reference.displayNameOf target
  if !s.settings.deep || inlining.contains name then
    return spelling name
  if ← Rendering.ask name then
    return spelling name
  let node ← targetNode s.document target
  inlined (name :: inlining) node

/-- A schema tree as a type expression, with the names of references in another spelling. -/
def ofTreeAs (s : Scope) : Nat → List String → Node → Rendering String
  | 0, _, _ => .failed .boundExceeded
  | bound + 1, inlining, node =>
    ofNode s (ofReferenceAs spelling s (ofTreeAs s bound) inlining) node

/-- A schema as a type expression, with the names of references in another spelling. -/
def ofSchemaAs (document : Json) (settings : Settings) (schema : Json) : Rendering String :=
  if schema.truthy then do
    let node ← Schema.Node.ofJson schema "#"
    ofTreeAs spelling ⟨document, settings⟩ (nestingBound document schema) [] node
  else
    pure settings.defaultType.name

/-- A schema as a formatted type expression, with the names of references in another spelling. -/
def convertAs (document : Json) (settings : Settings) (formatting : Option Formatter.Setting)
    (schema : Json) : Rendering String :=
  if schema.truthy then do
    let expression ← ofSchemaAs spelling document settings schema
    formatted settings.preText formatting expression
  else
    pure settings.defaultType.name

theorem ofReferenceAs_id : ofReferenceAs id = ofReference := rfl

theorem ofTreeAs_id (s : Scope) (bound : Nat) : ofTreeAs id s bound = ofTree s bound := by
  induction bound with
  | zero => rfl
  | succ bound ih =>
    funext inlining node
    rw [ofTreeAs, ofTree, ih, ofReferenceAs_id]

theorem ofSchemaAs_id (document : Json) (settings : Settings) (schema : Json) :
    ofSchemaAs id document settings schema = ofSchema document settings schema := by
  unfold ofSchemaAs ofSchema
  rw [ofTreeAs_id]

theorem convertAs_id (document : Json) (settings : Settings)
    (formatting : Option Formatter.Setting) (schema : Json) :
    convertAs id document settings formatting schema =
      convert document settings formatting schema := by
  unfold convertAs convert
  rw [ofSchemaAs_id]

/-! ### Names that are spelled as they are -/

/-- A spelling leaves the name of a reference as it is. -/
def LeavesName (target : Json) : Prop :=
  ∀ name, Reference.displayNameOf target = .ok name → spelling name = name

variable {good : Json → Prop} {s : Scope} {f g : Json → Rendering String}

theorem collect_alike {α : Type} {one one' : α → Rendering (List String)} {l : List α}
    (h : ∀ a ∈ l, (one a).Alike good (one' a)) : (collect one l).Alike good (collect one' l) := by
  induction l with
  | nil => exact .refl _
  | cons a rest ih =>
    rw [collect, collect]
    refine (h a List.mem_cons_self).bind fun texts => ?_
    exact (ih fun b hb => h b (List.mem_cons_of_mem a hb)).bind fun others => .refl _

/-- Trees are alike if references are. -/
theorem ofNode_alike (h : ∀ target, (f target).Alike good (g target)) (node : Node) :
    (ofNode s f node).Alike good (ofNode s g node) := by
  induction node with
  | reference info target =>
    rw [ofNode_reference, ofNode_reference]
    exact h target
  | enumeration info values => exact .refl _
  | primitive info name => exact .refl _
  | openArray info => exact .refl _
  | unknown info declared => exact .refl _
  | record info properties required ih =>
    rw [ofNode_record, ofNode_record]
    split
    · exact .refl _
    · refine (collect_alike fun p hp => ?_).map _
      exact (Rendering.Alike.refl _).bind fun comment => (ih p hp).bind fun text => .refl _
  | array info item ih =>
    rw [ofNode_array, ofNode_array]
    exact ih.bind fun text => .refl _
  | tuple info items ih =>
    rw [ofNode_tuple, ofNode_tuple]
    exact (collect_alike fun item hitem => (ih item hitem).bind fun text => .refl _).map _
  | union info choice variants ih =>
    rw [ofNode_union, ofNode_union]
    exact (collect_alike fun variant hvariant => (ih variant hvariant).map _).map _
  | intersection info parts ih =>
    rw [ofNode_intersection, ofNode_intersection]
    exact (collect_alike fun part hpart => (ih part hpart).bind fun text => .refl _).map _

/-- References are alike, and so are trees, as far as names are spelled as they are. -/
theorem ofTree_alike (bound : Nat) (inlining : List String) (node : Node) :
    (ofTree s bound inlining node).Alike (LeavesName spelling)
      (ofTreeAs spelling s bound inlining node) := by
  induction bound generalizing inlining node with
  | zero => exact .refl _
  | succ bound ih =>
    rw [ofTree, ofTreeAs]
    refine ofNode_alike (fun target => ?_) node
    unfold ofReference ofReferenceAs
    refine .meets fun hmet => ?_
    refine Rendering.Alike.lift_bind fun name hname => ?_
    rw [hmet name hname]
    split
    · exact .refl _
    · refine .asks fun underWay => ?_
      cases underWay with
      | true => exact .refl _
      | false => exact Rendering.Alike.lift_bind fun next _ => ih _ next

theorem ofSchema_alike (document : Json) (settings : Settings) (schema : Json) :
    (ofSchema document settings schema).Alike (LeavesName spelling)
      (ofSchemaAs spelling document settings schema) := by
  unfold ofSchema ofSchemaAs
  split
  · exact Rendering.Alike.lift_bind fun node _ => ofTree_alike spelling _ _ node
  · exact .refl _

theorem convert_alike (document : Json) (settings : Settings)
    (formatting : Option Formatter.Setting) (schema : Json) :
    (convert document settings formatting schema).Alike (LeavesName spelling)
      (convertAs spelling document settings formatting schema) := by
  unfold convert convertAs
  split
  · exact (ofSchema_alike spelling document settings schema).bind fun expression => .refl _
  · exact .refl _

end Expression

namespace Declaration

/-- The declaration of a schema under a name, with the names of references in another spelling. -/
def ofSchemaAs (spelling : String → String) (document : Json) (options : Options)
    (formatting : Option Formatter.Setting) (name : String) (schema : Json) :
    Rendering String := do
  let defaultType ← DefaultType.check options.defaultType
  let expression ←
    Expression.convertAs spelling document (settings options defaultType) formatting schema
  let isInterface ← Schema.isRecord schema
  return ofExpression name expression options.exported isInterface

theorem ofSchemaAs_id (document : Json) (options : Options)
    (formatting : Option Formatter.Setting) (name : String) (schema : Json) :
    ofSchemaAs id document options formatting name schema =
      ofSchema document options formatting name schema := by
  unfold ofSchemaAs ofSchema
  simp only [Expression.convertAs_id]

/-- A declaration is the same in another spelling as long as no reference is met whose name is
spelled differently. -/
theorem ofSchema_alike (spelling : String → String) (document : Json) (options : Options)
    (formatting : Option Formatter.Setting) (name : String) (schema : Json) :
    (ofSchema document options formatting name schema).Alike (Expression.LeavesName spelling)
      (ofSchemaAs spelling document options formatting name schema) := by
  refine Rendering.Alike.lift_bind fun defaultType _ => ?_
  exact (Expression.convert_alike spelling document _ formatting schema).bind fun expression =>
    .refl _

end Declaration

end SchemaTypes

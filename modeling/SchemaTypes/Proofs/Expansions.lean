import SchemaTypes.Declaration.Expansion
import SchemaTypes.Proofs.Inlining

/-!
# Laws of expansions

What a declaration may do is what its type expression may do, and formatting besides. What an
expansion does when a reference is met is said once, in `Expansion.meet_keeps`: nothing at all, a
report from the memo, or the declaration of a new target. Each invariant of expansions is then a
statement about reports and about new targets.
-/

namespace SchemaTypes

open Expression (leave)

/-! ## What a declaration may do -/

namespace Expression

variable {l : Rendering.Leave}

theorem formatted_within (hfail : ∀ e, e ≠ .boundExceeded → l.failing e)
    {formatting : Option Formatter.Setting} (hformat : formatting.isSome = true → l.formatting)
    (preText : OrMisfit String) (expression : String) :
    (formatted preText formatting expression).Within l := by
  have halias : (formatAlias formatting (aliasOf expression)).Within l := by
    unfold formatAlias
    cases formatting with
    | none => exact Rendering.within_pure _
    | some setting =>
      refine Rendering.within_lift_bind (fun e he => hfail e ?_) fun options _ => ?_
      · rintro rfl
        unfold Formatter.Setting.forRun at he
        split at he
        · cases he
        · split at he <;> cases he
      · exact ⟨hformat rfl, fun _ => trivial⟩
  refine Rendering.within_bind halias fun text => ?_
  split
  · exact hfail _ (by simp)
  · refine Rendering.within_lift fun e he => hfail e ?_
    rintro rfl
    unfold hung at he
    split at he
    · cases he
    · cases preText <;> cases he

theorem convert_within (document : Json) (settings : Settings)
    (formatting : Option Formatter.Setting) (schema : Json) :
    (convert document settings formatting schema).Within
      (leave document schema (settings.deep = true) (formatting.isSome = true)) := by
  unfold convert
  split
  · refine Rendering.within_bind (ofSchema_within document settings schema) fun expression => ?_
    exact formatted_within (fun e he => he) (fun h => h) settings.preText expression
  · exact Rendering.within_pure _

end Expression

namespace Declaration

/-- Declaring a schema never ends for want of a bound. -/
theorem ofSchema_within (document : Json) (options : Options)
    (formatting : Option Formatter.Setting) (name : String) (schema : Json) :
    (ofSchema document options formatting name schema).Within
      (leave document schema (options.deep = true) (formatting.isSome = true)) := by
  unfold ofSchema
  refine Rendering.within_lift_bind (fun e he => ?_) fun defaultType _ => ?_
  · rintro rfl
    unfold DefaultType.check at he
    cases hgiven : options.defaultType <;> rw [hgiven] at he <;> cases he
  · refine Rendering.within_bind
      (Expression.convert_within document (settings options defaultType) formatting schema)
      fun expression => ?_
    refine Rendering.within_lift_bind (fun e he => ?_) fun isInterface _ => Rendering.within_pure _
    rintro rfl
    exact (Schema.isRecord_settles schema).2 he

namespace Expansion

variable {φ : Type} {x : Expansion φ} {nested : String → Json → Step (State φ) String}

/-! ## Steps in a row -/

/-- To declare a target is to find it, to declare its schema and to tell of it. -/
theorem declareTarget_eq (x : Expansion φ) (nested : String → Json → Step (State φ) String)
    (reference : Json) (name : String) (s : State φ) :
    x.declareTarget nested reference name s =
      (Step.ofExcept (Reference.targetOf x.document reference)).andThen
        (fun schema => (nested name schema).andThen (x.tell name)) (s.start name) := by
  unfold declareTarget Step.andThen Step.ofExcept
  dsimp only
  cases Reference.targetOf x.document reference with
  | error e => rfl
  | ok schema =>
    dsimp only
    rcases nested name schema (s.start name) with ⟨e | text, t⟩ <;> rfl

/-- Notes that a declaration is done, and hands its text on. -/
def finishing (name text : String) : Step (State φ) String :=
  fun s => (.ok text, s.finish name text)

/-- To declare a schema is to carry out its rendering and to note the end. -/
theorem declareWith_eq (x : Expansion φ) (nested : String → Json → Step (State φ) String)
    (name : String) (schema : Json) (s : State φ) :
    x.declareWith nested name schema s =
      ((ofSchema x.document x.options x.formatting name schema).run (x.host nested)).andThen
        (finishing name) (s.enter name) := by
  unfold declareWith Step.andThen
  dsimp only
  rcases (ofSchema x.document x.options x.formatting name schema).run (x.host nested)
    (s.enter name) with ⟨e | text, t⟩ <;> rfl

/-! ## Meeting references -/

/-- Where nobody listens, nothing comes of a reference. -/
theorem meet_of_unheard (h : x.options.listener.isPresent = false) (reference : Json)
    (s : State φ) : x.meet nested reference s = (.ok (), s) := by
  unfold meet
  rw [h]
  rfl

/-- When a reference is met, an expansion does nothing, or it tells of the declaration that it has,
or it declares the target. -/
theorem meet_ends {I : State φ → Prop} {E : Failure → State φ → Prop} {reference : Json}
    {s : State φ} (hs : I s)
    (hname : ∀ e, Reference.displayNameOf reference = .error e → E e s)
    (hdone : ∀ name text, s.memo.progress? name = some (.done text) →
      Step.Ends (x.tell name text s) I E)
    (hnew : ∀ name, Reference.displayNameOf reference = .ok name → s.memo.progress? name = none →
      Step.Ends (x.declareTarget nested reference name s) I E) :
    Step.Ends (x.meet nested reference s) I E := by
  unfold meet
  cases hpresent : x.options.listener.isPresent with
  | false => exact hs
  | true =>
    rw [if_pos rfl]
    cases hname' : Reference.displayNameOf reference with
    | error e => exact hname e hname'
    | ok name =>
      dsimp only
      cases hprogress : s.memo.progress? name with
      | some progress =>
        cases progress with
        | done text => exact hdone name text hprogress
        | inProgress => exact hs
      | none => exact hnew name hname' hprogress

/-- When a reference is met, an expansion keeps what a report keeps and what the declaration of a
new target keeps. -/
theorem meet_keeps {I : State φ → Prop} {E : Failure → State φ → Prop} {reference : Json}
    (htell : ∀ name text, (x.tell name text).Keeps I E)
    (hname : ∀ e s, Reference.displayNameOf reference = .error e → I s → E e s)
    (hnew : ∀ name s, Reference.displayNameOf reference = .ok name → I s →
      s.memo.progress? name = none →
        (∀ e, Reference.targetOf x.document reference = .error e → E e (s.start name)) ∧
        ∀ schema, Reference.targetOf x.document reference = .ok schema →
          Step.Ends (nested name schema (s.start name)) I E) :
    (x.meet nested reference).Keeps I E := by
  intro s hs
  refine meet_ends hs (fun e he => hname e s he hs) (fun name text _ => htell name text s hs)
    fun name hname' hprogress => ?_
  obtain ⟨htarget, hnested⟩ := hnew name s hname' hs hprogress
  dsimp only [declareTarget]
  cases hschema : Reference.targetOf x.document reference with
  | error e => exact htarget e hschema
  | ok schema =>
    have hends := hnested schema hschema
    dsimp only
    rcases hrun : nested name schema (s.start name) with ⟨e | text, t⟩
    · rw [hrun] at hends
      exact hends
    · rw [hrun] at hends
      exact htell name text t hends

/-- A report changes nothing but the list of reports, and it fails as the listener answers. -/
theorem tell_keeps {I : State φ → Prop} {E : Failure → State φ → Prop} (name text : String)
    (hreport : ∀ s, I s → I (s.report name text))
    (hanswer : ∀ e reported s, x.options.listener.answer reported (name, text) = .error e →
      I s → E e s) : (x.tell name text).Keeps I E := by
  intro s hs
  unfold tell
  cases hlistener : x.options.listener with
  | nobody => exact hs
  | somebody answer =>
    rw [hlistener] at hanswer
    dsimp only
    cases hresult : answer s.reported (name, text) with
    | ok _ => exact hreport s hs
    | error e => exact hanswer e s.reported _ hresult (hreport s hs)
  | deaf v =>
    rw [hlistener] at hanswer
    exact hanswer (.notAction v) [] s rfl hs

/-- Formatting in an expansion changes nothing but the state of the formatter. -/
theorem format_keeps {I : State φ → Prop} {E : Failure → State φ → Prop} (code : String)
    (options : Formatter.Options)
    (hok : ∀ text s f, x.formatter code options s.formatter = (.ok text, f) → I s →
      I { s with formatter := f })
    (herr : ∀ e s f, x.formatter code options s.formatter = (.error e, f) → I s →
      E e { s with formatter := f }) : ((x.host nested).format code options).Keeps I E := by
  intro s hs
  change Step.Ends ((x.formatter code options s.formatter).1,
    { s with formatter := (x.formatter code options s.formatter).2 }) I E
  rcases hrun : x.formatter code options s.formatter with ⟨e | text, f⟩
  · exact herr e s f hrun hs
  · exact hok text s f hrun hs

/-- A declaration starts when its name is entered, keeps what its rendering keeps, and ends when its
text is noted. -/
theorem declareWith_ends {I J : State φ → Prop} {E : Failure → State φ → Prop} {name : String}
    {schema : Json} {s : State φ}
    (hrun : ((ofSchema x.document x.options x.formatting name schema).run
      (x.host nested)).Keeps J E)
    (henter : J (s.enter name)) (hfinish : ∀ text t, J t → I (t.finish name text)) :
    Step.Ends (x.declareWith nested name schema s) I E := by
  have hends := hrun (s.enter name) henter
  unfold declareWith
  dsimp only
  rcases hres : (ofSchema x.document x.options x.formatting name schema).run (x.host nested)
    (s.enter name) with ⟨e | text, t⟩
  · rw [hres] at hends
    exact hends
  · rw [hres] at hends
    exact hfinish text t hends

/-! ## References in a circle -/

/-- A schema with one property, which refers to a definition. -/
def pointingTo (name : String) : Json :=
  .obj [("properties", .obj [("next", .obj [("$ref", .str ("#/definitions/" ++ name))])])]

/-- Expansions, deep ones, in a document whose two definitions refer to each other. -/
def circle : Expansion Unit where
  document := .obj [("definitions", .obj [("A", pointingTo "B"), ("B", pointingTo "A")])]
  options := { deep := true, listener := .keeper }
  formatter := Formatter.identity

end Expansion

end Declaration

end SchemaTypes

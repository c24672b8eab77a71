import SchemaTypes.Proofs.Expansions
import SchemaTypes.Proofs.Hosts

/-!
# Declaring targets does not change a text

While a declaration is written, an expansion declares the targets of the references that are met,
and the nested declarations change the memo that says which names are under way. But each of them
begins with a name that has not come up and takes it off again before the rendering around it goes
on, so that a rendering finds the same names in progress whenever it asks. `Restores` is this
discipline, and `declare_restores` says that declarations follow it, however deep they are nested.

So an expansion writes what is written when nobody listens and the names under way are fixed.
-/

namespace SchemaTypes.Declaration.Expansion

variable {φ : Type} {x : Expansion φ}

/-! ## Names in progress -/

/-- The names in progress are those of a fixed state. -/
def AsIn (s t : State φ) : Prop :=
  ∀ n, t.memo.isInProgress n = s.memo.isInProgress n

theorem AsIn.refl (s : State φ) : AsIn s s := fun _ => rfl

theorem State.enter_start (s : State φ) (name : String) :
    (s.start name).enter name = s.start name := by
  unfold State.enter
  rw [if_pos]
  exact (Memo.contains_start s.memo name name).mpr (Or.inl rfl)

section Nested

variable {nested : String → Json → Step (State φ) String}

/-- A nested declaration leaves behind the names that were in progress when its own name was
entered, apart from that name. -/
def Restores (nested : String → Json → Step (State φ) String) : Prop :=
  ∀ name schema s text t, nested name schema s = (.ok text, t) →
    ∀ n, t.memo.isInProgress n = true ↔ n ≠ name ∧ (s.enter name).memo.isInProgress n = true

/-- When a reference is met, the names in progress stay the same, if nested declarations restore
them. -/
theorem meet_keeps_asIn (x : Expansion φ) (h : Restores nested) (s : State φ) (reference : Json) :
    (x.meet nested reference).Keeps (AsIn s) fun _ _ => True := by
  refine meet_keeps (fun name text => ?_) (fun _ _ _ _ => trivial) fun name t _ ht hnew => ?_
  · exact tell_keeps name text (fun t ht => ht) fun _ _ _ _ _ => trivial
  · refine ⟨fun _ _ => trivial, fun schema _ => ?_⟩
    rcases hrun : nested name schema (t.start name) with ⟨e | text, u⟩
    · exact trivial
    · -- the nested declaration adds its name and takes it off again
      intro n
      rw [Bool.eq_iff_iff, h name schema _ text u hrun n, State.enter_start, ← ht n]
      change n ≠ name ∧ (t.memo.start name).isInProgress n = true ↔ _
      rw [Memo.isInProgress_start]
      constructor
      · rintro ⟨hne, rfl | hn⟩
        · exact absurd rfl hne
        · exact hn
      · intro hn
        refine ⟨?_, Or.inr hn⟩
        rintro rfl
        rw [Memo.isInProgress_iff, hnew] at hn
        cases hn

theorem format_keeps_asIn (x : Expansion φ) (nested : String → Json → Step (State φ) String)
    (s : State φ) (code : String) (options : Formatter.Options) :
    ((x.host nested).format code options).Keeps (AsIn s) fun _ _ => True :=
  format_keeps code options (fun _ _ _ _ ht => ht) fun _ _ _ _ _ => trivial

/-- A declaration restores the names in progress if those nested in it do. -/
theorem declareWith_restores (h : Restores nested) : Restores (x.declareWith nested) := by
  intro name schema s text t hrun n
  have hrendering : ((ofSchema x.document x.options x.formatting name schema).run
      (x.host nested)).Keeps (AsIn (s.enter name)) fun _ _ => True := by
    refine Rendering.run_keeps (fun _ _ _ _ => trivial) (fun r _ => meet_keeps_asIn x h _ r) ?_
      (ofSchema_within _ _ _ _ _)
    exact fun _ code options => format_keeps_asIn x _ _ code options
  have hends : Step.Ends (x.declareWith nested name schema s)
      (fun t => ∀ n, t.memo.isInProgress n = true ↔
        n ≠ name ∧ (s.enter name).memo.isInProgress n = true) fun _ _ => True := by
    refine declareWith_ends hrendering (AsIn.refl _) fun text t ht n => ?_
    rw [← ht n]
    exact Memo.isInProgress_finish t.memo name n text
  rw [hrun] at hends
  exact hends n

/-- Declarations restore the names in progress, however deep they are nested. -/
theorem declare_restores (x : Expansion φ) (bound : Nat) : Restores (x.declare bound) := by
  induction bound with
  | zero =>
    intro name schema s text t hrun
    cases hrun
  | succ bound ih => exact declareWith_restores ih

end Nested

/-! ## The same text without nested declarations -/

open Expression (displayNames)

/-- The expansion to which nobody listens. -/
def unheard (x : Expansion φ) : Expansion φ :=
  { x with options := { x.options with listener := .nobody } }

/-- The states at which an expansion asks for names in progress while it writes a schema under a
name. Those at which nested declarations ask are not among them. -/
def consulted (x : Expansion φ) (name : String) (schema : Json) (s : State φ) : List (State φ) :=
  (ofSchema x.document x.options x.formatting name schema).consulted
    (x.host (x.declare (displayNames x.document schema).length)) (s.enter name)

/-- An expansion has nothing formatted, or else its formatter gives what `format` gives, whatever
state it is in. -/
def FormatsBy (x : Expansion φ)
    (format : String → Formatter.Options → Except Failure String) : Prop :=
  x.formatting = none ∨ ∀ code options f, (x.formatter code options f).1 = format code options

/-- Where something is formatted at all, the formatter gives what `format` gives. -/
theorem FormatsBy.formatter_eq {format : String → Formatter.Options → Except Failure String}
    (h : x.FormatsBy format) (hsome : x.formatting.isSome = true) (code : String)
    (options : Formatter.Options) (f : φ) :
    (x.formatter code options f).1 = format code options := by
  rcases h with hnone | hgiven
  · rw [hnone] at hsome
    cases hsome
  · exact hgiven code options f

theorem declareWith_eq_ok {nested : String → Json → Step (State φ) String} {name : String}
    {schema : Json} {s t : State φ} {text : String} :
    x.declareWith nested name schema s = (.ok text, t) ↔
      ∃ u, (ofSchema x.document x.options x.formatting name schema).run (x.host nested)
        (s.enter name) = (.ok text, u) ∧ u.finish name text = t := by
  unfold declareWith
  dsimp only
  rcases (ofSchema x.document x.options x.formatting name schema).run (x.host nested)
    (s.enter name) with ⟨e | text', u⟩
  · simp
  · constructor
    · intro h
      obtain ⟨rfl, rfl⟩ : text' = text ∧ u.finish name text' = t := by simpa using h
      exact ⟨u, rfl, rfl⟩
    · rintro ⟨u', h, rfl⟩
      obtain ⟨rfl, rfl⟩ : text' = text ∧ u = u' := by simpa using h
      rfl

section Still

variable {nested : String → Json → Step (State φ) String} {l : Rendering.Leave}
  {format : String → Formatter.Options → Except Failure String}

/-- A host who does nothing but answer follows the host of an expansion whose nested declarations
restore the names in progress. -/
theorem host_follows_still (h : Restores nested) (hformat : x.FormatsBy format)
    (hl : l.formatting → x.formatting.isSome = true) (s : State φ) :
    (x.host nested).Follows l (fun t _ => AsIn s t) (Host.still s.memo.isInProgress format) where
  meet := by
    intro r t _ u _ ht hmeet
    have hends := meet_keeps_asIn x h s r t ht
    rw [show x.meet nested r t = (.ok (), u) from hmeet] at hends
    exact ⟨(), rfl, hends⟩
  underWay := fun _ name t _ ht => (ht name).symm
  format := by
    intro hformats code options t _ text u ht hrun
    have hends := format_keeps_asIn x nested s code options t ht
    rw [hrun] at hends
    have hgiven := hformat.formatter_eq (hl hformats) code options t.formatter
    exact ⟨(), Prod.ext (hgiven.symm.trans (congrArg Prod.fst hrun)) rfl, hends⟩

/-- The host of an expansion to which nobody listens follows a host who does nothing but answer. -/
theorem still_follows_unheard (nested : String → Json → Step (State φ) String)
    (hformat : x.FormatsBy format) (hl : l.formatting → x.formatting.isSome = true) (s : State φ) :
    (Host.still s.memo.isInProgress format).Follows l (fun _ t => AsIn s t)
      (x.unheard.host nested) where
  meet := fun r _ t _ _ ht _ => ⟨t, rfl, ht⟩
  underWay := fun _ name _ t ht => ht name
  format := by
    intro hformats code options _ t text _ ht hrun
    have hgiven := hformat.formatter_eq (hl hformats) code options t.formatter
    exact ⟨_, Prod.ext (hgiven.trans (congrArg Prod.fst hrun)) rfl, ht⟩

/-- Hosts who do nothing but answer follow each other if they are not asked for names. -/
theorem still_follows_still (hl : ¬ l.asking) (underWay underWay' : String → Bool) :
    (Host.still underWay format).Follows l (fun _ _ => True) (Host.still underWay' format) where
  meet := fun _ _ _ _ _ _ _ => ⟨(), rfl, trivial⟩
  underWay := fun hasking => absurd hasking hl
  format := fun _ _ _ _ _ _ _ _ hrun => ⟨(), Prod.ext (congrArg Prod.fst hrun) rfl, trivial⟩

end Still

/-- Declaring the targets of references does not change the text of a declaration: whenever names
are asked for, the names in progress are those that were in progress when the name of the
declaration had been entered; and the text, if the expansion gives one, is what the schema is
written as with these names fixed and no notice taken of references. So it is the text that an
expansion gives from the same state if nobody listens, and in shallow mode it depends on no memo. -/
theorem run_text_eq_still (x : Expansion φ)
    (format : String → Formatter.Options → Except Failure String) (hformat : x.FormatsBy format)
    (name : String) (schema : Json) (s : State φ) :
    (∀ u ∈ x.consulted name schema s, ∀ n,
      u.memo.isInProgress n = (s.enter name).memo.isInProgress n) ∧
    ∀ text t, x.run name schema s = (.ok text, t) →
      ((ofSchema x.document x.options x.formatting name schema).run
        (Host.still (s.enter name).memo.isInProgress format) ()).1 = .ok text ∧
      (x.unheard.run name schema s).1 = .ok text ∧
      (x.options.deep = false →
        (∀ underWay, ((ofSchema x.document x.options x.formatting name schema).run
          (Host.still underWay format) ()).1 = .ok text) ∧
        ∀ s' text' t', x.run name schema s' = (.ok text', t') → text' = text) := by
  have hwithin := ofSchema_within x.document x.options x.formatting name schema
  have hrestores := declare_restores x (displayNames x.document schema).length
  have hstill : ∀ s text t, x.run name schema s = (.ok text, t) →
      ((ofSchema x.document x.options x.formatting name schema).run
        (Host.still (s.enter name).memo.isInProgress format) ()) = (.ok text, ()) := by
    intro s text t hrun
    obtain ⟨u, hu, -⟩ := declareWith_eq_ok.mp hrun
    obtain ⟨⟨⟩, hv, -⟩ := Rendering.run_follows
      (host_follows_still hrestores hformat (fun h => h) (s.enter name)) hwithin (AsIn.refl _) hu
    exact hv
  refine ⟨?_, fun text t hrun => ⟨?_, ?_, fun hdeep => ?_⟩⟩
  · exact Rendering.consulted_keeps (fun r => meet_keeps_asIn x hrestores _ r)
      (fun code options => format_keeps_asIn x _ _ code options) _ (AsIn.refl _)
  · rw [hstill s text t hrun]
  · obtain ⟨u, hu, -⟩ := Rendering.run_follows
      (still_follows_unheard (x.unheard.declare (displayNames x.document schema).length) hformat
        (fun h => h) (s.enter name)) hwithin (AsIn.refl _) (hstill s text t hrun)
    have hunheard : x.unheard.run name schema s = (.ok text, u.finish name text) :=
      declareWith_eq_ok.mpr ⟨u, hu, rfl⟩
    rw [hunheard]
  · have hany : ∀ s text t, x.run name schema s = (.ok text, t) → ∀ underWay,
        ((ofSchema x.document x.options x.formatting name schema).run
          (Host.still underWay format) ()).1 = .ok text := by
      intro s text t hrun underWay
      obtain ⟨v, hv, -⟩ := Rendering.run_follows
        (still_follows_still (by simp [Expression.leave, hdeep]) _ underWay) hwithin trivial
        (hstill s text t hrun)
      rw [hv]
    refine ⟨hany s text t hrun, fun s' text' t' hrun' => ?_⟩
    have htext := hany s text t hrun fun _ => false
    rw [hany s' text' t' hrun' fun _ => false] at htext
    exact Except.ok.inj htext

/-- The text of the first definition in the circle. -/
def circleText : String :=
  "interface A \x7b\n  next?: \x7b\n    next?: A;\n  \x7d;\n\x7d"

/-- One of two definitions that refer to each other is written with the other one inlined, although
this one is declared on the way. -/
theorem run_text_eq_still_circle :
    circle.FormatsBy (fun code _ => .ok code) ∧
      (circle.run "A" (pointingTo "B") { formatter := () }).1 = .ok circleText ∧
      ((ofSchema circle.document circle.options none "A" (pointingTo "B")).run
        (Host.still (State.enter ⟨{}, [], ()⟩ "A").memo.isInProgress fun code _ => .ok code) ()).1 =
          .ok circleText ∧
      (circle.unheard.run "A" (pointingTo "B") { formatter := () }).1 = .ok circleText := by
  have hformat : circle.FormatsBy (fun code _ => .ok code) := Or.inl rfl
  have hrun : circle.run "A" (pointingTo "B") { formatter := () } =
      (.ok circleText, (circle.run "A" (pointingTo "B") { formatter := () }).2) :=
    Prod.ext (by rfl) rfl
  obtain ⟨-, htext⟩ := run_text_eq_still circle (fun code _ => .ok code) hformat "A"
    (pointingTo "B") { formatter := () }
  obtain ⟨hstill, hunheard, -⟩ := htext circleText _ hrun
  refine ⟨hformat, ?_, hstill, hunheard⟩
  rw [hrun]

end SchemaTypes.Declaration.Expansion

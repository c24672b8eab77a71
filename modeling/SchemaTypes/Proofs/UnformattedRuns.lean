import SchemaTypes.Proofs.Shadows

/-!
# Runs without formatting

A run that has code formatted is compared with one that does not, up to the moment when something
goes wrong: `Step.Agrees` says that a step does what another one does, unless it ends in a bad
state. Bad states are never left, so what is said of steps is said of runs.

A rendering that asks for formatting differs from the one without by these requests alone
(`Rendering.Unformats`), and if code comes back as it is, both write the same. So do expansions, in
which renderings are nested (`Expansion.Unneeded`).
-/

namespace SchemaTypes

variable {α β σ τ : Type}

/-! ## Steps that agree unless something goes wrong -/

namespace Step

/-- From states related by `R`, a step ends as another one does, in related states again, unless it
ends in a bad state. -/
def Agrees (bad : σ → Prop) (R : σ → τ → Prop) (step : Step σ α) (other : Step τ α) : Prop :=
  ∀ s t, R s t → bad (step s).2 ∨ ((step s).1 = (other t).1 ∧ R (step s).2 (other t).2)

variable {bad : σ → Prop} {R : σ → τ → Prop}

theorem agrees_ofExcept (result : Except Failure α) :
    Agrees bad R (ofExcept result) (ofExcept result) :=
  fun _ _ h => .inr ⟨rfl, h⟩

/-- Two steps in a row agree with two others if the first ones agree, and the second ones on every
value that the other first one may end with. -/
theorem Agrees.andThen {first : Step σ α} {other : Step τ α} {next : α → Step σ β}
    {otherNext : α → Step τ β} (hfirst : Agrees bad R first other)
    (hkeeps : ∀ a, (next a).Keeps bad fun _ => bad)
    (hnext : ∀ a t, (other t).1 = .ok a → Agrees bad R (next a) (otherNext a)) :
    Agrees bad R (first.andThen next) (other.andThen otherNext) := by
  intro s t hR
  have hagrees := hfirst s t hR
  unfold Step.andThen
  rcases hrun : first s with ⟨e | a, s'⟩ <;> rw [hrun] at hagrees
  · rcases hagrees with hbad | ⟨hresult, hR'⟩
    · exact .inl hbad
    · rcases hother : other t with ⟨e' | a', t'⟩ <;> rw [hother] at hresult hR' <;> cases hresult
      exact .inr ⟨rfl, hR'⟩
  · rcases hagrees with hbad | ⟨hresult, hR'⟩
    · exact .inl (ends_both.mp (hkeeps a s' hbad))
    · rcases hother : other t with ⟨e' | a', t'⟩ <;> rw [hother] at hresult hR' <;> cases hresult
      exact hnext a t (by rw [hother]) s' t' hR'

end Step

/-! ## Renderings without their formatting -/

namespace Rendering

/-- A rendering that differs from another one by requests for formatting only, under options that
`P` allows; the other rendering goes on with the code itself. -/
inductive Unformats (P : Formatter.Options → Prop) : Rendering α → Rendering α → Prop
  | done (a : α) : Unformats P (done a) (done a)
  | failed (e : Failure) : Unformats P (failed e) (failed e)
  | meets (r : Json) {rest other : Rendering α} :
    Unformats P rest other → Unformats P (meets r rest) (meets r other)
  | asks (n : String) {rest other : Bool → Rendering α} :
    (∀ b, Unformats P (rest b) (other b)) → Unformats P (asks n rest) (asks n other)
  | formats (c : String) (o : Formatter.Options) {rest : String → Rendering α}
    {other : Rendering α} :
    P o → Unformats P (rest c) other → Unformats P (formats c o rest) other

variable {P : Formatter.Options → Prop}

/-- A rendering that never asks for formatting has nothing to leave out. -/
theorem unformats_of_within {l : Leave} (hl : ¬ l.formatting) {x : Rendering α} (h : x.Within l) :
    Unformats P x x := by
  induction x with
  | done a => exact .done a
  | failed e => exact .failed e
  | meets r rest ih => exact .meets r (ih h.2)
  | asks n rest ih => exact .asks n fun b => ih b (h.2 b)
  | formats c o rest ih => exact absurd h.1 hl

theorem Unformats.bind {x y : Rendering α} {f g : α → Rendering β} (hx : Unformats P x y)
    (hf : ∀ a, Unformats P (f a) (g a)) : Unformats P (x >>= f) (y >>= g) := by
  induction hx with
  | done a => exact hf a
  | failed e => exact .failed e
  | meets r _ ih => exact .meets r ih
  | asks n _ ih => exact .asks n ih
  | formats c o hP _ ih => exact .formats c o hP ih

theorem unformats_lift (x : Except Failure α) :
    Unformats P (liftM x : Rendering α) (liftM x) := by
  cases x with
  | ok a => exact .done a
  | error e => exact .failed e

/-- Whatever a rendering asks for: a run never leaves the bad states if no answer does. -/
theorem run_keeps_bad {bad : σ → Prop} {host : Host σ}
    (hmeet : ∀ r, (host.meet r).Keeps bad fun _ => bad)
    (hformat : ∀ c o, (host.format c o).Keeps bad fun _ => bad) (x : Rendering α) :
    (x.run host).Keeps bad fun _ => bad := by
  have hwithin : x.Within ⟨fun _ => True, True, fun _ => True, True⟩ := by
    induction x with
    | done a => exact trivial
    | failed e => exact trivial
    | meets r rest ih => exact ⟨trivial, ih⟩
    | asks n rest ih => exact ⟨trivial, ih⟩
    | formats c o rest ih => exact ⟨trivial, ih⟩
  exact run_keeps (fun _ _ hs _ => hs) (fun r _ => hmeet r) (fun _ => hformat) hwithin

end Rendering

/-- A host who answers as another one does, unless something goes wrong, and who gives code back as
it is when asked to format it under options that `P` allows. -/
structure Host.Agrees (bad : σ → Prop) (R : σ → τ → Prop) (P : Formatter.Options → Prop)
    (host : Host σ) (other : Host τ) : Prop where
  meet_keeps : ∀ r, (host.meet r).Keeps bad fun _ => bad
  format_keeps : ∀ c o, (host.format c o).Keeps bad fun _ => bad
  meet : ∀ r, Step.Agrees bad R (host.meet r) (other.meet r)
  underWay : ∀ n s t, R s t → host.underWay n s = other.underWay n t
  format : ∀ c o, P o → Step.Agrees bad R (host.format c o) (Step.ofExcept (.ok c))

/-- A run agrees with the run that does without formatting, if the hosts agree. -/
theorem Rendering.Unformats.run_agrees {bad : σ → Prop} {R : σ → τ → Prop}
    {P : Formatter.Options → Prop} {host : Host σ} {other : Host τ}
    (hhost : host.Agrees bad R P other) {x y : Rendering α} (hx : Unformats P x y) :
    Step.Agrees bad R (x.run host) (y.run other) := by
  have hkeeps : ∀ z : Rendering α, (z.run host).Keeps bad fun _ => bad :=
    run_keeps_bad hhost.meet_keeps hhost.format_keeps
  induction hx with
  | done a => exact Step.agrees_ofExcept (.ok a)
  | failed e => exact Step.agrees_ofExcept (.error e)
  | meets r _ ih =>
    rw [run_meets, run_meets]
    exact (hhost.meet r).andThen (fun _ => hkeeps _) fun _ _ _ => ih
  | asks n _ ih =>
    intro s t hR
    rw [run, run, hhost.underWay n s t hR]
    exact ih (other.underWay n t) s t hR
  | @formats c o rest y hP _ ih =>
    -- the other run does not ask, which is to be told the code itself
    have hy : y.run other = (Step.ofExcept (.ok c)).andThen fun _ => y.run other := rfl
    rw [run_formats, hy]
    refine (hhost.format c o hP).andThen (fun _ => hkeeps _) fun a t ha => ?_
    obtain rfl : c = a := Except.ok.inj ha
    exact ih

/-! ## Declarations without their formatting -/

namespace Expression

variable {P : Formatter.Options → Prop} {o : Formatter.Options}

theorem formatted_unformats (hP : P { o with semicolons := .bool false })
    (preText : OrMisfit String) (expression : String) :
    (formatted preText (some (.options o)) expression).Unformats P
      (formatted preText none expression) := by
  have halias : (formatAlias (some (.options o)) (aliasOf expression)).Unformats P
      (formatAlias none (aliasOf expression)) := .formats _ _ hP (.done _)
  refine halias.bind fun text => ?_
  cases aliasBody? text with
  | none => exact .failed _
  | some body => exact Rendering.unformats_lift _

theorem convert_unformats (hP : P { o with semicolons := .bool false }) (document : Json)
    (settings : Settings) (schema : Json) :
    (convert document settings (some (.options o)) schema).Unformats P
      (convert document settings none schema) := by
  unfold convert
  split
  · have hexpression : (ofSchema document settings schema).Unformats P
        (ofSchema document settings schema) :=
      Rendering.unformats_of_within id (ofSchema_within document settings schema)
    exact hexpression.bind fun expression => formatted_unformats hP _ expression
  · exact .done _

end Expression

namespace Declaration

theorem ofSchema_unformats {P : Formatter.Options → Prop} {o : Formatter.Options}
    (hP : P { o with semicolons := .bool false }) (document : Json) (options : Options)
    (name : String) (schema : Json) :
    (ofSchema document options (some (.options o)) name schema).Unformats P
      (ofSchema document options none name schema) := by
  refine (Rendering.unformats_lift _).bind fun defaultType => ?_
  refine (Expression.convert_unformats hP _ _ _).bind fun expression => ?_
  exact (Rendering.unformats_lift _).bind fun isInterface => .done _

namespace Expansion

variable {φ ψ : Type}

/-- The formatter of an expansion works on states of its own; these are its bad ones. -/
def Bad (bad : φ → Prop) (s : State φ) : Prop := bad s.formatter

/-- Two states of expansions with the same memo and the same reports. -/
def Same (s : State φ) (t : State ψ) : Prop :=
  s.memo = t.memo ∧ s.reported = t.reported

/-- An expansion that is like another one but for its formatter, which gives code back as it is or
else ends in a bad state; bad states are never left. -/
structure Unneeded (bad : φ → Prop) (P : Formatter.Options → Prop) (x : Expansion φ)
    (plain : Expansion ψ) : Prop where
  document : x.document = plain.document
  options : x.options = plain.options
  formatting : ∃ o, x.formatting = some (.options o) ∧ P { o with semicolons := .bool false }
  unformatted : plain.formatting = none
  keeps : ∀ code options, (x.formatter code options).Keeps bad fun _ => bad
  agrees : ∀ code options, P options → ∀ f,
    bad (x.formatter code options f).2 ∨ (x.formatter code options f).1 = .ok code

namespace Unneeded

variable {bad : φ → Prop} {P : Formatter.Options → Prop} {x : Expansion φ} {plain : Expansion ψ}
  {nested : String → Json → Step (State φ) String} {other : String → Json → Step (State ψ) String}

theorem tell (h : Unneeded bad P x plain) (name text : String) :
    Step.Agrees (Bad bad) Same (x.tell name text) (plain.tell name text) := by
  rintro s t ⟨hmemo, hreported⟩
  right
  unfold Expansion.tell
  rw [h.options]
  cases plain.options.listener with
  | nobody => exact ⟨rfl, hmemo, hreported⟩
  | somebody answer =>
    exact ⟨congrArg (answer · (name, text)) hreported, hmemo,
      congrArg (· ++ [(name, text)]) hreported⟩
  | deaf v => exact ⟨rfl, hmemo, hreported⟩

theorem tell_keeps_bad (name text : String) :
    (x.tell name text).Keeps (Bad bad) fun _ => Bad bad :=
  tell_keeps name text (fun _ hs => hs) fun _ _ _ _ hs => hs

theorem meet_keeps_bad
    (hnested : ∀ name schema, (nested name schema).Keeps (Bad bad) fun _ => Bad bad)
    (reference : Json) : (x.meet nested reference).Keeps (Bad bad) fun _ => Bad bad :=
  meet_keeps tell_keeps_bad (fun _ _ _ hs => hs) fun name _ _ hs _ =>
    ⟨fun _ _ => hs, fun schema _ => hnested name schema _ hs⟩

theorem format_keeps_bad (h : Unneeded bad P x plain) (code : String)
    (options : Formatter.Options) :
    ((x.host nested).format code options).Keeps (Bad bad) fun _ => Bad bad := by
  refine format_keeps code options (fun text s f hrun hs => ?_) fun e s f hrun hs => ?_
  · have hbad := Step.ends_both.mp (h.keeps code options s.formatter hs)
    rw [hrun] at hbad
    exact hbad
  · have hbad := Step.ends_both.mp (h.keeps code options s.formatter hs)
    rw [hrun] at hbad
    exact hbad

theorem bad_enter {s : State φ} (hs : Bad bad s) (name : String) : Bad bad (s.enter name) := by
  unfold State.enter
  split
  · exact hs
  · exact hs

theorem same_enter {s : State φ} {t : State ψ} (h : Same s t) (name : String) :
    Same (s.enter name) (t.enter name) := by
  obtain ⟨hmemo, hreported⟩ := h
  unfold State.enter
  rw [hmemo]
  split
  · exact ⟨hmemo, hreported⟩
  · exact ⟨congrArg (Memo.start · name) hmemo, hreported⟩

theorem declareWith_keeps_bad (h : Unneeded bad P x plain)
    (hnested : ∀ name schema, (nested name schema).Keeps (Bad bad) fun _ => Bad bad) (name : String)
    (schema : Json) : (x.declareWith nested name schema).Keeps (Bad bad) fun _ => Bad bad :=
  fun _ hs => declareWith_ends
    (Rendering.run_keeps_bad (meet_keeps_bad hnested) h.format_keeps_bad _)
    (bad_enter hs name) fun _ _ ht => ht

/-- When a reference is met, both expansions do the same. -/
theorem meet (h : Unneeded bad P x plain)
    (hnested : ∀ name schema, Step.Agrees (Bad bad) Same (nested name schema) (other name schema))
    (reference : Json) :
    Step.Agrees (Bad bad) Same (x.meet nested reference) (plain.meet other reference) := by
  rintro s t ⟨hmemo, hreported⟩
  unfold Expansion.meet
  rw [h.options, hmemo]
  cases plain.options.listener.isPresent with
  | false => exact .inr ⟨rfl, hmemo, hreported⟩
  | true =>
    rw [if_pos rfl, if_pos rfl]
    cases Reference.displayNameOf reference with
    | error e => exact .inr ⟨rfl, hmemo, hreported⟩
    | ok name =>
      dsimp only
      cases t.memo.progress? name with
      | some progress =>
        cases progress with
        | done text => exact h.tell name text s t ⟨hmemo, hreported⟩
        | inProgress => exact .inr ⟨rfl, hmemo, hreported⟩
      -- Only a new name leads to a declaration, which may leave the formatter in a bad state.
      | none =>
        have hstart : Same (s.start name) (t.start name) :=
          ⟨congrArg (Memo.start · name) hmemo, hreported⟩
        have hdeclared : ∀ schema, Step.Agrees (Bad bad) Same
            ((nested name schema).andThen (x.tell name))
            ((other name schema).andThen (plain.tell name)) := fun schema =>
          (hnested name schema).andThen (tell_keeps_bad name) fun text _ _ => h.tell name text
        dsimp only
        rw [declareTarget_eq, declareTarget_eq, h.document]
        cases Reference.targetOf plain.document reference with
        | error e => exact .inr ⟨rfl, hstart⟩
        | ok schema => exact hdeclared schema _ _ hstart

theorem host (h : Unneeded bad P x plain)
    (hkeeps : ∀ name schema, (nested name schema).Keeps (Bad bad) fun _ => Bad bad)
    (hnested : ∀ name schema, Step.Agrees (Bad bad) Same (nested name schema) (other name schema)) :
    (x.host nested).Agrees (Bad bad) Same P (plain.host other) where
  meet_keeps := meet_keeps_bad hkeeps
  format_keeps := h.format_keeps_bad
  meet := h.meet hnested
  underWay := fun n s t hsame => congrArg (Memo.isInProgress · n) hsame.1
  format := by
    intro code options hP s t hsame
    rcases h.agrees code options hP s.formatter with hbad | hok
    · exact .inl hbad
    · exact .inr ⟨hok, hsame⟩

theorem declareWith (h : Unneeded bad P x plain)
    (hkeeps : ∀ name schema, (nested name schema).Keeps (Bad bad) fun _ => Bad bad)
    (hnested : ∀ name schema, Step.Agrees (Bad bad) Same (nested name schema) (other name schema))
    (name : String) (schema : Json) :
    Step.Agrees (Bad bad) Same (x.declareWith nested name schema)
      (plain.declareWith other name schema) := by
  obtain ⟨o, hformatting, hP⟩ := h.formatting
  have hrun := (ofSchema_unformats hP x.document x.options name schema).run_agrees
    (h.host hkeeps hnested)
  rw [← hformatting, ← h.unformatted] at hrun
  have hfinish : ∀ text, Step.Agrees (Bad bad) (Same (φ := φ) (ψ := ψ))
      (finishing name text) (finishing name text) := fun text s t hsame =>
    .inr ⟨rfl, congrArg (Memo.finish · name text) hsame.1, hsame.2⟩
  have hfinishKeeps : ∀ text, (finishing name text).Keeps (Bad bad) fun _ => Bad bad :=
    fun _ _ hs => hs
  intro s t hsame
  rw [declareWith_eq, declareWith_eq, ← h.document, ← h.options]
  exact hrun.andThen hfinishKeeps (fun text _ _ => hfinish text) _ _ (same_enter hsame name)

theorem declare_keeps_bad (h : Unneeded bad P x plain) (bound : Nat) (name : String)
    (schema : Json) : (x.declare bound name schema).Keeps (Bad bad) fun _ => Bad bad := by
  induction bound generalizing name schema with
  | zero => exact fun _ hs => hs
  | succ bound ih => exact h.declareWith_keeps_bad ih name schema

/-- Declarations agree, however deep they are nested. -/
theorem declare (h : Unneeded bad P x plain) (bound : Nat) (name : String) (schema : Json) :
    Step.Agrees (Bad bad) Same (x.declare bound name schema) (plain.declare bound name schema) := by
  induction bound generalizing name schema with
  | zero => exact Step.agrees_ofExcept (.error .boundExceeded)
  | succ bound ih => exact h.declareWith (h.declare_keeps_bad bound) ih name schema

/-- Whole expansions agree. -/
theorem run (h : Unneeded bad P x plain) (name : String) (schema : Json) :
    Step.Agrees (Bad bad) Same (x.run name schema) (plain.run name schema) := by
  unfold Expansion.run
  rw [← h.document]
  exact h.declare _ name schema

end Unneeded

end Expansion

end Declaration

end SchemaTypes

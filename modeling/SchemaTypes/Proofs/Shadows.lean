import SchemaTypes.Proofs.Expansions

/-!
# Expansions with a richer formatter

The state of a formatter may hold more than the formatter needs: notes of what was done, for one. An
expansion with such a formatter does what the expansion with the plain one does, once the surplus is
forgotten (`Expansion.Enriches.declare`).
-/

namespace SchemaTypes

/-- One step after another shadows what the two steps shadow. -/
theorem Step.Shadows.andThen {σ τ α β : Type} {view : τ → σ} {rich : Step τ α} {step : Step σ α}
    {richNext : α → Step τ β} {next : α → Step σ β} (h : Step.Shadows view rich step)
    (hnext : ∀ a, Step.Shadows view (richNext a) (next a)) :
    Step.Shadows view (rich.andThen richNext) (step.andThen next) := by
  intro t
  unfold Step.andThen
  rw [h t]
  rcases rich t with ⟨e | a, t'⟩
  · rfl
  · exact hnext a t'

namespace Declaration.Expansion

open Expression (nestingBound)

variable {φ ψ : Type}

/-- A state with a part of the state of its formatter. -/
def State.seen (view : ψ → φ) (s : State ψ) : State φ :=
  ⟨s.memo, s.reported, view s.formatter⟩

@[simp] theorem State.seen_memo (view : ψ → φ) (s : State ψ) : (s.seen view).memo = s.memo := rfl

theorem State.seen_start (view : ψ → φ) (s : State ψ) (name : String) :
    (s.seen view).start name = (s.start name).seen view := rfl

theorem State.seen_enter (view : ψ → φ) (s : State ψ) (name : String) :
    (s.seen view).enter name = (s.enter name).seen view := by
  unfold State.enter
  rw [State.seen_memo]
  split <;> rfl

/-- An expansion that is like another one but for a formatter with a richer state. -/
structure Enriches (view : ψ → φ) (rich : Expansion ψ) (x : Expansion φ) : Prop where
  document : rich.document = x.document
  options : rich.options = x.options
  formatting : rich.formatting = x.formatting
  formatter : ∀ code options,
    Step.Shadows view (rich.formatter code options) (x.formatter code options)

namespace Enriches

variable {view : ψ → φ} {rich : Expansion ψ} {x : Expansion φ}
  {richNested : String → Json → Step (State ψ) String}
  {nested : String → Json → Step (State φ) String}

theorem tell (hx : Enriches view rich x) (name text : String) :
    Step.Shadows (State.seen view) (rich.tell name text) (x.tell name text) := by
  intro t
  unfold Expansion.tell
  rw [hx.options]
  cases x.options.listener <;> rfl

theorem meet (hx : Enriches view rich x)
    (h : ∀ name schema,
      Step.Shadows (State.seen view) (richNested name schema) (nested name schema))
    (reference : Json) :
    Step.Shadows (State.seen view) (rich.meet richNested reference) (x.meet nested reference) := by
  intro t
  unfold Expansion.meet
  rw [hx.options]
  cases x.options.listener.isPresent with
  | false => rfl
  | true =>
    rw [if_pos rfl, if_pos rfl]
    cases Reference.displayNameOf reference with
    | error e => rfl
    | ok name =>
      dsimp only [State.seen_memo]
      cases t.memo.progress? name with
      | some progress =>
        cases progress with
        | done text => exact hx.tell name text t
        | inProgress => rfl
      | none =>
        dsimp only [declareTarget]
        rw [hx.document]
        cases Reference.targetOf x.document reference with
        | error e => rfl
        | ok schema =>
          dsimp only
          rw [State.seen_start, h name schema]
          rcases richNested name schema (t.start name) with ⟨e | text, u⟩
          · rfl
          · exact hx.tell name text u

theorem format (hx : Enriches view rich x) (richNested : String → Json → Step (State ψ) String)
    (nested : String → Json → Step (State φ) String) (code : String)
    (options : Formatter.Options) :
    Step.Shadows (State.seen view) ((rich.host richNested).format code options)
      ((x.host nested).format code options) := by
  intro t
  have hformat := hx.formatter code options t.formatter
  change ((x.formatter code options (view t.formatter)).1,
    (⟨t.memo, t.reported, (x.formatter code options (view t.formatter)).2⟩ : State φ)) = _
  rw [hformat]
  rfl

theorem declareWith (hx : Enriches view rich x)
    (h : ∀ name schema,
      Step.Shadows (State.seen view) (richNested name schema) (nested name schema))
    (name : String) (schema : Json) :
    Step.Shadows (State.seen view) (rich.declareWith richNested name schema)
      (x.declareWith nested name schema) := by
  have hrun : Step.Shadows (State.seen view)
      ((ofSchema x.document x.options x.formatting name schema).run (rich.host richNested))
      ((ofSchema x.document x.options x.formatting name schema).run (x.host nested)) := by
    refine Rendering.run_shadows (hx.meet h) ?_ ?_ _
    · exact fun _ _ => rfl
    · exact fun code options => hx.format richNested nested code options
  intro t
  unfold Expansion.declareWith
  dsimp only
  rw [hx.document, hx.options, hx.formatting, State.seen_enter, hrun]
  rcases (ofSchema x.document x.options x.formatting name schema).run (rich.host richNested)
    (t.enter name) with ⟨e | text, u⟩ <;> rfl

/-- A declaration with a richer formatter is the plain one, with the surplus forgotten. -/
theorem declare (hx : Enriches view rich x) (bound : Nat) (name : String) (schema : Json) :
    Step.Shadows (State.seen view) (rich.declare bound name schema)
      (x.declare bound name schema) := by
  induction bound generalizing name schema with
  | zero => exact fun t => rfl
  | succ bound ih => exact hx.declareWith ih name schema

theorem run (hx : Enriches view rich x) (name : String) (schema : Json) :
    Step.Shadows (State.seen view) (rich.run name schema) (x.run name schema) := by
  unfold Expansion.run
  rw [hx.document]
  exact hx.declare _ name schema

end Enriches

end Declaration.Expansion

end SchemaTypes

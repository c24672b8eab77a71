import SchemaTypes.Formatter.Options
import SchemaTypes.Step

/-!
# Renderings

Writing a type depends on more than its schema: somebody may watch the references that are met, some
names may be under way elsewhere and must not be inlined, and a formatter may take part. A
`Rendering` is the course of such a work, told before it is carried out. It ends with a value or a
failure; on its way it meets references, asks whether a name is under way, and hands code to a
formatter, going on as it is answered.

`Rendering.run` carries it out with a `Host`, who keeps a state and gives the answers.
`Rendering.observe` is the plainest way: the names under way are fixed, there is no formatter, and
the references met are listed.
-/

namespace SchemaTypes

/-- A work that ends with a value of type `α` or with a failure. -/
inductive Rendering (α : Type) where
  | done (value : α)
  | failed (cause : Failure)
  /-- Meets a reference. -/
  | meets (reference : Json) (rest : Rendering α)
  /-- Asks whether a name is under way elsewhere. -/
  | asks (name : String) (rest : Bool → Rendering α)
  /-- Hands code to the formatter. -/
  | formats (code : String) (options : Formatter.Options) (rest : String → Rendering α)

namespace Rendering

variable {α β σ : Type}

/-! ## Composition -/

/-- One work after another. -/
def bind : Rendering α → (α → Rendering β) → Rendering β
  | done a, f => f a
  | failed e, _ => failed e
  | meets r rest, f => meets r (rest.bind f)
  | asks n rest, f => asks n fun b => (rest b).bind f
  | formats c o rest, f => formats c o fun t => (rest t).bind f

instance : Monad Rendering where
  pure := done
  bind := bind

/-- A result that needs no work. -/
def ofExcept : Except Failure α → Rendering α
  | .ok a => done a
  | .error e => failed e

instance : MonadLift (Except Failure) Rendering := ⟨ofExcept⟩

/-- Meets a reference. -/
def meet (reference : Json) : Rendering Unit :=
  meets reference (done ())

/-- Asks whether a name is under way elsewhere. -/
def ask (name : String) : Rendering Bool :=
  asks name done

/-- Hands code to the formatter. -/
def format (code : String) (options : Formatter.Options) : Rendering String :=
  formats code options done

theorem bind_done (x : Rendering α) : bind x done = x := by
  induction x with
  | done a => rfl
  | failed e => rfl
  | meets r rest ih => simp [bind, ih]
  | asks n rest ih => simp [bind, ih]
  | formats c o rest ih => simp [bind, ih]

theorem bind_assoc {γ : Type} (x : Rendering α) (f : α → Rendering β) (g : β → Rendering γ) :
    bind (bind x f) g = bind x fun a => bind (f a) g := by
  induction x with
  | done a => rfl
  | failed e => rfl
  | meets r rest ih => simp [bind, ih]
  | asks n rest ih => simp [bind, ih]
  | formats c o rest ih => simp [bind, ih]

instance : LawfulMonad Rendering :=
  LawfulMonad.mk' Rendering (fun x => bind_done x) (fun _ _ => rfl) bind_assoc

/-! ## Carrying out -/

end Rendering

/-- One who takes part in a rendering and keeps a state of type `σ`. -/
structure Host (σ : Type) where
  /-- Takes note of a reference. -/
  meet : Json → Step σ Unit
  /-- Says whether a name is under way. -/
  underWay : String → σ → Bool
  /-- Formats code. -/
  format : String → Formatter.Options → Step σ String

namespace Rendering

variable {α σ : Type}

/-- Carries out a rendering; a failure of the host ends it. -/
def run (host : Host σ) : Rendering α → Step σ α
  | done a, s => (.ok a, s)
  | failed e, s => (.error e, s)
  | meets r rest, s =>
    match host.meet r s with
    | (.ok _, s) => rest.run host s
    | (.error e, s) => (.error e, s)
  | asks n rest, s => (rest (host.underWay n s)).run host s
  | formats c o rest, s =>
    match host.format c o s with
    | (.ok t, s) => (rest t).run host s
    | (.error e, s) => (.error e, s)

/-- The references that are met and the outcome, if the names under way are fixed and formatting
leaves code as it is. -/
def observe (underWay : String → Bool) : Rendering α → List Json × Except Failure α
  | done a => ([], .ok a)
  | failed e => ([], .error e)
  | meets r rest =>
    let (met, outcome) := rest.observe underWay
    (r :: met, outcome)
  | asks n rest => (rest (underWay n)).observe underWay
  | formats c _ rest => (rest c).observe underWay

end Rendering

end SchemaTypes

import SchemaTypes.Proofs.Collecting
import SchemaTypes.Proofs.Courses

/-!
# Attempts to declare

An expansion makes one attempt to declare its schema, and one more for every reference that it meets
whose name has not come up; each of these ends with a text or fails. An `Attempt` is where such an
attempt begins, and everything about it can be read off that: its outcome, the references it meets,
the codes it has formatted, and `Attempt.all`, the attempts that are made in it, in the order in
which they end.

`Expansion.Meets` says once what an expansion may do when a reference is met.
-/

namespace SchemaTypes.Declaration

open Expansion (State)
open Expression (displayNames leave)

variable {φ : Type}

/-! ## Attempts -/

/-- An attempt to declare a schema under a name, from a state. Further attempts are nested in it at
most `bound` deep. -/
structure Attempt (φ : Type) where
  expansion : Expansion φ
  bound : Nat
  name : String
  schema : Json
  before : State φ

namespace Attempt

variable (a : Attempt φ)

/-- What is carried out in an attempt. -/
def rendering : Rendering String :=
  ofSchema a.expansion.document a.expansion.options a.expansion.formatting a.name a.schema

/-- Who carries it out. -/
def host : Host (State φ) := a.expansion.host (a.expansion.declare a.bound)

/-- The state in which the rendering begins. -/
def entered : State φ := a.before.enter a.name

/-- The state in which the rendering ends. Its text is not noted yet. -/
def rendered : State φ := (a.rendering.run a.host a.entered).2

/-- What an attempt comes to. -/
def outcome : Except Failure String × State φ :=
  a.expansion.declareWith (a.expansion.declare a.bound) a.name a.schema a.before

/-- The text that an attempt gives, or its failure. -/
def result : Except Failure String := a.outcome.1

/-- The state that an attempt leaves. -/
def after : State φ := a.outcome.2

/-- What is asked for in the rendering. What is asked for in nested attempts is not part of it. -/
def course : Course (State φ) := a.rendering.course a.host a.entered {}

/-- The references that are met in the rendering, with the states before and after. -/
def meetings : List (Meeting (State φ)) := a.course.meetings

/-- The references that are met in the rendering. -/
def met : List Json := a.meetings.map Meeting.reference

/-- The codes that the rendering hands to the formatter. -/
def codes : List String := a.course.codes

end Attempt

namespace Expansion

/-- The declaration that begins when a reference is met: its name and schema, if the name has not
come up and the schema is there. -/
def begins? (x : Expansion φ) (s : State φ) (reference : Json) : Option (String × Json) :=
  if x.options.listener.isPresent then
    match Reference.displayNameOf reference with
    | .error _ => none
    | .ok name =>
      match s.memo.progress? name with
      | some _ => none
      | none =>
        match Reference.targetOf x.document reference with
        | .error _ => none
        | .ok schema => some (name, schema)
  else
    none

/-- The attempts that are made in a declaration that begins, if one does. -/
def madeIn (attempts : String → Json → State φ → List (Attempt φ)) (s : State φ) :
    Option (String × Json) → List (Attempt φ)
  | some (name, schema) => attempts name schema (s.start name)
  | none => []

/-- All attempts that are made to declare a schema under a name, in the order in which they end. -/
def attempts (x : Expansion φ) : Nat → String → Json → State φ → List (Attempt φ)
  | 0, _, _, _ => []
  | bound + 1, name, schema, s =>
    (Attempt.meetings ⟨x, bound, name, schema, s⟩).flatMap (fun m =>
      madeIn (x.attempts bound) m.before (x.begins? m.before m.reference)) ++
        [⟨x, bound, name, schema, s⟩]

/-- The attempt that an expansion is. -/
def attempt (x : Expansion φ) (name : String) (schema : Json) (s : State φ) : Attempt φ :=
  ⟨x, (displayNames x.document schema).length, name, schema, s⟩

end Expansion

namespace Attempt

variable (a : Attempt φ)

/-- The attempts that are made when some references are met. -/
def made (c : Course (State φ)) : List (Attempt φ) :=
  c.meetings.flatMap fun m =>
    Expansion.madeIn (a.expansion.attempts a.bound) m.before
      (a.expansion.begins? m.before m.reference)

/-- The attempts that are nested in an attempt, in the order in which they end. -/
def nested : List (Attempt φ) := a.made a.course

/-- The attempts that are nested in an attempt, and this one itself, which ends last. -/
def all : List (Attempt φ) := a.nested ++ [a]

@[simp] theorem mem_all {b : Attempt φ} : b ∈ a.all ↔ b ∈ a.nested ∨ b = a := by
  simp [all]

theorem made_meets (c : Course (State φ)) (m : Meeting (State φ)) :
    a.made (c.meets m) = a.made c ++ Expansion.madeIn (a.expansion.attempts a.bound) m.before
      (a.expansion.begins? m.before m.reference) := by
  simp [made]

@[simp] theorem made_hands (c : Course (State φ)) (code : String) :
    a.made (c.hands code) = a.made c := rfl

/-- An attempt ends as its rendering does, and its text is noted. -/
theorem outcome_eq :
    a.outcome =
      match a.rendering.run a.host a.entered with
      | (.ok text, s) => (.ok text, s.finish a.name text)
      | (.error e, s) => (.error e, s) := rfl

/-- An attempt that gives a text has rendered it, and notes it at the end. -/
theorem of_result_eq_ok {text : String} (h : a.result = .ok text) :
    a.rendering.run a.host a.entered = (.ok text, a.rendered) ∧
      a.after = a.rendered.finish a.name text := by
  unfold result at h
  unfold after rendered
  rw [outcome_eq] at h ⊢
  rcases hrun : a.rendering.run a.host a.entered with ⟨e | text', t⟩
  · rw [hrun] at h
    cases h
  · rw [hrun] at h
    obtain rfl : text' = text := Except.ok.inj h
    exact ⟨rfl, rfl⟩

/-- An attempt that fails leaves the state in which its rendering failed. -/
theorem after_of_error {e : Failure} (h : a.result = .error e) : a.after = a.rendered := by
  unfold result at h
  unfold after rendered
  rw [outcome_eq] at h ⊢
  rcases hrun : a.rendering.run a.host a.entered with ⟨e' | text, t⟩
  · rfl
  · rw [hrun] at h
    cases h

end Attempt

namespace Expansion

/-! ## Meeting references -/

/-- What an expansion may do when a reference is met: which declaration begins, if one does, and
what the meeting comes to. -/
inductive Meets (x : Expansion φ) (nested : String → Json → Step (State φ) String)
    (reference : Json) (s : State φ) :
    Option (String × Json) → Except Failure Unit × State φ → Prop where
  /-- Nobody listens. -/
  | unheard (hlistener : x.options.listener.isPresent = false) :
    Meets x nested reference s none (.ok (), s)
  /-- The reference has no name. -/
  | nameless {e : Failure} (hname : Reference.displayNameOf reference = .error e) :
    Meets x nested reference s none (.error e, s)
  /-- The name is declared, and reported from the memo. -/
  | known {name text : String} (hname : Reference.displayNameOf reference = .ok name)
      (hdone : s.memo.progress? name = some (.done text)) :
    Meets x nested reference s none (x.tell name text s)
  /-- The name is being declared. -/
  | underWay {name : String} (hname : Reference.displayNameOf reference = .ok name)
      (hprogress : s.memo.progress? name = some .inProgress) :
    Meets x nested reference s none (.ok (), s)
  /-- The name is new, but the reference leads nowhere. -/
  | lost {name : String} {e : Failure} (hname : Reference.displayNameOf reference = .ok name)
      (hnew : s.memo.progress? name = none)
      (htarget : Reference.targetOf x.document reference = .error e) :
    Meets x nested reference s none (.error e, s.start name)
  /-- The name is new, and its declaration fails. -/
  | failed {name : String} {schema : Json} {e : Failure} {t : State φ}
      (hname : Reference.displayNameOf reference = .ok name)
      (hnew : s.memo.progress? name = none)
      (htarget : Reference.targetOf x.document reference = .ok schema)
      (hrun : nested name schema (s.start name) = (.error e, t)) :
    Meets x nested reference s (some (name, schema)) (.error e, t)
  /-- The name is new, and its declaration is reported. -/
  | declared {name : String} {schema : Json} {text : String} {t : State φ}
      (hname : Reference.displayNameOf reference = .ok name)
      (hnew : s.memo.progress? name = none)
      (htarget : Reference.targetOf x.document reference = .ok schema)
      (hrun : nested name schema (s.start name) = (.ok text, t)) :
    Meets x nested reference s (some (name, schema)) (x.tell name text t)

theorem meet_meets (x : Expansion φ) (nested : String → Json → Step (State φ) String)
    (reference : Json) (s : State φ) :
    Meets x nested reference s (x.begins? s reference) (x.meet nested reference s) := by
  unfold begins? meet
  cases hlistener : x.options.listener.isPresent with
  | false => exact .unheard hlistener
  | true =>
    rw [if_pos rfl, if_pos rfl]
    cases hname : Reference.displayNameOf reference with
    | error e => exact .nameless hname
    | ok name =>
      dsimp only
      cases hprogress : s.memo.progress? name with
      | some progress =>
        cases progress with
        | done text => exact .known hname hprogress
        | inProgress => exact .underWay hname hprogress
      | none =>
        dsimp only [declareTarget]
        cases htarget : Reference.targetOf x.document reference with
        | error e => exact .lost hname hprogress htarget
        | ok schema =>
          dsimp only
          rcases hrun : nested name schema (s.start name) with ⟨e | text, t⟩
          · exact .failed hname hprogress htarget hrun
          · exact .declared hname hprogress htarget hrun

/-- What begins is the declaration of a new name, with the schema that the reference leads to. -/
theorem of_begins?_eq_some {x : Expansion φ} {s : State φ} {reference schema : Json}
    {name : String} (h : x.begins? s reference = some (name, schema)) :
    Reference.displayNameOf reference = .ok name ∧ s.memo.progress? name = none ∧
      Reference.targetOf x.document reference = .ok schema := by
  obtain ⟨result, hmeets⟩ : ∃ result,
      Meets x (fun _ _ => Step.ofExcept (.ok "")) reference s (x.begins? s reference) result :=
    ⟨_, meet_meets x _ reference s⟩
  rw [h] at hmeets
  cases hmeets with
  | failed hname hnew htarget hrun => exact ⟨hname, hnew, htarget⟩
  | declared hname hnew htarget hrun => exact ⟨hname, hnew, htarget⟩

/-- A report leaves the memo as it is. -/
theorem tell_memo (x : Expansion φ) (name text : String) (s : State φ) :
    (x.tell name text s).2.memo = s.memo := by
  unfold tell
  cases x.options.listener <;> rfl

end Expansion

/-! ## Attempts within attempts -/

namespace Attempt

/-- An attempt is made right in another one, when a reference is met. -/
structure Begins (a : Attempt φ) (m : Meeting (State φ)) (b : Attempt φ) : Prop where
  mem : m ∈ a.meetings
  begins : a.expansion.begins? m.before m.reference = some (b.name, b.schema)
  expansion_eq : b.expansion = a.expansion
  bound_eq : a.bound = b.bound + 1
  before_eq : b.before = m.before.start b.name

/-- A nested attempt is made in an attempt that is made right in this one. -/
theorem mem_nested {a b : Attempt φ} : b ∈ a.nested ↔ ∃ m c, a.Begins m c ∧ b ∈ c.all := by
  unfold nested made
  rw [List.mem_flatMap]
  constructor
  · rintro ⟨m, hm, hb⟩
    rcases hbegins : a.expansion.begins? m.before m.reference with - | ⟨name, schema⟩
    · rw [hbegins] at hb
      cases hb
    · rw [hbegins] at hb
      cases hbound : a.bound with
      | zero =>
        rw [hbound] at hb
        cases hb
      | succ bound =>
        rw [hbound] at hb
        exact ⟨m, ⟨a.expansion, bound, name, schema, m.before.start name⟩,
          ⟨hm, hbegins, rfl, hbound, rfl⟩, hb⟩
  · rintro ⟨m, ⟨x, bound, name, schema, before⟩, ⟨hm, hbegins, hx, hbound, hbefore⟩, hb⟩
    dsimp only at hbegins hx hbound hbefore
    subst hx hbefore
    refine ⟨m, hm, ?_⟩
    rw [hbegins, hbound]
    exact hb

theorem mem_all_of_begins {a b c : Attempt φ} {m : Meeting (State φ)} (h : a.Begins m c)
    (hb : b ∈ c.all) : b ∈ a.all :=
  a.mem_all.mpr (Or.inl (mem_nested.mpr ⟨m, c, h, hb⟩))

/-- What holds of an attempt and goes over from one made in it to those made right in that one,
holds of all attempts made in it. -/
@[elab_as_elim]
theorem induct_all {motive : Attempt φ → Prop} {a b : Attempt φ} (hb : b ∈ a.all) (here : motive a)
    (next : ∀ b ∈ a.all, motive b → ∀ m c, b.Begins m c → motive c) : motive b := by
  induction hbound : a.bound generalizing a with
  | zero =>
    rcases a.mem_all.mp hb with hb | rfl
    · obtain ⟨m, c, hc, -⟩ := mem_nested.mp hb
      have hlt := hc.bound_eq
      omega
    · exact here
  | succ bound ih =>
    rcases a.mem_all.mp hb with hb | rfl
    · obtain ⟨m, c, hc, hb⟩ := mem_nested.mp hb
      have hc' : motive c := next a (a.mem_all.mpr (Or.inr rfl)) here m c hc
      refine ih hb hc' (fun d hd => next d (mem_all_of_begins hc hd)) ?_
      have heq := hc.bound_eq
      omega
    · exact here

/-- All attempts within an attempt are made by the same expansion. -/
theorem expansion_eq_of_mem_all {a b : Attempt φ} (hb : b ∈ a.all) :
    b.expansion = a.expansion :=
  induct_all hb rfl fun _ _ h _ _ hc => hc.expansion_eq.trans h

/-- A nested attempt is of the name and the target of a reference that is met. -/
theorem exists_met_of_mem_nested {a b : Attempt φ} (hb : b ∈ a.nested) :
    ∃ c ∈ a.all, ∃ r ∈ c.met, Reference.displayNameOf r = .ok b.name ∧
      Reference.targetOf a.expansion.document r = .ok b.schema := by
  obtain ⟨m, c, hc, hb⟩ := mem_nested.mp hb
  have hmet : ∀ {d e : Attempt φ} {m}, d ∈ a.all → d.Begins m e →
      ∃ c ∈ a.all, ∃ r ∈ c.met, Reference.displayNameOf r = .ok e.name ∧
        Reference.targetOf a.expansion.document r = .ok e.schema := by
    intro d e m hd he
    obtain ⟨hname, -, htarget⟩ := Expansion.of_begins?_eq_some he.begins
    rw [expansion_eq_of_mem_all hd] at htarget
    exact ⟨d, hd, m.reference, List.mem_map_of_mem he.mem, hname, htarget⟩
  refine induct_all hb (hmet (a.mem_all.mpr (Or.inr rfl)) hc) fun d hd _ m e he => ?_
  exact hmet (mem_all_of_begins hc hd) he

end Attempt

end SchemaTypes.Declaration

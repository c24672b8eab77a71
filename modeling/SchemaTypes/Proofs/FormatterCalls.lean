import SchemaTypes.Proofs.Attempts

/-!
# How often a formatter is called

A declaration hands its type expression to the formatter, once, if there is a formatter and the
schema is not one that counts as false. So the attempts in an expansion say how often its formatter
is called: where a formatter counts its calls in its state, the count goes up by the number of codes
that these attempts hand over.
-/

namespace SchemaTypes

namespace Rendering

variable {α β : Type}

theorem hands_pure (a : α) : (pure a : Rendering α).Hands 0 := rfl

theorem hands_lift (x : Except Failure α) : (liftM x : Rendering α).Hands 0 := by
  cases x with
  | ok a => rfl
  | error e => trivial

section Bind

variable {x : Rendering α} {f : α → Rendering β} {count : Nat}

theorem hands_bind_left (hx : x.Hands count) (hf : ∀ a, (f a).Hands 0) :
    (x >>= f).Hands count :=
  hands_bind hx hf

theorem hands_bind_right (hx : x.Hands 0) (hf : ∀ a, (f a).Hands count) :
    (x >>= f).Hands count := by
  have hhands := hands_bind hx hf
  rwa [Nat.zero_add] at hhands

end Bind

end Rendering

/-! ## Codes that are handed over -/

namespace Expression

/-- An alias is handed over if there is a formatter. -/
theorem formatAlias_hands (formatting : Option Formatter.Setting) (text : String) :
    (formatAlias formatting text).Hands (if formatting.isSome then 1 else 0) := by
  unfold formatAlias
  cases formatting with
  | none => exact Rendering.hands_pure text
  | some setting =>
    have hformat : ∀ options, (Rendering.format text options).Hands 1 :=
      fun options => ⟨0, rfl, fun text => Rendering.hands_pure text⟩
    exact Rendering.hands_bind_right (Rendering.hands_lift _) fun options => hformat _

theorem formatted_hands (preText : OrMisfit String) (formatting : Option Formatter.Setting)
    (expression : String) :
    (formatted preText formatting expression).Hands (if formatting.isSome then 1 else 0) := by
  refine Rendering.hands_bind_left (formatAlias_hands formatting _) fun text => ?_
  split
  · trivial
  · exact Rendering.hands_lift _

theorem convert_hands (document : Json) (settings : Settings)
    (formatting : Option Formatter.Setting) (schema : Json) :
    (convert document settings formatting schema).Hands
      (if schema.truthy && formatting.isSome then 1 else 0) := by
  unfold convert
  cases schema.truthy with
  | false => exact Rendering.hands_pure _
  | true =>
    have hwithin : (ofSchema document settings schema).Within
        (leave document schema (settings.deep = true) False) :=
      ofSchema_within document settings schema
    exact Rendering.hands_bind_right (Rendering.hands_of_within (fun h => h) hwithin)
      fun expression => formatted_hands _ _ expression

end Expression

namespace Declaration

open Expansion (State)

theorem ofSchema_hands (document : Json) (options : Options)
    (formatting : Option Formatter.Setting) (name : String) (schema : Json) :
    (ofSchema document options formatting name schema).Hands
      (if schema.truthy && formatting.isSome then 1 else 0) := by
  refine Rendering.hands_bind_right (Rendering.hands_lift _) fun defaultType => ?_
  refine Rendering.hands_bind_left (Expression.convert_hands _ _ _ _) fun expression => ?_
  exact Rendering.hands_bind_right (Rendering.hands_lift _) fun isInterface =>
    Rendering.hands_pure _

variable {φ : Type}

/-- An attempt that gives a text has handed its type expression over once, if there is a formatter
and the schema does not count as false. -/
theorem Attempt.length_codes {a : Attempt φ} {text : String} (h : a.result = .ok text) :
    a.codes.length = if a.schema.truthy && a.expansion.formatting.isSome then 1 else 0 := by
  have hlength := Rendering.length_codes (ofSchema_hands _ _ _ _ _) (c := {})
    (a.of_result_eq_ok h).1
  rwa [List.length_nil, Nat.zero_add] at hlength

/-! ## Counting -/

/-- A formatter counts its calls in its state. -/
def Expansion.CountsCalls (x : Expansion φ) (calls : φ → Nat) : Prop :=
  ∀ code options f, calls (x.formatter code options f).2 = calls f + 1

/-- How many codes some attempts hand over. -/
def handedOver (made : List (Attempt φ)) : Nat := (made.flatMap Attempt.codes).length

theorem handedOver_cons (a : Attempt φ) (made : List (Attempt φ)) :
    handedOver (a :: made) = a.codes.length + handedOver made := by
  simp [handedOver]

@[simp] theorem handedOver_append (made more : List (Attempt φ)) :
    handedOver (made ++ more) = handedOver made + handedOver more := by
  simp [handedOver]

theorem Expansion.tell_formatter (x : Expansion φ) (name text : String) (s : State φ) :
    (x.tell name text s).2.formatter = s.formatter := by
  unfold tell
  cases x.options.listener <;> rfl

section Counting

variable {x : Expansion φ} {bound : Nat} {calls : φ → Nat}

/-- The attempts in a declaration nested less than `bound` deep are all that calls the formatter. -/
def Expansion.NestedCalls (x : Expansion φ) (bound : Nat) (calls : φ → Nat) : Prop :=
  ∀ name schema (s : State φ), calls (x.declare bound name schema s).2.formatter =
    calls s.formatter + handedOver (x.attempts bound name schema s)

theorem Expansion.calls_of_meets (hnested : x.NestedCalls bound calls) {reference : Json}
    {s : State φ} {begun : Option (String × Json)} {result : Except Failure Unit × State φ}
    (h : Meets x (x.declare bound) reference s begun result) :
    calls result.2.formatter =
      calls s.formatter + handedOver (madeIn (x.attempts bound) s begun) := by
  cases h with
  | unheard hlistener => rfl
  | nameless hname => rfl
  | known hname hdone =>
    rw [tell_formatter]
    rfl
  | underWay hname hprogress => rfl
  | lost hname hnew htarget => rfl
  | @failed name schema e t hname hnew htarget hrun =>
    have hcalls := hnested name schema (s.start name)
    rwa [hrun] at hcalls
  | @declared name schema text t hname hnew htarget hrun =>
    have hcalls := hnested name schema (s.start name)
    rw [hrun] at hcalls
    rw [tell_formatter]
    exact hcalls

theorem Attempt.calls_rendered_of_nested (a : Attempt φ) (hx : a.expansion.CountsCalls calls)
    (hnested : a.expansion.NestedCalls a.bound calls) :
    calls a.rendered.formatter = calls a.entered.formatter + handedOver a.all := by
  have hrendered : calls a.rendered.formatter =
      calls a.entered.formatter + handedOver a.nested + a.codes.length := by
    refine Rendering.run_course_always (P := fun c u => calls u.formatter =
        calls a.entered.formatter + handedOver (a.made c) + c.codes.length)
      (fun c r u h _ => ?_) (fun c code options u h _ => ?_) (ofSchema_within _ _ _ _ _) rfl
    · have hmore := Expansion.calls_of_meets hnested (Expansion.meet_meets _ _ r u)
      simp only [made_meets, handedOver_append, Course.codes_meets]
      change calls (a.expansion.meet (a.expansion.declare a.bound) r u).2.formatter = _
      omega
    · have hmore := hx code options u.formatter
      simp only [made_hands, Course.codes_hands, List.length_append, List.length_singleton]
      change calls (a.expansion.formatter code options u.formatter).2 = _
      omega
  rw [hrendered, all, handedOver_append, handedOver_cons, Nat.add_assoc]
  rfl

/-- However deep declarations are nested, the attempts that are made are all that calls the
formatter. -/
theorem Expansion.nestedCalls (hx : x.CountsCalls calls) (bound : Nat) :
    x.NestedCalls bound calls := by
  induction bound with
  | zero => exact fun name schema s => rfl
  | succ bound ih =>
    intro name schema s
    let a : Attempt φ := ⟨x, bound, name, schema, s⟩
    have hentered : a.entered.formatter = s.formatter := by
      change (s.enter name).formatter = _
      unfold State.enter
      split <;> rfl
    have hafter : a.after.formatter = a.rendered.formatter := by
      cases hresult : a.result with
      | error e => rw [a.after_of_error hresult]
      | ok text =>
        rw [(a.of_result_eq_ok hresult).2]
        rfl
    change calls a.after.formatter = calls s.formatter + handedOver a.all
    rw [hafter, ← hentered]
    exact a.calls_rendered_of_nested hx ih

/-- An attempt calls the formatter for each of the attempts that are made in it which has a type
expression of its own, if all of them give texts. -/
theorem Attempt.calls_after {a : Attempt φ} (hx : a.expansion.CountsCalls calls)
    (hformatting : a.expansion.formatting.isSome = true)
    (hgives : ∀ b ∈ a.all, ∃ text, b.result = .ok text) :
    calls a.after.formatter =
      calls a.before.formatter + a.all.countP fun b => b.schema.truthy := by
  have hcalls := Expansion.nestedCalls hx (a.bound + 1) a.name a.schema a.before
  have hcodes : ∀ made : List (Attempt φ), (∀ b ∈ made, b ∈ a.all) →
      handedOver made = made.countP fun b => b.schema.truthy := by
    intro made hmade
    induction made with
    | nil => rfl
    | cons b rest ih =>
      have hb := hmade b List.mem_cons_self
      obtain ⟨text, hresult⟩ := hgives b hb
      have hlength := length_codes hresult
      rw [expansion_eq_of_mem_all hb, hformatting, Bool.and_true] at hlength
      rw [handedOver_cons, hlength, ih fun c hc => hmade c (List.mem_cons_of_mem b hc),
        List.countP_cons, Nat.add_comm]
  rw [← hcodes a.all fun b hb => hb]
  exact hcalls

end Counting

end Declaration

end SchemaTypes

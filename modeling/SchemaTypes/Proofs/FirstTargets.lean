import SchemaTypes.Proofs.Modules

/-!
# Which schema a declaration is of

Declarations go by display names alone. So if different schemas are called the same, the one that a
module comes to first is declared under the name, and the others are not. `TsModule.LeadsTo` lists
the ways in which a module comes to a schema under a name: the name is wanted, or a reference of
this display name is met.

In shallow mode and without a formatter, a rendering depends on nothing but its name and its schema:
`TsModule.written` is what it gives in every module of these settings, and what is met on the way.
-/

namespace SchemaTypes

/-! ## Renderings that ask for nothing -/

namespace Rendering

variable {α σ : Type} {l : Leave} {x : Rendering α}

/-- What is observed to be met is what may be met. -/
theorem meeting_of_mem_observe (hx : x.Within l) (underWay : String → Bool) :
    ∀ r ∈ (x.observe underWay).1, l.meeting r := by
  induction x with
  | done a => simp [observe]
  | failed e => simp [observe]
  | meets r rest ih => exact List.forall_mem_cons.mpr ⟨hx.1, ih hx.2⟩
  | asks n rest ih => exact ih _ (hx.2 _)
  | formats code options rest ih => exact ih code (hx.2 code)

/-- A run that neither asks for names nor has anything formatted meets the references that are
observed, and ends with the value that is observed. -/
theorem observe_of_run (hasking : ¬ l.asking) (hformatting : ¬ l.formatting) (hx : x.Within l)
    {host : Host σ} {s t : σ} {a : α} (hrun : x.run host s = (.ok a, t))
    (underWay : String → Bool) (c : Course σ) :
    ∃ met, x.observe underWay = (met, .ok a) ∧
      (x.course host s c).meetings.map Meeting.reference =
        c.meetings.map Meeting.reference ++ met := by
  induction x generalizing s c with
  | done b =>
    obtain rfl : b = a := Except.ok.inj (congrArg Prod.fst hrun)
    exact ⟨[], rfl, (List.append_nil _).symm⟩
  | failed e => cases hrun
  | meets r rest ih =>
    obtain ⟨s', hmeet, hrest⟩ := run_meets_eq_ok.mp hrun
    obtain ⟨met, hmet, hcourse⟩ := ih hx.2 hrest (c.meets ⟨r, s, s'⟩)
    refine ⟨r :: met, ?_, ?_⟩
    · rw [observe, hmet]
    · rw [course, hmeet]
      simpa using hcourse
  | asks n rest ih => exact absurd hx.1 hasking
  | formats code options rest ih => exact absurd hx.1 hformatting

end Rendering

namespace TsModule

open Declaration (Attempt)
open Reference (displayNameOf targetOf)

variable {φ : Type} {m : TsModule φ} {names : List String}
  {declared result : List (String × String)} {made : List (Attempt φ)} {a : Attempt φ}

/-- A module in shallow mode without a formatter. -/
structure Plain (m : TsModule φ) : Prop where
  shallow : m.settings.deep.truthy = false
  unformatted : m.formatter = none

/-- The references that are met where a schema is declared under a name in a plain module, and the
declaration. -/
def written (m : TsModule φ) (name : String) (schema : Json) : List Json × Except Failure String :=
  (Declaration.ofSchema m.document m.settings.declarations none name schema).observe fun _ => false

namespace Plain

theorem not_deep (hplain : m.Plain) : ¬ m.settings.declarations.deep = true := by
  rw [Bool.not_eq_true]
  exact hplain.shallow

/-- All expansions in a plain module write a schema alike. -/
theorem ofSchema_eq (hplain : m.Plain) (setting : Formatter.Setting) (name : String)
    (schema : Json) :
    Declaration.ofSchema (m.expansion setting).document (m.expansion setting).options
        (m.expansion setting).formatting name schema =
      Declaration.ofSchema m.document m.settings.declarations none name schema := by
  simp only [expansion, hplain.unformatted, Option.map_none]

/-- In a plain module an attempt that gives a text gives what its schema is written as. -/
theorem written_eq (hplain : m.Plain)
    (hexpansion : ∃ setting, a.expansion = m.expansion setting) {text : String}
    (hresult : a.result = .ok text) : m.written a.name a.schema = (a.met, .ok text) := by
  obtain ⟨setting, hexpansion⟩ := hexpansion
  have hrendering : a.rendering =
      Declaration.ofSchema m.document m.settings.declarations none a.name a.schema := by
    unfold Attempt.rendering
    rw [hexpansion]
    exact hplain.ofSchema_eq setting a.name a.schema
  have hwithin := Declaration.ofSchema_within m.document m.settings.declarations none a.name
    a.schema
  rw [← hrendering] at hwithin
  obtain ⟨met, hmet, hcourse⟩ := Rendering.observe_of_run hplain.not_deep Bool.false_ne_true
    hwithin (a.of_result_eq_ok hresult).1 (fun _ => false) {}
  have hmet' : a.met = met := hcourse
  unfold written
  rw [← hrendering, hmet, hmet']

end Plain

/-! ## Ways to a schema -/

/-- A name leads to a schema if it is wanted and the schema has this name, or if a reference of this
display name, with that target, is met in one of the attempts. -/
inductive LeadsTo (m : TsModule φ) (names : List String) (made : List (Attempt φ)) (name : String)
    (schema : Json) : Prop where
  | named (hname : name ∈ names) (hschema : m.namedSchema name = .ok schema)
  | met {a : Attempt φ} {r : Json} (ha : a ∈ made) (hr : r ∈ a.met)
      (hname : displayNameOf r = .ok name) (htarget : targetOf m.document r = .ok schema)

namespace Declares

theorem expansion_eq (h : m.Declares names declared made result) (ha : a ∈ made) :
    ∃ setting, a.expansion = m.expansion setting := by
  obtain ⟨root, hroot, -, hall, -⟩ := h.roots a ha
  obtain ⟨setting, -, hexpansion⟩ := hroot.expansion_eq
  exact ⟨setting, (Attempt.expansion_eq_of_mem_all hall).trans hexpansion⟩

/-- Every attempt is at a schema that its name leads to. -/
theorem leadsTo (h : m.Declares names declared made result) (ha : a ∈ made) :
    m.LeadsTo names made a.name a.schema := by
  obtain ⟨root, hroot, hname, hall, hsub⟩ := h.roots a ha
  rcases root.mem_all.mp hall with hnested | rfl
  · obtain ⟨c, hc, r, hr, hdisplay, htarget⟩ := Attempt.exists_met_of_mem_nested hnested
    obtain ⟨setting, -, hexpansion⟩ := hroot.expansion_eq
    rw [hexpansion] at htarget
    exact .met (hsub hc) hr hdisplay htarget
  · exact .named hname hroot.schema_eq

/-- Every attempt of a plain module gives what its schema is written as. -/
theorem written_eq (h : m.Declares names declared made result) (hplain : m.Plain) (ha : a ∈ made) :
    ∃ text, a.result = .ok text ∧ m.written a.name a.schema = (a.met, .ok text) := by
  obtain ⟨text, hresult⟩ := h.gives a ha
  exact ⟨text, hresult, hplain.written_eq (h.expansion_eq ha) hresult⟩

/-- What is kept under a name is the declaration of a schema that the name leads to. -/
theorem exists_leadsTo (h : m.Declares names [] made result) (hplain : m.Plain) {name : String}
    (hname : name ∈ Table.keys result) :
    ∃ schema text, m.LeadsTo names made name schema ∧ (name, text) ∈ result ∧
      (m.written name schema).2 = .ok text := by
  obtain ⟨⟨_, text⟩, hmem, rfl⟩ := List.mem_map.mp hname
  obtain ⟨front, back, hsplit⟩ := List.append_of_mem hmem
  obtain ⟨before, a, after, rfl, rfl, hresult, -, -⟩ := h.exists_first hsplit
  have ha : a ∈ before ++ a :: after := List.mem_append_right before List.mem_cons_self
  refine ⟨a.schema, text, h.leadsTo ha, hmem, ?_⟩
  rw [hplain.written_eq (h.expansion_eq ha) hresult]

end Declares

/-- In a plain module that declares what it refers to, every declaration that is kept is what a
schema is written as under its name: the schema of the first attempt at the name, which the name
leads to. So under a wanted name stands the declaration of the schema of this name, if the name
leads to no other one; and under the display name of every reference that is met stands the
declaration of its own target, if the name leads to no other one. -/
theorem declarations_first_targets (m : TsModule φ) (hplain : m.Plain)
    (hinclude : m.settings.includeReferenced.truthy = true) (f g : φ)
    (declared : List (String × String)) (hrun : m.declarations f = (.ok declared, g)) :
    ∃ names made, m.selectedNames = .ok names ∧ made = m.attempts names [] f ∧
      (Table.keys declared).Nodup ∧
      (∀ name text, (name, text) ∈ declared → ∃ before a after, made = before ++ a :: after ∧
        a.name = name ∧ name ∉ before.map Attempt.name ∧ m.LeadsTo names made name a.schema ∧
        m.written name a.schema = (a.met, .ok text)) ∧
      (∀ name ∈ names,
        (∀ schema, m.LeadsTo names made name schema → m.namedSchema name = .ok schema) →
          ∃ schema text, m.namedSchema name = .ok schema ∧ (name, text) ∈ declared ∧
            (m.written name schema).2 = .ok text) ∧
      ∀ a ∈ made, ∀ r ∈ a.met, ∃ name, displayNameOf r = .ok name ∧
        ((∀ schema, m.LeadsTo names made name schema → targetOf m.document r = .ok schema) →
          ∃ schema text, targetOf m.document r = .ok schema ∧ (name, text) ∈ declared ∧
            (m.written name schema).2 = .ok text) := by
  obtain ⟨names, hnames, h⟩ := declarations_declares hinclude hrun
  refine ⟨names, _, hnames, rfl, h.nodup_keys, fun name text hmem => ?_, fun name hname hall => ?_,
    fun a ha r hr => ?_⟩
  · obtain ⟨front, back, hsplit⟩ := List.append_of_mem hmem
    obtain ⟨before, a, after, hmade, rfl, hresult, hfirst, -⟩ := h.exists_first hsplit
    have ha : a ∈ m.attempts names [] f := by
      rw [hmade]
      exact List.mem_append_right before List.mem_cons_self
    exact ⟨before, a, after, hmade, rfl, hfirst, h.leadsTo ha,
      hplain.written_eq (h.expansion_eq ha) hresult⟩
  · obtain ⟨schema, text, hleads, hmem, hwritten⟩ :=
      h.exists_leadsTo hplain (h.mem_keys_iff.mpr (.inl hname))
    exact ⟨schema, text, hall schema hleads, hmem, hwritten⟩
  · obtain ⟨name, hname, -⟩ := h.heard a ha r hr
    refine ⟨name, hname, fun hall => ?_⟩
    obtain ⟨schema, text, hleads, hmem, hwritten⟩ :=
      h.exists_leadsTo hplain (h.mem_keys_iff.mpr (.inr ⟨a, ha, r, hr, hname⟩))
    exact ⟨schema, text, hall schema hleads, hmem, hwritten⟩

/-! ## Two schemas of one name -/

/-- A module with two definitions of one name, in different containers, and a definition that refers
to the second one of them. -/
def sharedName : TsModule Unit where
  document := .obj [
    ("definitions", .obj [("A", .obj [("type", .str "string")]),
      ("B", .obj [("properties", .obj [("a", .obj [("$ref", .str "#/$defs/A")])])])]),
    ("$defs", .obj [("A", .obj [("type", .str "number")])])]
  settings := { schemas := some (.arr [.str "B", .str "A"]) }

theorem sharedName_plain : sharedName.Plain := ⟨rfl, rfl⟩

theorem selectedNames_sharedName : sharedName.selectedNames = .ok ["B", "A"] := rfl

/-- The declarations of that module. -/
def sharedNameDeclared : List (String × String) :=
  [("A", "export type A = number"), ("B", "export interface B \x7b\n  a?: A;\n\x7d")]

theorem declarations_sharedName : sharedName.declarations () = (.ok sharedNameDeclared, ()) := by
  have hschema : sharedName.namedSchema "B" =
      .ok (.obj [("properties", .obj [("a", .obj [("$ref", .str "#/$defs/A")])])]) := rfl
  have hsetting : sharedName.settings.toFormat = .ok (.options {}) := rfl
  have hfirst : sharedName.addDeclaration [] "B" () = (.ok sharedNameDeclared, ()) := by
    rw [addDeclaration_of_not_mem sharedName (by decide), hschema, hsetting]
    rfl
  have hsecond : sharedName.addDeclaration sharedNameDeclared "A" () =
      (.ok sharedNameDeclared, ()) := addDeclaration_of_mem sharedName (by decide) ()
  simp only [declarations, selectedNames_sharedName, addDeclarations, Step.andThen, hfirst,
    hsecond, Step.ofExcept]

/-- Under the shared name stands the definition that comes first because it is referred to; the
other definition leads to nothing else. -/
theorem declarations_first_targets_shared :
    sharedName.Plain ∧ sharedName.settings.includeReferenced.truthy = true ∧
      sharedName.declarations () = (.ok sharedNameDeclared, ()) ∧
      (∃ a : Attempt Unit, sharedName.LeadsTo ["B", "A"] (sharedName.attempts ["B", "A"] [] ())
        "A" a.schema ∧ sharedName.written "A" a.schema = (a.met, .ok "export type A = number")) ∧
      ∃ schema text, sharedName.namedSchema "B" = .ok schema ∧ ("B", text) ∈ sharedNameDeclared ∧
        (sharedName.written "B" schema).2 = .ok text := by
  obtain ⟨names, made, hnames, rfl, -, hkept, hwanted, -⟩ := declarations_first_targets
    sharedName sharedName_plain rfl () () sharedNameDeclared declarations_sharedName
  obtain rfl : ["B", "A"] = names := Except.ok.inj (selectedNames_sharedName.symm.trans hnames)
  obtain ⟨-, a, -, -, -, -, hleads, hwritten⟩ :=
    hkept "A" "export type A = number" List.mem_cons_self
  have hmet : (sharedName.attempts ["B", "A"] [] ()).flatMap Attempt.met = [.str "#/$defs/A"] :=
    rfl
  refine ⟨sharedName_plain, rfl, declarations_sharedName, ⟨a, hleads, hwritten⟩,
    hwanted "B" List.mem_cons_self fun schema h => ?_⟩
  cases h with
  | named _ hschema => exact hschema
  | met ha hr hname _ =>
    have hmem := List.mem_flatMap.mpr ⟨_, ha, hr⟩
    rw [hmet, List.mem_singleton] at hmem
    subst hmem
    have hdisplay : displayNameOf (.str "#/$defs/A") = .ok "A" := rfl
    rw [hdisplay, Except.ok.injEq] at hname
    exact absurd hname (by decide)

/-- The definition that is wanted under the shared name is not the one that is declared. -/
theorem declarations_shared_name :
    sharedName.Plain ∧ sharedName.settings.includeReferenced.truthy = true ∧
      sharedName.declarations () = (.ok sharedNameDeclared, ()) ∧
      sharedName.selectedNames = .ok ["B", "A"] ∧
      sharedName.namedSchema "A" = .ok (.obj [("type", .str "string")]) ∧
      sharedName.written "A" (.obj [("type", .str "string")]) =
        ([], .ok "export type A = string") ∧
      ("A", "export type A = string") ∉ sharedNameDeclared :=
  ⟨sharedName_plain, rfl, declarations_sharedName, rfl, rfl, rfl, by decide⟩

end TsModule

end SchemaTypes

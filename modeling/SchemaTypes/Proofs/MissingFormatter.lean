import SchemaTypes.Command.Basic
import SchemaTypes.Proofs.Modules
import SchemaTypes.Proofs.ProgramCalls
import SchemaTypes.Proofs.UnformattedRuns

/-!
# A formatter that is missing or fails

A formatter that cannot be run is not missed: the module that comes out is the one that comes out
with formatting switched off, and if that one fails, this one fails in the same way.

Two runs are compared. One hands code to programs, and notes its calls; the other one has no
formatter. They agree until a call does harm (`TsModule.FormatsInVain`), and the notes make no
difference (`TsModule.Enriched`).
-/

namespace SchemaTypes

/-! ## Modules without their formatting -/

namespace TsModule

open Declaration.Expansion (Bad Same Unneeded Enriches)
open Formatter.Prettier (HasWords noting)

variable {φ ψ : Type}

/-- A module that is like another one but for its formatter, which gives code back as it is or else
ends in a bad state, and for the setting that goes with it. -/
structure FormatsInVain (bad : φ → Prop) (m : TsModule φ) (plain : TsModule ψ) : Prop where
  document : m.document = plain.document
  selectedNames : m.selectedNames = plain.selectedNames
  header : m.header = plain.header
  expansion : ∃ setting setting', m.settings.toFormat = .ok setting ∧
    plain.settings.toFormat = .ok setting' ∧
    Unneeded bad HasWords (m.expansion setting) (plain.expansion setting')

namespace FormatsInVain

variable {bad : φ → Prop} {m : TsModule φ} {plain : TsModule ψ}

theorem addDeclaration_keeps_bad (h : FormatsInVain bad m plain) (name : String)
    (declared : List (String × String)) :
    (m.addDeclaration declared name).Keeps bad fun _ => bad := by
  obtain ⟨setting, setting', hsetting, -, hexpansion⟩ := h.expansion
  intro f hf
  by_cases hname : name ∈ Table.keys declared
  · rw [addDeclaration_of_mem m hname]
    exact hf
  · rw [addDeclaration_of_not_mem m hname, hsetting]
    cases m.namedSchema name with
    | error e => exact hf
    | ok schema =>
      have hrun := Step.ends_both.mp (hexpansion.declare_keeps_bad
        (Expression.nestingBound m.document schema) name schema { formatter := f } hf)
      change Bad bad ((m.expansion setting).run name schema { formatter := f }).2 at hrun
      dsimp only
      rcases hend : (m.expansion setting).run name schema { formatter := f } with ⟨e | text, s⟩ <;>
        rw [hend] at hrun <;> exact hrun

/-- Two modules of which one formats in vain add the same for a name. -/
theorem addDeclaration (h : FormatsInVain bad m plain) (name : String)
    (declared : List (String × String)) :
    Step.Agrees bad (fun _ _ => True) (m.addDeclaration declared name)
      (plain.addDeclaration declared name) := by
  obtain ⟨setting, setting', hsetting, hsetting', hexpansion⟩ := h.expansion
  have hschema : m.namedSchema name = plain.namedSchema name := by
    unfold namedSchema
    rw [h.document]
  intro f g _
  by_cases hname : name ∈ Table.keys declared
  · rw [addDeclaration_of_mem m hname, addDeclaration_of_mem plain hname]
    exact .inr ⟨rfl, trivial⟩
  · rw [addDeclaration_of_not_mem m hname, addDeclaration_of_not_mem plain hname, hsetting,
      hsetting', hschema]
    cases plain.namedSchema name with
    | error e => exact .inr ⟨rfl, trivial⟩
    | ok schema =>
      have hrun := hexpansion.run name schema { formatter := f } { formatter := g } ⟨rfl, rfl⟩
      dsimp only
      rcases hrun with hbad | ⟨hresult, -, hreported⟩
      · rcases hend : (m.expansion setting).run name schema { formatter := f } with
          ⟨e | text, s⟩ <;> rw [hend] at hbad <;> exact .inl hbad
      · rcases hend : (m.expansion setting).run name schema { formatter := f } with
          ⟨e | text, s⟩ <;>
          rcases hend' : (plain.expansion setting').run name schema { formatter := g } with
            ⟨e' | text', t⟩ <;>
          rw [hend, hend'] at hresult hreported <;> cases hresult
        · exact .inr ⟨rfl, trivial⟩
        · dsimp only at hreported ⊢
          exact .inr ⟨by rw [hreported], trivial⟩

theorem addDeclarations_keeps_bad (h : FormatsInVain bad m plain) (names : List String)
    (declared : List (String × String)) :
    (m.addDeclarations names declared).Keeps bad fun _ => bad := by
  induction names generalizing declared with
  | nil => exact fun _ hf => hf
  | cons name rest ih => exact (h.addDeclaration_keeps_bad name declared).andThen ih

theorem addDeclarations (h : FormatsInVain bad m plain) (names : List String)
    (declared : List (String × String)) :
    Step.Agrees bad (fun _ _ => True) (m.addDeclarations names declared)
      (plain.addDeclarations names declared) := by
  induction names generalizing declared with
  | nil => exact Step.agrees_ofExcept (.ok declared)
  | cons name rest ih =>
    exact (h.addDeclaration name declared).andThen (h.addDeclarations_keeps_bad rest)
      fun declared' _ _ => ih declared'

/-- A module that formats in vain has the text of the one that does not format. -/
theorem text (h : FormatsInVain bad m plain) :
    Step.Agrees bad (fun _ _ => True) m.text plain.text := by
  have hdeclarations : Step.Agrees bad (fun _ _ => True) m.declarations plain.declarations := by
    unfold declarations
    rw [h.selectedNames]
    cases plain.selectedNames with
    | error e => exact Step.agrees_ofExcept (.error e)
    | ok names => exact h.addDeclarations names []
  unfold TsModule.text
  rw [h.header]
  exact hdeclarations.andThen (fun _ _ hf => hf) fun _ _ _ => Step.agrees_ofExcept _

end FormatsInVain

/-! ## Modules with a richer formatter -/

/-- A module that is like another one but for a formatter with a richer state. -/
structure Enriched (view : ψ → φ) (rich : TsModule ψ) (m : TsModule φ) : Prop where
  document : rich.document = m.document
  settings : rich.settings = m.settings
  header : rich.header = m.header
  expansion : ∀ setting, Enriches view (rich.expansion setting) (m.expansion setting)

namespace Enriched

variable {view : ψ → φ} {rich : TsModule ψ} {m : TsModule φ}

theorem addDeclaration (h : Enriched view rich m) (declared : List (String × String))
    (name : String) :
    Step.Shadows view (rich.addDeclaration declared name) (m.addDeclaration declared name) := by
  have hschema : rich.namedSchema name = m.namedSchema name := by
    unfold namedSchema
    rw [h.document]
  intro f
  by_cases hname : name ∈ Table.keys declared
  · rw [addDeclaration_of_mem rich hname, addDeclaration_of_mem m hname]
  · rw [addDeclaration_of_not_mem rich hname, addDeclaration_of_not_mem m hname, hschema,
      h.settings]
    cases m.namedSchema name with
    | error e => rfl
    | ok schema =>
      cases m.settings.toFormat with
      | error e => rfl
      | ok setting =>
        have hrun : (m.expansion setting).run name schema { formatter := view f } = _ :=
          (h.expansion setting).run name schema { formatter := f }
        dsimp only
        rw [hrun]
        rcases (rich.expansion setting).run name schema { formatter := f } with ⟨e | text, s⟩ <;>
          rfl

theorem text (h : Enriched view rich m) : Step.Shadows view rich.text m.text := by
  have hall : ∀ names declared,
      Step.Shadows view (rich.addDeclarations names declared)
        (m.addDeclarations names declared) := by
    intro names
    induction names with
    | nil => exact fun declared f => rfl
    | cons name rest ih => exact fun declared => (h.addDeclaration declared name).andThen ih
  have hselected : rich.selectedNames = m.selectedNames := by
    unfold selectedNames
    rw [h.document, h.settings]
  have hdeclarations : Step.Shadows view rich.declarations m.declarations := by
    unfold declarations
    rw [hselected]
    cases m.selectedNames with
    | error e => exact fun f => rfl
    | ok names => exact hall names []
  unfold TsModule.text
  rw [h.header]
  exact hdeclarations.andThen fun declared f => rfl

end Enriched

/-! ## Generating -/

section Generate

variable {ρ : Type}

/-- Generates a module with the formatter that its settings ask for. -/
def generate (runner : Formatter.Prettier.Runner ρ) (document : Json) (settings : Settings)
    (commandLine : String) : Step ρ String := fun r =>
  match Command.Request.formatter (Formatter.Prettier.formatter runner) settings with
  | .error e => (.error e, r)
  | .ok formatter =>
    let (result, s) := TsModule.text ⟨document, settings, formatter, commandLine⟩ { runner := r }
    (result, s.runner)

/-- Settings with formatting switched off, the other options of the formatter being as given. -/
def Settings.withoutFormatting (s : Settings) (o : Formatter.Options) : Settings :=
  { s with formatter := some (.options { o with enabled := .bool false }) }

variable (runner : Formatter.Prettier.Runner ρ)

theorem generate_of_formatter (document : Json) {settings : Settings} (commandLine : String)
    {f : Option (Formatter (Formatter.Prettier.State ρ))}
    (h : Command.Request.formatter (Formatter.Prettier.formatter runner) settings = .ok f) (r : ρ) :
    generate runner document settings commandLine r =
      ((TsModule.text ⟨document, settings, f, commandLine⟩ { runner := r }).1,
        (TsModule.text ⟨document, settings, f, commandLine⟩ { runner := r }).2.runner) := by
  unfold generate
  rw [h]

theorem formatter_of_enabled {settings : Settings} {o : Formatter.Options}
    (hformatter : settings.formatter = some (.options o)) (henabled : o.enabled.truthy = true)
    (hname : o.name = .str "prettier") :
    Command.Request.formatter (Formatter.Prettier.formatter runner) settings =
      .ok (some (Formatter.Prettier.formatter runner)) := by
  have hsetting : settings.toFormat = .ok (.options o) := by
    unfold Settings.toFormat
    rw [hformatter]
    rfl
  have hknown : Formatter.Known.ofSetting (.options o) = .ok (some .prettier) := by
    change (if o.enabled.truthy then Formatter.Known.ofJson o.name else pure none) = _
    rw [if_pos henabled, hname]
    rfl
  unfold Command.Request.formatter
  rw [hsetting]
  change (Formatter.Known.ofSetting (.options o) >>= _) = _
  rw [hknown]
  rfl

theorem formatter_of_disabled (settings : Settings) (o : Formatter.Options) :
    Command.Request.formatter (Formatter.Prettier.formatter runner) (settings.withoutFormatting o) =
      .ok none := rfl

/-- The module that formats with noted calls does so in vain, until a call does harm. -/
theorem formatsInVain_noting (document : Json) {settings : Settings} (commandLine : String)
    {o : Formatter.Options} (hformatter : settings.formatter = some (.options o))
    (hwords : HasWords o) :
    FormatsInVain Formatter.Prettier.Harmed
      ⟨document, settings, some (Formatter.Prettier.formatter (noting runner)), commandLine⟩
      (⟨document, settings.withoutFormatting o, none, commandLine⟩ :
        TsModule (Formatter.Prettier.State ρ)) where
  document := rfl
  selectedNames := rfl
  header := rfl
  expansion := by
    refine ⟨.options o, .options { o with enabled := .bool false }, ?_, rfl, ?_⟩
    · unfold Settings.toFormat
      rw [hformatter]
      rfl
    · exact {
        document := rfl
        options := rfl
        formatting := ⟨o, rfl, hwords⟩
        unformatted := rfl
        keeps := fun code options =>
          (Formatter.Prettier.format_grows runner .null code (some options)).keeps_harmed
        agrees := fun code options hoptions =>
          Formatter.Prettier.format_ends runner hoptions code }

theorem enriched_noting (document : Json) (settings : Settings) (commandLine : String) :
    Enriched Formatter.Prettier.State.plain
      ⟨document, settings, some (Formatter.Prettier.formatter (noting runner)), commandLine⟩
      ⟨document, settings, some (Formatter.Prettier.formatter runner), commandLine⟩ where
  document := rfl
  settings := rfl
  header := rfl
  expansion := fun _ => ⟨rfl, rfl, rfl, fun code options =>
    Formatter.Prettier.format_shadows runner .null code (some options)⟩

/-- A formatter that is missing or fails is not missed. If the settings ask for a formatter whose
command is a list of words, and of the calls that are made each probe ends in any way but for want
of permission, and each run that formats ends badly, then the module comes out as with formatting
switched off: with the same text, or with the same failure. -/
theorem generate_eq_withoutFormatting (document : Json) (settings : Settings)
    (commandLine : String) (o : Formatter.Options) (words : List String)
    (hformatter : settings.formatter = some (.options o)) (henabled : o.enabled.truthy = true)
    (hname : o.name = .str "prettier") (hcommand : o.command = .arr (words.map .str)) (r : ρ)
    (hcalls : ∀ c ∈ (generate (noting runner) document settings commandLine (r, [])).2.2,
      c.isHarmless = true) :
    generate runner document settings commandLine r =
        ((generate (noting runner) document settings commandLine (r, [])).1,
          (generate (noting runner) document settings commandLine (r, [])).2.1) ∧
      (generate runner document settings commandLine r).1 =
        (generate runner document (settings.withoutFormatting o) commandLine r).1 := by
  have hnoted := generate_of_formatter (noting runner) document commandLine
    (formatter_of_enabled (noting runner) hformatter henabled hname) (r, [])
  have hforgotten := (enriched_noting runner document settings commandLine).text
    { runner := (r, []) }
  have hagrees := (formatsInVain_noting runner document commandLine hformatter
    ⟨words, hcommand⟩).text { runner := (r, []) } { runner := r } trivial
  have hsame : generate runner document settings commandLine r =
      ((generate (noting runner) document settings commandLine (r, [])).1,
        (generate (noting runner) document settings commandLine (r, [])).2.1) := by
    have henabled := formatter_of_enabled runner hformatter henabled hname
    rw [hnoted, generate_of_formatter runner document commandLine henabled]
    exact congrArg (fun end_ => (end_.1, end_.2.runner)) hforgotten
  refine ⟨hsame, (congrArg Prod.fst hsame).trans ?_⟩
  rw [hnoted] at hcalls ⊢
  rw [generate_of_formatter runner document commandLine (formatter_of_disabled runner settings o)]
  rcases hagrees with ⟨c, hc, hharm⟩ | ⟨hresult, -⟩
  · rw [hcalls c hc] at hharm
    cases hharm
  · exact hresult

/-! ## A program that breaks down -/

/-- The runner who ends calls as a list says, and finds no program once the list is used up. -/
def scripted : Formatter.Prettier.Runner (List Formatter.Prettier.Outcome)
  | _, _, [] => (.noProgram, [])
  | _, _, outcome :: rest => (outcome, rest)

/-- Options that have code formatted by a command with two words. -/
def formattingOptions : Formatter.Options where
  enabled := .bool true
  command := .arr [.str "npx", .str "prettier"]

/-- A document with two definitions. -/
def twoDefinitions : Json :=
  .obj [("definitions", .obj [("A", .obj [("type", .str "string")]),
    ("B", .obj [("type", .str "number")])])]

/-- Settings with these options, and without a header. -/
def formattingSettings : Settings where
  addHeader := .bool false
  formatter := some (.options formattingOptions)

/-- How the calls end: the program is there, but fails at the first definition and is too slow for
the second one. -/
def breakdown : List Formatter.Prettier.Outcome :=
  [.exited 0 "3.0.0", .exited 2 "", .timedOut]

/-- A program that breaks down at every definition is called for every one of them, and leaves all
of them as they are. -/
theorem generate_eq_withoutFormatting_broken :
    (generate (noting scripted) twoDefinitions formattingSettings "" (breakdown, [])).2.2.length =
        3 ∧
      (∀ c ∈ (generate (noting scripted) twoDefinitions formattingSettings ""
        (breakdown, [])).2.2, c.isHarmless = true) ∧
      (generate scripted twoDefinitions formattingSettings "" breakdown).1.toOption =
        some "export type A = string\n\nexport type B = number\n" := by
  have hcalls : ((generate (noting scripted) twoDefinitions formattingSettings ""
      (breakdown, [])).2.2.all Formatter.Prettier.Call.isHarmless) = true := by decide +kernel
  obtain ⟨-, hplain⟩ := generate_eq_withoutFormatting scripted twoDefinitions
    formattingSettings "" formattingOptions ["npx", "prettier"] rfl rfl rfl rfl breakdown
    (List.all_eq_true.mp hcalls)
  refine ⟨by decide +kernel, List.all_eq_true.mp hcalls, ?_⟩
  rw [hplain]
  decide +kernel

end Generate

end TsModule

end SchemaTypes

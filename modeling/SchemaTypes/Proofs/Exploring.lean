import Mathlib.Data.List.Nodup
import SchemaTypes.Proofs.DependencyOrder
import SchemaTypes.Proofs.FirstTargets
import SchemaTypes.Proofs.Termination

/-!
# What a plain module explores

`TsModule.Explored` is what a plain module has to declare, whatever it comes to first: the wanted
schemas, and the targets of the references that are met where these are written. If display names
determine targets, then this says all about the module: it declares exactly what is explored, each
name once (`Explores`), and it fails exactly if something that is explored cannot be written, or if
a reference in there leads nowhere (`Sound`).

So the way from a module that succeeds to its exploration, and back to every other module with the
same exploration, does not go through any order of names.
-/

namespace SchemaTypes

/-! ## Renderings that can only succeed -/

/-- The leave to meet certain references, and to do nothing else; not even to fail. -/
def Rendering.Leave.succeeding (P : Json → Prop) : Rendering.Leave where
  meeting := P
  asking := False
  failing := fun _ => False
  formatting := False

/-- A rendering that neither asks for names nor has anything formatted, and that is observed to
succeed, cannot do anything but meet the references that are observed, and succeed. -/
theorem Rendering.within_succeeding {α : Type} {l : Rendering.Leave} (hasking : ¬ l.asking)
    (hformatting : ¬ l.formatting) {x : Rendering α} (hx : x.Within l) {underWay : String → Bool}
    {met : List Json} {a : α} (h : x.observe underWay = (met, .ok a)) {P : Json → Prop}
    (hP : ∀ r ∈ met, P r) : x.Within (.succeeding P) := by
  induction x generalizing met with
  | done b => exact trivial
  | failed e => cases h
  | meets r rest ih =>
    rcases hrest : rest.observe underWay with ⟨met', outcome⟩
    rw [observe, hrest] at h
    obtain ⟨rfl, rfl⟩ := Prod.mk.inj h
    exact ⟨hP r List.mem_cons_self, ih hx.2 hrest fun r' hr' => hP r' (List.mem_cons_of_mem r hr')⟩
  | asks n rest ih => exact absurd hx.1 hasking
  | formats code options rest ih => exact absurd hx.1 hformatting

namespace TsModule

open Declaration (Attempt)
open Declaration.Expansion (State)
open Reference (displayNameOf targetOf)

variable {φ : Type} {m : TsModule φ} {names : List String}

/-! ## Exploring -/

/-- The schemas that a plain module has to declare under their names: the wanted ones, and, if
referenced schemas are declared too, the targets of the references that are met in those. -/
inductive Explored (m : TsModule φ) (names : List String) : String → Json → Prop where
  | named {name : String} {schema : Json} (hname : name ∈ names)
      (hschema : m.namedSchema name = .ok schema) : Explored m names name schema
  | met {name name' : String} {schema schema' r : Json} (h : Explored m names name schema)
      (hinclude : m.settings.includeReferenced.truthy = true)
      (hr : r ∈ (m.written name schema).1) (hname : displayNameOf r = .ok name')
      (htarget : targetOf m.document r = .ok schema') : Explored m names name' schema'

/-- Exploring some names gives what exploring the same names in another order gives. -/
theorem Explored.mono {names' : List String} (hsub : ∀ n ∈ names, n ∈ names') {name : String}
    {schema : Json} (h : m.Explored names name schema) : m.Explored names' name schema := by
  induction h with
  | named hname hschema => exact .named (hsub _ hname) hschema
  | met _ hinclude hr hname htarget ih => exact .met ih hinclude hr hname htarget

/-- What is explored is a part of the document. -/
theorem Explored.references_subset {name : String} {schema : Json}
    (h : m.Explored names name schema) : schema.references ⊆ m.document.references := by
  cases h with
  | named _ hschema => exact (Reference.target_settles m.document _).1 schema hschema
  | met _ _ _ _ htarget => exact (Reference.targetOf_settles m.document _).1 schema htarget

/-- What is explored can be declared: the wanted names have schemas, every schema that is explored
can be written, and every reference that is met there leads somewhere. -/
structure Sound (m : TsModule φ) (names : List String) : Prop where
  named : ∀ name ∈ names, ∃ schema, m.namedSchema name = .ok schema
  formats : ∃ setting, m.settings.toFormat = .ok setting
  written : ∀ name schema, m.Explored names name schema →
    ∃ text, (m.written name schema).2 = .ok text
  met : m.settings.includeReferenced.truthy = true → ∀ name schema,
    m.Explored names name schema → ∀ r ∈ (m.written name schema).1,
      ∃ name' schema', displayNameOf r = .ok name' ∧ targetOf m.document r = .ok schema'

theorem Sound.mono {names' : List String} (h : m.Sound names) (hsub : ∀ n ∈ names', n ∈ names) :
    m.Sound names' where
  named := fun name hname => h.named name (hsub name hname)
  formats := h.formats
  written := fun name schema hexplored => h.written name schema (hexplored.mono hsub)
  met := fun hinclude name schema hexplored => h.met hinclude name schema (hexplored.mono hsub)

/-- What a module comes to that declares exactly what is explored. -/
structure Explores (m : TsModule φ) (names : List String) (declared : List (String × String)) :
    Prop where
  sound : m.Sound names
  nodup_keys : (Table.keys declared).Nodup
  mem_iff : ∀ name text, (name, text) ∈ declared ↔
    ∃ schema, m.Explored names name schema ∧ (m.written name schema).2 = .ok text

/-- Two modules that explore the same names declare the same. -/
theorem Explores.perm {names' : List String} {declared declared' : List (String × String)}
    (h : m.Explores names declared) (h' : m.Explores names' declared')
    (hsame : ∀ n, n ∈ names ↔ n ∈ names') : declared.Perm declared' := by
  refine (List.perm_ext_iff_of_nodup (List.Nodup.of_map Prod.fst h.nodup_keys)
    (List.Nodup.of_map Prod.fst h'.nodup_keys)).mpr ?_
  rintro ⟨name, text⟩
  rw [h.mem_iff, h'.mem_iff]
  constructor
  · rintro ⟨schema, hexplored, htext⟩
    exact ⟨schema, hexplored.mono fun n => (hsame n).mp, htext⟩
  · rintro ⟨schema, hexplored, htext⟩
    exact ⟨schema, hexplored.mono fun n => (hsame n).mpr, htext⟩

/-! ## What can be declared is declared -/

/-- A failure that comes only of an exhausted bound. -/
def Exhausted (e : Failure) (_ : State φ) : Prop := e = .boundExceeded

/-- Nobody listens in a module that does not declare its references. -/
theorem isPresent_eq_false (m : TsModule φ) (setting : Formatter.Setting)
    (hinclude : ¬ m.settings.includeReferenced.truthy = true) :
    (m.expansion setting).options.listener.isPresent = false := by
  rw [show (m.expansion setting).options.listener = .nobody from if_neg hinclude]
  rfl

/-- Who listens in a module takes every report. -/
theorem answer_eq_ok (m : TsModule φ) (setting : Formatter.Setting)
    (reported : List (String × String)) (report : String × String) :
    (m.expansion setting).options.listener.answer reported report = .ok () := by
  change Declaration.Listener.answer (if m.settings.includeReferenced.truthy then .keeper
    else .nobody) reported report = .ok ()
  split <;> rfl

/-- Where everything that is explored can be declared, a declaration of what is explored can only
fail for want of a bound. -/
theorem declare_keeps (hplain : m.Plain) (hsound : m.Sound names) (setting : Formatter.Setting)
    (bound : Nat) {name : String} {schema : Json} (h : m.Explored names name schema) :
    ((m.expansion setting).declare bound name schema).Keeps (fun _ => True) Exhausted := by
  induction bound generalizing name schema with
  | zero => exact fun s _ => rfl
  | succ bound ih =>
    intro s _
    obtain ⟨text, htext⟩ := hsound.written name schema h
    -- Without a formatter a declaration that can be written can only fail where a reference is met.
    have hwithin : (Declaration.ofSchema (m.expansion setting).document
        (m.expansion setting).options (m.expansion setting).formatting name schema).Within
          (.succeeding (· ∈ (m.written name schema).1)) := by
      have hobserve : (Declaration.ofSchema m.document m.settings.declarations none name
          schema).observe (fun _ => false) = ((m.written name schema).1, .ok text) :=
        Prod.ext rfl htext
      rw [hplain.ofSchema_eq]
      exact Rendering.within_succeeding hplain.not_deep Bool.false_ne_true
        (Declaration.ofSchema_within _ _ _ _ _) hobserve fun r hr => hr
    refine Declaration.Expansion.declareWith_ends (J := fun _ => True)
      (Rendering.run_keeps (fun _ _ _ => False.elim) (fun r hr => ?_) False.elim hwithin) trivial
        fun _ _ _ => trivial
    by_cases hinclude : m.settings.includeReferenced.truthy = true
    · obtain ⟨name', schema', hname, htarget⟩ := hsound.met hinclude name schema h r hr
      refine Declaration.Expansion.meet_keeps (fun name text => ?_) (fun e _ he => ?_)
        fun name'' s hname'' _ _ => ⟨fun e he => ?_, fun schema'' hschema'' => ?_⟩
      · refine Declaration.Expansion.tell_keeps name text (fun _ _ => trivial)
          fun e reported _ hanswer _ => ?_
        rw [m.answer_eq_ok setting] at hanswer
        cases hanswer
      · rw [hname] at he
        cases he
      · rw [show targetOf (m.expansion setting).document r = .ok schema' from htarget] at he
        cases he
      · exact ih (h.met hinclude hr hname'' hschema'') _ trivial
    · intro s _
      change Step.Ends ((m.expansion setting).meet _ r s) _ _
      rw [Declaration.Expansion.meet_of_unheard (m.isPresent_eq_false setting hinclude)]
      exact trivial

/-- What is explored is declared, if everything that is explored can be declared. -/
theorem exists_run (hplain : m.Plain) (hsound : m.Sound names) (setting : Formatter.Setting)
    {name : String} {schema : Json} (h : m.Explored names name schema) (s : State φ) :
    ∃ text t, (m.expansion setting).run name schema s = (.ok text, t) := by
  have hformatter : ∀ code options f,
      ((m.expansion setting).formatter code options f).1 ≠ .error .boundExceeded := by
    intro code options f hexceeded
    rw [show (m.expansion setting).formatter = fun code _ s => (.ok code, s) by
      simp only [expansion, hplain.unformatted, Option.getD_none]] at hexceeded
    cases hexceeded
  have hlistener : ∀ reported report,
      (m.expansion setting).options.listener.answer reported report ≠ .error .boundExceeded := by
    intro reported report hexceeded
    rw [m.answer_eq_ok setting] at hexceeded
    cases hexceeded
  have hne := Declaration.Expansion.run_ne_boundExceeded (m.expansion setting) hformatter hlistener
    name schema s
  have hends := declare_keeps hplain hsound setting
    (Expression.nestingBound (m.expansion setting).document schema) h s trivial
  change Step.Ends ((m.expansion setting).run name schema s) _ _ at hends
  rcases hrun : (m.expansion setting).run name schema s with ⟨e | text, t⟩
  · rw [hrun] at hends hne
    exact absurd (congrArg Except.error hends) hne
  · exact ⟨text, t, rfl⟩

/-- Wanted names are declared, if everything that is explored can be declared. -/
theorem Sound.exists_addDeclarations (hsound : m.Sound names) (hplain : m.Plain)
    {rest : List String} (hrest : ∀ n ∈ rest, n ∈ names) (declared : List (String × String))
    (f : φ) : ∃ result g, m.addDeclarations rest declared f = (.ok result, g) := by
  induction rest generalizing declared f with
  | nil => exact ⟨declared, f, rfl⟩
  | cons name rest ih =>
    obtain ⟨hname, hrest⟩ := List.forall_mem_cons.mp hrest
    have hadd : ∃ result g, m.addDeclaration declared name f = (.ok result, g) := by
      by_cases hmem : name ∈ Table.keys declared
      · exact ⟨declared, f, addDeclaration_of_mem m hmem f⟩
      · obtain ⟨schema, hschema⟩ := hsound.named name hname
        obtain ⟨setting, hsetting⟩ := hsound.formats
        obtain ⟨text, t, hrun⟩ :=
          exists_run hplain hsound setting (.named hname hschema) { formatter := f }
        refine ⟨Table.addAll (t.reported ++ [(name, text)]) declared, t.formatter, ?_⟩
        rw [addDeclaration_of_not_mem m hmem, hschema, hsetting]
        dsimp only
        rw [hrun]
    obtain ⟨middle, g, hmiddle⟩ := hadd
    obtain ⟨result, g', hresult⟩ := ih hrest middle g
    refine ⟨result, g', ?_⟩
    simp only [addDeclarations, Step.andThen, hmiddle, hresult]

/-! ## Names that determine targets -/

/-- Display names determine targets: references of one display name lead to the same schema or both
to none, and a reference whose display name is wanted leads to the schema of this name, or both lead
to none. -/
structure NamesSettleTargets (m : TsModule φ) (names : List String) : Prop where
  referenced : ∀ r ∈ m.document.references, ∀ r' ∈ m.document.references,
    Reference.displayName r = Reference.displayName r' →
      (Reference.target m.document r).toOption = (Reference.target m.document r').toOption
  named : ∀ r ∈ m.document.references, Reference.displayName r ∈ names →
    (Reference.target m.document r).toOption = (m.namedSchema (Reference.displayName r)).toOption

/-- A schema that a module has under a name, as a wanted one or as the target of a reference. -/
inductive Called (m : TsModule φ) (names : List String) (name : String) (schema : Json) :
    Prop where
  | named (hname : name ∈ names) (hschema : m.namedSchema name = .ok schema)
  | referenced {r : String} (hr : r ∈ m.document.references)
      (hname : Reference.displayName r = name)
      (htarget : Reference.target m.document r = .ok schema)

theorem targetOf_str (document : Json) (reference : String) :
    targetOf document (.str reference) = Reference.target document reference := rfl

theorem eq_ok_of_toOption_eq {α : Type} {x y : Except Failure α} {a : α}
    (h : x.toOption = y.toOption) (hy : y = .ok a) : x = .ok a := by
  subst hy
  cases x with
  | error e => cases h
  | ok b => exact congrArg Except.ok (Option.some.inj h)

namespace Called

variable {name : String} {schema schema' : Json}

/-- A reference leads to what its display name is the name of. -/
theorem target_eq (hsettle : m.NamesSettleTargets names) (h : m.Called names name schema)
    {r : String} (hr : r ∈ m.document.references) (hname : Reference.displayName r = name) :
    Reference.target m.document r = .ok schema := by
  subst hname
  cases h with
  | named hname hschema => exact eq_ok_of_toOption_eq (hsettle.named r hr hname) hschema
  | referenced hr' hname htarget =>
    exact eq_ok_of_toOption_eq (hsettle.referenced r hr _ hr' hname.symm) htarget

/-- A wanted schema is what its name is the name of. -/
theorem namedSchema_eq (hsettle : m.NamesSettleTargets names) (h : m.Called names name schema)
    (hname : name ∈ names) : m.namedSchema name = .ok schema := by
  cases h with
  | named _ hschema => exact hschema
  | referenced hr hdisplay htarget =>
    subst hdisplay
    exact eq_ok_of_toOption_eq (hsettle.named _ hr hname).symm htarget

theorem unique (hsettle : m.NamesSettleTargets names) (h : m.Called names name schema)
    (h' : m.Called names name schema') : schema = schema' := by
  cases h' with
  | named hname hschema => exact Except.ok.inj ((h.namedSchema_eq hsettle hname).symm.trans hschema)
  | referenced hr hname htarget =>
    exact Except.ok.inj ((h.target_eq hsettle hr hname).symm.trans htarget)

end Called

/-- A reference with a name that is met in a part of the document is one of the references in the
document. -/
theorem exists_reference_of_mem_written {name name' : String} {schema r : Json}
    (hschema : schema.references ⊆ m.document.references) (hr : r ∈ (m.written name schema).1)
    (hname : displayNameOf r = .ok name') :
    ∃ t ∈ m.document.references, r = .str t ∧ Reference.displayName t = name' := by
  let P (r : Json) : Prop := ∀ t, r = .str t → t ∈ m.document.references
  have hrefers : ∀ {schema target : Json}, schema.references ⊆ m.document.references →
      Schema.Refers schema target → P target := by
    rintro schema target hsub ⟨path, node, hnode, htarget⟩ t rfl
    exact hsub ((Schema.Node.ofJson_settles schema path).1 node hnode t htarget)
  have hclosed : Reference.Closed m.document P := fun target _ schema htarget _ =>
    hrefers ((Reference.targetOf_settles m.document target).1 schema htarget)
  have hmeets := Declaration.ofSchema_meets hclosed (fun _ => hrefers hschema)
    m.settings.declarations none name
  obtain ⟨t, rfl, hdisplay⟩ := Expression.displayNameOf_eq_ok.mp hname
  exact ⟨t, Rendering.meeting_of_mem_observe hmeets (fun _ => false) _ hr t rfl, rfl, hdisplay⟩

/-- What is explored under a name is what the module has under it. -/
theorem Explored.called {name : String} {schema : Json} (h : m.Explored names name schema) :
    m.Called names name schema := by
  cases h with
  | named hname hschema => exact .named hname hschema
  | met h _ hr hname htarget =>
    obtain ⟨t, ht, rfl, hdisplay⟩ := exists_reference_of_mem_written h.references_subset hr hname
    exact .referenced ht hdisplay htarget

/-! ## What is declared is what is explored -/

/-- Entries that are all explored, one of each name that is explored, give a table of what is
explored. -/
theorem explores_addAll (hsettle : m.NamesSettleTargets names) (hsound : m.Sound names)
    {entries : List (String × String)}
    (hentries : ∀ e ∈ entries, ∃ schema, m.Explored names e.1 schema ∧
      (m.written e.1 schema).2 = .ok e.2)
    (hkeys : ∀ name schema, m.Explored names name schema → name ∈ Table.keys entries) :
    m.Explores names (Table.addAll entries []) where
  sound := hsound
  nodup_keys := Table.nodup_keys_addAll List.nodup_nil
  mem_iff := by
    have hmem : ∀ e ∈ Table.addAll entries [], ∃ schema, m.Explored names e.1 schema ∧
        (m.written e.1 schema).2 = .ok e.2 := by
      intro e he
      obtain ⟨front, back, hsplit⟩ := List.append_of_mem he
      obtain ⟨before, after, rfl, -, -⟩ := Table.exists_split_addAll hsplit
      exact hentries e (List.mem_append_right before List.mem_cons_self)
    intro name text
    constructor
    · exact hmem (name, text)
    · rintro ⟨schema, hexplored, htext⟩
      have hname : name ∈ Table.keys (Table.addAll entries []) :=
        Table.mem_keys_addAll_nil.mpr (hkeys name schema hexplored)
      obtain ⟨⟨_, text'⟩, he, rfl⟩ := List.mem_map.mp hname
      obtain ⟨schema', hexplored', htext'⟩ := hmem _ he
      obtain rfl := hexplored.called.unique hsettle hexplored'.called
      obtain rfl : text' = text := Except.ok.inj (htext'.symm.trans htext)
      exact he

section Keeper

variable {made : List (Attempt φ)} {declared : List (String × String)}

/-- Every attempt is at a schema that is explored. -/
theorem Declares.explored (h : m.Declares names [] made declared) (hplain : m.Plain)
    (hinclude : m.settings.includeReferenced.truthy = true) {a : Attempt φ} (ha : a ∈ made) :
    m.Explored names a.name a.schema := by
  obtain ⟨root, hroot, hname, hall, hsub⟩ := h.roots a ha
  refine Declaration.Attempt.induct_all hall (.named hname hroot.schema_eq)
    fun b hb hexplored meeting c hc => ?_
  obtain ⟨hdisplay, -, htarget⟩ := Declaration.Expansion.of_begins?_eq_some hc.begins
  obtain ⟨setting, hexpansion⟩ := h.expansion_eq (hsub hb)
  rw [hexpansion] at htarget
  obtain ⟨text, -, hwritten⟩ := h.written_eq hplain (hsub hb)
  refine .met hexplored hinclude ?_ hdisplay htarget
  rw [hwritten]
  exact List.mem_map_of_mem hc.mem

/-- Everything that is explored is attempted. -/
theorem Declares.exists_of_explored (h : m.Declares names [] made declared) (hplain : m.Plain)
    (hinclude : m.settings.includeReferenced.truthy = true)
    (hsettle : m.NamesSettleTargets names) {name : String} {schema : Json}
    (hexplored : m.Explored names name schema) :
    ∃ a ∈ made, a.name = name ∧ a.schema = schema := by
  -- An attempt of the right name is an attempt at the right schema.
  have hright : ∀ {name schema}, m.Explored names name schema → name ∈ made.map Attempt.name →
      ∃ a ∈ made, a.name = name ∧ a.schema = schema := by
    intro name schema hexplored hname
    obtain ⟨a, ha, rfl⟩ := List.mem_map.mp hname
    exact ⟨a, ha, rfl, (h.explored hplain hinclude ha).called.unique hsettle hexplored.called⟩
  induction hexplored with
  | named hname hschema =>
    exact hright (.named hname hschema) ((h.covers _ hname).resolve_left List.not_mem_nil)
  | met hfrom hinclude' hr hname htarget ih =>
    obtain ⟨a, ha, rfl, rfl⟩ := ih
    obtain ⟨text, -, hwritten⟩ := h.written_eq hplain ha
    have hmet := hr
    rw [hwritten] at hmet
    obtain ⟨n, hn, hnamed⟩ := h.heard a ha _ hmet
    obtain rfl := Except.ok.inj (hn.symm.trans hname)
    exact hright (.met hfrom hinclude' hr hname htarget) hnamed

/-- Where everything that is attempted gives a text, what is explored can be declared. -/
theorem Declares.sound (h : m.Declares names [] made declared) (hplain : m.Plain)
    (hinclude : m.settings.includeReferenced.truthy = true)
    (hsettle : m.NamesSettleTargets names) (hne : names ≠ []) : m.Sound names where
  named := by
    intro name hname
    obtain ⟨a, ha, rfl⟩ := List.mem_map.mp ((h.covers name hname).resolve_left List.not_mem_nil)
    exact ⟨a.schema, (h.explored hplain hinclude ha).called.namedSchema_eq hsettle hname⟩
  formats := by
    obtain ⟨name, hname⟩ := List.exists_mem_of_ne_nil names hne
    obtain ⟨a, ha, -⟩ := List.mem_map.mp ((h.covers name hname).resolve_left List.not_mem_nil)
    obtain ⟨root, hroot, -, -, -⟩ := h.roots a ha
    obtain ⟨setting, hsetting, -⟩ := hroot.expansion_eq
    exact ⟨setting, hsetting⟩
  written := by
    intro name schema hexplored
    obtain ⟨a, ha, rfl, rfl⟩ := h.exists_of_explored hplain hinclude hsettle hexplored
    obtain ⟨text, -, hwritten⟩ := h.written_eq hplain ha
    exact ⟨text, congrArg Prod.snd hwritten⟩
  met := by
    intro _ name schema hexplored r hr
    obtain ⟨a, ha, rfl, rfl⟩ := h.exists_of_explored hplain hinclude hsettle hexplored
    obtain ⟨text, -, hwritten⟩ := h.written_eq hplain ha
    have hmet := hr
    rw [hwritten] at hmet
    obtain ⟨n, hn, hnamed⟩ := h.heard a ha r hmet
    -- The attempt at the name of the reference is at its target.
    obtain ⟨b, hb, rfl⟩ := List.mem_map.mp hnamed
    obtain ⟨t, ht, rfl, hdisplay⟩ :=
      exists_reference_of_mem_written hexplored.references_subset hr hn
    have htarget : Reference.target m.document t = .ok b.schema :=
      (h.explored hplain hinclude hb).called.target_eq hsettle ht hdisplay
    exact ⟨b.name, b.schema, hn, (targetOf_str m.document t).trans htarget⟩

/-- A module that declares its references, and does not fail, declares what is explored. -/
theorem Declares.explores (h : m.Declares names [] made declared) (hplain : m.Plain)
    (hinclude : m.settings.includeReferenced.truthy = true)
    (hsettle : m.NamesSettleTargets names) (hne : names ≠ []) : m.Explores names declared := by
  rw [h.result_eq]
  refine explores_addAll hsettle (h.sound hplain hinclude hsettle hne) (fun e he => ?_)
    fun name schema hexplored => ?_
  · obtain ⟨a, ha, hdeclaration⟩ := List.mem_filterMap.mp he
    obtain ⟨text, hresult, hwritten⟩ := h.written_eq hplain ha
    rw [Declaration.Attempt.declaration?_of_ok hresult] at hdeclaration
    obtain rfl := Option.some.inj hdeclaration
    exact ⟨a.schema, h.explored hplain hinclude ha, congrArg Prod.snd hwritten⟩
  · rw [keys_declarations h.gives]
    obtain ⟨a, ha, rfl, -⟩ := h.exists_of_explored hplain hinclude hsettle hexplored
    exact List.mem_map_of_mem ha

end Keeper

/-! ### Where nobody listens -/

/-- An attempt to which nobody listens reports nothing. -/
theorem reported_of_unheard {a : Attempt φ}
    (hlistener : a.expansion.options.listener.isPresent = false) :
    a.after.reported = a.before.reported := by
  have hmeet : ∀ r, (a.host.meet r).Keeps (fun s => s.reported = a.before.reported)
      fun _ s => s.reported = a.before.reported := by
    intro r s hs
    change Step.Ends (a.expansion.meet _ r s) _ _
    rw [Declaration.Expansion.meet_of_unheard hlistener]
    exact hs
  have hformat : ∀ code options, (a.host.format code options).Keeps
      (fun s => s.reported = a.before.reported) fun _ s => s.reported = a.before.reported :=
    fun code options => Declaration.Expansion.format_keeps code options (fun _ _ _ _ hs => hs)
      fun _ _ _ _ hs => hs
  have henter : a.entered.reported = a.before.reported := by
    unfold Attempt.entered State.enter
    split <;> rfl
  have hends : Step.Ends a.outcome (fun s => s.reported = a.before.reported)
      fun _ s => s.reported = a.before.reported :=
    Declaration.Expansion.declareWith_ends
      (Rendering.run_keeps (fun _ _ hs _ => hs) (fun r _ => hmeet r) (fun _ => hformat)
        (Declaration.ofSchema_within _ _ _ _ _)) henter fun _ _ hs => hs
  exact Step.ends_both.mp hends

/-- Where nobody listens, each wanted name adds the declaration of its own schema. -/
theorem exists_entries_of_unheard (hplain : m.Plain)
    (hinclude : ¬ m.settings.includeReferenced.truthy = true) {rest : List String}
    {declared result : List (String × String)} {f g : φ}
    (hrun : m.addDeclarations rest declared f = (.ok result, g)) :
    ∃ entries, result = Table.addAll entries declared ∧
      (∀ n ∈ rest, n ∈ Table.keys declared ∨ n ∈ Table.keys entries) ∧
      ∀ e ∈ entries, e.1 ∈ rest ∧ (∃ setting, m.settings.toFormat = .ok setting) ∧
        ∃ schema, m.namedSchema e.1 = .ok schema ∧ (m.written e.1 schema).2 = .ok e.2 := by
  induction rest generalizing declared f with
  | nil =>
    obtain ⟨rfl, rfl⟩ : declared = result ∧ f = g := by
      simpa [addDeclarations, Step.ofExcept] using hrun
    exact ⟨[], rfl, by simp, by simp⟩
  | cons name rest ih =>
    obtain ⟨middle, f', hadd, hrest⟩ := addDeclarations_cons_eq_ok.mp hrun
    obtain ⟨entries, hresult, hcovers, hentries⟩ := ih hrest
    have hadds := adds_of_addDeclaration hadd
    generalize m.root? declared name f = root at hadds
    cases hadds with
    | known hmem =>
      refine ⟨entries, hresult, List.forall_mem_cons.mpr ⟨.inl hmem, hcovers⟩, fun e he => ?_⟩
      exact ⟨List.mem_cons_of_mem name (hentries e he).1, (hentries e he).2⟩
    | @added a text hnew hroot hname hgives =>
      subst hname
      obtain ⟨setting, hsetting, hexpansion⟩ := hroot.expansion_eq
      obtain ⟨f₀, hbefore⟩ := hroot.before_eq
      -- Nobody listens, so nothing is reported besides the declaration itself.
      have hreported : a.after.reported = [] := by
        rw [reported_of_unheard (hexpansion ▸ m.isPresent_eq_false setting hinclude), hbefore]
      have hwritten := hplain.written_eq ⟨setting, hexpansion⟩ hgives
      rw [hreported, List.nil_append] at hresult hcovers
      refine ⟨(a.name, text) :: entries, hresult, List.forall_mem_cons.mpr ⟨?_, fun n hn => ?_⟩,
        List.forall_mem_cons.mpr ⟨⟨List.mem_cons_self, ⟨setting, hsetting⟩, a.schema,
          hroot.schema_eq, congrArg Prod.snd hwritten⟩, fun e he => ?_⟩⟩
      · exact .inr List.mem_cons_self
      · rcases hcovers n hn with hmiddle | hentry
        · rcases Table.mem_keys_addAll.mp hmiddle with hdeclared | hname
          · exact .inl hdeclared
          · exact .inr (List.mem_cons.mpr (.inl (List.mem_singleton.mp hname)))
        · exact .inr (List.mem_cons_of_mem a.name hentry)
      · exact ⟨List.mem_cons_of_mem a.name (hentries e he).1, (hentries e he).2⟩

/-- A module that does not declare its references, and does not fail, declares what is explored,
which is what is wanted. -/
theorem explores_of_unheard (hplain : m.Plain)
    (hinclude : ¬ m.settings.includeReferenced.truthy = true)
    (hsettle : m.NamesSettleTargets names) (hne : names ≠ []) {declared : List (String × String)}
    {f g : φ} (hrun : m.addDeclarations names [] f = (.ok declared, g)) :
    m.Explores names declared := by
  obtain ⟨entries, rfl, hcovers, hentries⟩ := exists_entries_of_unheard hplain hinclude hrun
  have hkeys : ∀ n ∈ names, n ∈ Table.keys entries := fun n hn =>
    (hcovers n hn).resolve_left List.not_mem_nil
  have hentry : ∀ n ∈ names, (∃ setting, m.settings.toFormat = .ok setting) ∧
      ∃ schema text, m.namedSchema n = .ok schema ∧ (m.written n schema).2 = .ok text := by
    intro n hn
    obtain ⟨⟨_, text⟩, he, rfl⟩ := List.mem_map.mp (hkeys n hn)
    obtain ⟨-, hsetting, schema, hschema, htext⟩ := hentries _ he
    exact ⟨hsetting, schema, text, hschema, htext⟩
  have hnamed : ∀ {name schema}, m.Explored names name schema →
      name ∈ names ∧ m.namedSchema name = .ok schema := by
    intro name schema hexplored
    cases hexplored with
    | named hname hschema => exact ⟨hname, hschema⟩
    | met _ hinclude' => exact absurd hinclude' hinclude
  have hsound : m.Sound names := by
    refine ⟨fun n hn => ?_, ?_, fun name schema hexplored => ?_, fun h => absurd h hinclude⟩
    · obtain ⟨-, schema, -, hschema, -⟩ := hentry n hn
      exact ⟨schema, hschema⟩
    · obtain ⟨n, hn⟩ := List.exists_mem_of_ne_nil names hne
      exact (hentry n hn).1
    · obtain ⟨hname, hschema⟩ := hnamed hexplored
      obtain ⟨-, schema', text, hschema', htext⟩ := hentry name hname
      obtain rfl := Except.ok.inj (hschema.symm.trans hschema')
      exact ⟨text, htext⟩
  refine explores_addAll hsettle hsound (fun e he => ?_) fun name schema hexplored =>
    hkeys name (hnamed hexplored).1
  obtain ⟨hname, -, schema, hschema, htext⟩ := hentries e he
  exact ⟨schema, .named hname hschema, htext⟩

/-- A plain module that does not fail declares what is explored, if display names determine
targets. -/
theorem explores_of_addDeclarations (hplain : m.Plain) (hsettle : m.NamesSettleTargets names)
    (hne : names ≠ []) {declared : List (String × String)} {f g : φ}
    (hrun : m.addDeclarations names [] f = (.ok declared, g)) : m.Explores names declared := by
  by_cases hinclude : m.settings.includeReferenced.truthy = true
  · exact (addDeclarations_declares hinclude hrun).explores hplain hinclude hsettle hne
  · exact explores_of_unheard hplain hinclude hsettle hne hrun

end TsModule

end SchemaTypes

import SchemaTypes.Proofs.Reporting
import SchemaTypes.Proofs.Spellings
import SchemaTypes.TsModule.Basic

/-!
# What a module declares

A module makes an attempt at every wanted schema whose name is not declared yet, and all attempts
that are made in it have a part in what the module declares: `TsModule.attempts` lists them, in the
order in which they end. If referenced schemas are declared too, the declarations of a module are
those of its attempts, added to a table one after the other, so that the first one of each name is
kept. Since an attempt gives its declaration only after those of the references that it meets, which
may be in progress around it, nothing that is referred to is missing in the end.
-/

namespace SchemaTypes.TsModule

open Declaration (Attempt Ordered)
open Declaration.Expansion (State)
open Table (addAll)

variable {φ : Type}

/-! ## The attempts in a module -/

/-- The schema that a module has under a name. -/
def namedSchema (m : TsModule φ) (name : String) : Except Failure Json :=
  Reference.target m.document (((pointers m.document).lookup name).getD "")

/-- The attempt at a named schema: none, if the name is declared already, or if there is no such
schema, or no setting for the formatter. -/
def root? (m : TsModule φ) (declared : List (String × String)) (name : String) (f : φ) :
    Option (Attempt φ) :=
  if Table.contains name declared then
    none
  else
    match m.namedSchema name, m.settings.toFormat with
    | .ok schema, .ok setting => some ((m.expansion setting).attempt name schema { formatter := f })
    | _, _ => none

/-- The attempts that are made in an attempt, if there is one. -/
def madeFrom (root : Option (Attempt φ)) : List (Attempt φ) :=
  root.elim [] Attempt.all

/-- All attempts that are made to declare some names, in the order in which they end. -/
def attempts (m : TsModule φ) : List String → List (String × String) → φ → List (Attempt φ)
  | [], _, _ => []
  | name :: rest, declared, f =>
    madeFrom (m.root? declared name f) ++
      match m.addDeclaration declared name f with
      | (.ok declared, f) => m.attempts rest declared f
      | (.error _, _) => []

/-- An attempt at a named schema of the document begins with an empty memo, and nothing reported. -/
structure IsRoot (m : TsModule φ) (a : Attempt φ) : Prop where
  schema_eq : m.namedSchema a.name = .ok a.schema
  expansion_eq : ∃ setting, m.settings.toFormat = .ok setting ∧ a.expansion = m.expansion setting
  before_eq : ∃ f, a.before = { formatter := f }

/-- What a module does about a name, if nothing fails: which attempt it makes, if any, and what that
leads to. -/
inductive Adds (m : TsModule φ) (declared : List (String × String)) (name : String) (f : φ) :
    Option (Attempt φ) → List (String × String) → φ → Prop where
  /-- The name is declared already. -/
  | known (h : name ∈ Table.keys declared) : Adds m declared name f none declared f
  /-- The reports of the attempt are added, and the declaration that it gives. -/
  | added {a : Attempt φ} {text : String} (hnew : name ∉ Table.keys declared) (hroot : m.IsRoot a)
      (hname : a.name = name) (hresult : a.result = .ok text) :
    Adds m declared name f (some a) (addAll (a.after.reported ++ [(name, text)]) declared)
      a.after.formatter

/-- A name that is declared already adds nothing. -/
theorem addDeclaration_of_mem (m : TsModule φ) {declared : List (String × String)} {name : String}
    (h : name ∈ Table.keys declared) (f : φ) :
    m.addDeclaration declared name f = (.ok declared, f) := by
  unfold addDeclaration
  rw [if_pos ((Table.contains_iff_mem_keys name declared).mpr h)]

/-- A new name adds what its expansion reports, and the declaration that it gives. -/
theorem addDeclaration_of_not_mem (m : TsModule φ) {declared : List (String × String)}
    {name : String} (h : name ∉ Table.keys declared) (f : φ) :
    m.addDeclaration declared name f =
      match m.namedSchema name with
      | .error e => (.error e, f)
      | .ok schema =>
        match m.settings.toFormat with
        | .error e => (.error e, f)
        | .ok setting =>
          match (m.expansion setting).run name schema { formatter := f } with
          | (.error e, s) => (.error e, s.formatter)
          | (.ok text, s) =>
            (.ok (addAll (s.reported ++ [(name, text)]) declared), s.formatter) := by
  unfold addDeclaration
  rw [if_neg (mt (Table.contains_iff_mem_keys name declared).mp h)]
  simp only [Table.addAll_append]
  rfl

/-- A new name adds to a table, without failing, exactly if it has a schema, the formatter is set,
and its expansion gives a declaration. -/
theorem addDeclaration_eq_ok {m : TsModule φ} {declared result : List (String × String)}
    {name : String} (h : name ∉ Table.keys declared) {f g : φ} :
    m.addDeclaration declared name f = (.ok result, g) ↔
      ∃ schema setting text s, m.namedSchema name = .ok schema ∧
        m.settings.toFormat = .ok setting ∧
        (m.expansion setting).run name schema { formatter := f } = (.ok text, s) ∧
        addAll (s.reported ++ [(name, text)]) declared = result ∧ s.formatter = g := by
  rw [addDeclaration_of_not_mem m h]
  cases m.namedSchema name with
  | error e => simp
  | ok schema =>
    cases m.settings.toFormat with
    | error e => simp
    | ok setting =>
      dsimp only
      rcases hend : (m.expansion setting).run name schema { formatter := f } with ⟨e | text, s⟩
      · simp [hend]
      · simp [hend]

theorem adds_of_addDeclaration {m : TsModule φ} {declared result : List (String × String)}
    {name : String} {f g : φ} (hrun : m.addDeclaration declared name f = (.ok result, g)) :
    Adds m declared name f (m.root? declared name f) result g := by
  by_cases hname : name ∈ Table.keys declared
  · rw [addDeclaration_of_mem m hname] at hrun
    cases hrun
    rw [root?, if_pos ((Table.contains_iff_mem_keys name declared).mpr hname)]
    exact .known hname
  · obtain ⟨schema, setting, text, s, hschema, hsetting, hend, rfl, rfl⟩ :=
      (addDeclaration_eq_ok hname).mp hrun
    rw [root?, if_neg (mt (Table.contains_iff_mem_keys name declared).mp hname), hschema, hsetting]
    let a : Attempt φ := (m.expansion setting).attempt name schema { formatter := f }
    have hafter : a.after = s := congrArg Prod.snd hend
    rw [← hafter]
    exact .added hname ⟨hschema, ⟨setting, hsetting, rfl⟩, ⟨f, rfl⟩⟩ rfl (congrArg Prod.fst hend)

/-! ## From one table to another -/

/-- What the attempts have in common that are made to add some names to a table, if all goes
well. -/
structure Declares (m : TsModule φ) (names : List String) (declared : List (String × String))
    (made : List (Attempt φ)) (result : List (String × String)) : Prop where
  /-- Their declarations are added to the table. -/
  result_eq : result = addAll (made.filterMap Attempt.declaration?) declared
  /-- Every attempt gives a text. -/
  gives : ∀ a ∈ made, ∃ text, a.result = .ok text
  /-- Every reference that is met has a name, and there is an attempt of that name. -/
  heard : ∀ a ∈ made, ∀ r ∈ a.met, ∃ n, Reference.displayNameOf r = .ok n ∧
    n ∈ made.map Attempt.name
  /-- The names of these references are in the table before, or attempted before, or they are in
  progress. -/
  order : Ordered (· ∈ Table.keys declared) made
  /-- The names are in the table before, or they are attempted. -/
  covers : ∀ n ∈ names, n ∈ Table.keys declared ∨ n ∈ made.map Attempt.name
  /-- All attempts are made in attempts at the named schemas. -/
  roots : ∀ a ∈ made, ∃ root, m.IsRoot root ∧ root.name ∈ names ∧ a ∈ root.all ∧ root.all ⊆ made

theorem keys_declarations {made : List (Attempt φ)}
    (hgives : ∀ a ∈ made, ∃ text, a.result = .ok text) :
    Table.keys (made.filterMap Attempt.declaration?) = made.map Attempt.name := by
  induction made with
  | nil => rfl
  | cons a rest ih =>
    obtain ⟨text, hresult⟩ := hgives a List.mem_cons_self
    rw [List.filterMap_cons_some (Declaration.Attempt.declaration?_of_ok hresult), List.map_cons,
      ← ih fun b hb => hgives b (List.mem_cons_of_mem a hb)]
    rfl

namespace Declares

variable {m : TsModule φ} {names more : List String}
  {declared result result' : List (String × String)} {made made' : List (Attempt φ)}

theorem mem_keys (h : m.Declares names declared made result) {n : String} :
    n ∈ Table.keys result ↔ n ∈ Table.keys declared ∨ n ∈ made.map Attempt.name := by
  rw [h.result_eq, Table.mem_keys_addAll, keys_declarations h.gives]

theorem nil (declared : List (String × String)) : m.Declares [] declared [] declared where
  result_eq := rfl
  gives := by simp
  heard := by simp
  order := .nil
  covers := by simp
  roots := by simp

theorem known {name : String} (h : name ∈ Table.keys declared) :
    m.Declares [name] declared [] declared where
  result_eq := rfl
  gives := by simp
  heard := by simp
  order := .nil
  covers := by simpa using h
  roots := by simp

/-- The attempt at a named schema adds its declarations. -/
theorem root (hinclude : m.settings.includeReferenced.truthy = true) {a : Attempt φ}
    {text : String} (hroot : m.IsRoot a) (hresult : a.result = .ok text) :
    m.Declares [a.name] declared a.all
      (addAll (a.after.reported ++ [(a.name, text)]) declared) := by
  obtain ⟨setting, -, hexpansion⟩ := hroot.expansion_eq
  obtain ⟨f, hbefore⟩ := hroot.before_eq
  have hlistener : a.expansion.options.listener.isPresent = true := by
    rw [hexpansion, show (m.expansion setting).options.listener = .keeper from if_pos hinclude]
    rfl
  obtain ⟨hreports, -⟩ := Declaration.Attempt.reports_of_fresh hlistener hbefore hresult
  have hcollected := Declaration.Attempt.collected hlistener hbefore hresult
  refine ⟨?_, hreports.gives, fun b hb r hr => ?_, ?_, ?_, ?_⟩
  · have haddAll := hreports.addAll_eq declared
    rw [hbefore] at haddAll
    exact haddAll
  · obtain ⟨n, hn, hcontains⟩ := hreports.heard b hb r hr
    exact ⟨n, hn, (hcollected.attempted n).mp hcontains⟩
  · refine hreports.order.mono ?_
    rintro n ⟨text', hdone⟩
    rw [hbefore] at hdone
    cases hdone
  · intro n hn
    obtain rfl := List.mem_singleton.mp hn
    exact Or.inr (List.mem_map_of_mem (by simp))
  · exact fun b hb => ⟨a, hroot, List.mem_singleton.mpr rfl, hb, List.Subset.refl _⟩

/-- Some names after others. -/
theorem append (h : m.Declares names declared made result)
    (h' : m.Declares more result made' result') :
    m.Declares (names ++ more) declared (made ++ made') result' where
  result_eq := by
    rw [h'.result_eq, h.result_eq, List.filterMap_append, Table.addAll_append]
  gives := List.forall_mem_append.mpr ⟨h.gives, h'.gives⟩
  heard := by
    rw [List.map_append]
    refine List.forall_mem_append.mpr ⟨fun a ha r hr => ?_, fun a ha r hr => ?_⟩
    · obtain ⟨n, hn, hname⟩ := h.heard a ha r hr
      exact ⟨n, hn, List.mem_append_left _ hname⟩
    · obtain ⟨n, hn, hname⟩ := h'.heard a ha r hr
      exact ⟨n, hn, List.mem_append_right _ hname⟩
  order := h.order.append h'.order fun n hn => h.mem_keys.mp hn
  covers := by
    simp only [List.map_append, List.mem_append, ← or_assoc]
    rintro n (hn | hn)
    · exact Or.inl (h.covers n hn)
    · exact (h'.covers n hn).imp_left h.mem_keys.mp
  roots := by
    refine List.forall_mem_append.mpr ⟨fun a ha => ?_, fun a ha => ?_⟩
    · obtain ⟨root, hroot, hname, hall, hsub⟩ := h.roots a ha
      exact ⟨root, hroot, List.mem_append_left _ hname, hall,
        List.subset_append_of_subset_left _ hsub⟩
    · obtain ⟨root, hroot, hname, hall, hsub⟩ := h'.roots a ha
      exact ⟨root, hroot, List.mem_append_right _ hname, hall,
        List.subset_append_of_subset_right _ hsub⟩

end Declares

theorem addDeclarations_cons_eq_ok {m : TsModule φ} {name : String} {rest : List String}
    {declared result : List (String × String)} {f g : φ} :
    m.addDeclarations (name :: rest) declared f = (.ok result, g) ↔
      ∃ middle f', m.addDeclaration declared name f = (.ok middle, f') ∧
        m.addDeclarations rest middle f' = (.ok result, g) :=
  Step.andThen_eq_ok

/-- A module is declared without failing exactly if its names can be selected and declared. -/
theorem declarations_eq_ok {m : TsModule φ} {declared : List (String × String)} {f g : φ} :
    m.declarations f = (.ok declared, g) ↔
      ∃ names, m.selectedNames = .ok names ∧
        m.addDeclarations names [] f = (.ok declared, g) := by
  unfold declarations
  cases m.selectedNames with
  | error e => simp [Step.ofExcept]
  | ok names => simp

/-- If referenced schemas are declared too, the attempts at some names declare them. -/
theorem addDeclarations_declares {m : TsModule φ}
    (hinclude : m.settings.includeReferenced.truthy = true) {names : List String}
    {declared result : List (String × String)} {f g : φ}
    (hrun : m.addDeclarations names declared f = (.ok result, g)) :
    m.Declares names declared (m.attempts names declared f) result := by
  induction names generalizing declared f with
  | nil =>
    obtain ⟨rfl, rfl⟩ : declared = result ∧ f = g := by
      simpa [addDeclarations, Step.ofExcept] using hrun
    exact .nil declared
  | cons name rest ih =>
    obtain ⟨middle, f', hadd, hrest⟩ := addDeclarations_cons_eq_ok.mp hrun
    have hadds := adds_of_addDeclaration hadd
    have hname : m.Declares [name] declared (madeFrom (m.root? declared name f)) middle := by
      generalize m.root? declared name f = root at hadds
      cases hadds with
      | known h => exact .known h
      | added hnew hroot hname hresult =>
        subst hname
        exact .root hinclude hroot hresult
    rw [attempts, hadd]
    exact hname.append (ih hrest)

/-- If referenced schemas are declared too, the declarations of a module are those of its
attempts. -/
theorem declarations_declares {m : TsModule φ}
    (hinclude : m.settings.includeReferenced.truthy = true) {declared : List (String × String)}
    {f g : φ} (hrun : m.declarations f = (.ok declared, g)) :
    ∃ names, m.selectedNames = .ok names ∧
      m.Declares names [] (m.attempts names [] f) declared := by
  obtain ⟨names, hnames, hadds⟩ := declarations_eq_ok.mp hrun
  exact ⟨names, hnames, addDeclarations_declares hinclude hadds⟩

/-! ## What is kept -/

namespace Declares

variable {m : TsModule φ} {names : List String} {result : List (String × String)}
  {made : List (Attempt φ)}

theorem nodup_keys (h : m.Declares names [] made result) : (Table.keys result).Nodup := by
  rw [h.result_eq]
  exact Table.nodup_keys_addAll List.nodup_nil

/-- The declarations are of the wanted names and of those of the references that are met. -/
theorem mem_keys_iff (h : m.Declares names [] made result) {n : String} :
    n ∈ Table.keys result ↔
      n ∈ names ∨ ∃ a ∈ made, ∃ r ∈ a.met, Reference.displayNameOf r = .ok n := by
  have hkeys : n ∈ Table.keys result ↔ n ∈ made.map Attempt.name := by
    rw [h.result_eq, Table.mem_keys_addAll_nil, keys_declarations h.gives]
  rw [hkeys]
  constructor
  · intro hn
    obtain ⟨a, ha, rfl⟩ := List.mem_map.mp hn
    obtain ⟨root, -, hname, hall, hsub⟩ := h.roots a ha
    rcases root.mem_all.mp hall with hnested | rfl
    · obtain ⟨c, hc, r, hr, hr', -⟩ := Declaration.Attempt.exists_met_of_mem_nested hnested
      exact Or.inr ⟨c, hsub hc, r, hr, hr'⟩
    · exact Or.inl hname
  · rintro (hn | ⟨a, ha, r, hr, hr'⟩)
    · exact (h.covers n hn).resolve_left (by simp [Table.keys])
    · obtain ⟨n', hn', hname⟩ := h.heard a ha r hr
      obtain rfl : n = n' := Except.ok.inj (hr'.symm.trans hn')
      exact hname

/-- Every declaration is that of the first attempt at its name, and those in front of it are of the
names that were attempted before. -/
theorem exists_first (h : m.Declares names [] made result) {front back : List (String × String)}
    {n text : String} (hresult : result = front ++ (n, text) :: back) :
    ∃ before a after, made = before ++ a :: after ∧ a.name = n ∧ a.result = .ok text ∧
      n ∉ before.map Attempt.name ∧
        ∀ k, k ∈ Table.keys front ↔ k ∈ before.map Attempt.name := by
  obtain ⟨entries, entries', hentries, hnew, hfront⟩ :=
    Table.exists_split_addAll (h.result_eq.symm.trans hresult)
  obtain ⟨before, rest, rfl, rfl, hrest⟩ := List.filterMap_eq_append_iff.mp hentries
  have hgives : ∀ a ∈ before, ∃ text, a.result = .ok text :=
    fun a ha => h.gives a (List.mem_append_left _ ha)
  rw [keys_declarations hgives] at hnew hfront
  cases rest with
  | nil => cases hrest
  | cons a after =>
    obtain ⟨text', ha⟩ := h.gives a (by simp)
    rw [List.filterMap_cons_some (Declaration.Attempt.declaration?_of_ok ha)] at hrest
    obtain ⟨⟨rfl, rfl⟩, -⟩ : (a.name = n ∧ text' = text) ∧ _ := by simpa using hrest
    exact ⟨before, a, after, rfl, rfl, ha, hnew, hfront⟩

end Declares

/-- When a module is declared together with the schemas that it refers to, its declarations are of
the selected names and of the display names of all references that are met on the way, and of
nothing else, each name once. Every declaration that is kept is the text of an attempt at its name;
all references that were met in this attempt are declared too, and so are all names that it has put
in the place of types: whatever other names would be spelled like, the rendering would go the same
way. -/
theorem declarations_closed (m : TsModule φ)
    (hinclude : m.settings.includeReferenced.truthy = true) (f g : φ)
    (declared : List (String × String)) (hrun : m.declarations f = (.ok declared, g)) :
    ∃ names, m.selectedNames = .ok names ∧ (Table.keys declared).Nodup ∧
      (∀ n, n ∈ Table.keys declared ↔
        n ∈ names ∨ ∃ a ∈ m.attempts names [] f, ∃ r ∈ a.met, Reference.displayNameOf r = .ok n) ∧
      ∀ n text, (n, text) ∈ declared →
        ∃ before a after, m.attempts names [] f = before ++ a :: after ∧ a.name = n ∧
          a.result = .ok text ∧ n ∉ before.map Attempt.name ∧
          (∀ r ∈ a.met, ∃ k ∈ Table.keys declared, Reference.displayNameOf r = .ok k) ∧
          ∀ spelling : String → String, (∀ k ∈ Table.keys declared, spelling k = k) →
            (Declaration.ofSchemaAs spelling a.expansion.document a.expansion.options
              a.expansion.formatting a.name a.schema).run a.host a.entered =
                a.rendering.run a.host a.entered := by
  obtain ⟨names, hnames, h⟩ := declarations_declares hinclude hrun
  refine ⟨names, hnames, h.nodup_keys, fun n => h.mem_keys_iff, fun n text hmem => ?_⟩
  obtain ⟨front, back, hsplit⟩ := List.append_of_mem hmem
  obtain ⟨before, a, after, hmade, hname, hresult, hfirst, -⟩ := h.exists_first hsplit
  have ha : a ∈ m.attempts names [] f := by
    rw [hmade]
    simp
  have hmet : ∀ r ∈ a.met, ∃ k ∈ Table.keys declared, Reference.displayNameOf r = .ok k := by
    intro r hr
    obtain ⟨k, hk, -⟩ := h.heard a ha r hr
    exact ⟨k, h.mem_keys_iff.mpr (Or.inr ⟨a, ha, r, hr, hk⟩), hk⟩
  refine ⟨before, a, after, hmade, hname, hresult, hfirst, hmet, fun spelling hspelling => ?_⟩
  refine (Declaration.ofSchema_alike spelling _ _ _ _ _).run_eq a.host (c := {}) fun r hr => ?_
  intro k hk
  obtain ⟨k', hdeclared, hk'⟩ := hmet r.reference (List.mem_map_of_mem hr)
  obtain rfl : k = k' := Except.ok.inj (hk.symm.trans hk')
  exact hspelling k hdeclared

/-- A module with a definition that refers to itself, asked for twice, and one that refers to it. -/
def lists : TsModule Unit where
  document := .obj [("definitions", .obj [("List", Declaration.Expansion.pointingTo "List"),
    ("Use", Declaration.Expansion.pointingTo "List")])]
  settings := { schemas := some (.arr [.str "List", .str "Use", .str "List"]) }

/-- The declarations of that module. -/
def listsDeclared : List (String × String) :=
  [("List", "export interface List \x7b\n  next?: List;\n\x7d"),
    ("Use", "export interface Use \x7b\n  next?: List;\n\x7d")]

/-- The reference of a definition to itself is met while this is in progress, and once more from the
other definition. The two declarations refer to nothing else. -/
theorem declarations_closed_lists :
    lists.settings.includeReferenced.truthy = true ∧
      lists.declarations () = (.ok listsDeclared, ()) ∧
      ∃ names, lists.selectedNames = .ok names ∧
        (∀ n, n ∈ ["List", "Use"] ↔ n ∈ names ∨
          ∃ a ∈ lists.attempts names [] (), ∃ r ∈ a.met, Reference.displayNameOf r = .ok n) ∧
        ∃ a ∈ lists.attempts names [] (), a.name = "Use" ∧
          a.result = .ok "export interface Use \x7b\n  next?: List;\n\x7d" ∧
          ∀ r ∈ a.met, ∃ k ∈ ["List", "Use"], Reference.displayNameOf r = .ok k := by
  have hnames : lists.selectedNames = .ok ["List", "Use", "List"] := by rfl
  have hlist : lists.namedSchema "List" = .ok (Declaration.Expansion.pointingTo "List") := by rfl
  have huse : lists.namedSchema "Use" = .ok (Declaration.Expansion.pointingTo "List") := by rfl
  have hsetting : lists.settings.toFormat = .ok (.options {}) := by rfl
  have hfirst : lists.addDeclaration [] "List" () = (.ok (listsDeclared.take 1), ()) := by
    rw [addDeclaration_of_not_mem lists (by decide), hlist, hsetting]
    rfl
  have hsecond :
      lists.addDeclaration (listsDeclared.take 1) "Use" () = (.ok listsDeclared, ()) := by
    rw [addDeclaration_of_not_mem lists (by decide), huse, hsetting]
    rfl
  have hthird : lists.addDeclaration listsDeclared "List" () = (.ok listsDeclared, ()) :=
    addDeclaration_of_mem lists (by decide) ()
  have hrun : lists.declarations () = (.ok listsDeclared, ()) := by
    simp only [declarations, hnames, addDeclarations, Step.andThen, hfirst, hsecond, hthird,
      Step.ofExcept]
  obtain ⟨names, hselected, -, hkeys, hkept⟩ :=
    declarations_closed lists rfl () () listsDeclared hrun
  obtain ⟨before, a, after, hmade, hname, hresult, -, hmet, -⟩ :=
    hkept "Use" "export interface Use \x7b\n  next?: List;\n\x7d" (by simp [listsDeclared])
  exact ⟨rfl, hrun, names, hselected, hkeys, a, by simp [hmade], hname, hresult, hmet⟩

end SchemaTypes.TsModule

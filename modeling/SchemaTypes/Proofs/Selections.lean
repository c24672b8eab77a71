import SchemaTypes.Proofs.Exploring

/-!
# The order of the names that are asked for

The names to declare come as a list. In a plain module whose display names determine targets, the
list counts as a set: `TsModule.declarations_perm`. Either way everything is declared
that is explored from the names, or something in there cannot be declared.
-/

namespace SchemaTypes.TsModule

variable {φ : Type} {m : TsModule φ} {names : List String}

/-- The module with certain names to declare, and all else as it is. -/
def wanting (m : TsModule φ) (names : List String) : TsModule φ :=
  { m with settings := { m.settings with schemas := some (.arr (names.map .str)) } }

/-! ## Selecting texts -/

theorem mapM_str {ε α : Type} {f : Json → Except ε α} {g : String → α}
    (h : ∀ s, f (.str s) = .ok (g s)) (names : List String) :
    (names.map .str).mapM f = .ok (names.map g) := by
  induction names with
  | nil => rfl
  | cons name names ih =>
    rw [List.map_cons, List.mapM_cons, h, ih]
    rfl

theorem missing_texts (known names : List String) :
    missing known (names.map .str) = (names.filter (· ∉ known)).map .str := by
  have hmissing : ∀ n : String, (!known.any ((Json.str n).isText ·)) = decide (n ∉ known) := by
    intro n
    rw [Bool.eq_iff_iff]
    simp only [Json.isText, Bool.not_eq_true', List.any_eq_false, beq_iff_eq, decide_eq_true_eq]
    constructor
    · exact fun h hn => h n hn rfl
    · rintro h k hk rfl
      exact h hk
  unfold missing
  rw [List.filter_map]
  congr 1
  exact List.filter_congr fun n _ => hmissing n

/-- Names are selected as they are, if they are all known. -/
theorem selected_texts (known : List String) (hne : names ≠ []) :
    selected known (.arr (names.map .str)) =
      if names.filter (· ∉ known) = [] then .ok names
      else .error (.missingSchemas (names.filter (· ∉ known))) := by
  have htruthy : (Json.arr (names.map .str)).truthy = true := by
    simpa [Json.truthy] using hne
  have hcontainer : (names.map Json.str).find? Json.isContainer = none := by
    simp [Json.isContainer]
  have horMisfit : ((missing known (names.map .str)).mapM Json.orMisfit) =
      .ok (names.filter (· ∉ known)) := by
    rw [missing_texts, mapM_str (g := id) fun _ => rfl, List.map_id]
  have hasText : (names.map .str).mapM Json.asText = .ok names := by
    rw [mapM_str (g := id) fun _ => rfl, List.map_id]
  have hentries : (Json.arr (names.map .str)).entries = .ok (names.map .str) := rfl
  unfold selected
  rw [if_pos htruthy, hentries]
  simp only [bind, Except.bind, hcontainer, horMisfit, hasText, Except.mapError, List.isEmpty_iff]
  rfl

/-! ## Modules with other names -/

theorem addDeclarations_wanting (m : TsModule φ) (names rest : List String)
    (declared : List (String × String)) (f : φ) :
    (m.wanting names).addDeclarations rest declared f = m.addDeclarations rest declared f := by
  induction rest generalizing declared f with
  | nil => rfl
  | cons name rest ih =>
    have hadd : (m.wanting names).addDeclaration declared name f =
        m.addDeclaration declared name f := rfl
    simp only [addDeclarations, Step.andThen, hadd]
    rcases m.addDeclaration declared name f with ⟨e | middle, g⟩
    · rfl
    · exact ih middle g

/-- The names are declared one after the other, unless some of them are not known. -/
theorem declarations_wanting (m : TsModule φ) (hne : names ≠ []) (f : φ) :
    (m.wanting names).declarations f =
      if names.filter (· ∉ Table.keys (pointers m.document)) = [] then m.addDeclarations names [] f
      else (.error (.missingSchemas (names.filter (· ∉ Table.keys (pointers m.document)))), f) := by
  have hselected : (m.wanting names).selectedNames =
      selected (Table.keys (pointers m.document)) (.arr (names.map .str)) := rfl
  unfold declarations
  rw [hselected, selected_texts _ hne]
  split
  · exact addDeclarations_wanting m names names [] f
  · rfl

theorem NamesSettleTargets.mono {names' : List String} (h : m.NamesSettleTargets names)
    (hsub : ∀ n ∈ names', n ∈ names) : m.NamesSettleTargets names' :=
  ⟨h.referenced, fun r hr hname => h.named r hr (hsub _ hname)⟩

/-- If a module declares some names, it declares them in any other order, with any repetitions, and
the declarations are the same but for their order. -/
theorem exists_perm_of_declarations (hplain : m.Plain) {names' : List String} (hne : names ≠ [])
    (hsame : ∀ n, n ∈ names ↔ n ∈ names') (hsettle : m.NamesSettleTargets names) (f f' : φ)
    {declared : List (String × String)}
    (hrun : ((m.wanting names).declarations f).1 = .ok declared) :
    ∃ declared', ((m.wanting names').declarations f').1 = .ok declared' ∧
      (Table.keys declared).Nodup ∧ (Table.keys declared').Nodup ∧ declared.Perm declared' := by
  have hne' : names' ≠ [] := by
    obtain ⟨n, hn⟩ := List.exists_mem_of_ne_nil names hne
    exact List.ne_nil_of_mem ((hsame n).mp hn)
  rw [declarations_wanting m hne] at hrun
  split at hrun
  · next hknown =>
    have hknown' : names'.filter (· ∉ Table.keys (pointers m.document)) = [] := by
      rw [List.filter_eq_nil_iff] at hknown ⊢
      exact fun n hn => hknown n ((hsame n).mpr hn)
    have hexplores : m.Explores names declared :=
      explores_of_addDeclarations hplain hsettle hne (Prod.ext hrun rfl)
    have hsound' : m.Sound names' := hexplores.sound.mono fun n => (hsame n).mpr
    obtain ⟨declared', g, hrun'⟩ := hsound'.exists_addDeclarations hplain (fun n hn => hn) [] f'
    have hexplores' : m.Explores names' declared' :=
      explores_of_addDeclarations hplain (hsettle.mono fun n => (hsame n).mpr) hne' hrun'
    refine ⟨declared', ?_, hexplores.nodup_keys, hexplores'.nodup_keys,
      hexplores.perm hexplores' hsame⟩
    rw [declarations_wanting m hne', if_pos hknown', hrun']
  · cases hrun

/-- In shallow mode and without a formatter, neither the order nor the repetitions of the names to
declare matter, if display names determine targets: whatever these settings are beside the names,
two lists of the same names either both fail, or both give the same declarations under the same
names, each name once. -/
theorem declarations_perm (m : TsModule φ) (hplain : m.Plain)
    (names names' : List String) (hne : names ≠ []) (hsame : ∀ n, n ∈ names ↔ n ∈ names')
    (hsettle : m.NamesSettleTargets names) (f f' : φ) :
    (∃ e e', ((m.wanting names).declarations f).1 = .error e ∧
      ((m.wanting names').declarations f').1 = .error e') ∨
    ∃ declared declared', ((m.wanting names).declarations f).1 = .ok declared ∧
      ((m.wanting names').declarations f').1 = .ok declared' ∧ (Table.keys declared).Nodup ∧
      (Table.keys declared').Nodup ∧ declared.Perm declared' := by
  have hne' : names' ≠ [] := by
    obtain ⟨n, hn⟩ := List.exists_mem_of_ne_nil names hne
    exact List.ne_nil_of_mem ((hsame n).mp hn)
  cases hrun : ((m.wanting names).declarations f).1 with
  | ok declared =>
    obtain ⟨declared', hrun', hall⟩ :=
      exists_perm_of_declarations hplain hne hsame hsettle f f' hrun
    exact .inr ⟨declared, declared', rfl, hrun', hall⟩
  | error e =>
    cases hrun' : ((m.wanting names').declarations f').1 with
    | error e' => exact .inl ⟨e, e', rfl, rfl⟩
    | ok declared' =>
      obtain ⟨declared, hdeclared, -⟩ := exists_perm_of_declarations hplain hne'
        (fun n => (hsame n).symm) (hsettle.mono fun n => (hsame n).mpr) f' f hrun'
      rw [hrun] at hdeclared
      cases hdeclared

/-! ## Two orders of names -/

/-- A module with three definitions, one of which refers to another one. -/
def threeNames : TsModule Unit where
  document := .obj [("definitions", .obj [("A", .obj [("type", .str "string")]),
    ("B", .obj [("type", .str "number")]), ("C", Declaration.Expansion.pointingTo "A")])]

/-- The declarations of that module, if the third name is asked for before the second one. -/
def threeNamesDeclared : List (String × String) :=
  [("A", "export type A = string"), ("C", "export interface C \x7b\n  next?: A;\n\x7d"),
    ("B", "export type B = number")]

theorem threeNames_settle : threeNames.NamesSettleTargets ["C", "B"] := by
  have hreferences : threeNames.document.references = ["#/definitions/A"] := rfl
  have hname : Reference.displayName "#/definitions/A" = "A" := rfl
  constructor
  · intro r hr r' hr' _
    rw [hreferences, List.mem_singleton] at hr hr'
    rw [hr, hr']
  · intro r hr hwanted
    rw [hreferences, List.mem_singleton] at hr
    rw [hr, hname] at hwanted
    exact absurd hwanted (by decide)

theorem declarations_threeNames :
    ((threeNames.wanting ["C", "B"]).declarations ()).1 = .ok threeNamesDeclared := by
  have hschema : threeNames.namedSchema "C" = .ok (Declaration.Expansion.pointingTo "A") := rfl
  have hschema' : threeNames.namedSchema "B" = .ok (.obj [("type", .str "number")]) := rfl
  have hsetting : threeNames.settings.toFormat = .ok (.options {}) := rfl
  have hfirst : threeNames.addDeclaration [] "C" () = (.ok (threeNamesDeclared.take 2), ()) := by
    rw [addDeclaration_of_not_mem threeNames (by decide), hschema, hsetting]
    rfl
  have hsecond : threeNames.addDeclaration (threeNamesDeclared.take 2) "B" () =
      (.ok threeNamesDeclared, ()) := by
    rw [addDeclaration_of_not_mem threeNames (by decide), hschema', hsetting]
    rfl
  rw [declarations_wanting threeNames (by decide), if_pos (by decide)]
  simp only [addDeclarations, Step.andThen, hfirst, hsecond, Step.ofExcept]

/-- Asked for the other way round and with a repetition, the names give the same declarations. -/
theorem declarations_perm_three_names :
    threeNames.Plain ∧ (∀ n, n ∈ ["C", "B"] ↔ n ∈ ["B", "C", "B"]) ∧
      threeNames.NamesSettleTargets ["C", "B"] ∧
      ((threeNames.wanting ["C", "B"]).declarations ()).1 = .ok threeNamesDeclared ∧
      ∃ declared', ((threeNames.wanting ["B", "C", "B"]).declarations ()).1 = .ok declared' ∧
        threeNamesDeclared.Perm declared' := by
  have hplain : threeNames.Plain := ⟨rfl, rfl⟩
  have hsame : ∀ n, n ∈ ["C", "B"] ↔ n ∈ ["B", "C", "B"] := by
    intro n
    simp only [List.mem_cons, List.not_mem_nil, or_false]
    tauto
  refine ⟨hplain, hsame, threeNames_settle, declarations_threeNames, ?_⟩
  rcases declarations_perm threeNames hplain ["C", "B"] ["B", "C", "B"] (by decide)
    hsame threeNames_settle () () with
    ⟨e, -, hfails, -⟩ | ⟨declared, declared', hrun, hrun', -, -, hperm⟩
  · rw [declarations_threeNames] at hfails
    cases hfails
  · obtain rfl := Except.ok.inj (declarations_threeNames.symm.trans hrun)
    exact ⟨declared', hrun', hperm⟩

end SchemaTypes.TsModule

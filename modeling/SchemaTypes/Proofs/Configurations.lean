import SchemaTypes.Command.Basic
import SchemaTypes.Proofs.Renderings

/-!
# Layers of settings

The settings of a command lie in three layers. The defaults are at the bottom, the members of the
configuration file are above them (`TsModule.Settings.Over`), and the options of the command line
are on top (`Command.Request.Layered`), where a flag for no counts as much as a flag for yes. Each
layer says of every setting whether it is the one given there or the one below.

Reserved keys of a configuration do not stand for settings; they are left to the reader of settings,
and what is said of members is said of those without reserved keys.
-/

namespace SchemaTypes

namespace Table

theorem lookup_singleton {κ ν : Type} [BEq κ] [LawfulBEq κ] [DecidableEq κ] (key other : κ)
    (value : ν) : [(key, value)].lookup other = if key = other then some value else none := by
  by_cases h : key = other
  · simp [h]
  · have hne : (other == key) = false := by simpa using Ne.symm h
    rw [List.lookup_cons, hne, if_neg h]
    rfl

/-- With a new key in front, a table has the value of that key, or else it has what the rest has. -/
theorem lookup_cons_of_fresh {κ ν : Type} [BEq κ] [LawfulBEq κ] {key : κ} (value : ν)
    {rest : List (κ × ν)} (h : key ∉ keys rest) (other : κ) :
    (((key, value) :: rest).lookup other = [(key, value)].lookup other ∧ rest.lookup other = none) ∨
      (((key, value) :: rest).lookup other = rest.lookup other ∧
        [(key, value)].lookup other = none) := by
  by_cases hother : other = key
  · subst hother
    refine .inl ⟨by simp, ?_⟩
    rw [← contains_iff_mem_keys, contains, Option.not_isSome_iff_eq_none] at h
    exact h
  · have hne : (other == key) = false := by simpa using hother
    exact .inr ⟨by rw [List.lookup_cons, hne], by rw [List.lookup_cons, hne]; rfl⟩

end Table

/-! ## Members of a configuration over the defaults -/

namespace TsModule.Settings

/-- The keys of a configuration that do not stand for a setting but do something else. -/
def reserved : List String := ["to_dict", "__dict__", "__class__", "__weakref__"]

/-- The settings that any value can be given for, with their keys. -/
def plainFields : List (String × (Settings → Json)) :=
  [("deep", deep), ("export", exported), ("default_type", defaultType),
    ("include_referenced", includeReferenced), ("add_generation_comment", addHeader)]

/-- Settings over which some members were laid: a setting that is given has the value of its member,
and any other one is as before. -/
structure Over (members : List (String × Json)) (before s : Settings) : Prop where
  plain : ∀ f ∈ plainFields, f.2 s = (members.lookup f.1).getD (f.2 before)
  schemas : s.schemas = (members.lookup "schemas").elim before.schemas some
  formatter_of_member : ∀ v, members.lookup "formatter" = some v →
    ∃ setting, Formatter.Setting.ofJson v = .ok setting ∧ s.formatter = some setting
  formatter_of_no_member : members.lookup "formatter" = none → s.formatter = before.formatter
  writer : s.writer = before.writer

theorem over_nil (s : Settings) : Over [] s s :=
  ⟨fun _ _ => rfl, rfl, nofun, fun _ => rfl, rfl⟩

/-- One member more in front of others, which do not repeat its key. -/
theorem Over.cons {key : String} {v : Json} {rest : List (String × Json)} {s t u : Settings}
    (hfirst : Over [(key, v)] s t) (hrest : Over rest t u) (hkey : key ∉ Table.keys rest) :
    Over ((key, v) :: rest) s u := by
  have hlookup := Table.lookup_cons_of_fresh v hkey
  refine ⟨fun f hf => ?_, ?_, fun w hw => ?_, fun hnone => ?_, ?_⟩
  · rw [hrest.plain f hf, hfirst.plain f hf]
    rcases hlookup f.1 with ⟨h, h'⟩ | ⟨h, h'⟩ <;> rw [h, h'] <;> rfl
  · rw [hrest.schemas, hfirst.schemas]
    rcases hlookup "schemas" with ⟨h, h'⟩ | ⟨h, h'⟩ <;> rw [h, h'] <;> rfl
  · rcases hlookup "formatter" with ⟨h, h'⟩ | ⟨h, h'⟩
    · rw [hrest.formatter_of_no_member h']
      exact hfirst.formatter_of_member w (h.symm.trans hw)
    · exact hrest.formatter_of_member w (h.symm.trans hw)
  · rcases hlookup "formatter" with ⟨h, h'⟩ | ⟨h, h'⟩
    · rw [hrest.formatter_of_no_member h', hfirst.formatter_of_no_member (h.symm.trans hnone)]
    · rw [hrest.formatter_of_no_member (h.symm.trans hnone), hfirst.formatter_of_no_member h']
  · rw [hrest.writer, hfirst.writer]

theorem setFormatter_eq_ok {s t : Settings} {v : Json} (hsome : s.formatter.isSome = true) :
    s.setFormatter v = .ok t ↔ ∃ setting, Formatter.Setting.ofJson v = .ok setting ∧
      t = { s with formatter := some setting } := by
  obtain ⟨given, hgiven⟩ := Option.isSome_iff_exists.mp hsome
  unfold setFormatter
  rw [bind_eq_ok]
  refine exists_congr fun setting => and_congr_right fun _ => ?_
  cases setting <;> simp [hgiven, pure, Except.pure, eq_comm]

/-- Settings none of which was taken away. -/
structure Complete (s : Settings) : Prop where
  schemas : s.schemas.isSome = true
  formatter : s.formatter.isSome = true

/-- Setting one member that is not reserved lays it over the settings. -/
theorem over_set {s t : Settings} {key : String} {v : Json} (hkey : key ∉ reserved)
    (hs : s.Complete) (h : s.set key v = .ok t) : Over [(key, v)] s t ∧ t.Complete := by
  obtain ⟨names, hnames⟩ := Option.isSome_iff_exists.mp hs.schemas
  have hformatter := hs.formatter
  unfold set at h
  split at h
  case h_7 =>
    obtain ⟨setting, hsetting, rfl⟩ := (setFormatter_eq_ok hs.formatter).mp h
    refine ⟨⟨?_, ?_, fun w hw => ?_, ?_, rfl⟩, hs.schemas, rfl⟩
    · simp [plainFields, Table.lookup_singleton]
    · rfl
    · obtain rfl : v = w := by simpa [Table.lookup_singleton] using hw
      exact ⟨setting, hsetting, rfl⟩
    · simp
  case h_8 | h_9 | h_10 | h_11 => exact absurd (by decide) hkey
  all_goals
    obtain rfl := Except.ok.inj h
    refine ⟨⟨?_, ?_, ?_, ?_, rfl⟩, ?_, hs.formatter⟩ <;>
      simp_all [plainFields, Table.lookup_singleton]

/-- The settings that an object without reserved and repeated keys gives are its members, laid over
the defaults. -/
theorem ofJson_over {members : List (String × Json)} {s : Settings}
    (hnodup : (Table.keys members).Nodup) (hplain : ∀ key ∈ Table.keys members, key ∉ reserved)
    (h : ofJson (.obj members) = .ok s) : Over members {} s := by
  have hfold : ∀ (members : List (String × Json)) (before : Settings),
      (Table.keys members).Nodup → (∀ key ∈ Table.keys members, key ∉ reserved) →
      before.Complete → members.foldlM (fun s m => s.set m.1 m.2) before = .ok s →
      Over members before s := by
    intro members
    induction members with
    | nil =>
      intro before _ _ _ h
      obtain rfl := Except.ok.inj h
      exact over_nil before
    | cons m rest ih =>
      intro before hnodup hplain hbefore h
      obtain ⟨hfresh, hrest⟩ := List.nodup_cons.mp hnodup
      rw [List.foldlM_cons] at h
      obtain ⟨next, hnext, h⟩ := bind_eq_ok.mp h
      obtain ⟨hover, hcomplete⟩ := over_set (hplain m.1 (by simp [Table.keys])) hbefore hnext
      have hrestPlain := fun k hk => hplain k (List.mem_cons_of_mem _ hk)
      exact hover.cons (ih next hrest hrestPlain hcomplete h) hfresh
  exact hfold members {} hnodup hplain ⟨rfl, rfl⟩ h

/-- The settings that a value gives. If it is an object without reserved and repeated keys, these
are its members, laid over the defaults. -/
def GivenBy (v : Json) (s : Settings) : Prop :=
  ofJson v = .ok s ∧ ∀ members, v = .obj members → (Table.keys members).Nodup →
    (∀ key ∈ Table.keys members, key ∉ reserved) → Over members {} s

theorem givenBy_iff {v : Json} {s : Settings} : GivenBy v s ↔ ofJson v = .ok s := by
  refine ⟨fun h => h.1, fun h => ⟨h, ?_⟩⟩
  rintro members rfl hnodup hplain
  exact ofJson_over hnodup hplain h

end TsModule.Settings

namespace Command

/-! ## Layers of settings -/

/-- The file at a path holds the bytes of a text that stands for a value. -/
def Files.HoldsJson (halves : Text.Halves) (fs : Files) (path : Path) (v : Json) : Prop :=
  ∃ bytes text, fs.entry? path = some (.file bytes) ∧ Text.Utf8.text? bytes = some text ∧
    Json.read halves text = .ok v

namespace Request

/-- A value is read exactly from a file that holds it. -/
theorem readJson_eq_ok {halves : Text.Halves} {fs : Files} {given : Option Path} {v : Json} :
    readJson halves fs given = .ok v ↔ ∃ path, given = some path ∧ fs.HoldsJson halves path v := by
  unfold readJson Files.readText Files.HoldsJson
  cases given with
  | none => simp
  | some path =>
    simp only [bind_eq_ok, Option.some.injEq, exists_eq_left']
    rcases fs.entry? path with _ | ⟨bytes⟩ | _
    · simp
    · simp only [Option.some.injEq, Entry.file.injEq, exists_and_left, exists_eq_left']
      cases Text.Utf8.text? bytes <;> simp
    · simp

/-- The settings of a configuration file, or the defaults without one. -/
def Base (halves : Text.Halves) (fs : Files) (r : Request) (base : TsModule.Settings) : Prop :=
  match r.config with
  | none => base = {}
  | some path => ∃ v, fs.HoldsJson halves path v ∧ TsModule.Settings.GivenBy v base

/-- Settings that lie above others: what the arguments give a value for has that value, and all else
is as it is below. -/
structure Layered (a : Arguments) (base s : TsModule.Settings) : Prop where
  schemas_of_names : a.names ≠ [] → s.schemas = some (.arr (a.names.map .str))
  schemas_of_no_names : a.names = [] → s.schemas = base.schemas
  deep : s.deep = a.deep.elim base.deep .bool
  exported : s.exported = a.exported.elim base.exported .bool
  defaultType : s.defaultType = a.defaultType.elim base.defaultType .str
  includeReferenced : s.includeReferenced = base.includeReferenced
  addHeader : s.addHeader = base.addHeader
  writer : s.writer = base.writer
  formatter_of_flag : ∀ b, a.formatted = some b → ∃ o, base.formatter = some (.options o) ∧
    s.formatter = some (.options { o with enabled := .bool b })
  formatter_of_no_flag : a.formatted = none → s.formatter = base.formatter

/-- The options of the formatter can be read exactly if there are any. -/
theorem read_formatter_eq_ok {base : TsModule.Settings} {o : Formatter.Options} :
    (base.toFormat >>= Formatter.Setting.read) = .ok o ↔ base.formatter = some (.options o) := by
  unfold TsModule.Settings.toFormat
  rcases base.formatter with _ | o' | v <;>
    simp [bind, Except.bind, Formatter.Setting.read]

/-- Settings under the options of the command line, but for the formatter, which is given. -/
def layer (a : Arguments) (base : TsModule.Settings) (formatter : Option Formatter.Setting) :
    TsModule.Settings :=
  { base with
    schemas := if a.names = [] then base.schemas else some (.arr (a.names.map .str))
    deep := a.deep.elim base.deep .bool
    exported := a.exported.elim base.exported .bool
    defaultType := a.defaultType.elim base.defaultType .str
    formatter }

theorem layered_iff {a : Arguments} {base s : TsModule.Settings} :
    Layered a base s ↔ s = layer a base s.formatter ∧
      (∀ b, a.formatted = some b → ∃ o, base.formatter = some (.options o) ∧
        s.formatter = some (.options { o with enabled := .bool b })) ∧
      (a.formatted = none → s.formatter = base.formatter) := by
  constructor
  · intro h
    refine ⟨?_, h.formatter_of_flag, h.formatter_of_no_flag⟩
    have hschemas : s.schemas = (layer a base s.formatter).schemas := by
      by_cases hnames : a.names = []
      · exact (h.schemas_of_no_names hnames).trans (if_pos hnames).symm
      · exact (h.schemas_of_names hnames).trans (if_neg hnames).symm
    obtain ⟨-, -, hdeep, hexported, hdefault, hreferenced, hheader, hwriter, -, -⟩ := h
    cases s
    simp_all [layer]
  · rintro ⟨hs, hflag, hnone⟩
    generalize s.formatter = formatter at hs hflag hnone
    subst hs
    exact ⟨fun h => if_neg h, fun h => if_pos h, rfl, rfl, rfl, rfl, rfl, rfl, hflag, hnone⟩

/-- Replacing settings puts a layer on top. -/
theorem override_eq_ok {a : Arguments} {base s : TsModule.Settings} :
    override a base = .ok s ↔ Layered a base s := by
  rw [layered_iff]
  cases hflag : a.formatted with
  | none =>
    have heq : override a base = .ok (layer a base base.formatter) := by
      unfold override layer
      rw [hflag]
      cases a.deep <;> cases a.exported <;> cases a.defaultType <;> rfl
    rw [heq]
    constructor
    · rintro hs
      obtain rfl := Except.ok.inj hs
      exact ⟨rfl, nofun, fun _ => rfl⟩
    · rintro ⟨hs, -, hformatter⟩
      rw [hs, hformatter rfl]
  -- A flag looks into the formatter below it, so it is the only layer that can fail.
  | some b =>
    have heq : override a base = (base.toFormat >>= Formatter.Setting.read) >>= fun o =>
        .ok (layer a base (some (.options { o with enabled := .bool b }))) := by
      unfold override layer
      rw [hflag]
      cases a.deep <;> cases a.exported <;> cases a.defaultType <;> simp [bind_assoc] <;> rfl
    rw [heq, bind_eq_ok]
    constructor
    · rintro ⟨o, ho, hs⟩
      obtain rfl := Except.ok.inj hs
      refine ⟨rfl, ?_, nofun⟩
      rintro b' ⟨⟩
      exact ⟨o, read_formatter_eq_ok.mp ho, rfl⟩
    · rintro ⟨hs, hformatter, -⟩
      obtain ⟨o, hbase, ho⟩ := hformatter b rfl
      exact ⟨o, read_formatter_eq_ok.mpr hbase, by rw [hs, ho]⟩

/-- Settings are those of the configuration file, or the defaults, with the arguments on top. -/
theorem settings_eq_ok {halves : Text.Halves} {fs : Files} {r : Request}
    {s : TsModule.Settings} :
    r.settings halves fs = .ok s ↔ ∃ base, r.Base halves fs base ∧ Layered r.arguments base s := by
  unfold settings Base
  cases r.config with
  | none => simp [override_eq_ok, pure, Except.pure, bind, Except.bind]
  | some path =>
    simp only [bind_eq_ok, override_eq_ok, TsModule.Settings.givenBy_iff, readJson_eq_ok,
      Option.some.injEq, exists_eq_left']
    constructor
    · rintro ⟨v, hv, base, hbase, hs⟩
      exact ⟨base, ⟨v, hv, hbase⟩, hs⟩
    · rintro ⟨base, ⟨v, hv, hbase⟩, hs⟩
      exact ⟨v, hv, base, hbase, hs⟩

end Request

end Command

end SchemaTypes

import SchemaTypes.Proofs.Configurations
import SchemaTypes.Proofs.SchemaTrees

/-!
# Settings are read back

Settings are read from an object member by member, in the order in which the members stand, and they
are written as an object with one member for each setting. Both ways keep everything: a member that
was given is the value of its setting, all other settings have their defaults, and what is written
is read back as the same settings (`TsModule.Settings.ofJson_readFrom`).

An object is refused for one reason only, a member of `formatter` that is no option of a formatter.
Where it stands among the others does not matter, since none of them is ever refused.
-/

namespace SchemaTypes

/-! ## Options of a formatter -/

namespace Formatter.Options

/-- The options, with their keys, in the order in which they are written. -/
def fields : List (String × (Options → Json)) :=
  [("enabled", enabled), ("name", name), ("semicolons", semicolons), ("print_width", printWidth),
    ("tab_width", tabWidth), ("single_quote", singleQuote), ("command", command)]

/-- Options over which some members were laid: an option that is given has the value of its member,
and any other one is as before. -/
def Over (members : List (String × Json)) (before o : Options) : Prop :=
  ∀ f ∈ fields, f.2 o = (members.lookup f.1).getD (f.2 before)

/-- One member more in front of others, which do not repeat its key. -/
theorem Over.cons {key : String} {v : Json} {rest : List (String × Json)} {o p q : Options}
    (hfirst : Over [(key, v)] o p) (hrest : Over rest p q) (hkey : key ∉ Table.keys rest) :
    Over ((key, v) :: rest) o q := by
  intro f hf
  rw [hrest f hf, hfirst f hf]
  rcases Table.lookup_cons_of_fresh v hkey f.1 with ⟨h, h'⟩ | ⟨h, h'⟩ <;> rw [h, h'] <;> rfl

/-- Setting an option lays its member over the others. -/
theorem exists_set {key : String} (hkey : key ∈ Table.keys fields) (o : Options) (v : Json) :
    ∃ p, o.set key v = .ok p ∧ Over [(key, v)] o p := by
  have hcases : key = "enabled" ∨ key = "name" ∨ key = "semicolons" ∨ key = "print_width" ∨
      key = "tab_width" ∨ key = "single_quote" ∨ key = "command" := by
    simpa [Table.keys, fields] using hkey
  rcases hcases with rfl | rfl | rfl | rfl | rfl | rfl | rfl <;>
    exact ⟨_, rfl, by simp [Over, fields, Table.lookup_singleton]⟩

theorem set_of_not_mem {key : String} (hkey : key ∉ Table.keys fields) (o : Options) (v : Json) :
    o.set key v = .error (.unknownSetting key) := by
  unfold set
  split <;> first | rfl | exact absurd (by decide) hkey

/-- Members that are all options give these options. -/
theorem exists_ofMembers {members : List (String × Json)} (hnodup : (Table.keys members).Nodup)
    (hknown : ∀ key ∈ Table.keys members, key ∈ Table.keys fields) :
    ∃ o, ofMembers members = .ok o ∧ Over members {} o := by
  have hfold : ∀ before : Options, ∃ o,
      members.foldlM (fun o m => o.set m.1 m.2) before = .ok o ∧ Over members before o := by
    induction members with
    | nil => exact fun before => ⟨before, rfl, fun _ _ => rfl⟩
    | cons m rest ih =>
      intro before
      obtain ⟨hfresh, hrest⟩ := List.nodup_cons.mp hnodup
      obtain ⟨next, hnext, hfirst⟩ := exists_set (hknown m.1 List.mem_cons_self) before m.2
      have hknownRest := fun key hkey => hknown key (List.mem_cons_of_mem m.1 hkey)
      obtain ⟨o, ho, hover⟩ := ih hrest hknownRest next
      refine ⟨o, ?_, hfirst.cons hover hfresh⟩
      rw [List.foldlM_cons, hnext]
      exact ho
  exact hfold {}

/-- Members of which one is no option are refused, for such a member. -/
theorem ofMembers_eq_error {members : List (String × Json)} {key : String}
    (hmem : key ∈ Table.keys members) (hunknown : key ∉ Table.keys fields) :
    ∃ other ∈ Table.keys members, other ∉ Table.keys fields ∧
      ofMembers members = .error (.unknownSetting other) := by
  have hfold : ∀ before : Options, ∃ other ∈ Table.keys members, other ∉ Table.keys fields ∧
      members.foldlM (fun o m => o.set m.1 m.2) before = .error (.unknownSetting other) := by
    induction members with
    | nil => cases hmem
    | cons m rest ih =>
      intro before
      rw [List.foldlM_cons]
      by_cases hfirst : m.1 ∈ Table.keys fields
      · have hrest : key ∈ Table.keys rest := by
          rcases List.mem_cons.mp hmem with rfl | h
          · exact absurd hfirst hunknown
          · exact h
        obtain ⟨next, hnext, -⟩ := exists_set hfirst before m.2
        obtain ⟨other, hother, hno, herror⟩ := ih hrest next
        refine ⟨other, List.mem_cons_of_mem _ hother, hno, ?_⟩
        rw [hnext]
        exact herror
      · refine ⟨m.1, List.mem_cons_self, hfirst, ?_⟩
        rw [set_of_not_mem hfirst]
        rfl
  exact hfold {}

/-- A value is an object that does not repeat its keys, and all of them are those of options. -/
def AreOptions (v : Json) : Prop :=
  ∃ members, v = .obj members ∧ (Table.keys members).Nodup ∧
    ∀ key ∈ Table.keys members, key ∈ Table.keys fields

end Formatter.Options

/-! ## Settings of a module -/

namespace TsModule.Settings

open Formatter (Options)

/-- The keys of all settings. -/
def settingKeys : List String :=
  "schemas" :: "formatter" :: Table.keys plainFields

/-- Settings that were read from some members: a setting that is given has the value of its member,
any other one its default, and so it is for the options inside `formatter`. -/
structure ReadFrom (members : List (String × Json)) (s : Settings) : Prop where
  schemas : s.schemas = some ((members.lookup "schemas").getD (.arr []))
  plain : ∀ f ∈ plainFields, f.2 s = (members.lookup f.1).getD (f.2 {})
  formatter : ∃ o : Options, s.formatter = some (.options o) ∧ ∀ f ∈ Options.fields,
    f.2 o = ((members.lookup "formatter").bind (·.member? f.1)).getD (f.2 {})
  writer : s.writer = none

/-- Only a formatter is ever refused. -/
theorem exists_set {key : String} (hplain : key ∉ reserved) {v : Json}
    (hformatter : key = "formatter" → ∃ setting, Formatter.Setting.ofJson v = .ok setting)
    (s : Settings) : ∃ t, s.set key v = .ok t := by
  unfold set
  split
  case h_7 =>
    obtain ⟨setting, hsetting⟩ := hformatter rfl
    unfold setFormatter
    rw [hsetting]
    cases setting <;> exact ⟨_, rfl⟩
  case h_8 | h_9 | h_10 | h_11 => exact absurd (by decide) hplain
  all_goals exact ⟨_, rfl⟩

theorem set_of_not_mem {key : String} (hplain : key ∉ reserved) (hkey : key ∉ settingKeys)
    (s : Settings) (v : Json) : s.set key v = .ok s := by
  unfold set
  split <;> first | rfl | exact absurd (by decide) hkey | exact absurd (by decide) hplain

variable {members : List (String × Json)}

/-- An object is read if its formatter is. -/
theorem exists_ofJson (hplain : ∀ key ∈ Table.keys members, key ∉ reserved)
    (hformatter : ∀ v, ("formatter", v) ∈ members →
      ∃ setting, Formatter.Setting.ofJson v = .ok setting) :
    ∃ s, ofJson (.obj members) = .ok s := by
  have hfold : ∀ before : Settings,
      ∃ s, members.foldlM (fun s m => s.set m.1 m.2) before = .ok s := by
    induction members with
    | nil => exact fun before => ⟨before, rfl⟩
    | cons m rest ih =>
      intro before
      obtain ⟨key, v⟩ := m
      obtain ⟨next, hnext⟩ := exists_set (hplain key List.mem_cons_self)
        (fun h => hformatter v (h ▸ List.mem_cons_self)) before
      obtain ⟨s, hs⟩ := ih (fun key hkey => hplain key (List.mem_cons_of_mem _ hkey))
        (fun v hv => hformatter v (List.mem_cons_of_mem _ hv)) next
      refine ⟨s, ?_⟩
      rw [List.foldlM_cons, hnext]
      exact hs
  exact hfold {}

/-- An object is refused if its formatter is, wherever that stands. -/
theorem ofJson_eq_error (hnodup : (Table.keys members).Nodup)
    (hplain : ∀ key ∈ Table.keys members, key ∉ reserved) {v : Json} {e : Failure}
    (hmem : ("formatter", v) ∈ members) (hformatter : Formatter.Setting.ofJson v = .error e) :
    ofJson (.obj members) = .error e := by
  have hfold : ∀ before : Settings,
      members.foldlM (fun s m => s.set m.1 m.2) before = .error e := by
    induction members with
    | nil => cases hmem
    | cons m rest ih =>
      intro before
      obtain ⟨hfresh, hrest⟩ := List.nodup_cons.mp hnodup
      rw [List.foldlM_cons]
      rcases List.mem_cons.mp hmem with rfl | hmem
      · have hrefused : before.set "formatter" v = .error e := by
          change before.setFormatter v = .error e
          unfold setFormatter
          rw [hformatter]
          rfl
        rw [hrefused]
        rfl
      · have hother : m.1 ≠ "formatter" := by
          rintro h
          exact hfresh (h ▸ List.mem_map_of_mem (f := Prod.fst) hmem)
        obtain ⟨next, hnext⟩ := exists_set (hplain m.1 List.mem_cons_self) (v := m.2)
          (fun h => absurd h hother) before
        rw [hnext]
        exact ih hrest (fun key hkey => hplain key (List.mem_cons_of_mem _ hkey)) hmem next
  exact hfold {}

/-- Members that stand for no setting have no effect. -/
theorem ofJson_filter (hplain : ∀ key ∈ Table.keys members, key ∉ reserved) :
    ofJson (.obj (members.filter fun m => m.1 ∈ settingKeys)) = ofJson (.obj members) := by
  have hfold : ∀ before : Settings,
      (members.filter fun m => m.1 ∈ settingKeys).foldlM (fun s m => s.set m.1 m.2) before =
        members.foldlM (fun s m => s.set m.1 m.2) before := by
    induction members with
    | nil => exact fun _ => rfl
    | cons m rest ih =>
      intro before
      have hrest := ih fun key hkey => hplain key (List.mem_cons_of_mem _ hkey)
      rw [List.foldlM_cons]
      by_cases hkey : m.1 ∈ settingKeys
      · rw [List.filter_cons_of_pos (by simpa using hkey), List.foldlM_cons]
        exact congrArg _ (funext hrest)
      · rw [List.filter_cons_of_neg (by simpa using hkey),
          set_of_not_mem (hplain m.1 List.mem_cons_self) hkey]
        exact hrest before
  exact hfold {}

/-- The options in a formatter that is absent, or an object of options. -/
theorem exists_options (hoptions : ∀ v, members.lookup "formatter" = some v → Options.AreOptions v)
    {s : Settings} (hover : Over members {} s) :
    ∃ o : Options, s.formatter = some (.options o) ∧ ∀ f ∈ Options.fields,
      f.2 o = ((members.lookup "formatter").bind (·.member? f.1)).getD (f.2 {}) := by
  cases hgiven : members.lookup "formatter" with
  | none => exact ⟨{}, hover.formatter_of_no_member hgiven, fun _ _ => rfl⟩
  | some v =>
    obtain ⟨options, rfl, hnodup, hknown⟩ := hoptions v hgiven
    obtain ⟨setting, hsetting, hs⟩ := hover.formatter_of_member _ hgiven
    obtain ⟨o, ho, hover'⟩ := Options.exists_ofMembers hnodup hknown
    have heq : Formatter.Setting.ofJson (.obj options) = .ok (.options o) := by
      rw [Formatter.Setting.ofJson, ho]
      rfl
    obtain rfl := Except.ok.inj (hsetting.symm.trans heq)
    exact ⟨o, hs, hover'⟩

/-- Members that were laid over the defaults were read as settings. -/
theorem Over.readFrom {s : Settings} (hover : Over members {} s)
    (hoptions : ∀ v, members.lookup "formatter" = some v → Options.AreOptions v) :
    ReadFrom members s := by
  refine ⟨?_, hover.plain, exists_options hoptions hover, hover.writer⟩
  rw [hover.schemas]
  cases members.lookup "schemas" <;> rfl

/-- Settings that were read from members are written, and read back from what is written. -/
theorem ReadFrom.exists_toJson {s : Settings} (h : ReadFrom members s) :
    ∃ written, s.toJson = .ok written ∧ ofJson written = .ok s := by
  obtain ⟨hschemas, -, ⟨o, hformatter, -⟩, hwriter⟩ := h
  obtain ⟨schemas, deep, exported, defaultType, includeReferenced, addHeader, formatter, writer⟩ :=
    s
  subst hschemas hformatter hwriter
  exact ⟨_, rfl, rfl⟩

/-- An object without reserved and repeated keys, whose formatter is absent or an object of options,
gives settings. These are its members where it has them and the defaults where it has not, and its
other members make no difference. What is written of the settings is read back as the same settings,
and written again as the same object. If `formatter` is an object with a key of no option, all is
refused for such a key, whatever else there is, and in whatever order. -/
theorem ofJson_readFrom (members : List (String × Json))
    (hnodup : (Table.keys members).Nodup) (hplain : ∀ key ∈ Table.keys members, key ∉ reserved) :
    ((∀ v, members.lookup "formatter" = some v → Options.AreOptions v) →
      ∃ s written, ofJson (.obj members) = .ok s ∧ ReadFrom members s ∧
        ofJson (.obj (members.filter fun m => m.1 ∈ settingKeys)) = .ok s ∧
        s.toJson = .ok written ∧ ofJson written = .ok s ∧
        (ofJson written >>= toJson) = .ok written) ∧
    (∀ options, members.lookup "formatter" = some (.obj options) →
      (∃ key ∈ Table.keys options, key ∉ Table.keys Options.fields) →
      ∃ key ∈ Table.keys options, key ∉ Table.keys Options.fields ∧
        ofJson (.obj members) = .error (.unknownSetting key)) := by
  constructor
  · intro hoptions
    have hformatter : ∀ v, ("formatter", v) ∈ members →
        ∃ setting, Formatter.Setting.ofJson v = .ok setting := by
      intro v hv
      obtain ⟨options, rfl, hkeys, hknown⟩ := hoptions v (Table.lookup_of_mem hnodup hv)
      obtain ⟨o, ho, -⟩ := Options.exists_ofMembers hkeys hknown
      exact ⟨.options o, map_eq_ok.mpr ⟨o, ho, rfl⟩⟩
    obtain ⟨s, hs⟩ := exists_ofJson hplain hformatter
    have hread : ReadFrom members s := (ofJson_over hnodup hplain hs).readFrom hoptions
    obtain ⟨written, hwritten, hback⟩ := hread.exists_toJson
    refine ⟨s, written, hs, hread, (ofJson_filter hplain).trans hs, hwritten, hback, ?_⟩
    rw [hback]
    exact hwritten
  · rintro options hgiven ⟨key, hkey, hunknown⟩
    obtain ⟨other, hother, hno, hrefused⟩ := Options.ofMembers_eq_error hkey hunknown
    refine ⟨other, hother, hno, ofJson_eq_error hnodup hplain (Table.mem_of_lookup hgiven) ?_⟩
    rw [Formatter.Setting.ofJson, hrefused]
    rfl

/-- Settings in an unusual order, among a remark. -/
def scattered : List (String × Json) :=
  [("x-note", .null), ("formatter", .obj [("tab_width", .int 4), ("name", .null)]),
    ("deep", .str "yes"), ("schemas", .arr [.str "A"])]

/-- Settings with a formatter that is told about colours. -/
def coloured : List (String × Json) :=
  [("export", .null), ("formatter", .obj [("tab_width", .int 4), ("colour", .str "red")]),
    ("x-note", .arr [])]

/-- The first settings have what is given, and are read back; the second ones are refused. -/
theorem ofJson_readFrom_scattered :
    (∃ s written, ofJson (.obj scattered) = .ok s ∧ s.deep = .str "yes" ∧
        s.exported = .bool true ∧ s.toJson = .ok written ∧ ofJson written = .ok s) ∧
      ofJson (.obj coloured) = .error (.unknownSetting "colour") := by
  constructor
  · have hoptions : ∀ v, scattered.lookup "formatter" = some v → Options.AreOptions v := by
      intro v hv
      obtain rfl := Option.some.inj hv
      exact ⟨_, rfl, by decide, by decide⟩
    obtain ⟨s, written, hs, hread, -, hwritten, hback, -⟩ :=
      (ofJson_readFrom scattered (by decide) (by decide)).1 hoptions
    exact ⟨s, written, hs, hread.plain ("deep", deep) (by simp [plainFields]),
      hread.plain ("export", exported) (by simp [plainFields]), hwritten, hback⟩
  · obtain ⟨key, hkey, hunknown, hrefused⟩ :=
      (ofJson_readFrom coloured (by decide) (by decide)).2 _ rfl
        ⟨"colour", by decide, by decide⟩
    have hcolour : key = "colour" := by
      rcases List.mem_cons.mp hkey with rfl | hrest
      · exact absurd (by decide) hunknown
      · exact List.mem_singleton.mp hrest
    rw [hrefused, hcolour]

end TsModule.Settings

end SchemaTypes

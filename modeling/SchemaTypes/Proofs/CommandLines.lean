import Mathlib.Data.List.Basic
import SchemaTypes.Command.Basic
import SchemaTypes.Proofs.WrittenPaths

/-!
# Command lines that are quoted

The header of a module quotes a command line that is put together from a request. It is described
by `Request.Reconstructs`, without following the parameters one by one: the operands come first,
then the options in a fixed order, and a value that leads to a file or a directory is cut down to
its last name.
-/

namespace SchemaTypes.Command

/-- A word shows a value: one that leads somewhere by its last name, any other one in full. Values
that cannot be looked for are not shown. -/
structure Shows (fs : Files) (value word : String) : Prop where
  bearable : fs.IsBearable value
  lastName : fs.Leads value → IsBaseName value word
  inFull : ¬ fs.Leads value → word = value

theorem Words.word_eq_ok {fs : Files} {value word : String} :
    Words.word fs (.str value) = .ok word ↔ Shows fs value word := by
  unfold Words.word
  dsimp only
  simp only [bind_eq_ok, Files.holds_eq_ok]
  constructor
  · rintro ⟨held, ⟨hbearable, hleads⟩, hword⟩
    refine ⟨hbearable, fun h => isBaseName_iff.mpr ?_, fun h => ?_⟩
    · rw [if_pos (hleads.mpr h)] at hword
      exact (Except.ok.inj hword).symm
    · rw [if_neg (mt hleads.mp h)] at hword
      exact (Except.ok.inj hword).symm
  · rintro ⟨hbearable, hlast, hfull⟩
    by_cases h : fs.Leads value
    · refine ⟨true, ⟨hbearable, iff_of_true rfl h⟩, ?_⟩
      rw [if_pos rfl, isBaseName_iff.mp (hlast h)]
      rfl
    · refine ⟨false, ⟨hbearable, iff_of_false Bool.false_ne_true h⟩, ?_⟩
      rw [if_neg Bool.false_ne_true, hfull h]
      rfl

/-- The word for a flag that is given: one word for yes, another one for no. -/
def switchWords (yes no : String) (given : Option Bool) : List String :=
  (given.map fun b => if b then yes else no).toList

namespace Request

/-- The values that a line which reconstructs a request shows. -/
def shownValues (r : Request) : List String :=
  (r.document.toList ++ r.output.toList ++ r.config.toList).map Path.text ++
    (r.arguments.names ++ r.arguments.defaultType.toList)

/-- The words behind the name of the program in such a line, given what stands for each value. -/
def lineWords (r : Request) (shown : String → String) : List String :=
  let a := r.arguments
  (r.document.toList ++ r.output.toList).map (fun path => shown path.text) ++
    a.names.flatMap (fun name => ["--name", shown name]) ++
    r.config.toList.flatMap (fun path => ["--config", shown path.text]) ++
    switchWords "--deep" "--no-deep" a.deep ++
    switchWords "--export" "--no-export" a.exported ++
    a.defaultType.toList.flatMap (fun value => ["--default-type", shown value]) ++
    switchWords "--format" "--no-format" a.formatted

/-- A line reconstructs the command line of a request: it has the operands first, then the options
that were given, in a fixed order. -/
def Reconstructs (fs : Files) (r : Request) (line : String) : Prop :=
  ∃ shown : String → String, (∀ value ∈ r.shownValues, Shows fs value (shown value)) ∧
    line = Text.join " " ("schema_to_ts" :: r.lineWords shown)

end Request

/-! ### Words for one parameter -/

namespace Words

variable {fs : Files}

/-- The word for a value, if it is shown. -/
def shownBy (fs : Files) (value : String) : String :=
  ((word fs (.str value)).toOption).getD value

theorem eq_shownBy {value w : String} (h : Shows fs value w) : w = shownBy fs value := by
  rw [shownBy, word_eq_ok.mpr h]
  rfl

/-- A value becomes a word exactly if it is shown, and this is the word. -/
theorem word_eq_ok_shownBy {value w : String} :
    word fs (.str value) = .ok w ↔ Shows fs value (shownBy fs value) ∧ w = shownBy fs value := by
  rw [word_eq_ok]
  constructor
  · intro h
    obtain rfl := eq_shownBy h
    exact ⟨h, rfl⟩
  · rintro ⟨h, rfl⟩
    exact h

theorem isBlankValue_str {value : String} (h : value ≠ "") : isBlankValue (.str value) = false := by
  unfold isBlankValue
  split <;> simp_all

variable {words : List String}

/-- What is made of the word for a value is made of what the value is shown by. -/
theorem word_bind_eq_ok {value : String} (make : String → List String) :
    (word fs (.str value) >>= fun w => .ok (make w)) = .ok words ↔
      Shows fs value (shownBy fs value) ∧ words = make (shownBy fs value) := by
  simp only [bind_eq_ok, word_eq_ok_shownBy, Except.ok.injEq]
  constructor
  · rintro ⟨_, ⟨hvalue, rfl⟩, rfl⟩
    exact ⟨hvalue, rfl⟩
  · rintro ⟨hvalue, rfl⟩
    exact ⟨_, ⟨hvalue, rfl⟩, rfl⟩

/-- An argument is shown if it is given. -/
theorem paramWords_argument_eq_ok (name : String) {given : Option String}
    (h : ∀ v ∈ given, v ≠ "") :
    paramWords fs (.argument name) (given.elim .null .str) = .ok words ↔
      (∀ v ∈ given.toList, Shows fs v (shownBy fs v)) ∧ words = given.toList.map (shownBy fs) := by
  unfold paramWords
  cases given with
  | none => simp [isBlankValue, eq_comm]
  | some v =>
    rw [Option.elim_some, isBlankValue_str (h v rfl)]
    change (word fs (.str v) >>= fun w => .ok [w]) = .ok words ↔ _
    rw [word_bind_eq_ok]
    simp

/-- An option with a value is shown with it, if it is given. -/
theorem paramWords_single_eq_ok (name flag : String) {given : Option String}
    (h : ∀ v ∈ given, v ≠ "") :
    paramWords fs (.option name flag .null .single) (given.elim .null .str) = .ok words ↔
      (∀ v ∈ given.toList, Shows fs v (shownBy fs v)) ∧
        words = given.toList.flatMap fun v => [flag, shownBy fs v] := by
  unfold paramWords
  cases given with
  | none => simp [isBlankValue, eq_comm]
  | some v =>
    rw [Option.elim_some, isBlankValue_str (h v rfl)]
    change (word fs (.str v) >>= fun w => .ok [flag, w]) = .ok words ↔ _
    rw [word_bind_eq_ok]
    simp

/-- Values become words exactly if all of them are shown. -/
theorem mapM_word_eq_ok {values : List String} :
    (values.map Json.str).mapM (word fs) = .ok words ↔
      (∀ v ∈ values, Shows fs v (shownBy fs v)) ∧ words = values.map (shownBy fs) := by
  induction values generalizing words with
  | nil => simp [pure, Except.pure, eq_comm]
  | cons v values ih =>
    rw [List.map_cons, List.mapM_cons]
    simp only [bind_eq_ok, word_eq_ok_shownBy, ih, pure, Except.pure, Except.ok.injEq,
      List.forall_mem_cons, List.map_cons]
    constructor
    · rintro ⟨w, ⟨hv, rfl⟩, ws, ⟨hvalues, rfl⟩, rfl⟩
      exact ⟨⟨hv, hvalues⟩, rfl⟩
    · rintro ⟨⟨hv, hvalues⟩, rfl⟩
      exact ⟨_, ⟨hv, rfl⟩, _, ⟨hvalues, rfl⟩, rfl⟩

/-- An option that may be given several times is shown with each of its values. -/
theorem paramWords_multiple_eq_ok (name flag : String) {values : List String} :
    paramWords fs (.option name flag .null .multiple) (.arr (values.map .str)) = .ok words ↔
      (∀ v ∈ values, Shows fs v (shownBy fs v)) ∧
        words = values.flatMap fun v => [flag, shownBy fs v] := by
  unfold paramWords
  cases values with
  | nil => simp [isBlankValue, eq_comm]
  | cons v values =>
    rw [show isBlankValue (.arr ((v :: values).map .str)) = false from rfl,
      if_neg Bool.false_ne_true]
    change (optionWords fs flag .multiple (.arr ((v :: values).map .str))) = .ok words ↔ _
    unfold optionWords
    simp only [bind_eq_ok, Json.entries, Json.entries?, Except.ok.injEq, exists_eq_left',
      mapM_word_eq_ok, pure, Except.pure]
    constructor
    · rintro ⟨ws, ⟨hvalues, rfl⟩, rfl⟩
      exact ⟨hvalues, List.flatMap_map ..⟩
    · rintro ⟨hvalues, rfl⟩
      exact ⟨_, ⟨hvalues, rfl⟩, List.flatMap_map ..⟩

/-- Of a pair of flags, the one that is given is shown. -/
theorem paramWords_switch_eq_ok (name yes no : String) (given : Option Bool) :
    paramWords fs (.option name yes .null (.switch no)) (given.elim .null .bool) =
      .ok (switchWords yes no given) := by
  rcases given with _ | _ | _ <;> rfl

end Words

namespace Request

/-- The path of a file is never blank. -/
theorem text_ne_empty (path : Path) : path.text ≠ "" := by
  intro h
  have hlist := congrArg String.toList h
  unfold Path.text at hlist
  rw [String.toList_append] at hlist
  cases hlist

/-- What holds of all values that are shown holds of the names, of the value for the default type,
and of the paths. -/
theorem forall_mem_shownValues {P : String → Prop} {r : Request} :
    (∀ v ∈ r.shownValues, P v) ↔
      (∀ v ∈ r.arguments.names, P v) ∧ (∀ v ∈ (r.config.map Path.text).toList, P v) ∧
      (∀ v ∈ r.arguments.defaultType.toList, P v) ∧
      (∀ v ∈ (r.document.map Path.text).toList, P v) ∧
      ∀ v ∈ (r.output.map Path.text).toList, P v := by
  simp only [shownValues, Option.toList_map, List.map_append, List.forall_mem_append]
  constructor
  · rintro ⟨⟨⟨hdocument, houtput⟩, hconfig⟩, hnames, htype⟩
    exact ⟨hnames, hconfig, htype, hdocument, houtput⟩
  · rintro ⟨hnames, hconfig, htype, hdocument, houtput⟩
    exact ⟨⟨⟨hdocument, houtput⟩, hconfig⟩, hnames, htype⟩

/-- The words of a line depend on nothing but what stands for the values that are shown. -/
theorem lineWords_congr {r : Request} {shown shown' : String → String}
    (h : ∀ v ∈ r.shownValues, shown v = shown' v) : r.lineWords shown = r.lineWords shown' := by
  obtain ⟨hnames, hconfig, htype, hdocument, houtput⟩ := forall_mem_shownValues.mp h
  have hpaths : ∀ given : Option Path, (∀ v ∈ (given.map Path.text).toList, shown v = shown' v) →
      ∀ path ∈ given.toList, shown path.text = shown' path.text := fun given hgiven path hpath =>
    hgiven _ (by rw [Option.toList_map]; exact List.mem_map_of_mem hpath)
  have hwith : ∀ (flag : String) (values : List String), (∀ v ∈ values, shown v = shown' v) →
      values.flatMap (fun v => [flag, shown v]) = values.flatMap fun v => [flag, shown' v] :=
    fun flag values hvalues => List.flatMap_congr fun v hv => by rw [hvalues v hv]
  have hconfig' : r.config.toList.flatMap (fun path => ["--config", shown path.text]) =
      r.config.toList.flatMap fun path => ["--config", shown' path.text] :=
    List.flatMap_congr fun path hpath => by rw [hpaths _ hconfig path hpath]
  have hoperands : (r.document.toList ++ r.output.toList).map (fun path => shown path.text) =
      (r.document.toList ++ r.output.toList).map fun path => shown' path.text := by
    refine List.map_congr_left fun path hpath => ?_
    rcases List.mem_append.mp hpath with hpath | hpath
    · exact hpaths _ hdocument path hpath
    · exact hpaths _ houtput path hpath
  unfold lineWords
  dsimp only
  rw [hoperands, hwith _ _ hnames, hconfig', hwith _ _ htype]

/-- A line is put together for a request exactly if all values are shown, and then it has the words
for them. -/
theorem commandLine_eq_ok_shownBy {fs : Files} {r : Request} {line : String}
    (hdefault : r.arguments.defaultType ≠ some "") :
    r.commandLine fs = .ok line ↔
      (∀ v ∈ r.shownValues, Shows fs v (Words.shownBy fs v)) ∧
        line = Text.join " " ("schema_to_ts" :: r.lineWords (Words.shownBy fs)) := by
  have hpath : ∀ given : Option Path, ∀ v ∈ given.map Path.text, v ≠ "" := by
    rintro given v hv rfl
    obtain ⟨path, -, hpath⟩ := Option.map_eq_some_iff.mp hv
    exact text_ne_empty path hpath
  have hgiven : ∀ v ∈ r.arguments.defaultType, v ≠ "" := by
    rintro v hv rfl
    exact hdefault hv
  -- the value of each parameter
  have htext : ∀ given : Option Path,
      given.elim Json.null (fun path => .str path.text) =
        (given.map Path.text).elim .null .str := by
    rintro (_ | path) <;> rfl
  have hnames : r.values.memberD "names" = .arr (r.arguments.names.map .str) := rfl
  have hconfig : r.values.memberD "config" = (r.config.map Path.text).elim .null .str :=
    htext r.config
  have hdeep : r.values.memberD "deep" = r.arguments.deep.elim .null .bool := rfl
  have hexport : r.values.memberD "export" = r.arguments.exported.elim .null .bool := rfl
  have htype : r.values.memberD "default_type" = r.arguments.defaultType.elim .null .str := rfl
  have hformat : r.values.memberD "format_output" = r.arguments.formatted.elim .null .bool := rfl
  have hdocument : r.values.memberD "path" = (r.document.map Path.text).elim .null .str :=
    htext r.document
  have houtput : r.values.memberD "output" = (r.output.map Path.text).elim .null .str :=
    htext r.output
  unfold commandLine Words.line params
  rw [if_neg (show ¬ (!r.values.truthy) = true from Bool.false_ne_true)]
  simp only [List.mapM_cons, List.mapM_nil, bind_eq_ok, Words.Param.name, hnames, hconfig, hdeep,
    hexport, htype, hformat, hdocument, houtput, Words.paramWords_argument_eq_ok _ (hpath _),
    Words.paramWords_single_eq_ok _ _ (hpath _), Words.paramWords_single_eq_ok _ _ hgiven,
    Words.paramWords_multiple_eq_ok, Words.paramWords_switch_eq_ok, Except.ok.injEq, pure,
    Except.pure, and_assoc, exists_and_left, exists_eq_left, exists_eq_left']
  -- The operands come last among the parameters, and first in the line.
  simp [forall_mem_shownValues, List.partition_eq_filter_filter, lineWords, Words.program,
    Words.Param.isArgument, and_assoc, eq_comm, Function.comp_def, Option.toList_map,
    List.flatMap_map]

/-- A line is put together for a request exactly if it reconstructs the command line of it. -/
theorem commandLine_eq_ok {fs : Files} {r : Request} {line : String}
    (hdefault : r.arguments.defaultType ≠ some "") :
    r.commandLine fs = .ok line ↔ r.Reconstructs fs line := by
  rw [commandLine_eq_ok_shownBy hdefault]
  constructor
  · rintro ⟨hshown, rfl⟩
    exact ⟨_, hshown, rfl⟩
  · rintro ⟨shown, hshown, rfl⟩
    have hsame : ∀ v ∈ r.shownValues, shown v = Words.shownBy fs v := fun v hv =>
      Words.eq_shownBy (hshown v hv)
    refine ⟨fun v hv => ?_, by rw [lineWords_congr hsame]⟩
    rw [← hsame v hv]
    exact hshown v hv

end Request

end SchemaTypes.Command

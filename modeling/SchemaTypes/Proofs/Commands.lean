import Mathlib.Data.Option.Defs
import SchemaTypes.Proofs.CommandLines
import SchemaTypes.Proofs.Configurations
import SchemaTypes.Proofs.GivenArguments
import SchemaTypes.Proofs.PercentEncoding

/-!
# What a command does to files

A command generates its module before it opens its output, and opening leaves nothing in a file. So
as long as the output has not been opened (`Command.Opens`), whatever fails leaves all files as they
were. From then on the output holds what was saved of the text (`Files.Saved`): all of it if the
command is done, nothing if the text holds half of a surrogate pair, which cannot be encoded, and
the first bytes if the device fails.

The module that is asked for is described without following the command: `Arguments.Gives` says what
the words of the command line mean, `Arguments.Accepted` which arguments are carried out,
`Arguments.Makes` what request they make, and `Request.AsksFor` what the document, the settings, the
formatter and the command line of its module are.
-/

namespace SchemaTypes.Command

/-! ## Files that are written -/

namespace Files

variable (fs : Files)

/-- What is above a path are the paths that it goes on from. -/
theorem mem_above {p path : Path} : p ∈ path.above ↔ p <+: path ∧ p ≠ path := by
  induction path generalizing p with
  | nil => simp [Path.above]
  | cons c rest ih =>
    cases p with
    | nil => simp [Path.above]
    | cons d p =>
      rw [Path.above, List.mem_cons, List.mem_map, List.cons_prefix_cons]
      constructor
      · rintro (h | ⟨q, hq, h⟩)
        · cases h
        · obtain ⟨rfl, rfl⟩ := List.cons.inj h
          obtain ⟨hbelow, hne⟩ := ih.mp hq
          exact ⟨⟨rfl, hbelow⟩, by simpa using hne⟩
      · rintro ⟨⟨rfl, hbelow⟩, hne⟩
        exact .inr ⟨p, ih.mpr ⟨hbelow, by simpa using hne⟩, rfl⟩

theorem entry?_write_self (path : Path) (bytes : List Nat) :
    Files.entry? (fs.write path bytes) path = some (.file bytes) := by
  unfold entry? write
  rw [Table.lookup_put_self]

variable {fs}

/-- A path above others that is not listed is a directory because something is listed below it. -/
theorem isDirectory_of_lookup_eq_none {p : Path} (h : fs.entries.lookup p = none) :
    fs.isDirectory p = (p.isPrefixOf fs.home || fs.entries.any fun e => p.isPrefixOf e.1) := by
  unfold isDirectory entry?
  rw [h]
  dsimp only
  cases p.isPrefixOf fs.home || fs.entries.any fun e => p.isPrefixOf e.1 <;> rfl

/-- Writing a file changes no other path, if all paths above the file are directories. -/
theorem entry?_write_of_ne {path p : Path} (hne : p ≠ path)
    (habove : ∀ q ∈ path.above, fs.isDirectory q = true) (bytes : List Nat) :
    Files.entry? (fs.write path bytes) p = fs.entry? p := by
  unfold entry? write
  rw [Table.lookup_put_of_ne hne, Table.any_keys_put fun q => p.isPrefixOf q]
  cases hlookup : fs.entries.lookup p with
  | some e => rfl
  | none =>
    cases hbelow : p.isPrefixOf path with
    | false => rw [Bool.false_or]
    | true =>
      have hdir := habove p (mem_above.mpr ⟨List.isPrefixOf_iff_prefix.mp hbelow, hne⟩)
      rw [isDirectory_of_lookup_eq_none hlookup] at hdir
      dsimp only
      rw [if_pos hdir, Bool.true_or, Bool.or_true, if_pos rfl]

/-- Of two texts that are written one after the other, the second one stays. -/
theorem write_write (path : Path) (bytes bytes' : List Nat) :
    Files.write (fs.write path bytes) path bytes' = fs.write path bytes' := by
  unfold write
  rw [Table.put_put]

/-! ### Opening -/

/-- A file can be opened at a path for writing: there is no directory, all that is above the path is
one, and the device does not refuse. -/
structure Openable (device : Device) (fs : Files) (path : Path) : Prop where
  noDirectory : fs.isDirectory path = false
  above : ∀ p ∈ path.above, fs.isDirectory p = true
  opening : device.opening path = .ok ()

variable {device : Device} {path : Path}

theorem obstacle?_eq_none :
    fs.obstacle? path = none ↔
      fs.isDirectory path = false ∧ ∀ p ∈ path.above, fs.isDirectory p = true := by
  unfold obstacle?
  cases fs.isDirectory path <;> simp

theorem openEmpty_of_openable (h : Openable device fs path) :
    openEmpty device path fs = (.ok (), fs.write path []) := by
  unfold openEmpty
  rw [fs.obstacle?_eq_none.mpr ⟨h.noDirectory, h.above⟩]
  dsimp only
  rw [h.opening]

theorem openEmpty_of_not_openable (h : ¬ Openable device fs path) :
    ∃ e, openEmpty device path fs = (.error e, fs) := by
  unfold openEmpty
  cases hobstacle : fs.obstacle? path with
  | some e => exact ⟨e, rfl⟩
  | none =>
    obtain ⟨hdir, habove⟩ := fs.obstacle?_eq_none.mp hobstacle
    cases hopening : device.opening path with
    | error e => exact ⟨e, rfl⟩
    | ok _ => exact absurd ⟨hdir, habove, hopening⟩ h

/-! ### Saving -/

/-- How the saving of a text ends after the file was opened, and what is in the file then. -/
inductive Saved (device : Device) (halves : Text.Halves) (path : Path) (text : String) :
    Except Failure Unit → List Nat → Prop where
  /-- The file holds the whole text. -/
  | whole {bytes : List Nat} (htext : Text.Utf8.text? bytes = some text)
      (hhalves : ¬ halves.OccurIn text) (hloss : device.loss? path bytes = none) :
    Saved device halves path text (.ok ()) bytes
  /-- The text cannot be encoded, and the file holds nothing. -/
  | empty (hhalves : halves.OccurIn text) :
    Saved device halves path text (.error .notEncodable) []
  /-- The device has failed, and the file holds the first bytes of the text. -/
  | cut {bytes : List Nat} {count : Nat} {e : Failure} (htext : Text.Utf8.text? bytes = some text)
      (hhalves : ¬ halves.OccurIn text)
      (hloss : device.loss? path bytes = some (count, e)) :
    Saved device halves path text (.error e) (bytes.take count)

variable (halves : Text.Halves) (text : String)

theorem save_of_openable (h : Openable device fs path) :
    ∃ result bytes, Saved device halves path text result bytes ∧
      save device halves path text fs = (result, fs.write path bytes) := by
  unfold save Step.andThen
  rw [fs.openEmpty_of_openable h]
  dsimp only [Step.ofExcept, encode]
  by_cases hhalves : halves.OccurIn text
  · rw [Text.Halves.encode?_of_occurIn hhalves]
    exact ⟨_, _, .empty hhalves, rfl⟩
  · rw [Text.Halves.encode?_of_not_occurIn hhalves]
    have htext := Text.Utf8.text?_eq_some.mpr (Eq.refl (Text.Utf8.encode text.toList))
    dsimp only [fill]
    cases hloss : device.loss? path (Text.Utf8.encode text.toList) with
    | none => exact ⟨_, _, .whole htext hhalves hloss, by rw [write_write]⟩
    | some loss =>
      obtain ⟨count, e⟩ := loss
      refine ⟨_, _, .cut htext hhalves hloss, ?_⟩
      dsimp only
      rw [write_write]

theorem save_of_not_openable (h : ¬ Openable device fs path) :
    ∃ e, save device halves path text fs = (.error e, fs) := by
  obtain ⟨e, he⟩ := fs.openEmpty_of_not_openable h
  refine ⟨e, ?_⟩
  unfold save Step.andThen
  rw [he]

end Files

/-! ## Arguments that are accepted -/

/-- A word is the path of something that is there. -/
structure Files.Present (fs : Files) (word : String) : Prop where
  noNull : '\x00' ∉ word.toList
  means : ∃ path, fs.Means (fun _ => True) word path ∧ (fs.entry? path).isSome = true

namespace Arguments

/-- Arguments are accepted: the configuration and the document are there, the default type is one of
two, and nothing comes behind the output. -/
structure Accepted (fs : Files) (a : Arguments) : Prop where
  config : ∀ word, (.config, word) ∈ a.checked → fs.Present word
  defaultType : ∀ word, (.defaultType, word) ∈ a.checked → word = "unknown" ∨ word = "any"
  document : ∀ word ∈ a.operands[0]?, fs.Present word
  output : ∀ word ∈ a.operands[1]?, '\x00' ∉ word.toList
  operands : a.operands.length ≤ 2

/-- Arguments make a request: the first operand means its document, the second one its output. -/
structure Makes (fs : Files) (a : Arguments) (r : Request) : Prop where
  arguments : r.arguments = a
  document : Option.Rel (fs.Means fun _ => True) a.operands[0]? r.document
  output : Option.Rel (fs.Means fun _ => True) a.operands[1]? r.output
  config : Option.Rel (fs.Means fun _ => True) (a.checked.lookup .config) r.config

theorem makes_iff {fs : Files} {a : Arguments} {r : Request} :
    a.Makes fs r ↔ r = { arguments := a, document := a.operands[0]?.map fs.resolve,
                         output := a.operands[1]?.map fs.resolve,
                         config := a.config.map fs.resolve } := by
  have hrel : ∀ {given : Option String} {path : Option Path},
      Option.Rel (fs.Means fun _ => True) given path ↔ path = given.map fs.resolve := by
    rintro (_ | word) (_ | path)
    · exact iff_of_true .none rfl
    · exact iff_of_false nofun nofun
    · exact iff_of_false nofun nofun
    · rw [Option.map_some, Option.some.injEq, ← Files.means_iff_eq_resolve]
      exact ⟨fun h => by cases h; assumption, .some⟩
  obtain ⟨arguments, document, output, config⟩ := r
  rw [Request.mk.injEq, ← hrel, ← hrel, ← hrel]
  exact ⟨fun h => ⟨h.arguments, h.document, h.output, h.config⟩,
    fun ⟨harguments, hdocument, houtput, hconfig⟩ =>
      ⟨harguments, hdocument, houtput, hconfig⟩⟩

end Arguments

/-- Checks are passed together exactly if each of them is passed. -/
theorem forM_eq_ok {α ε : Type} {check : α → Except ε Unit} {items : List α} :
    items.forM check = .ok () ↔ ∀ item ∈ items, check item = .ok () := by
  induction items with
  | nil => simp [List.forM, pure, Except.pure]
  | cons item rest ih =>
    change (check item >>= fun _ => rest.forM check) = .ok () ↔ _
    rw [bind_eq_ok, List.forall_mem_cons, ← ih]
    exact ⟨fun ⟨_, h⟩ => h, fun h => ⟨(), h⟩⟩

namespace Request

variable {fs : Files}

theorem pathOf_eq_ok {word : String} {path : Path} :
    pathOf fs word = .ok path ↔ '\x00' ∉ word.toList ∧ path = fs.resolve word := by
  rw [← Files.hasNull_iff]
  unfold pathOf
  cases Files.hasNull word <;> simp [eq_comm]

theorem presentPath_eq_ok {word : String} {path : Path} :
    presentPath fs word = .ok path ↔ fs.Present word ∧ path = fs.resolve word := by
  unfold presentPath
  simp only [bind_eq_ok, pathOf_eq_ok]
  constructor
  · rintro ⟨_, ⟨hnull, rfl⟩, h⟩
    split at h
    · next hsome =>
      exact ⟨⟨hnull, _, Files.means_iff_eq_resolve.mpr rfl, hsome⟩, (Except.ok.inj h).symm⟩
    · cases h
  · rintro ⟨⟨hnull, _, hmeans, hsome⟩, rfl⟩
    obtain rfl := Files.means_iff_eq_resolve.mp hmeans
    refine ⟨_, ⟨hnull, rfl⟩, ?_⟩
    rw [if_pos hsome]
    rfl

theorem checkOption_config_eq_ok {word : String} :
    checkOption fs .config word = .ok () ↔ fs.Present word := by
  have hpresent : fs.Present word ↔ ∃ path, presentPath fs word = .ok path :=
    ⟨fun h => ⟨_, presentPath_eq_ok.mpr ⟨h, rfl⟩⟩, fun ⟨_, h⟩ => (presentPath_eq_ok.mp h).1⟩
  rw [hpresent]
  change discard (presentPath fs word) = .ok () ↔ _
  cases presentPath fs word with
  | error e => exact ⟨nofun, nofun⟩
  | ok path => exact ⟨fun _ => ⟨path, rfl⟩, fun _ => rfl⟩

theorem checkOption_defaultType_eq_ok {word : String} :
    checkOption fs .defaultType word = .ok () ↔ word = "unknown" ∨ word = "any" := by
  change (if word = "unknown" ∨ word = "any" then _ else _) = _ ↔ _
  split <;> simp_all

/-- A word that may be missing becomes a path exactly if it fits where it is there. -/
theorem mapM_eq_ok {f : String → Except Objection Path} {Fits : String → Prop}
    (hf : ∀ word path, f word = .ok path ↔ Fits word ∧ path = fs.resolve word)
    {given : Option String} {result : Option Path} :
    given.mapM f = .ok result ↔ (∀ word ∈ given, Fits word) ∧ result = given.map fs.resolve := by
  cases given with
  | none => exact ⟨fun h => ⟨nofun, (Except.ok.inj h).symm⟩, fun h => h.2 ▸ rfl⟩
  | some word =>
    change (f word >>= fun path => .ok (some path)) = .ok result ↔ _
    simp only [bind_eq_ok, hf]
    constructor
    · rintro ⟨_, ⟨hfits, rfl⟩, h⟩
      exact ⟨fun w hw => Option.some.inj hw ▸ hfits, (Except.ok.inj h).symm⟩
    · rintro ⟨hfits, rfl⟩
      exact ⟨_, ⟨hfits word rfl, rfl⟩, rfl⟩

/-- A request is what arguments make that are accepted. -/
theorem ofArguments_eq_ok {a : Arguments} {r : Request} :
    ofArguments fs a = .ok r ↔ a.Accepted fs ∧ a.Makes fs r := by
  rw [Arguments.makes_iff]
  unfold ofArguments
  simp only [bind_eq_ok, mapM_eq_ok fun _ _ => presentPath_eq_ok,
    mapM_eq_ok fun _ _ => pathOf_eq_ok]
  constructor
  · rintro ⟨_, hchecked, _, ⟨hdocument, rfl⟩, _, ⟨houtput, rfl⟩, h⟩
    split at h
    · cases h
    · next hlength =>
      refine ⟨⟨fun word hword => ?_, fun word hword => ?_, hdocument, houtput, ?_⟩,
        (Except.ok.inj h).symm⟩
      · exact checkOption_config_eq_ok.mp (forM_eq_ok.mp hchecked _ hword)
      · exact checkOption_defaultType_eq_ok.mp (forM_eq_ok.mp hchecked _ hword)
      · exact Nat.not_lt.mp hlength
  · rintro ⟨h, rfl⟩
    refine ⟨(), forM_eq_ok.mpr ?_, _, ⟨h.document, rfl⟩, _, ⟨h.output, rfl⟩, ?_⟩
    · rintro ⟨_ | _, word⟩ hword
      · exact checkOption_config_eq_ok.mpr (h.config word hword)
      · exact checkOption_defaultType_eq_ok.mpr (h.defaultType word hword)
    · rw [if_neg (Nat.not_lt.mpr h.operands)]
      rfl

end Request

/-! ## The module that is asked for -/

variable {φ : Type}

/-- The formatter that options choose, where `prettier` goes by that name: none if formatting is
off, or by the name of none. -/
inductive Chosen (prettier : Formatter φ) (o : Formatter.Options) :
    Option (Formatter φ) → Prop where
  | off (h : o.enabled.truthy = false) : Chosen prettier o none
  | nameless (h : o.name = .null ∨ o.name = .str "none") : Chosen prettier o none
  | prettier (h : o.enabled.truthy = true) (hname : o.name = .str "prettier") :
    Chosen prettier o (some prettier)

/-- The name of a formatter that is enabled chooses it. -/
theorem chosen_iff_of_enabled {prettier : Formatter φ} {o : Formatter.Options}
    {f : Option (Formatter φ)} (h : o.enabled.truthy = true) :
    Chosen prettier o f ↔
      ((o.name = .null ∨ o.name = .str "none") ∧ f = none) ∨
        (o.name = .str "prettier" ∧ f = some prettier) := by
  constructor
  · rintro (hoff | hname | ⟨-, hname⟩)
    · rw [h] at hoff
      cases hoff
    · exact .inl ⟨hname, rfl⟩
    · exact .inr ⟨hname, rfl⟩
  · rintro (⟨hname, rfl⟩ | ⟨hname, rfl⟩)
    · exact .nameless hname
    · exact .prettier h hname

theorem Request.formatter_eq_ok {prettier : Formatter φ} {s : TsModule.Settings}
    {f : Option (Formatter φ)} :
    Request.formatter prettier s = .ok f ↔
      ∃ o, s.formatter = some (.options o) ∧ Chosen prettier o f := by
  unfold Request.formatter Formatter.Known.ofSetting TsModule.Settings.toFormat
  rcases s.formatter with _ | o | v
  · simp [bind, Except.bind]
  · simp only [Option.some.injEq, Formatter.Setting.options.injEq, exists_eq_left']
    change ((if o.enabled.truthy = true then Formatter.Known.ofJson o.name else .ok none) >>= _) =
      .ok f ↔ _
    cases henabled : o.enabled.truthy with
    | false =>
      rw [if_neg Bool.false_ne_true]
      constructor
      · intro h
        obtain rfl := Except.ok.inj h
        exact .off henabled
      · rintro (_ | _ | ⟨h, -⟩)
        · rfl
        · rfl
        · rw [henabled] at h
          cases h
    | true =>
      rw [if_pos rfl, chosen_iff_of_enabled henabled]
      unfold Formatter.Known.ofJson
      split <;> simp_all [bind, Except.bind, pure, Except.pure, eq_comm (a := f)]
  · simp [bind, Except.bind, Formatter.Setting.read]

variable (machine : Machine φ)

/-- A module is the one that a request asks for. -/
structure Request.AsksFor (fs : Files) (r : Request) (m : TsModule φ) : Prop where
  document : ∃ path, r.document = some path ∧ fs.HoldsJson machine.halves path m.document
  settings : ∃ base, r.Base machine.halves fs base ∧ Request.Layered r.arguments base m.settings
  formatter : ∃ o, m.settings.formatter = some (.options o) ∧
    Chosen machine.prettier o m.formatter
  commandLine : r.Reconstructs fs m.commandLine

variable {machine}

/-- The default type is not blank in arguments that are accepted. -/
theorem Arguments.Accepted.defaultType_ne {fs : Files} {a : Arguments} (h : a.Accepted fs) :
    a.defaultType ≠ some "" := by
  intro hblank
  have hword := h.defaultType "" (Table.mem_of_lookup hblank)
  simp at hword

theorem Request.toModule_eq_ok {fs : Files} {r : Request} {m : TsModule φ}
    (h : r.arguments.Accepted fs) :
    r.toModule machine fs = .ok m ↔ r.AsksFor machine fs m := by
  have hline : ∀ line, r.commandLine fs = .ok line ↔ r.Reconstructs fs line := fun _ =>
    commandLine_eq_ok h.defaultType_ne
  unfold toModule
  simp only [bind_eq_ok, readJson_eq_ok, settings_eq_ok, hline, formatter_eq_ok]
  constructor
  · rintro ⟨document, hdocument, s, hs, line, hline, f, hf, hm⟩
    obtain rfl := Except.ok.inj hm
    exact ⟨hdocument, hs, hf, hline⟩
  · intro h
    exact ⟨m.document, h.document, m.settings, h.settings, m.commandLine, h.commandLine,
      m.formatter, h.formatter, rfl⟩

/-! ## Requests that are carried out -/

namespace Request

/-- Generating a module leaves all files as they were. -/
theorem generate_files (machine : Machine φ) (r : Request) (w : World φ) :
    (r.generate machine w).2.files = w.files := by
  unfold generate
  split <;> rfl

theorem generate_eq_ok {r : Request} {w : World φ} {text : String} :
    (r.generate machine w).1 = .ok text ↔
      ∃ m, r.toModule machine w.files = .ok m ∧ (m.text w.formatter).1 = .ok text := by
  unfold generate
  cases r.toModule machine w.files with
  | error e => simp
  | ok m => simp [Step.on]

/-- A request has its output opened, and then a text is to be saved at a path. -/
structure Opens (machine : Machine φ) (w : World φ) (r : Request) (text : String) (path : Path) :
    Prop where
  generate : (r.generate machine w).1 = .ok text
  output : r.output = some path
  openable : Files.Openable machine.device w.files path

variable {r : Request} {w : World φ}

/-- What is generated is saved in the output, once this is opened. -/
theorem run_of_opens {text : String} {path : Path} (h : r.Opens machine w text path) :
    ∃ result bytes, Files.Saved machine.device machine.halves path text result bytes ∧
      (r.run machine w).1 = result ∧ (r.run machine w).2.files = w.files.write path bytes := by
  obtain ⟨result, bytes, hsaved, hsave⟩ :=
    Files.save_of_openable machine.halves text h.openable
  have hfiles := generate_files machine r w
  refine ⟨result, bytes, hsaved, ?_⟩
  unfold run save Step.andThen Step.on
  rcases hgenerate : r.generate machine w with ⟨generated, w'⟩
  obtain rfl : generated = .ok text := by rw [← h.generate, hgenerate]
  rw [hgenerate] at hfiles
  dsimp only at hfiles ⊢
  rw [h.output]
  dsimp only
  rw [hfiles, hsave]
  exact ⟨rfl, rfl⟩

/-- As long as the output is not opened, there is a failure, and all files stay as they are. -/
theorem run_of_not_opens (h : ∀ text path, ¬ r.Opens machine w text path) :
    (∃ e, (r.run machine w).1 = .error e) ∧ (r.run machine w).2.files = w.files := by
  have hfiles := generate_files machine r w
  unfold run save Step.andThen Step.on
  rcases hgenerate : r.generate machine w with ⟨e | text, w'⟩
  · rw [hgenerate] at hfiles
    exact ⟨⟨e, rfl⟩, hfiles⟩
  · rw [hgenerate] at hfiles
    dsimp only at hfiles ⊢
    cases houtput : r.output with
    | none => exact ⟨⟨.noPath, rfl⟩, hfiles⟩
    | some path =>
      have hnot : ¬ Files.Openable machine.device w.files path := fun hopenable =>
        h text path ⟨by rw [hgenerate], houtput, hopenable⟩
      obtain ⟨e, he⟩ := Files.save_of_not_openable machine.halves text hnot
      dsimp only
      rw [hfiles, he]
      exact ⟨⟨e, rfl⟩, rfl⟩

end Request

/-! ## Commands that are run -/

/-- The words of a command ask for a text in a file: they are understood and accepted, the text is
that of the module that they ask for, and the file can be opened. -/
def Opens (machine : Machine φ) (words : List String) (w : World φ) (text : String)
    (path : Path) : Prop :=
  ∃ a r, Arguments.Gives words {} a ∧ a.help = false ∧ a.Accepted w.files ∧ a.Makes w.files r ∧
    (∃ m, r.AsksFor machine w.files m ∧ (m.text w.formatter).1 = .ok text) ∧
    r.output = some path ∧ Files.Openable machine.device w.files path

variable {words : List String} {w : World φ}

theorem Opens.openable {text : String} {path : Path} (h : Opens machine words w text path) :
    Files.Openable machine.device w.files path := by
  obtain ⟨_, _, -, -, -, -, -, -, hopenable⟩ := h
  exact hopenable

/-- A command opens its output exactly if its request does. -/
theorem opens_iff {text : String} {path : Path} {a : Arguments} {r : Request}
    (hparse : Arguments.parse? words = some a) (hhelp : a.help = false)
    (hrequest : Request.ofArguments w.files a = .ok r) :
    Opens machine words w text path ↔ r.Opens machine w text path := by
  obtain ⟨haccepted, hmakes⟩ := Request.ofArguments_eq_ok.mp hrequest
  have hmodule : ∀ m, r.toModule machine w.files = .ok m ↔ r.AsksFor machine w.files m := fun _ =>
    Request.toModule_eq_ok (hmakes.arguments ▸ haccepted)
  have hgenerate : (r.generate machine w).1 = .ok text ↔
      ∃ m, r.AsksFor machine w.files m ∧ (m.text w.formatter).1 = .ok text := by
    simp only [Request.generate_eq_ok, hmodule]
  constructor
  · rintro ⟨a', r', hgives, -, haccepted', hmakes', hasks, houtput, hopenable⟩
    obtain rfl := Option.some.inj (hparse.symm.trans (Arguments.parse?_eq_some.mpr hgives))
    have hrequest' := Request.ofArguments_eq_ok.mpr ⟨haccepted', hmakes'⟩
    obtain rfl := Except.ok.inj (hrequest.symm.trans hrequest')
    exact ⟨hgenerate.mpr hasks, houtput, hopenable⟩
  · rintro ⟨hgenerated, houtput, hopenable⟩
    exact ⟨a, r, Arguments.parse?_eq_some.mp hparse, hhelp, haccepted, hmakes,
      hgenerate.mp hgenerated, houtput, hopenable⟩

/-- A command that does not open its output is not done, and leaves all files as they were. -/
theorem run_of_not_opens (h : ∀ text path, ¬ Opens machine words w text path) :
    (run machine words w).1 ≠ .done ∧ (run machine words w).2.files = w.files := by
  unfold run
  cases hparse : Arguments.parse? words with
  | none => exact ⟨nofun, rfl⟩
  | some a =>
    dsimp only
    cases hhelp : a.help with
    | true => exact ⟨nofun, rfl⟩
    | false =>
      rw [if_neg Bool.false_ne_true]
      cases hrequest : Request.ofArguments w.files a with
      | error objection => cases objection <;> exact ⟨nofun, rfl⟩
      | ok r =>
        have hnot := fun text path => mt (opens_iff hparse hhelp hrequest).mpr (h text path)
        obtain ⟨⟨e, he⟩, hfiles⟩ := Request.run_of_not_opens hnot
        dsimp only
        rw [he]
        exact ⟨nofun, hfiles⟩

/-- A command that opens its output ends the way in which the text is saved there. -/
theorem run_of_opens {text : String} {path : Path} (h : Opens machine words w text path) :
    ∃ result bytes, Files.Saved machine.device machine.halves path text result bytes ∧
      (run machine words w).1 = .ofResult result ∧
      (run machine words w).2.files = w.files.write path bytes := by
  have hwords := h
  obtain ⟨a, r, hgives, hhelp, haccepted, hmakes, -⟩ := hwords
  have hparse := Arguments.parse?_eq_some.mpr hgives
  have hrequest := Request.ofArguments_eq_ok.mpr ⟨haccepted, hmakes⟩
  have hopens := (opens_iff hparse hhelp hrequest).mp h
  obtain ⟨result, bytes, hsaved, hresult, hfiles⟩ := Request.run_of_opens hopens
  refine ⟨result, bytes, hsaved, ?_⟩
  unfold run
  rw [hparse]
  dsimp only
  rw [hhelp, if_neg Bool.false_ne_true, hrequest]
  exact ⟨congrArg Outcome.ofResult hresult, hfiles⟩

/-- A path that does not lead to what it led to before is the output that was opened. -/
theorem exists_opens_of_entry?_ne {path : Path}
    (h : Files.entry? (run machine words w).2.files path ≠ w.files.entry? path) :
    ∃ text, Opens machine words w text path := by
  by_cases hopened : ∃ text output, Opens machine words w text output
  · obtain ⟨text, output, hopen⟩ := hopened
    obtain ⟨_, bytes, -, -, hfiles⟩ := run_of_opens hopen
    obtain rfl : path = output := by
      by_contra hne
      rw [hfiles] at h
      exact h (Files.entry?_write_of_ne hne hopen.openable.above bytes)
    exact ⟨text, hopen⟩
  · have hsame := run_of_not_opens fun text output hopen => hopened ⟨text, output, hopen⟩
    rw [hsame.2] at h
    exact absurd rfl h

/-- A command opens its output after all else has succeeded. If it does not come to that, it is not
done, and all files are as they were. If it does, all other paths lead to what they led to before,
and the output holds what was saved of the text of the module that was asked for: all of it if the
command is done, none of it if it cannot be encoded, and its first bytes if the device fails. -/
theorem run_files (machine : Machine φ) (words : List String) (w : World φ) :
    ((∀ text path, ¬ Opens machine words w text path) →
      (run machine words w).1 ≠ .done ∧ (run machine words w).2.files = w.files) ∧
    ∀ text path, Opens machine words w text path →
      (∀ p ≠ path, Files.entry? (run machine words w).2.files p = w.files.entry? p) ∧
      ∃ result bytes, Files.Saved machine.device machine.halves path text result bytes ∧
        (run machine words w).1 = .ofResult result ∧
        Files.entry? (run machine words w).2.files path = some (.file bytes) := by
  refine ⟨run_of_not_opens, fun text path h => ?_⟩
  obtain ⟨result, bytes, hsaved, hresult, hfiles⟩ := run_of_opens h
  rw [hfiles]
  exact ⟨fun p hp => Files.entry?_write_of_ne hp h.openable.above bytes, result, bytes, hsaved,
    hresult, w.files.entry?_write_self path bytes⟩

/-! ## A configuration that is overruled -/

/-- A file that holds a text. -/
def fileOf (text : String) : Entry :=
  .file (Text.Utf8.encode text.toList)

/-- A document with two definitions, and a configuration that asks for inlined references without
exports and without a header. -/
def workplace : Files where
  home := ["work"]
  entries := [
    (["work", "document.json"], fileOf (Json.text (.obj [("$defs", .obj [
      ("A", .obj [("type", .str "null")]), ("B", .obj [("$ref", .str "#/$defs/A")])])]))),
    (["work", "config.json"], fileOf (Json.text (.obj [("deep", .bool true),
      ("export", .bool false), ("add_generation_comment", .bool false)])))]

/-- The machine without any programs. -/
def bareMachine : Machine (Formatter.Prettier.State Unit) :=
  .ofRunner (fun _ _ s => (.noProgram, s)) (Text.Halves.block (Fin.last 511))

/-- Some files before anything has been run. -/
def atRest (fs : Files) : World (Formatter.Prettier.State Unit) where
  files := fs
  formatter := { runner := () }

/-- A command whose flags say the opposite of that configuration. -/
def overruling : List String :=
  ["--no-deep", "-n", "B", "--export", "-c", "config.json", "document.json", "types.ts"]

/-- A command that asks for a name that the document does not have, and would write over the
configuration. -/
def mistaken : List String := ["-n", "C", "document.json", "config.json"]

/-- The message that a command ends with, if it fails. -/
def Outcome.message? : Outcome → Option String
  | failed cause => some cause.message
  | explained | refused | done => none

/-- The first command writes what its flags say, the header apart, for which it has no flag; the
second one leaves the configuration alone. -/
theorem run_files_workplace :
    Opens bareMachine overruling (atRest workplace)
        "export type A = null\n\nexport type B = A\n" ["work", "types.ts"] ∧
      Files.entry? (run bareMachine overruling (atRest workplace)).2.files ["work", "types.ts"] =
        some (fileOf "export type A = null\n\nexport type B = A\n") ∧
      (∀ p ≠ ["work", "types.ts"],
        Files.entry? (run bareMachine overruling (atRest workplace)).2.files p =
          workplace.entry? p) ∧
      (∀ text path, ¬ Opens bareMachine mistaken (atRest workplace) text path) ∧
      (run bareMachine mistaken (atRest workplace)).2.files = workplace := by
  have hentry : Files.entry? (run bareMachine overruling (atRest workplace)).2.files
      ["work", "types.ts"] = some (fileOf "export type A = null\n\nexport type B = A\n") := by
    decide +kernel
  have hbefore : workplace.entry? ["work", "types.ts"] = none := by decide +kernel
  have hmessage : (run bareMachine mistaken (atRest workplace)).1.message? =
      some "Schemas not found in document: C" := by decide +kernel
  -- The output was not there before, so it was opened, and what was saved there tells the text.
  obtain ⟨text, hopen⟩ : ∃ text, Opens bareMachine overruling (atRest workplace) text
      ["work", "types.ts"] := by
    refine exists_opens_of_entry?_ne fun h => ?_
    exact Option.some_ne_none _ (hentry.symm.trans (h.trans hbefore))
  obtain ⟨-, hopens⟩ := run_files bareMachine overruling (atRest workplace)
  obtain ⟨hothers, result, bytes, hsaved, -, hbytes⟩ := hopens _ _ hopen
  have hencoded := Entry.file.inj (Option.some.inj (hbytes.symm.trans hentry))
  have hread : Text.Utf8.text? bytes = some text := by
    cases hsaved with
    | whole htext => exact htext
    | empty => exact absurd hencoded (by decide +kernel)
    | cut _ _ hloss => cases hloss
  rw [hencoded, Text.Utf8.text?_eq_some.mpr rfl] at hread
  obtain rfl := Option.some.inj hread
  have hnone : ∀ text path, ¬ Opens bareMachine mistaken (atRest workplace) text path := by
    intro text path hopen
    obtain ⟨-, hmistaken⟩ := run_files bareMachine mistaken (atRest workplace)
    obtain ⟨-, result, bytes, hsaved, hresult, -⟩ := hmistaken text path hopen
    rw [hresult] at hmessage
    cases hsaved with
    | whole => cases hmessage
    | empty => exact absurd hmessage (by decide)
    | cut _ _ hloss => cases hloss
  exact ⟨hopen, hentry, hothers, hnone, ((run_files bareMachine mistaken _).1 hnone).2⟩

/-! ## A text that cannot be encoded -/

/-- A document that escapes half of a surrogate pair, and an output from an earlier run. -/
def torn : Files where
  home := ["work"]
  entries := [
    (["work", "document.json"],
      fileOf "\x7b\"$defs\": \x7b\"A\": \x7b\"enum\": [\"\\ud800\"]\x7d\x7d\x7d"),
    (["work", "types.ts"], fileOf "old")]

/-- The module of such a document is generated, but it cannot be encoded. By then the output has
been opened, and what was in it is lost. -/
theorem run_files_torn :
    (run bareMachine ["document.json", "types.ts"] (atRest torn)).1.message? =
        some "surrogates not allowed" ∧
      torn.entry? ["work", "types.ts"] = some (fileOf "old") ∧
      Files.entry? (run bareMachine ["document.json", "types.ts"] (atRest torn)).2.files
        ["work", "types.ts"] = some (.file []) := by
  decide +kernel

end SchemaTypes.Command

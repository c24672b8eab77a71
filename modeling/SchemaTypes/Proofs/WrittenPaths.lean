import SchemaTypes.Command.Files
import SchemaTypes.Proofs.Renderings

/-!
# Written paths

A written path is read name by name, from one slash to the next. `Files.Means` says this along the
text: every name goes one step further, and a name of dots goes back, or stays. `IsBaseName` says in
the same way which name is the last one. The functions take a written path apart first, into its
components; `Files.means_iff` and its siblings say that they do the same.
-/

namespace SchemaTypes.Command

/-! ## Names and slashes -/

/-- A name that stands for "here". -/
def IsHere (name : String) : Prop :=
  name = "" ∨ name = "."

instance (name : String) : Decidable (IsHere name) :=
  inferInstanceAs (Decidable (_ ∨ _))

/-- Every written path is a name, alone or behind a slash, which may stand behind another written
path. -/
theorem written_induct {P : String → Prop} (name : ∀ n, '/' ∉ n.toList → P n)
    (root : ∀ n, '/' ∉ n.toList → P ("/" ++ n))
    (further : ∀ written n, written ≠ "" → '/' ∉ n.toList → P written → P (written ++ "/" ++ n))
    (written : String) : P written := by
  induction hlength : written.toList.length using Nat.strongRecOn generalizing written with
  | _ length ih =>
    by_cases hslash : '/' ∈ written.toList
    · obtain ⟨back, front, hsplit, hback⟩ :=
        List.eq_append_cons_of_mem (List.mem_reverse.mpr hslash)
      have hlist : written.toList = front.reverse ++ '/' :: back.reverse := by
        rw [← List.reverse_reverse written.toList, hsplit]
        simp
      have hwritten : written =
          String.ofList front.reverse ++ "/" ++ String.ofList back.reverse := by
        rw [← String.toList_inj, hlist]
        simp
      have hname : '/' ∉ (String.ofList back.reverse).toList := by simpa using hback
      rw [hwritten]
      cases front with
      | nil => exact root _ hname
      | cons c front =>
        refine further _ _ (by simp) hname (ih _ ?_ _ rfl)
        rw [← hlength, hlist]
        simp
    · exact name written hslash

namespace Files

/-! ### The components of a written path -/

theorem components_name {name : String} (h : '/' ∉ name.toList) :
    components name = if IsHere name then [] else [name] := by
  unfold components IsHere
  rw [Text.fields_of_not_mem h]
  by_cases hempty : name = "" <;> by_cases hdot : name = "." <;> simp_all

theorem components_further (written name : String) :
    components (written ++ "/" ++ name) = components written ++ components name := by
  have hlist : (written ++ "/" ++ name).toList = written.toList ++ '/' :: name.toList := by simp
  unfold components
  rw [hlist, Text.fields_append_cons, List.map_append, List.filter_append]

theorem components_root (name : String) : components ("/" ++ name) = components name :=
  components_further "" name

variable (fs : Files)

theorem start_name {name : String} (h : '/' ∉ name.toList) : fs.start name = fs.home :=
  if_neg fun hhead => h (List.mem_of_mem_head? hhead)

theorem start_root (name : String) : fs.start ("/" ++ name) = [] := by
  have hlist : ("/" ++ name).toList = '/' :: name.toList := by simp
  unfold start
  rw [hlist]
  rfl

theorem start_further {written : String} (h : written ≠ "") (name : String) :
    fs.start (written ++ "/" ++ name) = fs.start written := by
  have hne : written.toList ≠ [] := by simpa using h
  obtain ⟨c, rest, hlist⟩ := List.exists_cons_of_ne_nil hne
  unfold start
  simp [hlist]

end Files

/-! ## What a written path means -/

/-- A path, gone one name further. -/
def Path.beyond (path : Path) (name : String) : Path :=
  if IsHere name then path else if name = ".." then path.dropLast else path ++ [name]

namespace Files

variable (fs : Files)

/-- A written path means a path, if every step along it starts from a place that is `usable`. -/
inductive Means (usable : Path → Prop) : String → Path → Prop where
  | name {name : String} (hname : '/' ∉ name.toList) (hstart : IsHere name ∨ usable fs.home) :
    Means usable name (fs.home.beyond name)
  | root {name : String} (hname : '/' ∉ name.toList) (hstart : IsHere name ∨ usable []) :
    Means usable ("/" ++ name) (Path.beyond [] name)
  | further {written name : String} {path : Path} (hwritten : written ≠ "")
      (h : Means usable written path) (hname : '/' ∉ name.toList)
      (hstart : IsHere name ∨ usable path) :
    Means usable (written ++ "/" ++ name) (path.beyond name)

/-- Each step along some components starts from a place that is `usable`. -/
def Steps (usable : Path → Prop) : List String → Path → Prop
  | [], _ => True
  | component :: rest, path => usable path ∧ Steps usable rest (descend path component)

variable {fs} {usable : Path → Prop} {written name : String}

theorem steps_append {front back : List String} {path : Path} :
    Steps usable (front ++ back) path ↔
      Steps usable front path ∧ Steps usable back (front.foldl descend path) := by
  induction front generalizing path with
  | nil => simp [Steps]
  | cons component front ih => simp [Steps, ih, and_assoc]

theorem steps_name (h : '/' ∉ name.toList) {path : Path} :
    Steps usable (components name) path ↔ IsHere name ∨ usable path := by
  rw [components_name h]
  split <;> simp_all [Steps]

theorem foldl_name (h : '/' ∉ name.toList) (path : Path) :
    (components name).foldl descend path = path.beyond name := by
  rw [components_name h]
  unfold Path.beyond descend
  split <;> rfl

theorem resolve_name (h : '/' ∉ name.toList) : fs.resolve name = fs.home.beyond name := by
  unfold resolve
  rw [fs.start_name h, foldl_name h]

theorem resolve_root (h : '/' ∉ name.toList) : fs.resolve ("/" ++ name) = Path.beyond [] name := by
  unfold resolve
  rw [fs.start_root, components_root, foldl_name h]

theorem resolve_further (hwritten : written ≠ "") (h : '/' ∉ name.toList) :
    fs.resolve (written ++ "/" ++ name) = (fs.resolve written).beyond name := by
  unfold resolve
  rw [fs.start_further hwritten, components_further, List.foldl_append, foldl_name h]

/-- A written path means what it is resolved to, if the steps along its components are possible. -/
theorem means_iff {path : Path} :
    fs.Means usable written path ↔
      Steps usable (components written) (fs.start written) ∧ path = fs.resolve written := by
  constructor
  · intro h
    induction h with
    | name hname hstart =>
      rw [fs.start_name hname, steps_name hname, resolve_name hname]
      exact ⟨hstart, rfl⟩
    | root hname hstart =>
      rw [fs.start_root, components_root, steps_name hname, resolve_root hname]
      exact ⟨hstart, rfl⟩
    | further hwritten _ hname hstart ih =>
      obtain ⟨hsteps, rfl⟩ := ih
      rw [fs.start_further hwritten, components_further, steps_append, steps_name hname,
        resolve_further hwritten hname]
      exact ⟨⟨hsteps, hstart⟩, rfl⟩
  · rintro ⟨hsteps, rfl⟩
    induction written using written_induct with
    | name name hname =>
      rw [fs.start_name hname, steps_name hname] at hsteps
      rw [resolve_name hname]
      exact .name hname hsteps
    | root name hname =>
      rw [fs.start_root, components_root, steps_name hname] at hsteps
      rw [resolve_root hname]
      exact .root hname hsteps
    | further written name hwritten hname ih =>
      rw [fs.start_further hwritten, components_further, steps_append, steps_name hname] at hsteps
      rw [resolve_further hwritten hname]
      exact .further hwritten (ih hsteps.1) hname hsteps.2

/-- Without conditions on its steps, a written path means what it is resolved to. -/
theorem means_iff_eq_resolve {path : Path} :
    fs.Means (fun _ => True) written path ↔ path = fs.resolve written := by
  have hsteps : ∀ (components : List String) (path : Path),
      Steps (fun _ => True) components path := by
    intro components
    induction components with
    | nil => exact fun _ => trivial
    | cons component rest ih => exact fun path => ⟨trivial, ih _⟩
  rw [means_iff, and_iff_right (hsteps _ _)]

/-! ## Written paths that lead somewhere -/

variable (fs)

/-- A written path leads to a file or a directory, going from directory to directory. -/
structure Leads (written : String) : Prop where
  noNull : '\x00' ∉ written.toList
  means : ∃ path, fs.Means (fs.isDirectory · = true) written path ∧ (fs.entry? path).isSome = true

/-- Along some components, as far as there are directories, no name is too long. -/
def StepsFit : List String → Path → Prop
  | [], _ => True
  | component :: rest, path => fs.isDirectory path = true →
    component.utf8ByteSize ≤ 255 ∧ StepsFit rest (descend path component)

/-- A written path can be looked for: neither it nor a name in it is too long. One that holds the
null character leads nowhere anyway. -/
def IsBearable (written : String) : Prop :=
  '\x00' ∈ written.toList ∨
    (tidy written).utf8ByteSize ≤ 4095 ∧ fs.StepsFit (components written) (fs.start written)

variable {fs}

/-- A walk comes to an end if no name is too long, and it ends where there is no further step. -/
theorem walk_eq_ok {components : List String} {path : Path} {found : Option Path} :
    fs.walk components path = .ok found ↔ fs.StepsFit components path ∧
      (Steps (fs.isDirectory · = true) components path ∧
          found = some (components.foldl descend path) ∨
        ¬ Steps (fs.isDirectory · = true) components path ∧ found = none) := by
  induction components generalizing path with
  | nil =>
    simp only [walk, StepsFit, Steps, true_and, not_true, false_and, or_false, List.foldl_nil,
      Except.ok.injEq]
    exact eq_comm
  | cons component rest ih =>
    rw [walk, StepsFit, Steps]
    cases hdir : fs.isDirectory path with
    | false =>
      simp only [Bool.not_false, if_true, Except.ok.injEq, Bool.false_eq_true, false_implies,
        true_and, false_and, not_false_eq_true, false_or]
      exact eq_comm
    | true =>
      by_cases hsize : component.utf8ByteSize > componentLimit
      · have hnot : ¬ component.utf8ByteSize ≤ 255 := Nat.not_le.mpr hsize
        simp [hsize, hnot]
      · have hfits : component.utf8ByteSize ≤ 255 := Nat.not_lt.mp hsize
        simp [hsize, hfits, ih]

theorem hasNull_iff : hasNull written = true ↔ '\x00' ∈ written.toList := by
  unfold hasNull
  rw [List.contains_iff_mem]

theorem leads_iff :
    fs.Leads written ↔ '\x00' ∉ written.toList ∧
      Steps (fs.isDirectory · = true) (components written) (fs.start written) ∧
      (fs.entry? (fs.resolve written)).isSome = true := by
  constructor
  · rintro ⟨hnull, path, hmeans, hpresent⟩
    obtain ⟨hsteps, rfl⟩ := means_iff.mp hmeans
    exact ⟨hnull, hsteps, hpresent⟩
  · rintro ⟨hnull, hsteps, hpresent⟩
    exact ⟨hnull, _, means_iff.mpr ⟨hsteps, rfl⟩, hpresent⟩

/-- Looking for a written path, if this is possible, finds out whether it leads somewhere. -/
theorem holds_eq_ok {held : Bool} :
    fs.holds written = .ok held ↔ fs.IsBearable written ∧ (held = true ↔ fs.Leads written) := by
  rw [leads_iff]
  unfold holds IsBearable
  by_cases hnull : '\x00' ∈ written.toList
  · rw [if_pos (hasNull_iff.mpr hnull)]
    constructor
    · intro h
      obtain rfl := Except.ok.inj h
      exact ⟨.inl hnull, nofun, fun hleads => absurd hnull hleads.1⟩
    · rintro ⟨-, hheld⟩
      cases held with
      | false => rfl
      | true => exact absurd hnull (hheld.mp rfl).1
  · rw [if_neg (mt hasNull_iff.mp hnull)]
    by_cases hsize : (tidy written).utf8ByteSize > pathLimit
    · have hnot : ¬ (tidy written).utf8ByteSize ≤ 4095 := Nat.not_le.mpr hsize
      simp [hsize, hnot, hnull]
    · have hfits : (tidy written).utf8ByteSize ≤ 4095 := Nat.not_lt.mp hsize
      rw [if_neg hsize]
      simp only [hnull, hfits, false_or, true_and, not_false_eq_true, bind_eq_ok, walk_eq_ok]
      constructor
      · rintro ⟨found, ⟨hfit, ⟨hsteps, rfl⟩ | ⟨hsteps, rfl⟩⟩, hheld⟩
        · obtain rfl := Except.ok.inj hheld
          exact ⟨hfit, by simp [hsteps, resolve]⟩
        · obtain rfl := Except.ok.inj hheld
          exact ⟨hfit, by simp [hsteps]⟩
      · rintro ⟨hfit, hheld⟩
        by_cases hsteps : Steps (fs.isDirectory · = true) (components written) (fs.start written)
        · refine ⟨_, ⟨hfit, .inl ⟨hsteps, rfl⟩⟩, congrArg Except.ok ?_⟩
          exact Bool.eq_iff_iff.mpr (by simp [hheld, hsteps, resolve])
        · refine ⟨_, ⟨hfit, .inr ⟨hsteps, rfl⟩⟩, congrArg Except.ok ?_⟩
          exact Bool.eq_iff_iff.mpr (by simp [hheld, hsteps])

end Files

/-! ## The last name -/

/-- The last name of a written path, apart from those for "here"; it may be blank. -/
inductive IsBaseName : String → String → Prop where
  | blank {name : String} (hhere : IsHere name) : IsBaseName name ""
  | name {name : String} (hname : '/' ∉ name.toList) (hhere : ¬ IsHere name) :
    IsBaseName name name
  | here {written name base : String} (h : IsBaseName written base) (hhere : IsHere name) :
    IsBaseName (written ++ "/" ++ name) base
  | further {written name : String} (hname : '/' ∉ name.toList) (hhere : ¬ IsHere name) :
    IsBaseName (written ++ "/" ++ name) name

theorem IsHere.noSlash {name : String} (h : IsHere name) : '/' ∉ name.toList := by
  rcases h with rfl | rfl <;> decide

theorem baseName_of_isHere {name : String} (h : IsHere name) : baseName name = "" := by
  unfold baseName
  rw [Files.components_name h.noSlash, if_pos h]
  rfl

theorem baseName_name {name : String} (hname : '/' ∉ name.toList) (h : ¬ IsHere name) :
    baseName name = name := by
  unfold baseName
  rw [Files.components_name hname, if_neg h]
  rfl

theorem baseName_here (written : String) {name : String} (h : IsHere name) :
    baseName (written ++ "/" ++ name) = baseName written := by
  unfold baseName
  rw [Files.components_further, Files.components_name h.noSlash, if_pos h, List.append_nil]

theorem baseName_further (written : String) {name : String} (hname : '/' ∉ name.toList)
    (h : ¬ IsHere name) : baseName (written ++ "/" ++ name) = name := by
  unfold baseName
  rw [Files.components_further, Files.components_name hname, if_neg h]
  simp

theorem isBaseName_iff {written base : String} :
    IsBaseName written base ↔ base = baseName written := by
  constructor
  · intro h
    induction h with
    | blank hhere => rw [baseName_of_isHere hhere]
    | name hname hhere => rw [baseName_name hname hhere]
    | here _ hhere ih => rw [baseName_here _ hhere, ih]
    | further hname hhere => rw [baseName_further _ hname hhere]
  · rintro rfl
    have hfurther : ∀ written name, '/' ∉ name.toList → IsBaseName written (baseName written) →
        IsBaseName (written ++ "/" ++ name) (baseName (written ++ "/" ++ name)) := by
      intro written name hname ih
      by_cases hhere : IsHere name
      · rw [baseName_here _ hhere]
        exact .here ih hhere
      · rw [baseName_further _ hname hhere]
        exact .further hname hhere
    induction written using written_induct with
    | name name hname =>
      by_cases hhere : IsHere name
      · rw [baseName_of_isHere hhere]
        exact .blank hhere
      · rw [baseName_name hname hhere]
        exact .name hname hhere
    | root name hname => exact hfurther "" name hname (.blank (.inl rfl))
    | further written name _ hname ih => exact hfurther written name hname ih

end SchemaTypes.Command

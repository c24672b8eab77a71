import SchemaTypes.Formatter.Prettier
import SchemaTypes.Proofs.Shadows

/-!
# The calls of a formatting program

Nothing is known of the runner of programs, so what it does is noted call by call: `noting` makes a
runner who keeps a log. A call is harmless if it leaves code as it is without failing
(`Call.isHarmless`), and formatting gives the code back unless a call in the log has done harm
(`format_ends`). The log only grows, and apart from it nothing is changed by noting.
-/

namespace SchemaTypes

variable {α β : Type}

namespace Formatter.Prettier

/-- A run of a program. -/
structure Call where
  command : Command
  input : Option String
  outcome : Outcome

/-- Whether a call leaves code as it is and does not fail either: a probe may end in any way but for
want of permission, and a run that formats has to end badly, the program being there. -/
def Call.isHarmless (c : Call) : Bool :=
  match c.input, c.outcome with
  | none, .notPermitted => false
  | none, _ => true
  | some _, .exited status _ => status != 0
  | some _, .timedOut | some _, .brokeOff => true
  | some _, .noProgram | some _, .notPermitted => false

variable {ρ : Type}

/-- A runner who notes every call. -/
def noting (runner : Runner ρ) : Runner (ρ × List Call) := fun command input s =>
  let (outcome, r) := runner command input s.1
  (outcome, (r, s.2 ++ [⟨command, input, outcome⟩]))

/-- A call did harm. -/
def Harmed (s : State (ρ × List Call)) : Prop :=
  ∃ c ∈ s.runner.2, c.isHarmless = false

/-- The state without the notes. -/
def State.plain (s : State (ρ × List Call)) : State ρ :=
  ⟨s.known, s.runner.1⟩

variable (runner : Runner ρ)

/-! ### The log grows -/

/-- A step only adds to the log. -/
def Grows (step : Step (State (ρ × List Call)) α) : Prop :=
  ∀ s, s.runner.2 <+: (step s).2.runner.2

theorem Grows.keeps_harmed {step : Step (State (ρ × List Call)) α} (h : Grows step) :
    step.Keeps Harmed fun _ => Harmed := by
  rintro s ⟨c, hc, hharm⟩
  exact Step.ends_both.mpr ⟨c, (h s).mem hc, hharm⟩

theorem Grows.andThen {first : Step (State (ρ × List Call)) α}
    {next : α → Step (State (ρ × List Call)) β} (hfirst : Grows first)
    (hnext : ∀ a, Grows (next a)) : Grows (first.andThen next) := by
  intro s
  have hs := hfirst s
  unfold Step.andThen
  rcases hrun : first s with ⟨e | a, t⟩ <;> rw [hrun] at hs
  · exact hs
  · exact hs.trans (hnext a t)

/-- A probe is noted, however it ends. -/
theorem probe_log (command : Command) (s : State (ρ × List Call)) :
    (probe (noting runner) command s).2.runner.2 = s.runner.2 ++
      [⟨command ++ [.str "--version"], none,
        (runner (command ++ [.str "--version"]) none s.runner.1).1⟩] := by
  unfold probe noting
  dsimp only
  split <;> rfl

theorem isAvailable_grows (own : Json) (options : Option Options) :
    Grows (isAvailable (noting runner) own options) := by
  intro s
  unfold isAvailable
  dsimp only
  split
  · exact List.prefix_rfl
  · split
    · exact List.prefix_rfl
    · rw [probe_log]
      exact List.prefix_append _ _

theorem formatNow_grows (own : Json) (code : String) (options : Option Options) :
    Grows (formatNow (noting runner) own code options) := by
  intro s
  unfold formatNow noting
  split
  · exact List.prefix_rfl
  · exact List.prefix_append _ _

theorem format_grows (own : Json) (code : String) (options : Option Options) :
    Grows (format (noting runner) own code options) := by
  refine (isAvailable_grows runner own options).andThen fun available => ?_
  split
  · exact formatNow_grows runner own code options
  · exact fun s => List.prefix_rfl

/-! ### Forgetting the log -/

theorem probe_shadows (command : Command) :
    Step.Shadows State.plain (probe (noting runner) command) (probe runner command) := by
  intro s
  unfold probe noting State.plain
  dsimp only
  split <;> rfl

theorem isAvailable_shadows (own : Json) (options : Option Options) :
    Step.Shadows State.plain (isAvailable (noting runner) own options)
      (isAvailable runner own options) := by
  intro s
  unfold isAvailable
  dsimp only
  split
  · rfl
  · next command _ =>
    have hknown : s.plain.known = s.known := rfl
    rw [hknown]
    cases s.known.lookup command with
    | some available => rfl
    | none => exact probe_shadows runner command s

theorem formatNow_shadows (own : Json) (code : String) (options : Option Options) :
    Step.Shadows State.plain (formatNow (noting runner) own code options)
      (formatNow runner own code options) := by
  intro s
  unfold formatNow noting State.plain
  split <;> rfl

/-- Apart from the notes, noting changes nothing. -/
theorem format_shadows (own : Json) (code : String) (options : Option Options) :
    Step.Shadows State.plain (format (noting runner) own code options)
      (format runner own code options) := by
  refine (isAvailable_shadows runner own options).andThen fun available => ?_
  split
  · exact formatNow_shadows runner own code options
  · exact fun s => rfl

/-! ### Harmless calls -/

/-- Options with a command that is a list of texts. -/
def HasWords (o : Options) : Prop :=
  ∃ words : List String, o.command = .arr (words.map .str)

/-- The command of such options consists of texts, whether it is their own or the usual one. -/
theorem exists_baseCommand {o : Options} (h : HasWords o) :
    ∃ words : List String, baseCommand .null (some o) = .ok (words.map .str) := by
  obtain ⟨words, hwords⟩ := h
  unfold baseCommand
  rw [if_neg (by decide)]
  dsimp only [Option.map]
  split
  · exact ⟨words, by rw [hwords]; rfl⟩
  · exact ⟨["prettier"], rfl⟩

theorem checkKey_texts (words : List String) : checkKey (words.map .str) = .ok () := by
  have hfind : (words.map Json.str).find? Json.isContainer = none := by
    simp [Json.isContainer]
  unfold checkKey
  rw [hfind]

theorem checkText_texts (words : List String) : checkText (words.map .str) = .ok () := by
  have hfind : (words.map Json.str).find? (·.kind ≠ .str) = none := by
    simp [Json.kind]
  unfold checkText
  rw [hfind]

/-- A probe of a command that consists of texts says what its outcome says. -/
theorem probe_texts (words : List String) (s : State ρ) :
    (probe runner (words.map .str) s).1 =
      (runner (words.map .str ++ [.str "--version"]) none s.runner).1.availability := by
  unfold probe
  dsimp only
  rw [checkText_texts]
  cases (runner (words.map .str ++ [.str "--version"]) none s.runner).1.availability with
  | error e => rfl
  | ok available => cases available <;> rfl

/-- A probe tells whether the command is available, unless it does harm. -/
theorem probe_ends (words : List String) (s : State (ρ × List Call)) :
    Harmed (probe (noting runner) (words.map .str) s).2 ∨
      ∃ available, (probe (noting runner) (words.map .str) s).1 = .ok available := by
  rw [probe_texts]
  have hlog := probe_log runner (words.map .str) s
  change _ ∨ ∃ available,
    (runner (words.map .str ++ [.str "--version"]) none s.runner.1).1.availability = .ok available
  cases houtcome : (runner (words.map .str ++ [.str "--version"]) none s.runner.1).1 with
  | notPermitted =>
    rw [houtcome] at hlog
    exact .inl ⟨_, by rw [hlog]; exact List.mem_append_right _ (List.mem_singleton_self _), rfl⟩
  | exited status output => exact .inr ⟨_, rfl⟩
  | noProgram | timedOut | brokeOff => exact .inr ⟨false, rfl⟩

theorem isAvailable_ends {o : Options} (h : HasWords o) (s : State (ρ × List Call)) :
    Harmed (isAvailable (noting runner) .null (some o) s).2 ∨
      ∃ available, (isAvailable (noting runner) .null (some o) s).1 = .ok available := by
  obtain ⟨words, hwords⟩ := exists_baseCommand h
  unfold isAvailable
  rw [hwords]
  dsimp only [bind, Except.bind]
  rw [checkKey_texts]
  dsimp only [pure, Except.pure]
  cases s.known.lookup (words.map Json.str) with
  | some available => exact .inr ⟨available, rfl⟩
  | none => exact probe_ends runner words s

/-- A run that formats leaves the code as it is, unless it does harm. -/
theorem formatNow_ends {o : Options} (h : HasWords o) (code : String)
    (s : State (ρ × List Call)) :
    Harmed (formatNow (noting runner) .null code (some o) s).2 ∨
      (formatNow (noting runner) .null code (some o) s).1 = .ok code := by
  obtain ⟨words, hwords⟩ := exists_baseCommand h
  obtain ⟨command, hcommand⟩ : ∃ command, buildCommand .null (some o) = .ok command := by
    unfold buildCommand
    rw [hwords]
    exact ⟨_, rfl⟩
  unfold formatNow
  rw [hcommand]
  unfold noting
  dsimp only
  cases houtcome : (runner command (some code) s.runner.1).1 with
  | exited status output =>
    by_cases hstatus : status = 0
    · exact .inl ⟨⟨command, some code, .exited status output⟩,
        List.mem_append_right _ (List.mem_singleton_self _), by rw [hstatus]; rfl⟩
    · exact .inr (congrArg Except.ok (if_neg hstatus))
  | timedOut | brokeOff => exact .inr rfl
  | noProgram =>
    exact .inl ⟨⟨command, some code, .noProgram⟩,
      List.mem_append_right _ (List.mem_singleton_self _), rfl⟩
  | notPermitted =>
    exact .inl ⟨⟨command, some code, .notPermitted⟩,
      List.mem_append_right _ (List.mem_singleton_self _), rfl⟩

/-- Formatting leaves the code as it is, unless a call does harm. -/
theorem format_ends {o : Options} (h : HasWords o) (code : String) (s : State (ρ × List Call)) :
    Harmed (format (noting runner) .null code (some o) s).2 ∨
      (format (noting runner) .null code (some o) s).1 = .ok code := by
  unfold format Step.andThen
  have havailable := isAvailable_ends runner h s
  rcases hrun : isAvailable (noting runner) .null (some o) s with ⟨e | available, t⟩ <;>
    rw [hrun] at havailable
  · rcases havailable with hharm | ⟨available, hok⟩
    · exact .inl hharm
    · cases hok
  · cases available with
    | true => exact formatNow_ends runner h code t
    | false => exact .inr rfl

end Formatter.Prettier

end SchemaTypes

import SchemaTypes.Proofs.ProgramCalls
import SchemaTypes.Proofs.Renderings

/-!
# Sessions with a formatting program

A formatter that runs a program is asked whether the program is available, and is given code to
format, any number of times and under any options. `session` serves such requests one after the
other, whether they fail or not, and notes for each of them the answer and the calls that were made.

What a request does can be told from the calls made before it, whatever the runner is
(`Event.Follows`): a probe among them that said something settles whether the command is available,
and without one the command is probed. Only then it goes on to run the command on code, if that was
asked for. This holds for each request of a session (`session_follows`), since what is known of
commands is what probes among the earlier calls said (`Remembers`).
-/

namespace SchemaTypes.Formatter.Prettier

/-! ## Requests -/

/-- What is asked of a formatter. -/
inductive Request where
  /-- Whether the command for some options is available. -/
  | availability (options : Option Options)
  /-- To format code under some options. -/
  | formatting (code : String) (options : Option Options)

/-- What a request is answered with, unless it fails. -/
inductive Answer where
  | available (yes : Bool)
  | text (code : String)
deriving DecidableEq

/-- A request that was served: its answer, and the calls that were made for it. -/
structure Event where
  request : Request
  answer : Except Failure Answer
  calls : List Call

section Serving

variable {ρ : Type}

/-- The options of a request. -/
def Request.options : Request → Option Options
  | availability options | formatting _ options => options

/-- Serves a request. -/
def Request.serve (runner : Runner ρ) (own : Json) : Request → Step (State ρ) Answer
  | availability options =>
    (isAvailable runner own options).andThen fun yes => Step.ofExcept (.ok (.available yes))
  | formatting code options =>
    (format runner own code options).andThen fun text => Step.ofExcept (.ok (.text text))

/-- What is left to do for a request when it is known whether the command is available. -/
def Request.work (runner : Runner ρ) (own : Json) (q : Request) (yes : Bool) :
    Step (State ρ) Answer :=
  match q with
  | availability _ => Step.ofExcept (.ok (.available yes))
  | formatting code options =>
    (if yes then formatNow runner own code options else Step.ofExcept (.ok code)).andThen
      fun text => Step.ofExcept (.ok (.text text))

/-- Every request begins with the question whether the command is available. -/
theorem serve_eq (runner : Runner ρ) (own : Json) (q : Request) :
    q.serve runner own = (isAvailable runner own q.options).andThen (q.work runner own) := by
  cases q with
  | availability options => rfl
  | formatting code options =>
    funext s
    change ((isAvailable runner own options).andThen _).andThen _ s =
      (isAvailable runner own options).andThen _ s
    unfold Step.andThen
    rcases isAvailable runner own options s with ⟨e | yes, t⟩ <;> rfl

/-- A state with no notes yet. -/
def State.unnoted (s : State ρ) : State (ρ × List Call) :=
  ⟨s.known, (s.runner, [])⟩

/-- Serves a request and notes what happens. -/
def Request.event (runner : Runner ρ) (own : Json) (q : Request) (s : State ρ) :
    Event × State ρ :=
  let (answer, t) := q.serve (noting runner) own s.unnoted
  (⟨q, answer, t.runner.2⟩, t.plain)

/-- Serves some requests one after the other and notes what happens. -/
def session (runner : Runner ρ) (own : Json) : List Request → State ρ → List Event × State ρ
  | [], s => ([], s)
  | q :: rest, s =>
    ((q.event runner own s).1 :: (session runner own rest (q.event runner own s).2).1,
      (session runner own rest (q.event runner own s).2).2)

theorem serve_shadows (runner : Runner ρ) (own : Json) (q : Request) :
    Step.Shadows State.plain (q.serve (noting runner) own) (q.serve runner own) := by
  cases q with
  | availability options => exact (isAvailable_shadows runner own options).andThen fun _ _ => rfl
  | formatting code options => exact (format_shadows runner own code options).andThen fun _ _ => rfl

/-- Apart from the notes, a request is served as it is without them. -/
theorem event_eq_serve (runner : Runner ρ) (own : Json) (q : Request) (s : State ρ) :
    ((q.event runner own s).1.answer, (q.event runner own s).2) = q.serve runner own s :=
  (serve_shadows runner own q s.unnoted).symm

/-- A request to format is answered with what formatting gives. -/
theorem answer_formatting (runner : Runner ρ) (own : Json) (code : String)
    (options : Option Options) (s : State ρ) :
    ((Request.formatting code options).event runner own s).1.answer =
      Answer.text <$> (format runner own code options s).1 := by
  refine (congrArg Prod.fst (event_eq_serve runner own (.formatting code options) s)).trans ?_
  change ((format runner own code options).andThen _ s).1 = _
  unfold Step.andThen
  rcases format runner own code options s with ⟨e | text, t⟩ <;> rfl

end Serving

/-! ## Probes -/

/-- A call probes a command for its version. -/
def Call.IsProbe (command : Command) (c : Call) : Prop :=
  c.input = none ∧ c.command = command ++ [.str "--version"]

/-- A call probes one command. -/
theorem Call.IsProbe.unique {command other : Command} {c : Call} (h : c.IsProbe command)
    (h' : c.IsProbe other) : command = other :=
  List.append_cancel_right (h.2.symm.trans h'.2)

theorem availability_eq_error_iff {o : Outcome} {e : Failure} :
    o.availability = .error e ↔ o = .notPermitted ∧ e = .notPermitted := by
  cases o <;> simp [Outcome.availability, eq_comm]

theorem availability_eq_true_iff {o : Outcome} :
    o.availability = .ok true ↔ ∃ output, o = .exited 0 output := by
  cases o <;> simp [Outcome.availability]

/-- A probe says something unless it was not permitted. -/
theorem exists_availability {o : Outcome} (h : o ≠ .notPermitted) :
    ∃ b, o.availability = .ok b := by
  cases hb : o.availability with
  | ok b => exact ⟨b, rfl⟩
  | error e => exact absurd (availability_eq_error_iff.mp hb).1 h

theorem ne_notPermitted_of_availability {o : Outcome} {b : Bool} (h : o.availability = .ok b) :
    o ≠ .notPermitted := by
  rintro rfl
  cases h

/-! ## Commands -/

/-- A formatter's own command: a list of texts, or nothing. -/
def IsCommand (own : Json) : Prop :=
  own = .null ∨ ∃ words : List String, own = .arr (words.map .str)

/-- The command that is used consists of texts, wherever it comes from. -/
theorem exists_words {own : Json} (hown : IsCommand own) {options : Option Options}
    (hoptions : ∀ o ∈ options, HasWords o) :
    ∃ words : List String, baseCommand own options = .ok (words.map .str) := by
  unfold baseCommand
  split
  · next htruthy =>
    rcases hown with rfl | ⟨words, rfl⟩
    · cases htruthy
    · exact ⟨words, rfl⟩
  · cases options with
    | none => exact ⟨["prettier"], rfl⟩
    | some o =>
      obtain ⟨words, hwords⟩ := hoptions o rfl
      dsimp only [Option.map]
      split
      · exact ⟨words, by rw [hwords]; rfl⟩
      · exact ⟨["prettier"], rfl⟩

/-- The command that formats starts with the command that is used. -/
theorem exists_flags {own : Json} {o : Options} {base : Command}
    (hbase : baseCommand own (some o) = .ok base) :
    ∃ flags, buildCommand own (some o) = .ok (base ++ flags) := by
  unfold buildCommand
  rw [hbase]
  dsimp only [bind, Except.bind, pure, Except.pure]
  simp only [List.append_assoc]
  exact ⟨_, rfl⟩

/-- Commands of texts are the same key if the texts are the same. -/
theorem beq_texts (words others : List String) :
    (words.map Json.str == others.map Json.str) = (words == others) := by
  induction words generalizing others with
  | nil => cases others <;> rfl
  | cons w words ih =>
    cases others with
    | nil => rfl
    | cons o others =>
      rw [List.map_cons, List.map_cons, List.cons_beq_cons, List.cons_beq_cons, ih]
      rfl

/-! ## One request -/

/-- How it is found out whether a command is available, in a certain state: it is known, or else the
command is probed, and it is known from then on what the probe says. -/
inductive Checked (command : Command) {ρ : Type} (s : State ρ) :
    List Call → Except Failure Bool → State ρ → Prop
  | known {b : Bool} : s.known.lookup command = some b → Checked command s [] (.ok b) s
  | probed {c : Call} {r : ρ} : s.known.lookup command = none → c.IsProbe command →
    Checked command s [c] c.outcome.availability
      ⟨s.known ++ (c.outcome.availability.toOption.map (command, ·)).toList, r⟩

/-- How a request goes on when it was found out whether the command is available. -/
inductive Worked (own : Json) :
    Request → Except Failure Bool → List Call → Except Failure Answer → Prop
  | failed (q : Request) (e : Failure) : Worked own q (.error e) [] (.error e)
  | told (options : Option Options) (b : Bool) :
    Worked own (.availability options) (.ok b) [] (.ok (.available b))
  | unavailable (code : String) (options : Option Options) :
    Worked own (.formatting code options) (.ok false) [] (.ok (.text code))
  | unguided (code : String) :
    Worked own (.formatting code none) (.ok true) [] (.error (.notObject .null))
  | run {code : String} {o : Options} {c : Call} : buildCommand own (some o) = .ok c.command →
    c.input = some code →
    Worked own (.formatting code (some o)) (.ok true) [c]
      (Answer.text <$> c.outcome.formatted c.command code)

theorem Checked.input_eq_none {command : Command} {ρ : Type} {s t : State ρ} {check : List Call}
    {found : Except Failure Bool} (h : Checked command s check found t) :
    ∀ c ∈ check, c.input = none := by
  cases h with
  | known => simp
  | probed _ hprobe => simp [hprobe.1]

/-- All calls for the work itself have code as their input. -/
theorem Worked.input_ne_none {own : Json} {q : Request} {found : Except Failure Bool}
    {work : List Call} {answer : Except Failure Answer} (h : Worked own q found work answer) :
    ∀ c ∈ work, c.input ≠ none := by
  cases h with
  | run _ hinput => simp [hinput]
  | _ => simp

section Step

variable {ρ : Type} (runner : Runner ρ) {own : Json} {options : Option Options}
  {words : List String}

/-- A probe of a command that consists of texts is kept if it says something. -/
theorem probe_texts_eq (words : List String) (s : State ρ) :
    probe runner (words.map .str) s =
      ((runner (words.map .str ++ [.str "--version"]) none s.runner).1.availability,
        ⟨s.known ++ ((runner (words.map .str ++ [.str "--version"]) none
            s.runner).1.availability.toOption.map (words.map .str, ·)).toList,
          (runner (words.map .str ++ [.str "--version"]) none s.runner).2⟩) := by
  unfold probe
  dsimp only
  rw [checkText_texts]
  cases (runner (words.map .str ++ [.str "--version"]) none s.runner).1.availability with
  | error e => simp [bind, Except.bind, Except.toOption]
  | ok available => cases available <;> rfl

theorem isAvailable_checked (hwords : baseCommand own options = .ok (words.map .str))
    (s : State ρ) :
    Checked (words.map .str) s (isAvailable (noting runner) own options s.unnoted).2.runner.2
      (isAvailable (noting runner) own options s.unnoted).1
      (isAvailable (noting runner) own options s.unnoted).2.plain := by
  unfold isAvailable
  rw [hwords]
  dsimp only [bind, Except.bind]
  rw [checkKey_texts]
  dsimp only [pure, Except.pure]
  have hsame : s.unnoted.known = s.known := rfl
  rw [hsame]
  cases hlookup : s.known.lookup (words.map Json.str) with
  | some b => exact .known hlookup
  | none =>
    dsimp only
    rw [probe_texts_eq]
    exact .probed hlookup ⟨rfl, rfl⟩

theorem formatNow_eq {command : Command} (hbuild : buildCommand own options = .ok command)
    (code : String) (s : State ρ) :
    formatNow runner own code options s =
      ((runner command (some code) s.runner).1.formatted command code,
        ⟨s.known, (runner command (some code) s.runner).2⟩) := by
  unfold formatNow
  rw [hbuild]

theorem formatNow_of_error {e : Failure} (hbuild : buildCommand own options = .error e)
    (code : String) (s : State ρ) : formatNow runner own code options s = (.error e, s) := by
  unfold formatNow
  rw [hbuild]

/-- Code that is asked for when the command is available is what the run of the command gives. -/
theorem work_formatting (code : String) (options : Option Options) (s : State ρ) :
    (Request.formatting code options).work runner own true s =
      (Answer.text <$> (formatNow runner own code options s).1,
        (formatNow runner own code options s).2) := by
  change (formatNow runner own code options).andThen _ s = _
  unfold Step.andThen
  rcases formatNow runner own code options s with ⟨e | text, t⟩ <;> rfl

/-- The work for a request is noted behind what was noted before, and nothing new is known of
commands after it. -/
theorem exists_work {q : Request} {base : Command} (hbase : baseCommand own q.options = .ok base)
    (yes : Bool) (t : State (ρ × List Call)) :
    ∃ work, Worked own q (.ok yes) work (q.work (noting runner) own yes t).1 ∧
      (q.work (noting runner) own yes t).2.runner.2 = t.runner.2 ++ work ∧
      (q.work (noting runner) own yes t).2.known = t.known := by
  cases q with
  | availability options => exact ⟨[], .told options yes, (List.append_nil _).symm, rfl⟩
  | formatting code options =>
    cases yes with
    | false => exact ⟨[], .unavailable code options, (List.append_nil _).symm, rfl⟩
    | true =>
      rw [work_formatting]
      cases options with
      | none =>
        have hbuild : buildCommand own none = .error (.notObject .null) := by
          change (baseCommand own none >>= _) = _
          change baseCommand own none = .ok base at hbase
          rw [hbase]
          rfl
        rw [formatNow_of_error _ hbuild]
        exact ⟨[], .unguided code, (List.append_nil _).symm, rfl⟩
      | some o =>
        obtain ⟨flags, hbuild⟩ := exists_flags hbase
        rw [formatNow_eq _ hbuild]
        exact ⟨[⟨base ++ flags, some code, (runner (base ++ flags) (some code) t.runner.1).1⟩],
          .run hbuild rfl, rfl, rfl⟩

/-- A request checks whether the command is available, and goes on from there; what is known of
commands comes from the check. -/
theorem event_cases {q : Request} (hwords : baseCommand own q.options = .ok (words.map .str))
    (s : State ρ) :
    ∃ check found t work, Checked (words.map .str) s check found t ∧
      Worked own q found work (q.event runner own s).1.answer ∧
      (q.event runner own s).1.calls = check ++ work ∧
      (q.event runner own s).2.known = t.known := by
  have hchecked := isAvailable_checked runner hwords s
  unfold Request.event
  rw [serve_eq]
  unfold Step.andThen
  generalize isAvailable (noting runner) own q.options s.unnoted = end_ at hchecked ⊢
  rcases end_ with ⟨e | yes, t⟩
  · exact ⟨_, _, _, [], hchecked, .failed q e, (List.append_nil _).symm, rfl⟩
  · obtain ⟨work, hworked, hcalls, hknown⟩ := exists_work runner hwords yes t
    exact ⟨_, _, _, work, hchecked, hworked, hcalls, hknown⟩

end Step

/-! ## Whole sessions -/

/-- How it is found out whether a command is available, when some calls were made before: a probe
among them said something, or else none did and the command is probed. -/
inductive Found (command : Command) (past : List Call) : List Call → Except Failure Bool → Prop
  | told {c : Call} {b : Bool} : c ∈ past → c.IsProbe command → c.outcome.availability = .ok b →
    Found command past [] (.ok b)
  | asked {c : Call} : (∀ d ∈ past, d.IsProbe command → d.outcome = .notPermitted) →
    c.IsProbe command → Found command past [c] c.outcome.availability

/-- An event is what a request leads to when some calls were made before it. -/
def Event.Follows (own : Json) (past : List Call) (e : Event) : Prop :=
  ∃ words check found work, baseCommand own e.request.options = .ok (List.map Json.str words) ∧
    Found (words.map .str) past check found ∧ Worked own e.request found work e.answer ∧
    e.calls = check ++ work

/-- What is known of commands is what probes among some calls said. -/
def Remembers (known : List (Command × Bool)) (past : List Call) : Prop :=
  ∀ words b, known.lookup (List.map Json.str words) = some b ↔
    ∃ c ∈ past, c.IsProbe (words.map .str) ∧ c.outcome.availability = .ok b

theorem remembers_nil : Remembers [] [] :=
  fun words b => by simp

section Remembers

variable {ρ : Type} {s t : State ρ} {past check work : List Call} {words : List String}
  {result : Except Failure Bool}

/-- What is checked in a state can be told from the calls that it remembers. -/
theorem Checked.found (h : Checked (words.map .str) s check result t)
    (hs : Remembers s.known past) : Found (words.map .str) past check result := by
  cases h with
  | known hlookup =>
    obtain ⟨c, hc, hprobe, hsaid⟩ := (hs words _).mp hlookup
    exact .told hc hprobe hsaid
  | probed hlookup hprobe =>
    refine .asked (fun d hd hd' => ?_) hprobe
    by_contra hne
    obtain ⟨b, hb⟩ := exists_availability hne
    rw [(hs words b).mpr ⟨d, hd, hd', hb⟩] at hlookup
    cases hlookup

/-- What a probe says is remembered. -/
theorem Checked.remembers (h : Checked (words.map .str) s check result t)
    (hs : Remembers s.known past) : Remembers t.known (past ++ check) := by
  cases h with
  | known hlookup => rwa [List.append_nil]
  | @probed c r hlookup hprobe =>
    intro others b
    simp only [List.mem_append, List.mem_singleton, or_and_right, exists_or, exists_eq_left,
      ← hs others b, List.lookup_append]
    cases hsaid : c.outcome.availability with
    | error e => simp [Except.toOption]
    | ok b' =>
      by_cases hsame : others = words
      · subst hsame
        have hkey : (others.map Json.str == others.map Json.str) = true := by
          rw [beq_texts]
          exact beq_self_eq_true others
        simp [hlookup, hprobe, hkey, List.lookup_cons, Except.toOption]
      · have hkey : (others.map Json.str == words.map Json.str) = false := by
          rw [beq_texts]
          simpa using hsame
        have hother : ¬ c.IsProbe (others.map .str) := fun hprobe' =>
          hsame (List.map_injective_iff.mpr (fun _ _ h => Json.str.inj h) (hprobe'.unique hprobe))
        simp [hother, hkey, List.lookup_cons, Except.toOption]

/-- Calls that have an input leave nothing to be remembered. -/
theorem Remembers.append {known : List (Command × Bool)} (h : Remembers known past)
    (hwork : ∀ c ∈ work, c.input ≠ none) : Remembers known (past ++ work) := by
  intro others b
  rw [h others b]
  constructor
  · rintro ⟨c, hc, hsaid⟩
    exact ⟨c, List.mem_append_left _ hc, hsaid⟩
  · rintro ⟨c, hc, hprobe, hsaid⟩
    rcases List.mem_append.mp hc with hc | hc
    · exact ⟨c, hc, hprobe, hsaid⟩
    · exact absurd hprobe.1 (hwork c hc)

end Remembers

section Session

variable {ρ : Type} (runner : Runner ρ) {own : Json} {s : State ρ} {past : List Call}

/-- A request leads to an event that follows the calls before, and what it finds out is remembered
along with them. -/
theorem event_follows (hown : IsCommand own) {q : Request} (hq : ∀ o ∈ q.options, HasWords o)
    (hs : Remembers s.known past) :
    (q.event runner own s).1.Follows own past ∧
      Remembers (q.event runner own s).2.known (past ++ (q.event runner own s).1.calls) := by
  obtain ⟨words, hwords⟩ := exists_words hown hq
  obtain ⟨check, found, t, work, hchecked, hworked, hcalls, hknown⟩ :=
    event_cases runner hwords s
  refine ⟨⟨words, check, found, work, hwords, hchecked.found hs, hworked, hcalls⟩, ?_⟩
  rw [hcalls, hknown, ← List.append_assoc]
  exact (hchecked.remembers hs).append hworked.input_ne_none

/-- Each event of a session follows the calls of the events before it. -/
theorem session_follows (hown : IsCommand own) {requests : List Request}
    (hrequests : ∀ q ∈ requests, ∀ o ∈ q.options, HasWords o) (hs : Remembers s.known past)
    {front back : List Event} {e : Event}
    (hsplit : (session runner own requests s).1 = front ++ e :: back) :
    e.Follows own (past ++ front.flatMap Event.calls) := by
  -- the calls before the session stand for those of the requests that are served already
  induction requests generalizing s past front with
  | nil => exact absurd hsplit.symm (by simp [session])
  | cons q rest ih =>
    obtain ⟨hfollows, hremembers⟩ := event_follows runner hown (hrequests q List.mem_cons_self) hs
    cases front with
    | nil =>
      obtain ⟨rfl, -⟩ := List.cons.inj hsplit
      rwa [List.flatMap_nil, List.append_nil]
    | cons f front =>
      obtain ⟨rfl, hrest⟩ := List.cons.inj hsplit
      rw [List.flatMap_cons, ← List.append_assoc]
      exact ih (fun q hq => hrequests q (List.mem_cons_of_mem _ hq)) hremembers hrest

end Session

end SchemaTypes.Formatter.Prettier

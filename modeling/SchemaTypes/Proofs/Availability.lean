import SchemaTypes.Proofs.MissingFormatter
import SchemaTypes.Proofs.Sessions
import SchemaTypes.Proofs.Tables

/-!
# Availability of a formatting program

In a session with a formatter, a command is not probed again once a probe of it has said something,
and what the probe said is the answer from then on; a command is run on code only behind a probe
that found it available (`ProbedOnce`). All of this is read off the events of the session, each of
which follows the calls before it.

Formatting gives code back unless a call is not borne: a probe that was not permitted, or a run of a
program that is missing or not permitted although its probe went well
(`format_ok_iff_borne`).
-/

namespace SchemaTypes.Formatter.Prettier

/-! ## Calls of events -/

/-- The calls of some events, in order. -/
def callsOf (events : List Event) : List Call :=
  events.flatMap Event.calls

/-- A call is made for one of the events, behind the calls for the events before it and some calls
for the same event. -/
theorem exists_event_of_split {events : List Event} {before after : List Call} {c : Call}
    (h : callsOf events = before ++ c :: after) :
    ∃ past e rest inner outer, events = past ++ e :: rest ∧ e.calls = inner ++ c :: outer ∧
      before = callsOf past ++ inner := by
  induction events generalizing before with
  | nil => exact absurd h.symm (by simp [callsOf])
  | cons e events ih =>
    rcases Table.split_append h with ⟨outer, hcalls⟩ | ⟨before', rfl, hrest⟩
    · exact ⟨[], e, events, before, outer, rfl, hcalls, rfl⟩
    · obtain ⟨past, f, rest, inner, outer, rfl, hcalls, rfl⟩ := ih hrest
      exact ⟨e :: past, f, rest, inner, outer, rfl, hcalls, by simp [callsOf]⟩

theorem mem_callsOf {past rest : List Event} {e : Event} {c : Call}
    (h : c ∈ callsOf past ++ e.calls) : c ∈ callsOf (past ++ e :: rest) := by
  unfold callsOf
  rw [List.flatMap_append, List.flatMap_cons]
  rcases List.mem_append.mp h with h | h
  · exact List.mem_append_left _ h
  · exact List.mem_append_right _ (List.mem_append_left _ h)

/-- An event is in keeping with what is said of its command: if it was asked for, this is the
answer; code is run on an available command, and comes back as it is from another one. -/
def Event.Tells (e : Event) (available : Bool) : Prop :=
  match e.request with
  | .availability _ => e.answer = .ok (.available available)
  | .formatting code options =>
    if available then options.isSome → ∃ c ∈ e.calls, c.input = some code
    else e.answer = .ok (.text code)

/-! ## Single events -/

section Follows

variable {own : Json} {past inner outer : List Call} {e : Event} {c : Call}

theorem Found.input_eq_none {command : Command} {check : List Call} {found : Except Failure Bool}
    (h : Found command past check found) : ∀ c ∈ check, c.input = none := by
  cases h with
  | told => simp
  | asked _ hprobe => simp [hprobe.1]

/-- What is found out about a command was said by a probe of it, now or before. -/
theorem Found.exists_probe {command : Command} {check : List Call} {found : Except Failure Bool}
    (h : Found command past check found) {b : Bool} (hb : found = .ok b) :
    ∃ p ∈ past ++ check, p.IsProbe command ∧ p.outcome.availability = .ok b := by
  cases h with
  | told hc hprobe hsaid => exact ⟨_, List.mem_append_left _ hc, hprobe, hsaid.trans hb⟩
  | asked hnone hprobe => exact ⟨_, List.mem_append_right _ (List.mem_singleton_self _), hprobe, hb⟩

/-- A probe is the first call of its event, it is of the command for the request, and no probe of
this command has said anything before. -/
theorem Event.Follows.probe (h : e.Follows own past) (hc : e.calls = inner ++ c :: outer)
    (hinput : c.input = none) :
    inner = [] ∧ ∃ command, baseCommand own e.request.options = .ok command ∧
      c.IsProbe command ∧ ∀ d ∈ past, d.IsProbe command → d.outcome = .notPermitted := by
  obtain ⟨words, check, found, work, hwords, hfound, hworked, hcalls⟩ := h
  rw [hcalls] at hc
  rcases Table.split_append hc with ⟨outer', hcheck⟩ | ⟨inner', -, hwork⟩
  · cases hfound with
    | told => exact absurd hcheck.symm (by simp)
    | asked hnone hprobe =>
      cases inner with
      | nil =>
        obtain ⟨rfl, -⟩ := List.cons.inj hcheck
        exact ⟨rfl, _, hwords, hprobe, hnone⟩
      | cons d inner => exact absurd hcheck.symm (by simp)
  · exact absurd hinput (hworked.input_ne_none c (by rw [hwork]; simp))

/-- A call with an input is the run that was asked for, behind a probe that found the command
available. -/
theorem Event.Follows.run {code : String} (h : e.Follows own past)
    (hc : e.calls = inner ++ c :: outer) (hinput : c.input = some code) :
    ∃ options command, e.request = .formatting code (some options) ∧
      baseCommand own (some options) = .ok command ∧
      buildCommand own (some options) = .ok c.command ∧
      ∃ p ∈ past ++ inner, p.IsProbe command ∧ p.outcome.availability = .ok true := by
  obtain ⟨request, answer, calls⟩ := e
  obtain ⟨words, check, found, work, hwords, hfound, hworked, hcalls⟩ := h
  dsimp only at hc hwords hworked hcalls ⊢
  rw [hcalls] at hc
  rcases Table.split_append hc with ⟨outer', hcheck⟩ | ⟨inner', hinner, hwork⟩
  · rw [hfound.input_eq_none c (by rw [hcheck]; simp)] at hinput
    cases hinput
  · cases hworked with
    | @run code' options d hbuild hinput' =>
      obtain rfl : c = d := by
        have hmem : c ∈ [d] := by rw [hwork]; simp
        exact List.mem_singleton.mp hmem
      obtain rfl : code' = code := Option.some.inj (hinput'.symm.trans hinput)
      obtain ⟨p, hp, hprobe, hsaid⟩ := hfound.exists_probe rfl
      refine ⟨options, _, rfl, hwords, hbuild, p, ?_, hprobe, hsaid⟩
      rw [hinner, ← List.append_assoc]
      exact List.mem_append_left _ hp
    | _ => exact absurd hwork.symm (by simp)

/-- What is found out is what the event tells. -/
theorem Worked.tells {check work : List Call} {b : Bool}
    (h : Worked own e.request (.ok b) work e.answer) (hcalls : e.calls = check ++ work) :
    e.Tells b := by
  obtain ⟨request, answer, calls⟩ := e
  dsimp only at h hcalls
  subst hcalls
  cases h with
  | told => exact rfl
  | unavailable => exact rfl
  | unguided => exact nofun
  | run _ hinput => exact fun _ => ⟨_, List.mem_append_right _ (List.mem_singleton_self _), hinput⟩

end Follows

/-! ## Probed once -/

/-- In a session each command is probed once, as far as that says anything, and used accordingly. -/
structure ProbedOnce (own : Json) (events : List Event) : Prop where
  /-- A probe that said something is the last one of its command. -/
  once : ∀ command before p after, callsOf events = before ++ p :: after → p.IsProbe command →
    p.outcome ≠ .notPermitted → ∀ q ∈ after, ¬ q.IsProbe command
  /-- What a probe said is told in each event from then on. -/
  same : ∀ past e rest command, events = past ++ e :: rest →
    baseCommand own e.request.options = .ok command → ∀ p ∈ callsOf past ++ e.calls,
      p.IsProbe command → ∀ b, p.outcome.availability = .ok b → e.Tells b
  /-- Each call is for the command of its request: a probe of it, or a run of it on the code that is
  to be formatted, and then it was found available before. -/
  backed : ∀ before c after, callsOf events = before ++ c :: after →
    ∃ e ∈ events, c ∈ e.calls ∧ ∃ command, baseCommand own e.request.options = .ok command ∧
      (c.IsProbe command ∨
        ∃ code options flags, e.request = .formatting code (some options) ∧ c.input = some code ∧
          c.command = command ++ flags ∧
          ∃ p ∈ before, p.IsProbe command ∧ ∃ output, p.outcome = .exited 0 output)
  /-- A command that is found unavailable at any time is never run on code. -/
  spared : ∀ command, ∀ p ∈ callsOf events, p.IsProbe command →
    p.outcome.availability = .ok false → ∀ e ∈ events,
      baseCommand own e.request.options = .ok command → ∀ c ∈ e.calls, c.input = none

section Probed

variable {own : Json} {events : List Event}
  (hfollows : ∀ past e rest, events = past ++ e :: rest → e.Follows own (callsOf past))

include hfollows

theorem not_probed_again {command : Command} {before after : List Call} {p : Call}
    (hsplit : callsOf events = before ++ p :: after) (hprobe : p.IsProbe command)
    (hsaid : p.outcome ≠ .notPermitted) : ∀ q ∈ after, ¬ q.IsProbe command := by
  intro q hq hprobe'
  obtain ⟨between, behind, rfl⟩ := List.append_of_mem hq
  have hsplit' : callsOf events = (before ++ p :: between) ++ q :: behind := by
    rw [hsplit]
    simp
  -- the event that probes again would have to find nothing among the calls before it
  obtain ⟨past, e, rest, inner, outer, hevents, hcalls, hbefore⟩ := exists_event_of_split hsplit'
  obtain ⟨rfl, command', -, hprobe'', hnone⟩ :=
    (hfollows past e rest hevents).probe hcalls hprobe'.1
  rw [List.append_nil] at hbefore
  obtain rfl := hprobe'.unique hprobe''
  exact hsaid (hnone p (by rw [← hbefore]; simp) hprobe)

/-- All probes of a command that said something are one probe. -/
theorem probe_unique {command : Command} {p q : Call} (hp : p ∈ callsOf events)
    (hq : q ∈ callsOf events) (hprobe : p.IsProbe command) (hprobe' : q.IsProbe command)
    (hsaid : p.outcome ≠ .notPermitted) (hsaid' : q.outcome ≠ .notPermitted) : p = q := by
  obtain ⟨before, after, hsplit⟩ := List.append_of_mem hp
  rw [hsplit, List.mem_append, List.mem_cons] at hq
  rcases hq with hq | rfl | hq
  · obtain ⟨front, between, rfl⟩ := List.append_of_mem hq
    have hsplit' : callsOf events = front ++ q :: (between ++ p :: after) := by
      rw [hsplit]
      simp
    exact absurd hprobe (not_probed_again hfollows hsplit' hprobe' hsaid' p (by simp))
  · rfl
  · exact absurd hprobe' (not_probed_again hfollows hsplit hprobe hsaid q hq)

theorem probe_told {past rest : List Event} {e : Event} {command : Command}
    (hevents : events = past ++ e :: rest)
    (hcommand : baseCommand own e.request.options = .ok command) {p : Call}
    (hp : p ∈ callsOf past ++ e.calls) (hprobe : p.IsProbe command) {b : Bool}
    (hsaid : p.outcome.availability = .ok b) : e.Tells b := by
  have hspeaks := ne_notPermitted_of_availability hsaid
  obtain ⟨words, check, found, work, hwords, hfound, hworked, hcalls⟩ :=
    hfollows past e rest hevents
  obtain rfl : command = words.map Json.str := Except.ok.inj (hcommand.symm.trans hwords)
  -- what is found out was said by a probe as well, and only one probe says something
  have hsame : found = .ok b := by
    cases hfound with
    | @told d b' hd hprobe' hsaid' =>
      have heq := probe_unique hfollows (p := p) (q := d)
        (by rw [hevents]; exact mem_callsOf hp)
        (by rw [hevents]; exact mem_callsOf (List.mem_append_left _ hd)) hprobe hprobe'
        hspeaks (ne_notPermitted_of_availability hsaid')
      rw [← hsaid', ← heq, hsaid]
    | @asked d hnone hprobe' =>
      have hd : d ∈ e.calls := by
        rw [hcalls]
        exact List.mem_append_left _ (List.mem_singleton_self d)
      rcases List.mem_append.mp hp with hp | hp
      · exact absurd (hnone p hp hprobe) hspeaks
      · rw [hcalls] at hp
        rcases List.mem_append.mp hp with hp | hp
        · rw [← List.mem_singleton.mp hp, hsaid]
        · exact absurd hprobe.1 (hworked.input_ne_none p hp)
  rw [hsame] at hworked
  exact hworked.tells hcalls

theorem probedOnce : ProbedOnce own events where
  once := fun command before p after => not_probed_again hfollows
  same := fun past e rest command hevents hcommand p hp hprobe b =>
    probe_told hfollows hevents hcommand hp hprobe
  backed := by
    intro before c after hsplit
    obtain ⟨past, e, rest, inner, outer, hevents, hcalls, rfl⟩ := exists_event_of_split hsplit
    have hfollow := hfollows past e rest hevents
    refine ⟨e, by rw [hevents]; simp, by rw [hcalls]; simp, ?_⟩
    cases hinput : c.input with
    | none =>
      obtain ⟨-, command, hbase, hprobe, -⟩ := hfollow.probe hcalls hinput
      exact ⟨command, hbase, .inl hprobe⟩
    | some code =>
      obtain ⟨options, command, hrequest, hbase, hbuild, p, hp, hprobe, hsaid⟩ :=
        hfollow.run hcalls hinput
      obtain ⟨flags, hflags⟩ := exists_flags hbase
      have hcommand : c.command = command ++ flags := Except.ok.inj (hbuild.symm.trans hflags)
      refine ⟨command, by rw [hrequest]; exact hbase, .inr ⟨code, options, flags, hrequest, rfl,
        hcommand, p, hp, hprobe, availability_eq_true_iff.mp hsaid⟩⟩
  spared := by
    intro command p hp hprobe hsaid e he hcommand c hc
    -- A run of the command has a probe in front of it that found it, and there is only one.
    by_contra hinput
    obtain ⟨code, hcode⟩ := Option.ne_none_iff_exists'.mp hinput
    obtain ⟨past, rest, hevents⟩ := List.append_of_mem he
    obtain ⟨inner, outer, hcalls⟩ := List.append_of_mem hc
    obtain ⟨options, command', hrequest, hbase, -, q, hq, hprobe', hsaid'⟩ :=
      (hfollows past e rest hevents).run hcalls hcode
    rw [hrequest] at hcommand
    obtain rfl : command' = command := Except.ok.inj (hbase.symm.trans hcommand)
    have hq' : q ∈ callsOf events := by
      rw [hevents]
      refine mem_callsOf ?_
      rw [hcalls, ← List.append_assoc]
      exact List.mem_append_left _ hq
    have heq := probe_unique hfollows hp hq' hprobe hprobe'
      (ne_notPermitted_of_availability hsaid) (ne_notPermitted_of_availability hsaid')
    rw [heq, hsaid'] at hsaid
    cases hsaid

/-- A command of which nothing is known is not told to be available or not; what is told instead is
that the probe was not permitted. -/
theorem answer_of_no_probe {past rest : List Event} {e : Event} {options : Option Options}
    {command : Command} (hevents : events = past ++ e :: rest)
    (hrequest : e.request = .availability options)
    (hcommand : baseCommand own options = .ok command)
    (hnone : ∀ p ∈ callsOf past ++ e.calls, p.IsProbe command → p.outcome = .notPermitted) :
    e.answer = .error .notPermitted := by
  obtain ⟨words, check, found, work, hwords, hfound, hworked, hcalls⟩ :=
    hfollows past e rest hevents
  rw [hrequest] at hwords hworked
  obtain rfl : command = words.map Json.str := Except.ok.inj (hcommand.symm.trans hwords)
  cases hfound with
  | told hc hprobe hsaid =>
    exact absurd (hnone _ (List.mem_append_left _ hc) hprobe)
      (ne_notPermitted_of_availability hsaid)
  | @asked c _ hprobe =>
    have hc : c ∈ callsOf past ++ e.calls := by
      rw [hcalls]
      simp
    rw [hnone c hc hprobe] at hworked
    generalize e.answer = answer at hworked ⊢
    cases hworked with
    | failed => rfl

end Probed

/-! ## Sessions -/

/-- An event answers whether a command is available, and some calls are all that were made up to
then. -/
def Asked (own : Json) (events : List Event) (command : Command) (e : Event) (upTo : List Call) :
    Prop :=
  ∃ past rest options, events = past ++ e :: rest ∧ e.request = .availability options ∧
    baseCommand own options = .ok command ∧ upTo = callsOf past ++ e.calls

section Sessions

variable {ρ : Type} (runner : Runner ρ) {own : Json} {requests : List Request}

theorem session_follows_calls (hown : IsCommand own)
    (hrequests : ∀ q ∈ requests, ∀ o ∈ q.options, HasWords o) (r : ρ) :
    ∀ past e rest, (session runner own requests { runner := r }).1 = past ++ e :: rest →
      e.Follows own (callsOf past) := by
  intro past e rest hsplit
  exact session_follows runner hown hrequests remembers_nil hsplit

/-- Answers depend on the probes of the command alone. -/
theorem answer_eq_of_probes {events events' : List Event} {own' : Json}
    (hfollows : ∀ past e rest, events = past ++ e :: rest → e.Follows own (callsOf past))
    (hfollows' : ∀ past e rest, events' = past ++ e :: rest → e.Follows own' (callsOf past))
    {command : Command} {e e' : Event} {calls calls' : List Call}
    (h : Asked own events command e calls) (h' : Asked own' events' command e' calls')
    (hprobes : ∀ c : Call, c.IsProbe command → (c ∈ calls ↔ c ∈ calls')) :
    e.answer = e'.answer := by
  obtain ⟨past, rest, options, hevents, hrequest, hcommand, rfl⟩ := h
  obtain ⟨past', rest', options', hevents', hrequest', hcommand', rfl⟩ := h'
  by_cases hsaid : ∃ p ∈ callsOf past ++ e.calls, p.IsProbe command ∧ p.outcome ≠ .notPermitted
  · obtain ⟨p, hp, hprobe, hspeaks⟩ := hsaid
    obtain ⟨b, hb⟩ := exists_availability hspeaks
    have htold := probe_told hfollows hevents (by rw [hrequest]; exact hcommand) hp hprobe hb
    have htold' := probe_told hfollows' hevents' (by rw [hrequest']; exact hcommand')
      ((hprobes p hprobe).mp hp) hprobe hb
    unfold Event.Tells at htold htold'
    rw [hrequest] at htold
    rw [hrequest'] at htold'
    exact htold.trans htold'.symm
  · have hnone : ∀ p ∈ callsOf past ++ e.calls, p.IsProbe command → p.outcome = .notPermitted :=
      fun p hp hprobe => by_contra fun hne => hsaid ⟨p, hp, hprobe, hne⟩
    rw [answer_of_no_probe hfollows hevents hrequest hcommand hnone,
      answer_of_no_probe hfollows' hevents' hrequest' hcommand'
        fun p hp hprobe => hnone p ((hprobes p hprobe).mpr hp) hprobe]

/-- In every session with a formatter, whatever the runner does, each command is probed once, as far
as that says anything, and used as the probe says. Probes of other commands make no difference: in
any two sessions in which a command was probed with the same outcomes, the answers for it are the
same. -/
theorem session_probedOnce (hown : IsCommand own)
    (hrequests : ∀ q ∈ requests, ∀ o ∈ q.options, HasWords o) (r : ρ) :
    ProbedOnce own (session runner own requests { runner := r }).1 ∧
      ∀ {τ : Type} (other : Runner τ) (own' : Json) (requests' : List Request) (t : τ),
        IsCommand own' → (∀ q ∈ requests', ∀ o ∈ q.options, HasWords o) →
        ∀ command e calls e' calls',
          Asked own (session runner own requests { runner := r }).1 command e calls →
          Asked own' (session other own' requests' { runner := t }).1 command e' calls' →
          (∀ c : Call, c.IsProbe command → (c ∈ calls ↔ c ∈ calls')) → e.answer = e'.answer := by
  refine ⟨probedOnce (session_follows_calls runner hown hrequests r), ?_⟩
  intro τ other own' requests' t hown' hrequests' command e calls e' calls' h h' hprobes
  exact answer_eq_of_probes (session_follows_calls runner hown hrequests r)
    (session_follows_calls other hown' hrequests' t) h h' hprobes

/-! ## Code that comes back -/

/-- Formatting bears that a call ends so: a probe may end in any way but for want of permission, and
a program that is run on code has to be there, with the permission to run it. -/
def Call.IsBorne (c : Call) : Prop :=
  c.outcome ≠ .notPermitted ∧ (c.outcome = .noProgram → c.input = none)

/-- A run on code is borne if and only if it gives a text. -/
theorem Call.isBorne_iff_of_run {code : String} {c : Call} (hinput : c.input = some code) :
    c.IsBorne ↔ ∃ text, c.outcome.formatted c.command code = .ok text := by
  unfold Call.IsBorne
  rw [hinput]
  cases c.outcome <;> simp [Outcome.formatted]

/-- A run on code gives its output if it ended with status zero, and else the code. -/
theorem formatted_eq_ok {o : Outcome} {command : Command} {code text : String}
    (h : o.formatted command code = .ok text) :
    o = .exited 0 text ∨ text = code ∧ ∀ output, o ≠ .exited 0 output := by
  cases o with
  | exited status output =>
    by_cases hstatus : status = 0
    · subst hstatus
      cases h
      exact .inl rfl
    · have htext : code = text := by simpa [Outcome.formatted, hstatus] using h
      exact .inr ⟨htext.symm, by simp [hstatus]⟩
  | timedOut | brokeOff =>
    cases h
    exact .inr ⟨rfl, by simp⟩
  | noProgram | notPermitted => cases h

/-- What is checked is borne if it comes to a result. -/
theorem Checked.forall_isBorne_iff {command : Command} {s t : State ρ} {check : List Call}
    {found : Except Failure Bool} (h : Checked command s check found t) :
    (∀ c ∈ check, c.IsBorne) ↔ ∃ b, found = .ok b := by
  cases h with
  | known hlookup => simp
  | @probed c r hlookup hprobe =>
    rw [List.forall_mem_singleton, Call.IsBorne, hprobe.1]
    constructor
    · exact fun h => exists_availability h.1
    · rintro ⟨b, hb⟩
      exact ⟨ne_notPermitted_of_availability hb, fun _ => rfl⟩

theorem map_text_injective {x y : Except Failure String}
    (h : Answer.text <$> x = Answer.text <$> y) : x = y := by
  cases x <;> cases y <;> simp_all [Functor.map, Except.map]

section Formatting

variable {command : Command} {s t : State ρ} {check work : List Call} {code : String} {o : Options}
  {found : Except Failure Bool} {result : Except Failure String}

/-- Code that is asked for comes from a run, or there is none and it is the code itself. -/
theorem Worked.formatting_cases
    (h : Worked own (.formatting code (some o)) found work (Answer.text <$> result)) :
    (∃ e, found = .error e ∧ work = [] ∧ result = .error e) ∨
      (found = .ok false ∧ work = [] ∧ result = .ok code) ∨
      ∃ c, found = .ok true ∧ work = [c] ∧ c.input = some code ∧
        result = c.outcome.formatted c.command code := by
  generalize hanswer : Answer.text <$> result = answer at h
  cases h with
  | failed _ e => exact .inl ⟨e, rfl, rfl, map_text_injective hanswer⟩
  | unavailable => exact .inr (.inl ⟨rfl, rfl, map_text_injective hanswer⟩)
  | @run _ _ c _ hinput =>
    exact .inr (.inr ⟨c, rfl, rfl, hinput, map_text_injective hanswer⟩)

variable (hchecked : Checked command s check found t)
  (hworked : Worked own (.formatting code (some o)) found work (Answer.text <$> result))

include hchecked hworked

theorem exists_text_iff : (∃ text, result = .ok text) ↔ ∀ c ∈ check ++ work, c.IsBorne := by
  rw [List.forall_mem_append, hchecked.forall_isBorne_iff]
  rcases hworked.formatting_cases with
    ⟨e, rfl, rfl, rfl⟩ | ⟨rfl, rfl, rfl⟩ | ⟨c, rfl, rfl, hinput, rfl⟩
  · simp
  · simp
  · rw [List.forall_mem_singleton, Call.isBorne_iff_of_run hinput]
    simp

theorem text_cases {text : String} (h : result = .ok text) :
    (∃ c ∈ check ++ work, c.input = some code ∧ c.outcome = .exited 0 text) ∨
      text = code ∧
        ∀ c ∈ check ++ work, c.input ≠ none → ∀ output, c.outcome ≠ .exited 0 output := by
  have hprobes : ∀ c ∈ check, c.input ≠ none → ∀ output, c.outcome ≠ .exited 0 output :=
    fun c hc hinput => absurd (hchecked.input_eq_none c hc) hinput
  rcases hworked.formatting_cases with ⟨e, -, -, rfl⟩ | ⟨-, rfl, rfl⟩ | ⟨c, -, rfl, hinput, rfl⟩
  · cases h
  · cases h
    rw [List.append_nil]
    exact .inr ⟨rfl, hprobes⟩
  · rcases formatted_eq_ok h with hrun | ⟨hsame, hno⟩
    · exact .inl ⟨c, by simp, hinput, hrun⟩
    · refine .inr ⟨hsame, List.forall_mem_append.mpr ⟨hprobes, ?_⟩⟩
      rw [List.forall_mem_singleton]
      exact fun _ => hno

end Formatting

/-- The calls that formatting code makes in a certain state. -/
def formattingCalls (own : Json) (code : String) (o : Options) (s : State ρ) : List Call :=
  ((Request.formatting code (some o)).event runner own s).1.calls

/-- Whatever was asked of a formatter before, under whatever options, and whatever its runner does:
formatting code under a command that is a list of texts gives a text exactly if all calls that are
made for it are borne. The text is the output of a run on just this code that ended with status
zero, or else, if there is no such run, the code itself. -/
theorem format_ok_iff_borne (hown : IsCommand own) (earlier : List Request) (r : ρ)
    (code : String) {o : Options} (ho : HasWords o) :
    ((∃ text, (format runner own code (some o)
        (session runner own earlier { runner := r }).2).1 = .ok text) ↔
      ∀ c ∈ formattingCalls runner own code o (session runner own earlier { runner := r }).2,
        c.IsBorne) ∧
    ∀ text, (format runner own code (some o)
        (session runner own earlier { runner := r }).2).1 = .ok text →
      (∃ c ∈ formattingCalls runner own code o (session runner own earlier { runner := r }).2,
        c.input = some code ∧ c.outcome = .exited 0 text) ∨
      text = code ∧
        ∀ c ∈ formattingCalls runner own code o (session runner own earlier { runner := r }).2,
          c.input ≠ none → ∀ output, c.outcome ≠ .exited 0 output := by
  generalize (session runner own earlier { runner := r }).2 = s
  have hoptions : ∀ o' ∈ some o, HasWords o' := by
    rintro _ ⟨⟩
    exact ho
  obtain ⟨words, hwords⟩ := exists_words hown hoptions
  obtain ⟨check, found, t, work, hchecked, hworked, hcalls, -⟩ :=
    event_cases runner (q := .formatting code (some o)) hwords s
  rw [answer_formatting] at hworked
  unfold formattingCalls
  rw [hcalls]
  exact ⟨exists_text_iff hchecked hworked, fun _ => text_cases hchecked hworked⟩

end Sessions

/-! ## Some sessions -/

open TsModule (scripted formattingOptions)

/-- Requests for two commands, one of which is not permitted at first and too slow later on. -/
def mixedRequests : List Request :=
  [.availability (some formattingOptions), .formatting "type A=1" (some {}),
    .availability (some formattingOptions), .formatting "type A=1" (some formattingOptions),
    .availability none]

/-- How the calls for these requests end. -/
def mixedOutcomes : List Outcome :=
  [.notPermitted, .exited 0 "3.0.0", .exited 0 "type A = 1\n", .timedOut]

/-- The calls that are made for them. -/
def mixedCalls : List Call :=
  [⟨[.str "npx", .str "prettier", .str "--version"], none, .notPermitted⟩,
    ⟨[.str "prettier", .str "--version"], none, .exited 0 "3.0.0"⟩,
    ⟨[.str "prettier", .str "--stdin-filepath", .str "types.ts", .str "--no-semi",
      .str "--print-width", .str "100", .str "--tab-width", .str "2"], some "type A=1",
      .exited 0 "type A = 1\n"⟩,
    ⟨[.str "npx", .str "prettier", .str "--version"], none, .timedOut⟩]

theorem hasWords_default : HasWords {} := ⟨["prettier"], rfl⟩

theorem hasWords_formattingOptions : HasWords formattingOptions := ⟨["npx", "prettier"], rfl⟩

theorem hasWords_mixedRequests : ∀ q ∈ mixedRequests, ∀ o ∈ q.options, HasWords o := by
  have hdefault := hasWords_default
  have hgiven := hasWords_formattingOptions
  simp_all [mixedRequests, Request.options]

/-- The command that says nothing at first is probed twice, the other one once, and the last answer
needs no call at all. It is the answer of a session in which nothing else is asked. -/
theorem session_probedOnce_mixed :
    callsOf (session scripted .null mixedRequests { runner := mixedOutcomes }).1 = mixedCalls ∧
      ProbedOnce .null (session scripted .null mixedRequests { runner := mixedOutcomes }).1 ∧
      ((session scripted .null mixedRequests { runner := mixedOutcomes }).1[4]?.map
          Event.answer) =
        (session scripted .null [.availability none] { runner := [.exited 0 "3.0.0"] }).1[0]?.map
          Event.answer := by
  obtain ⟨honce, hother⟩ :=
    session_probedOnce scripted (.inl rfl) hasWords_mixedRequests mixedOutcomes
  refine ⟨rfl, honce, ?_⟩
  have hanswer := hother scripted .null [.availability none] [.exited 0 "3.0.0"] (.inl rfl)
    (by simp [Request.options]) [.str "prettier"] _ _ _ _
    ⟨(session scripted .null mixedRequests { runner := mixedOutcomes }).1.take 4, [], none, rfl,
      rfl, rfl, rfl⟩ ⟨[], [], none, rfl, rfl, rfl, rfl⟩ ?_
  · exact congrArg some hanswer
  · rintro ⟨command, input, outcome⟩ ⟨rfl, rfl⟩
    change _ ∈ mixedCalls ↔
      _ ∈ [Call.mk [.str "prettier", .str "--version"] none (.exited 0 "3.0.0")]
    simp [mixedCalls]

/-- A formatter whose other command was too slow formats with the usual one. -/
theorem format_ok_iff_borne_other_command :
    (∀ c ∈ formattingCalls scripted .null "type A=1" {}
      (session scripted .null [.availability (some formattingOptions)]
        { runner := [.timedOut, .exited 0 "3.0.0", .exited 0 "type A = 1\n"] }).2, c.IsBorne) ∧
    (format scripted .null "type A=1" (some {})
      (session scripted .null [.availability (some formattingOptions)]
        { runner := [.timedOut, .exited 0 "3.0.0", .exited 0 "type A = 1\n"] }).2).1 =
      .ok "type A = 1\n" := by
  obtain ⟨hiff, hgives⟩ := format_ok_iff_borne scripted (.inl rfl)
    [.availability (some formattingOptions)]
    [.timedOut, .exited 0 "3.0.0", .exited 0 "type A = 1\n"] "type A=1" hasWords_default
  have hcalls : formattingCalls scripted .null "type A=1" {}
      (session scripted .null [.availability (some formattingOptions)]
        { runner := [.timedOut, .exited 0 "3.0.0", .exited 0 "type A = 1\n"] }).2 =
      (mixedCalls.drop 1).take 2 := rfl
  rw [hcalls] at hiff hgives ⊢
  have hborne : ∀ c ∈ (mixedCalls.drop 1).take 2, c.IsBorne := by
    simp [mixedCalls, Call.IsBorne]
  obtain ⟨text, htext⟩ := hiff.mpr hborne
  refine ⟨hborne, ?_⟩
  rw [htext]
  rcases hgives text htext with ⟨c, hc, hinput, hrun⟩ | ⟨-, hno⟩
  · obtain rfl | rfl : c = _ ∨ c = _ := by simpa [mixedCalls] using hc
    · cases hinput
    · cases hrun
      rfl
  · exact absurd rfl (hno _ (List.mem_cons_of_mem _ (List.mem_singleton_self _)) nofun _)

/-- Formatting fails if the probe is not permitted, and if the program is gone when it is run on the
code. -/
theorem format_not_permitted :
    (¬ ∃ text, (format scripted .null "type A = 1" (some {}) { runner := [.notPermitted] }).1 =
        .ok text) ∧
      ¬ ∃ text, (format scripted .null "type A = 1" (some {})
        { runner := [.exited 0 "3.0.0", .noProgram] }).1 = .ok text := by
  have hprobe : (format scripted .null "type A = 1" (some {}) { runner := [.notPermitted] }).1 =
      .error .notPermitted := rfl
  have hrun : (format scripted .null "type A = 1" (some {})
      { runner := [.exited 0 "3.0.0", .noProgram] }).1 = .error (.missingFile "prettier") := rfl
  rw [hprobe, hrun]
  simp

end SchemaTypes.Formatter.Prettier

import SchemaTypes.Proofs.FormatterCalls
import SchemaTypes.Proofs.MemoDiscipline
import SchemaTypes.Proofs.Tables

/-!
# What is reported

Where somebody hears the reports of an expansion, these run parallel to the memo: a state is
`Tallied` if what is reported is what is done. An expansion that begins with an empty memo finds
every state tallied when a reference is met. So a name is reported from the memo only after it was
reported when it was done, and the reports come down to one for each attempt, in the order in which
the attempts end. `Reports` says this of the attempts that are made on the way from one state to
another, and with it that all references that they meet have come up, and that the names of these
were done before them, unless they were in progress.
-/

namespace SchemaTypes.Declaration

open Expansion (State)
open Table (addAll)

variable {φ : Type}

/-- The declaration that an attempt gives. -/
def Attempt.declaration? (a : Attempt φ) : Option (String × String) :=
  match a.result with
  | .ok text => some (a.name, text)
  | .error _ => none

theorem Attempt.declaration?_of_ok {a : Attempt φ} {text : String} (h : a.result = .ok text) :
    a.declaration? = some (a.name, text) := by
  unfold declaration?
  rw [h]

/-- The names of the references that some attempts meet are known, or they are names of attempts
that ended before, or else they are in progress where the attempts begin. -/
def Ordered (known : String → Prop) (made : List (Attempt φ)) : Prop :=
  ∀ front b back, made = front ++ b :: back → ∀ r ∈ b.met, ∀ n,
    Reference.displayNameOf r = .ok n →
      known n ∨ n ∈ front.map Attempt.name ∨ b.entered.memo.isInProgress n = true

namespace Ordered

variable {known known' : String → Prop} {made more : List (Attempt φ)}

theorem nil : Ordered known ([] : List (Attempt φ)) := by
  simp [Ordered]

theorem mono (h : Ordered known made) (hknown : ∀ n, known n → known' n) : Ordered known' made :=
  fun front b back hsplit r hr n hn => (h front b back hsplit r hr n hn).imp_left (hknown n)

theorem append (h : Ordered known made) (h' : Ordered known' more)
    (hknown : ∀ n, known' n → known n ∨ n ∈ made.map Attempt.name) :
    Ordered known (made ++ more) := by
  intro front b back hsplit r hr n hn
  rcases Table.split_append hsplit with ⟨back', hmade⟩ | ⟨front', rfl, hmore⟩
  · exact h front b back' hmade r hr n hn
  · rw [List.map_append, List.mem_append]
    rcases h' front' b back hmore r hr n hn with hn' | hfront | hprogress
    · exact (hknown n hn').imp_right fun hmade => Or.inl (Or.inl hmade)
    · exact Or.inr (Or.inl (Or.inr hfront))
    · exact Or.inr (Or.inr hprogress)

theorem singleton {a : Attempt φ}
    (h : ∀ r ∈ a.met, ∀ n, Reference.displayNameOf r = .ok n →
      known n ∨ a.entered.memo.isInProgress n = true) : Ordered known [a] := by
  intro front b back hsplit r hr n hn
  rcases List.append_eq_singleton_iff.mp hsplit.symm with ⟨rfl, hb⟩ | ⟨-, hnil⟩
  · obtain ⟨rfl, rfl⟩ : b = a ∧ back = [] := by simpa using hb
    exact (h r hr n hn).imp_right Or.inr
  · cases hnil

end Ordered

/-! ## Reports and memo -/

/-- What is reported is what is done. -/
def Tallied (s : State φ) : Prop :=
  ∀ n text, s.memo.progress? n = some (.done text) ↔ (n, text) ∈ s.reported

namespace Tallied

variable {s : State φ} {name : String}

theorem fresh (f : φ) : Tallied (φ := φ) { formatter := f } := by
  intro n text
  simp [Memo.progress?]

theorem start (h : Tallied s) (hnew : s.memo.progress? name = none) : Tallied (s.start name) := by
  intro n text
  change (s.memo.start name).progress? n = _ ↔ (n, text) ∈ s.reported
  rw [← h n text]
  by_cases hn : n = name
  · subst hn
    simp [hnew]
  · rw [Memo.progress?_start_of_ne s.memo hn]

/-- When a declaration is done and reported, the reports are what is done. -/
theorem finish_report (h : Tallied s) (hprogress : s.memo.progress? name = some .inProgress)
    (text : String) : Tallied ((s.finish name text).report name text) := by
  intro n text'
  change (s.memo.finish name text).progress? n = _ ↔ (n, text') ∈ s.reported ++ [(name, text)]
  rw [List.mem_append, ← h n text']
  by_cases hn : n = name
  · subst hn
    simp [hprogress, eq_comm]
  · rw [Memo.progress?_finish_of_ne s.memo text hn]
    simp [hn]

/-- A report of what is done changes nothing. -/
theorem report (h : Tallied s) {text : String} (hdone : s.memo.progress? name = some (.done text)) :
    Tallied (s.report name text) := by
  intro n text'
  change s.memo.progress? n = _ ↔ (n, text') ∈ s.reported ++ [(name, text)]
  rw [List.mem_append, h n text', List.mem_singleton]
  constructor
  · exact Or.inl
  · rintro (hmem | heq)
    · exact hmem
    · rw [heq]
      exact (h name text).mp hdone

theorem not_mem_of_not_done (h : Tallied s)
    (hnot : ∀ text, s.memo.progress? name ≠ some (.done text)) :
    name ∉ s.reported.map Prod.fst := by
  intro hmem
  obtain ⟨⟨n, text⟩, hd, rfl⟩ := List.mem_map.mp hmem
  exact hnot text ((h n text).mpr hd)

end Tallied

/-! ## From one state to another -/

/-- The reports of some attempts, which are all made, and give texts, on the way from one state to
another. -/
structure Reports (s : State φ) (made : List (Attempt φ)) (t : State φ) : Prop
    extends Extends s made t where
  /-- What is reported is what is done, if it was so before. -/
  tallied : Tallied s → Tallied t
  /-- All attempts give texts. -/
  gives : ∀ b ∈ made, ∃ text, b.result = .ok text
  /-- All references that they meet have names, which have come up. -/
  heard : ∀ b ∈ made, ∀ r ∈ b.met, ∃ n, Reference.displayNameOf r = .ok n ∧
    t.memo.contains n = true
  /-- The names of these were done before, or attempted before, or they were in progress. -/
  order : Ordered (fun n => ∃ text, s.memo.progress? n = some (.done text)) made
  /-- What was reported is still reported, -/
  kept : s.reported <+: t.reported
  /-- and as additions to a table the reports come down to the declarations. -/
  addAll_eq : ∀ table, addAll t.reported table =
    addAll (made.filterMap Attempt.declaration?) (addAll s.reported table)

namespace Reports

variable {s t u : State φ} {made more : List (Attempt φ)}

/-- Nothing is attempted and nothing is reported. -/
theorem of_reported_eq (h : Extends s [] t) (htallied : Tallied s → Tallied t)
    (hreported : t.reported = s.reported) : Reports s [] t where
  toExtends := h
  tallied := htallied
  gives := by simp
  heard := by simp
  order := .nil
  kept := hreported ▸ List.prefix_refl _
  addAll_eq := by
    intro table
    rw [hreported]
    rfl

theorem refl (s : State φ) : Reports s [] s := of_reported_eq (.refl s) (fun h => h) rfl

theorem start {name : String} (hnew : s.memo.progress? name = none) :
    Reports s [] (s.start name) :=
  of_reported_eq (.start hnew) (fun h => h.start hnew) rfl

/-- A report from the memo comes down to nothing. -/
theorem report (h : Tallied s) {name text : String}
    (hdone : s.memo.progress? name = some (.done text)) : Reports s [] (s.report name text) where
  toExtends := .of_memo_eq rfl
  tallied := fun _ => h.report hdone
  gives := by simp
  heard := by simp
  order := .nil
  kept := List.prefix_append _ _
  addAll_eq := by
    intro table
    have hmem : name ∈ Table.keys s.reported :=
      List.mem_map.mpr ⟨(name, text), (h name text).mp hdone, rfl⟩
    exact Table.addAll_concat_of_mem hmem text

/-- Two stretches of an expansion, one after the other. -/
theorem trans (h : Reports s made t) (h' : Reports t more u) : Reports s (made ++ more) u where
  toExtends := h.toExtends.trans h'.toExtends
  tallied := fun hs => h'.tallied (h.tallied hs)
  gives := List.forall_mem_append.mpr ⟨h.gives, h'.gives⟩
  heard := by
    refine List.forall_mem_append.mpr ⟨fun b hb r hr => ?_, h'.heard⟩
    obtain ⟨n, hn, hcontains⟩ := h.heard b hb r hr
    exact ⟨n, hn, h'.contains hcontains⟩
  order := by
    refine h.order.append h'.order ?_
    rintro n ⟨text, htext⟩
    exact (h.done_or_named htext).imp_left fun hs => ⟨text, hs⟩
  kept := h.kept.trans h'.kept
  addAll_eq := by
    intro table
    rw [h'.addAll_eq, h.addAll_eq, List.filterMap_append, Table.addAll_append]

/-- Formatting changes nothing about reports. -/
theorem format (h : Reports s made t) (f : φ) : Reports s made { t with formatter := f } := by
  have hformat : Reports t [] { t with formatter := f } :=
    of_reported_eq (.of_memo_eq rfl) (fun ht => ht) rfl
  have h' := h.trans hformat
  rwa [List.append_nil] at h'

end Reports

/-! ## Meeting references -/

/-- What comes of a reference that is met: its name has come up, and is reported once, unless it was
in progress; then nothing happens. -/
structure Heard (n : String) (m : Meeting (State φ)) : Prop where
  displayNameOf_eq : Reference.displayNameOf m.reference = .ok n
  contains : m.after.memo.contains n = true
  idle : m.before.memo.isInProgress n = true → m.after = m.before
  once : ∃ new, m.after.reported = m.before.reported ++ new ∧
    (new.map Prod.fst).count n = if m.before.memo.isInProgress n then 0 else 1

namespace Expansion

variable {x : Expansion φ} {bound : Nat}

/-- A report that somebody answers without a failure is added to the reports. -/
theorem eq_report_of_tell (h : x.options.listener.isPresent = true) {name text : String}
    {s u : State φ} (htell : x.tell name text s = (.ok (), u)) : u = s.report name text := by
  unfold tell at htell
  cases hlistener : x.options.listener with
  | nobody =>
    rw [hlistener] at h
    cases h
  | somebody answer =>
    rw [hlistener] at htell
    exact (congrArg Prod.snd htell).symm
  | deaf v =>
    rw [hlistener] at htell
    cases htell

/-- The attempts at new names that are made in a declaration nested less than `bound` deep report
what they should, and nobody has reported their names before they do so themselves. -/
def NestedReport (x : Expansion φ) (bound : Nat) : Prop :=
  ∀ name schema (s : State φ) text t, s.memo.progress? name = none → Tallied s →
    x.declare bound name schema (s.start name) = (.ok text, t) →
      Reports s (x.attempts bound name schema (s.start name)) (t.report name text) ∧
        name ∉ t.reported.map Prod.fst

/-- When a reference is met, it is heard of, and the attempts that are made report what they
should. -/
theorem reports_of_meets (hlistener : x.options.listener.isPresent = true)
    (hnested : x.NestedReport bound) {reference : Json} {s u : State φ}
    {begun : Option (String × Json)} {result : Except Failure Unit × State φ}
    (h : Meets x (x.declare bound) reference s begun result) (hresult : result = (.ok (), u))
    (hs : Tallied s) :
    Reports s (madeIn (x.attempts bound) s begun) u ∧ ∃ n, Heard n ⟨reference, s, u⟩ := by
  cases h with
  | unheard hnobody =>
    rw [hlistener] at hnobody
    cases hnobody
  | nameless hname => cases hresult
  | @known name text hname hdone =>
    obtain rfl := eq_report_of_tell hlistener hresult
    have hidle : ¬ s.memo.isInProgress name = true := by
      rw [Memo.isInProgress_iff, hdone]
      simp
    refine ⟨.report hs hdone, name, hname, ?_, fun h => absurd h hidle, [(name, text)], rfl, ?_⟩
    · exact (Memo.contains_iff _ _).mpr ⟨_, hdone⟩
    · rw [if_neg hidle]
      simp
  | @underWay name hname hprogress =>
    cases hresult
    refine ⟨.refl s, name, hname, ?_, fun _ => rfl, [], by simp, ?_⟩
    · exact (Memo.contains_iff _ _).mpr ⟨_, hprogress⟩
    · rw [if_pos ((Memo.isInProgress_iff _ _).mpr hprogress)]
      rfl
  | lost hname hnew htarget => cases hresult
  | failed hname hnew htarget hrun => cases hresult
  | @declared name schema text t hname hnew htarget hrun =>
    obtain rfl := eq_report_of_tell hlistener hresult
    obtain ⟨hreports, hunreported⟩ := hnested name schema s text t hnew hs hrun
    have hidle : ¬ s.memo.isInProgress name = true := by
      rw [Memo.isInProgress_iff, hnew]
      simp
    refine ⟨hreports, name, hname, ?_, fun h => absurd h hidle, ?_⟩
    · have hdone := (hreports.tallied hs name text).mpr (List.mem_append_right _ (by simp))
      exact (Memo.contains_iff _ _).mpr ⟨_, hdone⟩
    · -- the name is not among the reports before, and it is the last one
      obtain ⟨new, hnewer⟩ := hreports.kept
      refine ⟨new, hnewer.symm, ?_⟩
      have hbefore : (s.reported.map Prod.fst).count name = 0 := by
        refine List.count_eq_zero.mpr (hs.not_mem_of_not_done fun text' => ?_)
        rw [hnew]
        simp
      have hlast : (t.reported.map Prod.fst).count name = 0 := List.count_eq_zero.mpr hunreported
      have hsum := congrArg (fun reported => (reported.map Prod.fst).count name) hnewer
      rw [if_neg hidle]
      simpa [State.report, hbefore, hlast] using hsum

end Expansion

namespace Attempt

variable {a : Attempt φ}

/-- What the rendering of an attempt leads to, if it gives a text. -/
structure ReportsRendered (a : Attempt φ) : Prop
    extends Reports a.entered a.nested a.rendered where
  met_heard : ∀ r ∈ a.met, ∃ n, Reference.displayNameOf r = .ok n ∧
    a.rendered.memo.contains n = true

/-- A rendering reports what the attempts nested in it should report, if these do so. -/
theorem reportsRendered_of_nested (hlistener : a.expansion.options.listener.isPresent = true)
    (hnested : a.expansion.NestedReport a.bound) (hentered : Tallied a.entered) {text : String}
    (hresult : a.result = .ok text) : a.ReportsRendered := by
  let P (c : Course (State φ)) (u : State φ) : Prop :=
    Reports a.entered (a.made c) u ∧
      ∀ m ∈ c.meetings, ∃ n, Reference.displayNameOf m.reference = .ok n ∧
        u.memo.contains n = true
  have hends : Step.Ends (a.rendering.run a.host a.entered) (P a.course) fun _ _ => True := by
    refine Rendering.run_course (P := P) (E := fun _ _ _ => True) (fun _ _ _ _ _ => trivial)
      (fun c r s h _ => ?_) (fun c code options s h _ => ?_) (ofSchema_within _ _ _ _ _)
      ⟨.refl _, by simp⟩
    · obtain ⟨hreports, hheard⟩ := h
      have hmeets := Expansion.meet_meets a.expansion (a.expansion.declare a.bound) r s
      rcases hrun : a.host.meet r s with ⟨e | ⟨⟩, u⟩
      · exact trivial
      · obtain ⟨hmore, n, hn⟩ := Expansion.reports_of_meets hlistener hnested hmeets hrun
          (hreports.tallied hentered)
        refine ⟨?_, List.forall_mem_append.mpr ⟨fun m hm => ?_, List.forall_mem_singleton.mpr ?_⟩⟩
        · rw [made_meets]
          exact hreports.trans hmore
        · obtain ⟨n', hn', hcontains⟩ := hheard m hm
          exact ⟨n', hn', hmore.contains hcontains⟩
        · exact ⟨n, hn.displayNameOf_eq, hn.contains⟩
    · exact Expansion.format_keeps (I := P c) (E := fun _ _ => True) code options
        (fun _ t f _ ht => ⟨ht.1.format f, ht.2⟩) (fun _ _ _ _ _ => trivial) s h
  rw [(of_result_eq_ok a hresult).1] at hends
  refine ⟨hends.1, fun r hr => ?_⟩
  obtain ⟨m, hm, rfl⟩ := List.mem_map.mp hr
  exact hends.2 m hm

/-- What is in progress when a rendering ends was in progress when it began. -/
theorem isInProgress_entered_of_rendered {text : String} (hresult : a.result = .ok text)
    (hname : a.entered.memo.isInProgress a.name = true) {n : String}
    (hn : a.rendered.memo.isInProgress n = true) : a.entered.memo.isInProgress n = true := by
  by_cases heq : n = a.name
  · rwa [heq]
  · refine ((isInProgress_after hresult n).mp ?_).2
    rw [Memo.isInProgress_iff, progress?_after_of_ne heq]
    exact (Memo.isInProgress_iff _ _).mp hn

/-- The names of the references that an attempt meets are done when its rendering ends, or else they
were in progress when it began. -/
theorem ReportsRendered.ordered (h : a.ReportsRendered) {text : String}
    (hresult : a.result = .ok text) (hname : a.entered.memo.isInProgress a.name = true) :
    Ordered (fun n => ∃ text, a.rendered.memo.progress? n = some (.done text)) [a] := by
  refine .singleton fun r hr n hn => ?_
  obtain ⟨n', hn', hcontains⟩ := h.met_heard r hr
  obtain rfl : n = n' := Except.ok.inj (hn.symm.trans hn')
  obtain ⟨p, hp⟩ := (Memo.contains_iff _ _).mp hcontains
  cases p with
  | done text' => exact Or.inl ⟨text', hp⟩
  | inProgress =>
    exact Or.inr (isInProgress_entered_of_rendered hresult hname
      ((Memo.isInProgress_iff _ _).mpr hp))

/-- An attempt at a new name that gives a text, and is reported, reports what it should, if its
rendering does; and its name was not reported before. -/
theorem reports_all {s : State φ} (hs : Tallied s) (hentered : a.entered = s.start a.name)
    (hnew : s.memo.progress? a.name = none) {text : String} (hresult : a.result = .ok text)
    (h : a.ReportsRendered) :
    Reports s a.all (a.after.report a.name text) ∧ a.name ∉ a.after.reported.map Prod.fst := by
  have hstart : Reports s [] a.entered := hentered ▸ .start hnew
  have hnested : Reports s a.nested a.rendered := hstart.trans h.toReports
  have hentry : a.entered.memo.progress? a.name = some .inProgress := by
    rw [hentered]
    exact Memo.progress?_start_self s.memo a.name
  have hprogress : a.rendered.memo.progress? a.name = some .inProgress := h.known _ _ hentry
  have hextends : Extends s a.all a.after := extends_all hentered hnew h.toExtends
  have hafter : a.after = a.rendered.finish a.name text := (of_result_eq_ok a hresult).2
  rw [hafter] at hextends ⊢
  -- What is nested ends first, while the name of the attempt is still in progress.
  have horder : Ordered (fun n => ∃ text, s.memo.progress? n = some (.done text)) a.all := by
    refine hnested.order.append
      (h.ordered hresult ((Memo.isInProgress_iff _ _).mpr hentry)) ?_
    rintro n ⟨text', htext'⟩
    exact (hnested.done_or_named htext').imp_left fun hs => ⟨text', hs⟩
  refine ⟨{
    toExtends := hextends.memo_eq rfl
    tallied := fun _ => (hnested.tallied hs).finish_report hprogress text
    gives := ?_
    heard := ?_
    order := horder
    kept := hnested.kept.trans (List.prefix_append _ _)
    addAll_eq := ?_ }, ?_⟩
  · intro b hb
    rcases a.mem_all.mp hb with hb | rfl
    · exact hnested.gives b hb
    · exact ⟨text, hresult⟩
  · intro b hb r hr
    have hcontains : ∃ n, Reference.displayNameOf r = .ok n ∧
        a.rendered.memo.contains n = true := by
      rcases a.mem_all.mp hb with hb | rfl
      · exact hnested.heard b hb r hr
      · exact h.met_heard r hr
    obtain ⟨n, hn, hcontains⟩ := hcontains
    exact ⟨n, hn, (Memo.contains_finish _ _ _ _).mpr (Or.inr hcontains)⟩
  · intro table
    rw [all, List.filterMap_append, Table.addAll_append, ← hnested.addAll_eq,
      List.filterMap_cons_some (declaration?_of_ok hresult)]
    exact Table.addAll_append _ _ _
  · refine (hnested.tallied hs).not_mem_of_not_done fun text' => ?_
    rw [hprogress]
    simp

end Attempt

/-- However deep they are nested, attempts at new names report what they should. -/
theorem Expansion.nestedReport {x : Expansion φ} (hlistener : x.options.listener.isPresent = true)
    (bound : Nat) : x.NestedReport bound := by
  induction bound with
  | zero =>
    intro name schema s text t _ _ hrun
    cases hrun
  | succ bound ih =>
    intro name schema s text t hnew hs hrun
    let a : Attempt φ := ⟨x, bound, name, schema, s.start name⟩
    have hentered : a.entered = s.start a.name := State.enter_start s name
    have hresult : a.result = .ok text := congrArg Prod.fst hrun
    obtain rfl : a.after = t := congrArg Prod.snd hrun
    have htallied : Tallied a.entered := hentered ▸ hs.start hnew
    exact Attempt.reports_all hs hentered hnew hresult
      (Attempt.reportsRendered_of_nested hlistener ih htallied hresult)

namespace Attempt

variable {a : Attempt φ}

/-- A rendering reports what the attempts nested in it should report. -/
theorem reportsRendered (hlistener : a.expansion.options.listener.isPresent = true)
    (hentered : Tallied a.entered) {text : String} (hresult : a.result = .ok text) :
    a.ReportsRendered :=
  reportsRendered_of_nested hlistener (Expansion.nestedReport hlistener a.bound) hentered hresult

end Attempt

/-! ## All attempts and all meetings -/

/-- Whenever a reference is met and answered, what is reported is what is done, as before. -/
theorem Expansion.meet_keeps_tallied {x : Expansion φ}
    (hlistener : x.options.listener.isPresent = true) (bound : Nat) (reference : Json) :
    (x.meet (x.declare bound) reference).Keeps Tallied fun _ _ => True := by
  intro s hs
  rcases hrun : x.meet (x.declare bound) reference s with ⟨e | ⟨⟩, u⟩
  · exact trivial
  · exact (reports_of_meets hlistener (nestedReport hlistener bound) (meet_meets x _ reference s)
      hrun hs).1.tallied hs

namespace Attempt

variable {a b : Attempt φ}

/-- In an attempt that begins where what is reported is what is done, every meeting begins there. -/
theorem tallied_of_mem_meetings (hlistener : a.expansion.options.listener.isPresent = true)
    (hentered : Tallied a.entered) {m : Meeting (State φ)} (hm : m ∈ a.meetings) :
    Tallied m.before := by
  have hformat : ∀ code options, (a.host.format code options).Keeps Tallied fun _ _ => True :=
    fun code options => Expansion.format_keeps code options (fun _ _ _ _ ht => ht)
      fun _ _ _ _ _ => trivial
  exact (Rendering.meetings_keep (Expansion.meet_keeps_tallied hlistener a.bound) hformat
    (ofSchema_within _ _ _ _ _) hentered m hm).2.1

/-- An attempt within an attempt begins where what is reported is what is done, if that one does. -/
theorem tallied_entered (hlistener : a.expansion.options.listener.isPresent = true)
    (hentered : Tallied a.entered) (hb : b ∈ a.all) : Tallied b.entered := by
  refine induct_all hb hentered fun c hc hcentered m d hd => ?_
  rw [← expansion_eq_of_mem_all hc] at hlistener
  have hbefore := tallied_of_mem_meetings hlistener hcentered hd.mem
  have hnew := (Expansion.of_begins?_eq_some hd.begins).2.1
  unfold entered
  rw [hd.before_eq, State.enter_start]
  exact hbefore.start hnew

/-- Every reference that is met in an attempt that gives a text is heard of. -/
theorem heard (hlistener : a.expansion.options.listener.isPresent = true)
    (hentered : Tallied a.entered) {text : String} (hresult : a.result = .ok text) :
    ∀ m ∈ a.meetings, ∃ n, Heard n m := by
  intro m hm
  have hanswered := Rendering.meetings_answered (ofSchema_within _ _ _ _ _)
    (of_result_eq_ok a hresult).1 m hm
  exact (Expansion.reports_of_meets hlistener (Expansion.nestedReport hlistener a.bound)
    (Expansion.meet_meets a.expansion _ m.reference m.before) hanswered
    (tallied_of_mem_meetings hlistener hentered hm)).2

/-- What an attempt comes to that declares all references that are met on the way, and reports
them. -/
structure Collected (a : Attempt φ) : Prop where
  /-- The names that have come up are that of the attempt, and those of the references that are
  met anywhere. -/
  names : ∀ n, a.after.memo.contains n = true ↔
    n = a.name ∨ ∃ b ∈ a.all, ∃ r ∈ b.met, Reference.displayNameOf r = .ok n
  /-- Each of them is attempted, -/
  attempted : ∀ n, a.after.memo.contains n = true ↔ n ∈ a.all.map Attempt.name
  /-- and this only once. -/
  nodup : (a.all.map Attempt.name).Nodup
  /-- What is attempted is the target of a reference of that name. -/
  targets : ∀ b ∈ a.nested, ∃ c ∈ a.all, ∃ r ∈ c.met, Reference.displayNameOf r = .ok b.name ∧
    Reference.targetOf a.expansion.document r = .ok b.schema
  /-- In the end every name has the text of its attempt. -/
  done : ∀ b ∈ a.all, ∃ text, b.result = .ok text ∧
    a.after.memo.progress? b.name = some (.done text)
  /-- All names but that of the attempt are reported, -/
  reported : ∀ n, n ∈ a.after.reported.map Prod.fst ↔ n ≠ a.name ∧ a.after.memo.contains n = true
  /-- and always with the text that they have in the end. -/
  texts : ∀ n text, (n, text) ∈ a.after.reported → a.after.memo.progress? n = some (.done text)
  /-- Whenever a reference is met, its name is reported once, unless it is in progress. -/
  heard : ∀ b ∈ a.all, ∀ m ∈ b.meetings, ∃ n, Heard n m
  /-- Every attempt hands one code to the formatter, if there is one, unless its schema counts as
  false. -/
  codes : ∀ b ∈ a.all,
    b.codes.length = if b.schema.truthy && a.expansion.formatting.isSome then 1 else 0
  /-- So a formatter that counts its calls has counted these schemas. -/
  calls : a.expansion.formatting.isSome = true → ∀ calls : φ → Nat, a.expansion.CountsCalls calls →
    calls a.after.formatter = calls a.before.formatter + a.all.countP fun b => b.schema.truthy

section Fresh

variable {f : φ} {text : String}

theorem entered_of_fresh (hbefore : a.before = { formatter := f }) :
    a.entered = a.before.start a.name := by
  unfold entered
  rw [hbefore]
  rfl

theorem tallied_entered_of_fresh (hbefore : a.before = { formatter := f }) :
    Tallied a.entered := by
  rw [entered_of_fresh hbefore, hbefore]
  exact (Tallied.fresh f).start rfl

/-- An attempt that begins with nothing and gives a text reports what it should. -/
theorem reports_of_fresh (hlistener : a.expansion.options.listener.isPresent = true)
    (hbefore : a.before = { formatter := f }) (hresult : a.result = .ok text) :
    Reports a.before a.all (a.after.report a.name text) ∧
      a.name ∉ a.after.reported.map Prod.fst := by
  have hfresh : Tallied a.before := hbefore ▸ .fresh f
  have hnew : a.before.memo.progress? a.name = none := by
    rw [hbefore]
    rfl
  exact reports_all hfresh (entered_of_fresh hbefore) hnew hresult
    (reportsRendered hlistener (tallied_entered_of_fresh hbefore) hresult)

variable (hlistener : a.expansion.options.listener.isPresent = true)
  (hbefore : a.before = { formatter := f }) (hresult : a.result = .ok text)

include hbefore hresult

/-- After an attempt that began with nothing, everything is done, since nothing was in progress. -/
theorem contains_after_iff {n : String} :
    a.after.memo.contains n = true ↔ ∃ text', a.after.memo.progress? n = some (.done text') := by
  constructor
  · intro hn
    obtain ⟨b, -, -, text', -, htext'⟩ :=
      a.disciplined.all_done text hresult n (by rw [hbefore]; rfl) hn
    exact ⟨text', htext'⟩
  · rintro ⟨text', htext'⟩
    exact (Memo.contains_iff _ _).mpr ⟨_, htext'⟩

include hlistener

/-- After an attempt that began with nothing, the names that have come up are those of the
attempts. -/
theorem contains_after_iff_mem {n : String} :
    a.after.memo.contains n = true ↔ n ∈ a.all.map Attempt.name := by
  obtain ⟨hreports, -⟩ := reports_of_fresh hlistener hbefore hresult
  constructor
  · intro hn
    obtain ⟨text', htext'⟩ := (contains_after_iff hbefore hresult).mp hn
    obtain ⟨b, hb, hname, -⟩ := hreports.added n text' (by rw [hbefore]; rfl) htext'
    exact List.mem_map.mpr ⟨b, hb, hname⟩
  · intro hn
    obtain ⟨b, hb, rfl⟩ := List.mem_map.mp hn
    exact (Memo.contains_iff _ _).mpr (hreports.entered b hb)

/-- These are the name of the attempt and those of the references that are met. -/
theorem contains_after_iff_met {n : String} :
    a.after.memo.contains n = true ↔
      n = a.name ∨ ∃ b ∈ a.all, ∃ r ∈ b.met, Reference.displayNameOf r = .ok n := by
  obtain ⟨hreports, -⟩ := reports_of_fresh hlistener hbefore hresult
  constructor
  · intro hn
    obtain ⟨b, hb, rfl⟩ :=
      List.mem_map.mp ((contains_after_iff_mem hlistener hbefore hresult).mp hn)
    rcases a.mem_all.mp hb with hb | rfl
    · obtain ⟨c, hc, r, hr, hname, -⟩ := exists_met_of_mem_nested hb
      exact Or.inr ⟨c, hc, r, hr, hname⟩
    · exact Or.inl rfl
  · rintro (rfl | ⟨b, hb, r, hr, hname⟩)
    · exact (contains_after_iff hbefore hresult).mpr ⟨text, progress?_after_self hresult⟩
    · obtain ⟨n', hn', hknown⟩ := hreports.heard b hb r hr
      obtain rfl : n = n' := Except.ok.inj (hname.symm.trans hn')
      exact hknown

/-- What is reported is what is done, apart from the attempt itself. -/
theorem mem_reported_iff {n text' : String} :
    (n, text') ∈ a.after.reported ↔
      n ≠ a.name ∧ a.after.memo.progress? n = some (.done text') := by
  obtain ⟨hreports, hunreported⟩ := reports_of_fresh hlistener hbefore hresult
  have htallied : a.after.memo.progress? n = some (.done text') ↔
      (n, text') ∈ a.after.reported ++ [(a.name, text)] :=
    hreports.tallied (hbefore ▸ .fresh f) n text'
  rw [htallied, List.mem_append, List.mem_singleton]
  constructor
  · intro hmem
    refine ⟨?_, Or.inl hmem⟩
    rintro rfl
    exact hunreported (List.mem_map_of_mem hmem)
  · rintro ⟨hne, hmem | hlast⟩
    · exact hmem
    · exact absurd (congrArg Prod.fst hlast) hne

/-- An attempt that begins with nothing, and gives a text, comes to what it should. -/
theorem collected : a.Collected := by
  have hentered : Tallied a.entered := tallied_entered_of_fresh hbefore
  obtain ⟨hreports, -⟩ := reports_of_fresh hlistener hbefore hresult
  refine ⟨fun n => contains_after_iff_met hlistener hbefore hresult,
    fun n => contains_after_iff_mem hlistener hbefore hresult, hreports.nodup,
    fun b hb => exists_met_of_mem_nested hb, fun b hb => ?_, fun n => ?_, fun n text' hmem => ?_,
    fun b hb => ?_, fun b hb => ?_,
    fun hformatting calls hx => calls_after hx hformatting hreports.gives⟩
  · obtain ⟨text', htext'⟩ := hreports.gives b hb
    exact ⟨text', htext', hreports.done b hb text' htext'⟩
  · rw [contains_after_iff hbefore hresult, ← exists_and_left, List.mem_map]
    simp [mem_reported_iff hlistener hbefore hresult]
  · exact ((mem_reported_iff hlistener hbefore hresult).mp hmem).2
  · obtain ⟨text', htext'⟩ := hreports.gives b hb
    exact heard (expansion_eq_of_mem_all hb ▸ hlistener) (tallied_entered hlistener hentered hb)
      htext'
  · obtain ⟨text', htext'⟩ := hreports.gives b hb
    rw [length_codes htext', expansion_eq_of_mem_all hb]

end Fresh

end Attempt

/-- When an expansion with a new memo gives a text, and somebody hears the reports, every reference
that was met is declared once, and reported with what it is declared as; and the formatter was
called once for each of these declarations which has a type expression. -/
theorem Expansion.attempts_collected (x : Expansion φ)
    (hlistener : x.options.listener.isPresent = true) (name : String) (schema : Json) (f : φ)
    (text : String) (t : State φ) (hrun : x.run name schema { formatter := f } = (.ok text, t)) :
    (x.attempt name schema { formatter := f }).name = name ∧
      (x.attempt name schema { formatter := f }).result = .ok text ∧
      (x.attempt name schema { formatter := f }).after = t ∧
      (x.attempt name schema { formatter := f }).Collected :=
  have hresult : (x.attempt name schema { formatter := f }).result = .ok text :=
    congrArg Prod.fst hrun
  ⟨rfl, hresult, congrArg Prod.snd hrun, Attempt.collected hlistener rfl hresult⟩

/-- Shallow expansions in the circle, with a formatter that counts its calls. -/
def Expansion.countingCircle : Expansion Nat where
  document := circle.document
  options := { listener := .keeper }
  formatting := some (.options {})
  formatter := fun code _ n => (.ok code, n + 1)

/-- A schema that refers to the same definition twice. -/
def Expansion.pointingTwice : Json :=
  .obj [("properties", .obj [("one", .obj [("$ref", .str "#/definitions/A")]),
    ("two", .obj [("$ref", .str "#/definitions/A")])])]

/-- What is left when that schema has been declared. -/
def Expansion.collectedCircle : State Nat :=
  let one := "interface A \x7b\n  next?: B;\n\x7d"
  let other := "interface B \x7b\n  next?: A;\n\x7d"
  { memo := ⟨[("R", .done "interface R \x7b\n  one?: A;\n  two?: A;\n\x7d"), ("A", .done one),
      ("B", .done other)]⟩
    reported := [("B", other), ("A", one), ("A", one)]
    formatter := 3 }

/-- Of two definitions that refer to each other, one is met while it is new, while it is in progress
and when it is done. Both are declared once, and the formatter is called three times. -/
theorem Expansion.attempts_collected_circle :
    countingCircle.options.listener.isPresent = true ∧
      countingCircle.run "R" pointingTwice { formatter := 0 } =
        (.ok "interface R \x7b\n  one?: A;\n  two?: A;\n\x7d", collectedCircle) ∧
      (countingCircle.attempt "R" pointingTwice { formatter := 0 }).Collected ∧
      ∀ n, n ∈ ["B", "A", "A"] ↔ n ≠ "R" ∧ collectedCircle.memo.contains n = true := by
  have hrun : countingCircle.run "R" pointingTwice { formatter := 0 } =
      (.ok "interface R \x7b\n  one?: A;\n  two?: A;\n\x7d", collectedCircle) := by rfl
  obtain ⟨-, -, hafter, h⟩ :=
    attempts_collected countingCircle rfl "R" pointingTwice 0 _ _ hrun
  have hreported := h.reported
  rw [hafter] at hreported
  exact ⟨rfl, hrun, h, hreported⟩

end SchemaTypes.Declaration

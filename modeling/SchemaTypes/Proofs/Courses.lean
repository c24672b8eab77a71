import SchemaTypes.Proofs.Renderings

/-!
# Courses of runs

While a rendering is carried out, its host is asked for this and that. `Rendering.course` lists what
was asked: the references that were met, each with the states in which the host was found and left,
and the codes that were handed to the formatter.

`Rendering.run_course` is the induction on a run that keeps its course in view: what holds of a
course and a state, and is kept by every answer of the host together with what was asked, holds when
the run is over. `Rendering.Hands` says how many codes a rendering hands to the formatter, whatever
it is answered.
-/

namespace SchemaTypes

/-- A reference that is met, with the states of the host before and after its answer. -/
structure Meeting (σ : Type) where
  reference : Json
  before : σ
  after : σ

/-- What a host is asked for, in order. -/
structure Course (σ : Type) where
  meetings : List (Meeting σ) := []
  /-- What the formatter is given. -/
  codes : List String := []

namespace Course

variable {σ : Type}

/-- One more reference is met. -/
def meets (c : Course σ) (m : Meeting σ) : Course σ :=
  { c with meetings := c.meetings ++ [m] }

/-- One more code is handed to the formatter. -/
def hands (c : Course σ) (code : String) : Course σ :=
  { c with codes := c.codes ++ [code] }

@[simp] theorem meetings_meets (c : Course σ) (m : Meeting σ) :
    (c.meets m).meetings = c.meetings ++ [m] := rfl

@[simp] theorem codes_meets (c : Course σ) (m : Meeting σ) : (c.meets m).codes = c.codes := rfl

@[simp] theorem meetings_hands (c : Course σ) (code : String) :
    (c.hands code).meetings = c.meetings := rfl

@[simp] theorem codes_hands (c : Course σ) (code : String) :
    (c.hands code).codes = c.codes ++ [code] := rfl

end Course

namespace Rendering

variable {α β σ : Type}

/-- The course of a run, after what was asked for before. A request that the host fails to answer is
the last one. -/
def course (host : Host σ) : Rendering α → σ → Course σ → Course σ
  | done _, _, c => c
  | failed _, _, c => c
  | meets r rest, s, c =>
    let c := c.meets ⟨r, s, (host.meet r s).2⟩
    match host.meet r s with
    | (.ok _, t) => rest.course host t c
    | (.error _, _) => c
  | asks n rest, s, c => (rest (host.underWay n s)).course host s c
  | formats code options rest, s, c =>
    let c := c.hands code
    match host.format code options s with
    | (.ok text, t) => (rest text).course host t c
    | (.error _, _) => c

/-- The meetings before are still part of a course. -/
theorem mem_course_of_mem (host : Host σ) (x : Rendering α) (s : σ) {c : Course σ} {m : Meeting σ}
    (hm : m ∈ c.meetings) : m ∈ (x.course host s c).meetings := by
  induction x generalizing s c with
  | done a => exact hm
  | failed e => exact hm
  | meets r rest ih =>
    have hlater : ∀ t, m ∈ (c.meets ⟨r, s, t⟩).meetings := fun t => List.mem_append_left _ hm
    rw [course]
    rcases host.meet r s with ⟨e | u, t⟩
    · exact hlater t
    · exact ih t (hlater t)
  | asks n rest ih => exact ih _ s hm
  | formats code options rest ih =>
    rw [course]
    rcases host.format code options s with ⟨e | text, t⟩
    · exact hm
    · exact ih text t hm

/-! ## What holds along a course -/

section Along

variable {l : Leave} {host : Host σ} {x : Rendering α} {c : Course σ} {s : σ}

/-- What holds of a course and a state holds at the end of a run, if every answer of the host keeps
it, together with what was asked for; and if the answers that fail lead to `E`, then so does a run
that fails. -/
theorem run_course {P : Course σ → σ → Prop} {E : Course σ → Failure → σ → Prop}
    (hfail : ∀ c e s, P c s → l.failing e → E c e s)
    (hmeet : ∀ c r s, P c s → l.meeting r →
      Step.Ends (host.meet r s) (P (c.meets ⟨r, s, (host.meet r s).2⟩))
        (E (c.meets ⟨r, s, (host.meet r s).2⟩)))
    (hformat : ∀ c code options s, P c s → l.formatting →
      Step.Ends (host.format code options s) (P (c.hands code)) (E (c.hands code)))
    (hx : x.Within l) (h : P c s) :
    Step.Ends (x.run host s) (P (x.course host s c)) (E (x.course host s c)) := by
  induction x generalizing c s with
  | done a => exact h
  | failed e => exact hfail c e s h hx
  | meets r rest ih =>
    have hends := hmeet c r s h hx.1
    rw [run, course]
    rcases hrun : host.meet r s with ⟨e | u, t⟩
    · rw [hrun] at hends
      exact hends
    · rw [hrun] at hends
      exact ih hx.2 hends
  | asks n rest ih => exact ih _ (hx.2 _) h
  | formats code options rest ih =>
    have hends := hformat c code options s h hx.1
    rw [run, course]
    rcases hrun : host.format code options s with ⟨e | text, t⟩
    · rw [hrun] at hends
      exact hends
    · rw [hrun] at hends
      exact ih text (hx.2 text) hends

/-- What every answer of the host keeps, also one that fails, holds at the end of a run. -/
theorem run_course_always {P : Course σ → σ → Prop}
    (hmeet : ∀ c r s, P c s → l.meeting r →
      P (c.meets ⟨r, s, (host.meet r s).2⟩) (host.meet r s).2)
    (hformat : ∀ c code options s, P c s → l.formatting →
      P (c.hands code) (host.format code options s).2)
    (hx : x.Within l) (h : P c s) : P (x.course host s c) (x.run host s).2 := by
  have hends : Step.Ends (x.run host s) (P (x.course host s c))
      fun _ => P (x.course host s c) := by
    refine run_course (E := fun c _ => P c) (fun _ _ _ h _ => h) (fun c r s h hr => ?_)
      (fun c code options s h hl => ?_) hx h
    · exact Step.ends_both.mpr (hmeet c r s h hr)
    · exact Step.ends_both.mpr (hformat c code options s h hl)
  exact Step.ends_both.mp hends

/-- Every reference that is met is one that may be met, and finds the host in a state that the
answers before have kept; also in a run that fails. -/
theorem meetings_keep {I : σ → Prop} {E : Failure → σ → Prop}
    (hmeet : ∀ r, (host.meet r).Keeps I E)
    (hformat : ∀ code options, (host.format code options).Keeps I E)
    (hx : x.Within l) (h : I s) :
    ∀ m ∈ (x.course host s {}).meetings,
      l.meeting m.reference ∧ I m.before ∧ m.after = (host.meet m.reference m.before).2 := by
  let Q (m : Meeting σ) : Prop :=
    l.meeting m.reference ∧ I m.before ∧ m.after = (host.meet m.reference m.before).2
  have hends : Step.Ends (x.run host s)
      (fun t => I t ∧ ∀ m ∈ (x.course host s {}).meetings, Q m)
      fun _ _ => ∀ m ∈ (x.course host s {}).meetings, Q m := by
    refine run_course (P := fun c t => I t ∧ ∀ m ∈ c.meetings, Q m)
      (E := fun c _ _ => ∀ m ∈ c.meetings, Q m) (fun _ _ _ h _ => h.2) (fun c r t h hr => ?_)
      (fun c code options t h _ => ?_) hx ⟨h, by simp⟩
    · have hlast : ∀ m ∈ (c.meets ⟨r, t, (host.meet r t).2⟩).meetings, Q m :=
        List.forall_mem_append.mpr ⟨h.2, List.forall_mem_singleton.mpr ⟨hr, h.1, rfl⟩⟩
      exact (hmeet r t h.1).mono (fun u hu => ⟨hu, hlast⟩) fun _ _ _ => hlast
    · exact (hformat code options t h.1).mono (fun u hu => ⟨hu, h.2⟩) fun _ _ _ => h.2
  rcases hrun : x.run host s with ⟨e | a, t⟩
  · rw [hrun] at hends
    exact hends
  · rw [hrun] at hends
    exact hends.2

/-- In a run that ends with a value every meeting was answered. -/
theorem meetings_answered (hx : x.Within l) {a : α} {t : σ} (hrun : x.run host s = (.ok a, t)) :
    ∀ m ∈ (x.course host s {}).meetings, host.meet m.reference m.before = (.ok (), m.after) := by
  have hends : Step.Ends (x.run host s)
      (fun _ => ∀ m ∈ (x.course host s {}).meetings,
        host.meet m.reference m.before = (.ok (), m.after)) fun _ _ => True := by
    refine run_course
      (P := fun c _ => ∀ m ∈ c.meetings, host.meet m.reference m.before = (.ok (), m.after))
      (E := fun _ _ _ => True) (fun _ _ _ _ _ => trivial) (fun c r t h _ => ?_)
      (fun c code options t h _ => ?_) hx (by simp)
    · rcases hmeet : host.meet r t with ⟨e | ⟨⟩, u⟩
      · exact trivial
      · exact List.forall_mem_append.mpr ⟨h, List.forall_mem_singleton.mpr hmeet⟩
    · rcases host.format code options t with ⟨e | text, u⟩
      · exact trivial
      · exact h
  rw [hrun] at hends
  exact hends

end Along

/-! ## How many codes are handed over -/

/-- Whenever a rendering ends with a value, it has handed so many codes to the formatter. -/
def Hands (count : Nat) : Rendering α → Prop
  | done _ => count = 0
  | failed _ => True
  | meets _ rest => rest.Hands count
  | asks _ rest => ∀ b, (rest b).Hands count
  | formats _ _ rest => ∃ fewer, count = fewer + 1 ∧ ∀ text, (rest text).Hands fewer

theorem hands_of_within {l : Leave} (hl : ¬ l.formatting) {x : Rendering α} (h : x.Within l) :
    x.Hands 0 := by
  induction x with
  | done a => rfl
  | failed e => trivial
  | meets r rest ih => exact ih h.2
  | asks n rest ih => exact fun b => ih b (h.2 b)
  | formats code options rest ih => exact absurd h.1 hl

theorem hands_bind {x : Rendering α} {f : α → Rendering β} {count more : Nat} (hx : x.Hands count)
    (hf : ∀ a, (f a).Hands more) : (x >>= f).Hands (count + more) := by
  change (x.bind f).Hands (count + more)
  induction x generalizing count with
  | done a =>
    obtain rfl : count = 0 := hx
    rw [Nat.zero_add]
    exact hf a
  | failed e => trivial
  | meets r rest ih => exact ih hx
  | asks n rest ih => exact fun b => ih b (hx b)
  | formats code options rest ih =>
    obtain ⟨fewer, rfl, hrest⟩ := hx
    exact ⟨fewer + more, by omega, fun text => ih text (hrest text)⟩

/-- A run that ends with a value has handed over as many codes as the rendering says. -/
theorem length_codes {host : Host σ} {x : Rendering α} {count : Nat} (hx : x.Hands count) {s t : σ}
    {c : Course σ} {a : α} (hrun : x.run host s = (.ok a, t)) :
    (x.course host s c).codes.length = c.codes.length + count := by
  induction x generalizing s c count with
  | done b =>
    obtain rfl : count = 0 := hx
    rfl
  | failed e => cases hrun
  | meets r rest ih =>
    obtain ⟨s', hmeet, hrest⟩ := run_meets_eq_ok.mp hrun
    rw [course, hmeet]
    exact ih hx hrest
  | asks n rest ih => exact ih _ (hx _) hrun
  | formats code options rest ih =>
    obtain ⟨fewer, rfl, hrest⟩ := hx
    obtain ⟨text, s', hformat, hlater⟩ := run_formats_eq_ok.mp hrun
    have hlength := ih text (hrest text) (c := c.hands code) hlater
    simp only [Course.codes_hands, List.length_append, List.length_singleton] at hlength
    rw [course, hformat]
    simp only [hlength]
    omega

end Rendering

end SchemaTypes

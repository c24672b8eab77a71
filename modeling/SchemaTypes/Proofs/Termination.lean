import SchemaTypes.Proofs.Shadows

/-!
# Cyclic references come to an end

However references run in circles, writing a schema and expanding it come to an end: the bounds of
the two recursions are never exhausted.

An expansion declares the target of a reference only if the name has not come up before, and a name
that came up stays in the memo. So nested declarations have different names, all of them display
names of the schema and the document, and the names that have not come up yet bound how deep
declarations are nested. To say this of a whole run, `declareNoting` notes every nested declaration
when it is begun; apart from the notes it does what `declare` does.
-/

namespace SchemaTypes.Declaration

open Expression (displayNames leave nestingBound)

/-! ## Names that have not come up -/

namespace Memo

/-- How many of some names have not come up. -/
def absent (names : List String) (m : Memo String) : Nat :=
  (names.filter fun n => !m.contains n).length

variable {names : List String} {m m' : Memo String}

theorem absent_le_length : absent names m ≤ names.length :=
  List.length_filter_le _ _

/-- The more names have come up, the fewer have not. -/
theorem absent_le_of_contains (h : ∀ n, m.contains n = true → m'.contains n = true) :
    absent names m' ≤ absent names m := by
  unfold absent
  rw [← List.countP_eq_length_filter, ← List.countP_eq_length_filter]
  refine List.countP_mono_left fun n _ hn => ?_
  cases hm : m.contains n with
  | false => rfl
  | true => simp [h n hm] at hn

/-- When a name comes up, fewer names have not. -/
theorem absent_start_lt {name : String} (hmem : name ∈ names) (h : m.progress? name = none) :
    absent names (m.start name) < absent names m := by
  have hstart : names.filter (fun n => !(m.start name).contains n) =
      (names.filter fun n => !m.contains n).filter (· ≠ name) := by
    rw [List.filter_filter]
    refine List.filter_congr fun n _ => ?_
    rw [Bool.eq_iff_iff]
    simp [← Bool.not_eq_true, contains_start, not_or]
  unfold absent
  rw [hstart, List.length_filter_lt_length_iff_exists]
  refine ⟨name, List.mem_filter.mpr ⟨hmem, ?_⟩, by simp⟩
  simp [contains_eq_isSome, h]

end Memo

namespace Expansion

variable {φ : Type}

/-! ## Noting nested declarations -/

/-- The nested declarations of an expansion, in the order in which they were begun. -/
abbrev Calls := List (String × Json)

namespace State

/-- The state with no declaration noted yet. -/
def noting (s : State φ) : State (φ × Calls) := ⟨s.memo, s.reported, (s.formatter, [])⟩

/-- The state without its notes. -/
def plain (s : State (φ × Calls)) : State φ := ⟨s.memo, s.reported, s.formatter.1⟩

/-- The nested declarations that were noted. -/
def calls (s : State (φ × Calls)) : Calls := s.formatter.2

/-- Notes a nested declaration. -/
def note (s : State (φ × Calls)) (name : String) (schema : Json) : State (φ × Calls) :=
  { s with formatter := (s.formatter.1, s.formatter.2 ++ [(name, schema)]) }

end State

/-- An expansion whose formatter leaves the notes alone. -/
def noting (x : Expansion φ) : Expansion (φ × Calls) where
  document := x.document
  options := x.options
  formatting := x.formatting
  formatter := fun code options => Step.on Prod.fst (fun f p => (f, p.2)) (x.formatter code options)

/-- Declares a schema under a name like `declare`, and notes the nested declarations. -/
def declareNoting (x : Expansion φ) : Nat → String → Json → Step (State (φ × Calls)) String
  | 0, _, _ => Step.ofExcept (.error .boundExceeded)
  | bound + 1, name, schema =>
    x.noting.declareWith
      (fun name schema s => x.declareNoting bound name schema (s.note name schema)) name schema

/-- Declares a schema like `run`, and notes the nested declarations. -/
def runNoting (x : Expansion φ) (name : String) (schema : Json) (s : State φ) :
    Except Failure String × State (φ × Calls) :=
  x.declareNoting (nestingBound x.document schema) name schema s.noting

theorem noting_enriches (x : Expansion φ) : Enriches Prod.fst x.noting x :=
  ⟨rfl, rfl, rfl, fun _ _ _ => rfl⟩

/-- Apart from the notes, noting changes nothing. -/
theorem declareNoting_shadows (x : Expansion φ) (bound : Nat) (name : String) (schema : Json) :
    Step.Shadows State.plain (x.declareNoting bound name schema) (x.declare bound name schema) := by
  induction bound generalizing name schema with
  | zero => exact fun t => rfl
  | succ bound ih =>
    exact x.noting_enriches.declareWith (fun name schema t => ih name schema (t.note name schema))
      name schema

/-! ## Room for nested declarations -/

/-- At most `bound` of the names have not come up, and the declarations noted are of different names
among them, which have come up. -/
structure Room (names : List String) (bound : Nat) (s : State (φ × Calls)) : Prop where
  absent_le : s.memo.absent names ≤ bound
  nodup : (s.calls.map Prod.fst).Nodup
  known : ∀ n ∈ s.calls.map Prod.fst, n ∈ names ∧ s.memo.contains n = true

namespace Room

variable {names : List String} {bound : Nat} {s t : State (φ × Calls)}

/-- There is still room when more names have come up. -/
theorem grow (h : Room names bound s) (hcalls : t.calls = s.calls)
    (hcontains : ∀ n, s.memo.contains n = true → t.memo.contains n = true) :
    Room names bound t where
  absent_le := Nat.le_trans (Memo.absent_le_of_contains hcontains) h.absent_le
  nodup := by
    rw [hcalls]
    exact h.nodup
  known := by
    rw [hcalls]
    exact fun n hn => ⟨(h.known n hn).1, hcontains n (h.known n hn).2⟩

theorem mono {bound' : Nat} (h : Room names bound s) (hle : bound ≤ bound') :
    Room names bound' s :=
  ⟨Nat.le_trans h.absent_le hle, h.nodup, h.known⟩

theorem start (h : Room names bound s) (name : String) : Room names bound (s.start name) :=
  h.grow rfl fun n hn => (Memo.contains_start s.memo name n).mpr (Or.inr hn)

theorem enter (h : Room names bound s) (name : String) : Room names bound (s.enter name) := by
  unfold State.enter
  split
  · exact h
  · exact h.start name

theorem finish (h : Room names bound s) (name text : String) :
    Room names bound (s.finish name text) :=
  h.grow rfl fun n hn => (Memo.contains_finish s.memo name n text).mpr (Or.inr hn)

/-- A new name takes room away, and its declaration can be noted. -/
theorem start_note {name : String} (h : Room names (bound + 1) s) (hmem : name ∈ names)
    (hnew : s.memo.progress? name = none) (schema : Json) :
    Room names bound ((s.start name).note name schema) := by
  have hnot : name ∉ s.calls.map Prod.fst := fun hn => by
    simpa [Memo.contains_eq_isSome, hnew] using (h.known name hn).2
  have hcalls : ((s.start name).note name schema).calls.map Prod.fst =
      s.calls.map Prod.fst ++ [name] := by
    simp [State.note, State.calls, State.start]
  refine ⟨?_, ?_, ?_⟩
  · exact Nat.le_of_lt_succ (Nat.lt_of_lt_of_le (Memo.absent_start_lt hmem hnew) h.absent_le)
  · rw [hcalls, List.nodup_append]
    refine ⟨h.nodup, by simp, ?_⟩
    rintro a ha b hb rfl
    exact hnot (List.mem_singleton.mp hb ▸ ha)
  · rw [hcalls]
    intro n hn
    change n ∈ names ∧ (s.memo.start name).contains n = true
    rw [Memo.contains_start]
    rcases List.mem_append.mp hn with hn | hn
    · exact ⟨(h.known n hn).1, Or.inr (h.known n hn).2⟩
    · obtain rfl := List.mem_singleton.mp hn
      exact ⟨hmem, Or.inl rfl⟩

end Room

/-- The display names of a part of the document are among those of any schema and the document. -/
theorem displayNames_subset {document part : Json} (schema : Json)
    (h : part.references ⊆ document.references) :
    displayNames document part ⊆ displayNames document schema := by
  intro name hname
  obtain ⟨r, hr, rfl⟩ := Expression.mem_displayNames.mp hname
  exact Expression.mem_displayNames.mpr ⟨r, Or.inr (hr.elim (fun hr => h hr) id), rfl⟩

/-- A failure that is no exhausted bound, in a state with room. -/
def Fails (names : List String) (bound : Nat) (e : Failure) (s : State (φ × Calls)) : Prop :=
  e ≠ .boundExceeded ∧ Room names bound s

/-- Whether it gives a result or fails, a declaration that keeps room has not exhausted its bound
and leaves room behind. -/
theorem room_of_ends {names : List String} {bound : Nat}
    {result : Except Failure String × State (φ × Calls)}
    (h : Step.Ends result (Room names bound) (Fails names bound)) :
    result.1 ≠ .error .boundExceeded ∧ Room names bound result.2 := by
  obtain ⟨e | text, t⟩ := result
  · refine ⟨?_, h.2⟩
    rintro ⟨⟩
    exact h.1 rfl
  · refine ⟨?_, h⟩
    rintro ⟨⟩

section Bound

variable {x : Expansion φ} {names : List String} {bound : Nat}
  {noted : String → Json → Step (State (φ × Calls)) String}

/-- A declaration keeps the room that its nested declarations keep. -/
theorem declareWith_keeps_room
    (hformatter : ∀ code options f, (x.formatter code options f).1 ≠ .error .boundExceeded)
    (hlistener : ∀ reported report,
      x.options.listener.answer reported report ≠ .error .boundExceeded)
    (hnested : ∀ name part s, name ∈ names → part.references ⊆ x.document.references →
      s.memo.progress? name = none → Room names bound s →
        Step.Ends (noted name part (s.start name)) (Room names bound) (Fails names bound))
    (name : String) {schema : Json} (hschema : displayNames x.document schema ⊆ names) :
    (x.noting.declareWith noted name schema).Keeps (Room names bound) (Fails names bound) := by
  intro s hs
  refine declareWith_ends (Rendering.run_keeps ?_ ?_ ?_ (ofSchema_within _ _ _ _ _))
    (hs.enter name) fun text t ht => ht.finish name text
  · exact fun e s hs he => ⟨he, hs⟩
  · intro reference hreference
    refine meet_keeps (fun name text => ?_) (fun e s he hs => ?_) fun name s hname hs hnew => ?_
    · refine tell_keeps name text (fun s hs => hs.grow rfl fun n hn => hn) fun e told s he hs => ?_
      refine ⟨?_, hs⟩
      rintro rfl
      exact hlistener told (name, text) he
    · exact ⟨fun h => (Expression.displayNameOf_settles reference).2 (by rw [he, h]), hs⟩
    · have hsettles := Reference.targetOf_settles x.document reference
      refine ⟨fun e he => ⟨fun h => hsettles.2 (by rw [← h]; exact he), hs.start name⟩,
        fun part hpart => ?_⟩
      exact hnested name part s (hschema (hreference name hname)) (hsettles.1 part hpart) hnew hs
  · intro _ code options
    have hcalls : ∀ {r : Except Failure String} {s : State (φ × Calls)} {f},
        x.noting.formatter code options s.formatter = (r, f) → f.2 = s.formatter.2 :=
      fun h => congrArg (fun p => p.2.2) h.symm
    refine format_keeps code options (fun text s f h hs => ?_) fun e s f h hs => ⟨?_, ?_⟩
    · exact hs.grow (hcalls h) fun n hn => hn
    · rintro rfl
      exact hformatter code options s.formatter.1 (congrArg Prod.fst h)
    · exact hs.grow (hcalls h) fun n hn => hn

/-- With room for all names that have not come up, a declaration does not end for want of a bound,
and it notes different names. -/
theorem declareNoting_keeps
    (hformatter : ∀ code options f, (x.formatter code options f).1 ≠ .error .boundExceeded)
    (hlistener : ∀ reported report,
      x.options.listener.answer reported report ≠ .error .boundExceeded)
    (hdocument : ∀ part : Json, part.references ⊆ x.document.references →
      displayNames x.document part ⊆ names)
    (name : String) {schema : Json} (hschema : displayNames x.document schema ⊆ names) :
    (x.declareNoting (bound + 1) name schema).Keeps (Room names bound) (Fails names bound) := by
  induction bound generalizing name schema with
  | zero =>
    refine declareWith_keeps_room hformatter hlistener (fun name part s hname _ hnew hs => ?_)
      name hschema
    -- no name is left that has not come up
    have hlt := Memo.absent_start_lt hname hnew
    have hle := hs.absent_le
    omega
  | succ bound ih =>
    refine declareWith_keeps_room hformatter hlistener
      (fun name part s hname hpart hnew hs => ?_) name hschema
    have hends := ih name (hdocument part hpart) _ (hs.start_note hname hnew part)
    exact hends.mono (fun t ht => ht.mono (Nat.le_succ bound))
      fun e t he => ⟨he.1, he.2.mono (Nat.le_succ bound)⟩

end Bound

/-- An expansion whose formatter and listener do not end for want of a bound does not do so
either. -/
theorem run_ne_boundExceeded (x : Expansion φ)
    (hformatter : ∀ code options f, (x.formatter code options f).1 ≠ .error .boundExceeded)
    (hlistener : ∀ reported report,
      x.options.listener.answer reported report ≠ .error .boundExceeded)
    (name : String) (schema : Json) (s : State φ) :
    (x.run name schema s).1 ≠ .error .boundExceeded := by
  have hroom : Room (displayNames x.document schema) (displayNames x.document schema).length
      s.noting :=
    ⟨Memo.absent_le_length, List.nodup_nil, by simp [State.noting, State.calls]⟩
  have hends := declareNoting_keeps hformatter hlistener
    (fun part hpart => displayNames_subset schema hpart) name (List.Subset.refl _) s.noting hroom
  have hshadows := declareNoting_shadows x (nestingBound x.document schema) name schema s.noting
  exact fun h => (room_of_ends hends).1 ((congrArg Prod.fst hshadows).symm.trans h)

/-- However references run in circles: a schema is written as a type expression without the bound
on nesting being exhausted, whoever carries the writing out; where a target is inlined, the names
that are being inlined are different display names of the schema and the document, so that nothing
that might be done instead, at other names or at the end of the bound, makes a difference; and an
expansion comes to an end without its bound being exhausted, whatever its memo holds, after it has
begun at most one nested declaration for each display name. -/
theorem run_terminates (x : Expansion φ)
    (hformatter : ∀ code options f, (x.formatter code options f).1 ≠ .error .boundExceeded)
    (hlistener : ∀ reported report,
      x.options.listener.answer reported report ≠ .error .boundExceeded)
    (settings : Expression.Settings) (schema : Json) (name : String) (s : State φ) :
    (∀ {σ : Type} (host : Host σ), (∀ r t, (host.meet r t).1 ≠ .error .boundExceeded) →
      ∀ t, ((Expression.ofSchema x.document settings schema).run host t).1 ≠
        .error .boundExceeded) ∧
    (∀ root, Schema.Node.ofJson schema "#" = .ok root → ∀ instead,
      Expression.ofTreeGuarded ⟨x.document, settings⟩ (Expression.Nests x.document schema) instead
          (nestingBound x.document schema) [] root =
        Expression.ofTree ⟨x.document, settings⟩ (nestingBound x.document schema) [] root) ∧
    (x.run name schema s).1 ≠ .error .boundExceeded ∧
    (x.run name schema s = ((x.runNoting name schema s).1, (x.runNoting name schema s).2.plain) ∧
      ((x.runNoting name schema s).2.calls.map Prod.fst).Nodup ∧
      ∀ n ∈ (x.runNoting name schema s).2.calls.map Prod.fst,
        n ∈ displayNames x.document schema) := by
  have hshadows : x.run name schema s =
      ((x.runNoting name schema s).1, (x.runNoting name schema s).2.plain) :=
    declareNoting_shadows x (nestingBound x.document schema) name schema s.noting
  have hroom : Room (displayNames x.document schema) (displayNames x.document schema).length
      s.noting :=
    ⟨Memo.absent_le_length, List.nodup_nil, by simp [State.noting, State.calls]⟩
  have hends : Step.Ends (x.runNoting name schema s) _ _ :=
    declareNoting_keeps hformatter hlistener (fun part hpart => displayNames_subset schema hpart)
      name (List.Subset.refl _) s.noting hroom
  obtain ⟨hne, hroom'⟩ := room_of_ends hends
  refine ⟨fun host hmeet t => ?_, fun root hroot instead => ?_, ?_, hshadows, hroom'.nodup,
    fun n hn => (hroom'.known n hn).1⟩
  · have hwithin : (Expression.ofSchema x.document settings schema).Within
        (leave x.document schema (settings.deep = true) False) := Expression.ofSchema_within _ _ _
    refine (Rendering.run_keeps ?_ ?_ ?_ hwithin).ne t
    · exact fun e _ _ he => he
    · exact fun r _ => Step.keeps_of_ne (hmeet r)
    · exact False.elim
  · exact Expression.ofTreeGuarded_eq_ofTree instead Expression.nests_nil
      (Expression.isLocal_of_ofJson hroot) (Nat.le_add_right _ _)
  · rw [hshadows]
    exact hne

/-- The expansion of one of two definitions that refer to each other begins the other one. -/
theorem run_terminates_mutual :
    (∀ code options f, (circle.formatter code options f).1 ≠ .error .boundExceeded) ∧
      (∀ reported report,
        circle.options.listener.answer reported report ≠ .error .boundExceeded) ∧
      (circle.run "A" (pointingTo "B") { formatter := () }).1 ≠ .error .boundExceeded ∧
      ((circle.runNoting "A" (pointingTo "B") { formatter := () }).2.calls.map Prod.fst).Nodup ∧
      (circle.runNoting "A" (pointingTo "B") { formatter := () }).2.calls.map Prod.fst = ["B"] := by
  have hformatter : ∀ code options f,
      (circle.formatter code options f).1 ≠ .error .boundExceeded := by
    rintro code options f ⟨⟩
  have hlistener : ∀ reported report,
      circle.options.listener.answer reported report ≠ .error .boundExceeded := by
    rintro reported report ⟨⟩
  obtain ⟨-, -, hrun, -, hnodup, -⟩ := run_terminates circle hformatter hlistener
    { deep := true } (pointingTo "B") "A" { formatter := () }
  exact ⟨hformatter, hlistener, hrun, hnodup, rfl⟩

end Expansion

end SchemaTypes.Declaration

import SchemaTypes.Proofs.Tables
import SchemaTypes.Reference.Snapshots

/-!
# Snapshots are first successes

References are resolved while the document changes. Whatever is done, and in whatever order, the
answer for a reference can be read off what was done before: it is the target that the reference had
when it was resolved with success for the first time, or, as long as it was not, what it leads to in
the document as it is (`Snapshots.performAll_first_successes`). So failures leave no trace, and
neither does what is resolved under another spelling.

What carries this is `Snapshots.Recalls`: the targets that are kept are the first successes, and
there are no others. Each action keeps it (`Snapshots.Recalls.perform`).
-/

namespace SchemaTypes.Reference.Snapshots

/-! ## Actions -/

/-- What is done with a document and the references in it. -/
inductive Action where
  | resolve (value : Json)
  | setMember (key : String) (v : Json)

namespace Action

/-- Does it; there is an answer if something is resolved. -/
def perform (a : Action) (s : Snapshots) : Option (Except Failure Json) × Snapshots :=
  match a with
  | .resolve value => ((s.resolve value).1, (s.resolve value).2)
  | .setMember key v => (none, s.setMember key v)

/-- What becomes of the document. -/
def change (document : Json) : Action → Json
  | .setMember key v =>
    match document with
    | .obj members => .obj (Table.put key v members)
    | _ => document
  | .resolve _ => document

/-- Whether an action changes the document, or resolves just this reference. -/
def concerns (reference : String) : Action → Bool
  | .resolve (.str r) => r == reference
  | .resolve _ => false
  | .setMember _ _ => true

end Action

/-- The answers to some actions, one after the other, and what is left behind. -/
def performAll : List Action → Snapshots → List (Option (Except Failure Json)) × Snapshots
  | [], s => ([], s)
  | a :: rest, s =>
    ((a.perform s).1 :: (performAll rest (a.perform s).2).1, (performAll rest (a.perform s).2).2)

/-- The document as it stands after some actions. -/
def documentAfter (document : Json) (actions : List Action) : Json :=
  actions.foldl Action.change document

/-- The answer for a value that is resolved after some actions. -/
def answerAfter (document : Json) (past : List Action) (value : Json) : Except Failure Json :=
  ((performAll past (ofDocument document)).2.resolve value).1

theorem performAll_append (past rest : List Action) (s : Snapshots) :
    performAll (past ++ rest) s =
      ((performAll past s).1 ++ (performAll rest (performAll past s).2).1,
        (performAll rest (performAll past s).2).2) := by
  induction past generalizing s with
  | nil => rfl
  | cons a past ih => simp only [List.cons_append, performAll, ih]

theorem length_performAll (actions : List Action) (s : Snapshots) :
    (performAll actions s).1.length = actions.length := by
  induction actions generalizing s with
  | nil => rfl
  | cons a rest ih => exact congrArg (· + 1) (ih _)

/-- An answer depends on what was done before alone. -/
theorem getElem?_performAll (document : Json) (past rest : List Action) (value : Json) :
    (performAll (past ++ .resolve value :: rest) (ofDocument document)).1[past.length]? =
      some (some (answerAfter document past value)) := by
  rw [performAll_append, ← length_performAll past (ofDocument document),
    List.getElem?_append_right (Nat.le_refl _), Nat.sub_self]
  rfl

theorem documentAfter_concat (document : Json) (past : List Action) (a : Action) :
    documentAfter document (past ++ [a]) = a.change (documentAfter document past) := by
  simp [documentAfter]

/-- An object stays an object. -/
theorem exists_documentAfter (members : List (String × Json)) (past : List Action) :
    ∃ members', documentAfter (.obj members) past = .obj members' := by
  induction past using List.reverseRecOn with
  | nil => exact ⟨members, rfl⟩
  | append_singleton past a ih =>
    obtain ⟨members', h⟩ := ih
    rw [documentAfter_concat, h]
    cases a with
    | resolve value => exact ⟨members', rfl⟩
    | setMember key v => exact ⟨Table.put key v members', rfl⟩

theorem target_whole (members : List (String × Json)) :
    target (.obj members) whole = .ok (.obj members) := rfl

/-! ## First successes -/

section Successes

variable {document : Json} {past : List Action} {reference : String} {v : Json}

/-- A reference was never resolved with success. -/
def Unresolved (document : Json) (past : List Action) (reference : String) : Prop :=
  ∀ before after, past = before ++ .resolve (.str reference) :: after →
    ∃ e, target (documentAfter document before) reference = .error e

/-- When a reference was resolved with success for the first time, this was its target in the
document as it stood then. -/
def FirstResolved (document : Json) (past : List Action) (reference : String) (v : Json) : Prop :=
  ∃ before after, past = before ++ .resolve (.str reference) :: after ∧
    Unresolved document before reference ∧
    target (documentAfter document before) reference = .ok v

theorem unresolved_nil : Unresolved document [] reference :=
  fun before after h => absurd h.symm (by simp)

theorem not_firstResolved_nil : ¬ FirstResolved document [] reference v := by
  rintro ⟨before, after, h, -⟩
  exact absurd h.symm (by simp)

theorem unresolved_concat {a : Action} :
    Unresolved document (past ++ [a]) reference ↔
      Unresolved document past reference ∧ (a = .resolve (.str reference) →
        ∃ e, target (documentAfter document past) reference = .error e) := by
  constructor
  · intro h
    refine ⟨fun before after hpast => h before (after ++ [a]) (by rw [hpast]; simp), ?_⟩
    rintro rfl
    exact h past [] rfl
  · rintro ⟨hpast, hlast⟩ before after hsplit
    rcases Table.split_concat hsplit with ⟨rfl, ha, rfl⟩ | ⟨after', h, rfl⟩
    · exact hlast ha
    · exact hpast before after' h

theorem firstResolved_concat {a : Action} :
    FirstResolved document (past ++ [a]) reference v ↔
      FirstResolved document past reference v ∨
        Unresolved document past reference ∧ a = .resolve (.str reference) ∧
          target (documentAfter document past) reference = .ok v := by
  constructor
  · rintro ⟨before, after, hsplit, hunresolved, htarget⟩
    rcases Table.split_concat hsplit with ⟨rfl, ha, rfl⟩ | ⟨after', h, rfl⟩
    · exact .inr ⟨hunresolved, ha, htarget⟩
    · exact .inl ⟨before, after', h, hunresolved, htarget⟩
  · rintro (⟨before, after, rfl, hunresolved, htarget⟩ | ⟨hunresolved, rfl, htarget⟩)
    · exact ⟨before, after ++ [a], by simp, hunresolved, htarget⟩
    · exact ⟨past, [], rfl, hunresolved, htarget⟩

/-- A reference was resolved with success for a first time, or never. -/
theorem firstResolved_or_unresolved (document : Json) (past : List Action) (reference : String) :
    (∃ v, FirstResolved document past reference v) ∨ Unresolved document past reference := by
  induction past using List.reverseRecOn with
  | nil => exact .inr unresolved_nil
  | append_singleton past a ih =>
    rcases ih with ⟨v, h⟩ | hunresolved
    · exact .inl ⟨v, firstResolved_concat.mpr (.inl h)⟩
    · by_cases ha : a = .resolve (.str reference)
      · cases htarget : target (documentAfter document past) reference with
        | ok v => exact .inl ⟨v, firstResolved_concat.mpr (.inr ⟨hunresolved, ha, htarget⟩)⟩
        | error e => exact .inr (unresolved_concat.mpr ⟨hunresolved, fun _ => ⟨e, htarget⟩⟩)
      · exact .inr (unresolved_concat.mpr ⟨hunresolved, fun h => absurd h ha⟩)

theorem FirstResolved.not_unresolved (h : FirstResolved document past reference v) :
    ¬ Unresolved document past reference := by
  obtain ⟨before, after, hsplit, -, htarget⟩ := h
  intro hunresolved
  obtain ⟨e, he⟩ := hunresolved before after hsplit
  rw [htarget] at he
  cases he

/-! ### Actions that do not matter -/

theorem documentAfter_filter (document : Json) (past : List Action) (reference : String) :
    documentAfter document (past.filter (Action.concerns reference)) =
      documentAfter document past := by
  induction past using List.reverseRecOn with
  | nil => rfl
  | append_singleton past a ih =>
    rw [List.filter_append, List.filter_cons, List.filter_nil, documentAfter_concat]
    cases a with
    | resolve value =>
      split
      · rw [documentAfter_concat, ih]
      · rw [List.append_nil, ih]
        rfl
    | setMember key v =>
      have hconcerns : Action.concerns reference (.setMember key v) = true := rfl
      rw [if_pos hconcerns, documentAfter_concat, ih]

/-- First successes are the same without what is resolved under another spelling. -/
theorem successes_filter (document : Json) (past : List Action) (reference : String) :
    (Unresolved document (past.filter (Action.concerns reference)) reference ↔
        Unresolved document past reference) ∧
      ∀ v, FirstResolved document (past.filter (Action.concerns reference)) reference v ↔
        FirstResolved document past reference v := by
  induction past using List.reverseRecOn with
  | nil => exact ⟨Iff.rfl, fun _ => Iff.rfl⟩
  | append_singleton past a ih =>
    obtain ⟨hunresolved, hfirst⟩ := ih
    rw [List.filter_append, List.filter_cons, List.filter_nil]
    split
    · simp only [unresolved_concat, firstResolved_concat, documentAfter_filter, hunresolved, hfirst,
        implies_true, and_self]
    · next hother =>
      have ha : a ≠ .resolve (.str reference) := by
        rintro rfl
        exact hother (beq_self_eq_true reference)
      simp only [List.append_nil, unresolved_concat, firstResolved_concat, hunresolved, hfirst, ha,
        false_implies, and_true, false_and, and_false, or_false, implies_true, and_self]

end Successes

/-! ## What is kept -/

/-- After some actions on a document, the document is as they left it, and the targets that are kept
are those of the first successes. None is kept for the whole document. -/
structure Recalls (document : Json) (past : List Action) (s : Snapshots) : Prop where
  current : s.document = documentAfter document past
  lookup_whole : s.taken.lookup whole = none
  lookup_iff : ∀ reference v, reference ≠ whole →
    (s.taken.lookup reference = some v ↔ FirstResolved document past reference v)

namespace Recalls

variable {document : Json} {past : List Action} {s : Snapshots}

theorem unresolved_iff (h : Recalls document past s) {reference : String}
    (hne : reference ≠ whole) :
    s.taken.lookup reference = none ↔ Unresolved document past reference := by
  constructor
  · intro hnone
    refine (firstResolved_or_unresolved document past reference).resolve_left ?_
    rintro ⟨v, hv⟩
    rw [(h.lookup_iff reference v hne).mpr hv] at hnone
    cases hnone
  · intro hunresolved
    cases hlookup : s.taken.lookup reference with
    | none => rfl
    | some v => exact absurd hunresolved ((h.lookup_iff reference v hne).mp hlookup).not_unresolved

/-- What does nothing to the targets that are kept, and does not resolve a reference with success
that was not resolved before, keeps what is recalled. -/
theorem concat_of_taken_eq (h : Recalls document past s) {a : Action} {t : Snapshots}
    (hdocument : t.document = a.change s.document) (htaken : t.taken = s.taken)
    (hno : ∀ reference v, reference ≠ whole → a = .resolve (.str reference) →
      s.taken.lookup reference = none → target s.document reference ≠ .ok v) :
    Recalls document (past ++ [a]) t where
  current := by rw [documentAfter_concat, hdocument, h.current]
  lookup_whole := by rw [htaken, h.lookup_whole]
  lookup_iff := by
    intro reference v hne
    rw [htaken, h.lookup_iff reference v hne, firstResolved_concat]
    refine ⟨.inl, fun hor => hor.resolve_right ?_⟩
    rintro ⟨hunresolved, ha, htarget⟩
    rw [← h.current] at htarget
    exact hno reference v hne ha ((h.unresolved_iff hne).mpr hunresolved) htarget

/-- Resolving a reference keeps what is recalled. -/
theorem resolveText (h : Recalls document past s) (reference : String) :
    Recalls document (past ++ [.resolve (.str reference)]) (s.resolveText reference).2 := by
  unfold Snapshots.resolveText
  cases hlookup : s.taken.lookup reference with
  | some kept =>
    refine h.concat_of_taken_eq rfl rfl fun other v _ ha hnone => ?_
    cases ha
    rw [hlookup] at hnone
    cases hnone
  | none =>
    cases htarget : target s.document reference with
    | error e =>
      refine h.concat_of_taken_eq rfl rfl fun other v _ ha _ hok => ?_
      cases ha
      rw [htarget] at hok
      cases hok
    | ok found =>
      dsimp only
      by_cases hwhole : reference = whole
      · rw [if_pos hwhole]
        refine h.concat_of_taken_eq rfl rfl fun other v hne ha => ?_
        cases ha
        exact absurd hwhole hne
      · rw [if_neg hwhole]
        -- this is the first success of the reference, and the only new entry
        refine ⟨by rw [documentAfter_concat]; exact h.current, ?_, fun other v hne => ?_⟩
        · rw [List.lookup_append, h.lookup_whole]
          have hother : (whole == reference) = false := by simpa using Ne.symm hwhole
          simp [List.lookup_cons, hother]
        · rw [List.lookup_append, firstResolved_concat, ← h.current, ← h.lookup_iff other v hne]
          by_cases hsame : other = reference
          · subst hsame
            have hunresolved := (h.unresolved_iff hne).mp hlookup
            simp [hlookup, hunresolved, htarget]
          · have hother : (other == reference) = false := by simpa using hsame
            simp [List.lookup_cons, hother, Ne.symm hsame]

/-- Every action keeps what is recalled. -/
theorem perform (h : Recalls document past s) (a : Action) :
    Recalls document (past ++ [a]) (a.perform s).2 := by
  cases a with
  | resolve value =>
    by_cases hvalue : ∃ reference, value = .str reference
    · obtain ⟨reference, rfl⟩ := hvalue
      exact h.resolveText reference
    · -- what is no text leaves everything as it is
      have hsame : (s.resolve value).2 = s := by
        unfold Snapshots.resolve
        split
        · rfl
        · cases value with
          | str reference => exact absurd ⟨reference, rfl⟩ hvalue
          | _ => rfl
      refine h.concat_of_taken_eq (congrArg Snapshots.document hsame)
        (congrArg Snapshots.taken hsame) fun reference v _ ha => ?_
      cases ha
      exact absurd ⟨reference, rfl⟩ hvalue
  | setMember key v =>
    change Recalls document _ (s.setMember key v)
    unfold Snapshots.setMember
    cases hdocument : s.document with
    | obj members =>
      refine h.concat_of_taken_eq (by rw [hdocument]; rfl) rfl fun _ _ _ ha => ?_
      cases ha
    | _ =>
      refine h.concat_of_taken_eq (by rw [hdocument]; rfl) rfl fun _ _ _ ha => ?_
      cases ha

end Recalls

theorem recalls_nil (document : Json) : Recalls document [] (ofDocument document) where
  current := rfl
  lookup_whole := rfl
  lookup_iff := fun _ _ _ => ⟨nofun, fun h => absurd h not_firstResolved_nil⟩

/-- After any actions the targets that are kept are first successes. -/
theorem recalls_performAll (document : Json) (past : List Action) :
    Recalls document past (performAll past (ofDocument document)).2 := by
  induction past using List.reverseRecOn with
  | nil => exact recalls_nil document
  | append_singleton past a ih =>
    rw [performAll_append]
    exact ih.perform a

/-! ## Answers -/

variable {document : Json} {past : List Action} {reference : String} {v : Json}

theorem answerAfter_of_firstResolved (hne : reference ≠ whole)
    (h : FirstResolved document past reference v) :
    answerAfter document past (.str reference) = .ok v := by
  have hlookup := ((recalls_performAll document past).lookup_iff reference v hne).mpr h
  change (resolveText _ reference).1 = _
  unfold resolveText
  rw [hlookup]

theorem answerAfter_of_lookup_eq_none
    (h : (performAll past (ofDocument document)).2.taken.lookup reference = none) :
    answerAfter document past (.str reference) =
      target (documentAfter document past) reference := by
  change (resolveText _ reference).1 = _
  unfold resolveText
  rw [h, (recalls_performAll document past).current]
  cases target (documentAfter document past) reference <;> rfl

theorem answerAfter_of_unresolved (hne : reference ≠ whole)
    (h : Unresolved document past reference) :
    answerAfter document past (.str reference) = target (documentAfter document past) reference :=
  answerAfter_of_lookup_eq_none (((recalls_performAll document past).unresolved_iff hne).mpr h)

theorem answerAfter_whole (members : List (String × Json)) (past : List Action) :
    answerAfter (.obj members) past (.str whole) = .ok (documentAfter (.obj members) past) := by
  obtain ⟨members', hdocument⟩ := exists_documentAfter members past
  rw [answerAfter_of_lookup_eq_none (recalls_performAll _ past).lookup_whole, hdocument,
    target_whole]

/-- An answer does not depend on what was resolved under another spelling. -/
theorem answerAfter_filter (document : Json) (past : List Action) (reference : String) :
    answerAfter document (past.filter (Action.concerns reference)) (.str reference) =
      answerAfter document past (.str reference) := by
  by_cases hwhole : reference = whole
  · rw [hwhole, answerAfter_of_lookup_eq_none (recalls_performAll _ _).lookup_whole,
      answerAfter_of_lookup_eq_none (recalls_performAll _ _).lookup_whole, documentAfter_filter]
  · obtain ⟨hunresolved, hfirst⟩ := successes_filter document past reference
    rcases firstResolved_or_unresolved document past reference with ⟨v, hv⟩ | h
    · rw [answerAfter_of_firstResolved hwhole hv,
        answerAfter_of_firstResolved hwhole ((hfirst v).mpr hv)]
    · rw [answerAfter_of_unresolved hwhole h,
        answerAfter_of_unresolved hwhole (hunresolved.mpr h), documentAfter_filter]

/-- Where nothing but resolving is done, the document stays as it is. -/
theorem documentAfter_of_resolves (h : ∀ a ∈ past, ∃ value, a = .resolve value) :
    documentAfter document past = document := by
  induction past with
  | nil => rfl
  | cons a past ih =>
    obtain ⟨value, rfl⟩ := h _ List.mem_cons_self
    exact ih fun a ha => h a (List.mem_cons_of_mem _ ha)

theorem answerAfter_of_resolves (members : List (String × Json))
    (h : ∀ a ∈ past, ∃ value, a = .resolve value) (reference : String) :
    answerAfter (.obj members) past (.str reference) = target (.obj members) reference := by
  by_cases hwhole : reference = whole
  · rw [hwhole, answerAfter_whole, documentAfter_of_resolves h, target_whole]
  · rcases firstResolved_or_unresolved (.obj members) past reference with ⟨v, hv⟩ | hunresolved
    · rw [answerAfter_of_firstResolved hwhole hv]
      obtain ⟨before, after, rfl, -, htarget⟩ := hv
      rw [documentAfter_of_resolves fun a ha => h a (List.mem_append_left _ ha)] at htarget
      exact htarget.symm
    · rw [answerAfter_of_unresolved hwhole hunresolved, documentAfter_of_resolves h]

/-- Whatever is done with the references of a changing document: the answer for the whole document
is the document as it is. For any other reference it is the target at its first success, in the
document as it stood then, or else, as long as there was none, what the reference leads to now, be
it a target or a failure. What was resolved under another spelling makes no difference. So if the
document does not change, every answer is what the reference leads to. -/
theorem performAll_first_successes (members : List (String × Json)) (actions : List Action) :
    (∀ past reference rest, actions = past ++ .resolve (.str reference) :: rest →
      ∃ answer, (performAll actions (ofDocument (.obj members))).1[past.length]? =
          some (some answer) ∧
        (reference = "#" → answer = .ok (documentAfter (.obj members) past)) ∧
        (reference ≠ "#" →
          ((∃ v, FirstResolved (.obj members) past reference v) ∨
            Unresolved (.obj members) past reference) ∧
          (∀ v, FirstResolved (.obj members) past reference v → answer = .ok v) ∧
          (Unresolved (.obj members) past reference →
            answer = target (documentAfter (.obj members) past) reference)) ∧
        answer =
          answerAfter (.obj members) (past.filter (Action.concerns reference)) (.str reference)) ∧
    ((∀ a ∈ actions, ∃ value, a = .resolve value) → ∀ past reference rest,
      actions = past ++ .resolve (.str reference) :: rest →
        (performAll actions (ofDocument (.obj members))).1[past.length]? =
          some (some (target (.obj members) reference))) := by
  constructor
  · rintro past reference rest rfl
    refine ⟨_, getElem?_performAll (.obj members) past rest (.str reference), ?_, fun hne => ?_,
      (answerAfter_filter _ past reference).symm⟩
    · rintro rfl
      exact answerAfter_whole members past
    · exact ⟨firstResolved_or_unresolved (.obj members) past reference,
        fun v hv => answerAfter_of_firstResolved hne hv, answerAfter_of_unresolved hne⟩
  · rintro h past reference rest rfl
    rw [getElem?_performAll,
      answerAfter_of_resolves members fun a ha => h a (List.mem_append_left _ ha)]

/-- A member that is missing at first, and changed after it was there. In between it is resolved
under another spelling. -/
def changingMember : List Action :=
  [.resolve (.str "#/b"), .setMember "b" (.obj [("type", .str "string")]), .resolve (.str "#/b"),
    .setMember "b" (.obj [("type", .str "number")]), .resolve (.str "#/%62")]

/-- The failure is forgotten, the first success is not, and the other spelling leads elsewhere. -/
theorem performAll_first_successes_changing :
    (performAll (changingMember ++ [.resolve (.str "#/b")]) (ofDocument (.obj []))).1[5]? =
        some (some (.ok (.obj [("type", .str "string")]))) ∧
      answerAfter (.obj []) (changingMember.take 4) (.str "#/%62") =
        .ok (.obj [("type", .str "number")]) := by
  obtain ⟨answer, hget, -, hother, -⟩ :=
    (performAll_first_successes [] (changingMember ++ [.resolve (.str "#/b")])).1
      changingMember "#/b" [] rfl
  have hfirst : FirstResolved (.obj []) changingMember "#/b" (.obj [("type", .str "string")]) := by
    refine ⟨[.resolve (.str "#/b")] ++ [.setMember "b" (.obj [("type", .str "string")])],
      changingMember.drop 3, rfl, ?_, rfl⟩
    have hmissing : Unresolved (.obj []) [.resolve (.str "#/b")] "#/b" :=
      unresolved_concat.mpr ⟨unresolved_nil, fun _ => ⟨_, rfl⟩⟩
    exact unresolved_concat.mpr ⟨hmissing, nofun⟩
  refine ⟨?_, rfl⟩
  rw [← (hother (by decide)).2.1 _ hfirst]
  exact hget

end SchemaTypes.Reference.Snapshots

import SchemaTypes.Proofs.Attempts

/-!
# What attempts do to a memo

An attempt may find anything in the memo, also what earlier attempts have left there when they
failed. `Extends` says what the attempts that are made on the way from one state to another do to
the memo, whether they fail or not: the entries that are there stay as they are, every attempt is of
a new name, no two are of the same, and a text is noted under a new name only if the attempt at that
name has given it.

An attempt as a whole does a little more, since it notes the text of its own name, which may have
been there: `Attempt.Disciplined` has all of it.
-/

namespace SchemaTypes.Declaration

open Expansion (State)

variable {φ : Type}

/-! ## Entries and their places -/

namespace Memo

variable (m : Memo String) (name text : String)

/-- A name has come up if there is an entry under it. -/
theorem contains_iff : m.contains name = true ↔ ∃ p, m.progress? name = some p :=
  Option.isSome_iff_exists

theorem keys_prefix_start :
    Table.keys m.entries <+: Table.keys (m.start name).entries := by
  unfold start
  rw [Table.keys_put]
  split
  · exact List.prefix_refl _
  · exact List.prefix_append _ _

theorem keys_prefix_finish :
    Table.keys m.entries <+: Table.keys (m.finish name text).entries := by
  unfold finish
  rw [Table.keys_put]
  split
  · exact List.prefix_refl _
  · exact List.prefix_append _ _

end Memo

/-! ## From one state to another -/

/-- What some attempts, which are made on the way from one state to another, do to the memo. -/
structure Extends (s : State φ) (made : List (Attempt φ)) (t : State φ) : Prop where
  /-- No entry is removed or changes its place. -/
  keys : Table.keys s.memo.entries <+: Table.keys t.memo.entries
  /-- The entries that are there stay as they are. -/
  known : ∀ n p, s.memo.progress? n = some p → t.memo.progress? n = some p
  /-- Every attempt is of a name that is new. -/
  fresh : ∀ b ∈ made, s.memo.progress? b.name = none
  /-- Every attempt leaves an entry, -/
  entered : ∀ b ∈ made, ∃ p, t.memo.progress? b.name = some p
  /-- which has the text that the attempt gives. -/
  done : ∀ b ∈ made, ∀ text, b.result = .ok text → t.memo.progress? b.name = some (.done text)
  /-- No two attempts are of the same name. -/
  nodup : (made.map Attempt.name).Nodup
  /-- Every text that is new was given by an attempt. -/
  added : ∀ n text, s.memo.progress? n = none → t.memo.progress? n = some (.done text) →
    ∃ b ∈ made, b.name = n ∧ b.result = .ok text

namespace Extends

variable {s t u : State φ} {made more : List (Attempt φ)}

theorem of_memo_eq (h : t.memo = s.memo) : Extends s [] t where
  keys := h ▸ List.prefix_refl _
  known := by
    intro n p hn
    rw [h]
    exact hn
  fresh := by simp
  entered := by simp
  done := by simp
  nodup := List.nodup_nil
  added := by
    intro n text hnew hdone
    rw [h, hnew] at hdone
    cases hdone

theorem refl (s : State φ) : Extends s [] s := of_memo_eq rfl

theorem start {name : String} (hnew : s.memo.progress? name = none) :
    Extends s [] (s.start name) where
  keys := Memo.keys_prefix_start s.memo name
  known := by
    intro n p hn
    have hne : n ≠ name := by
      rintro rfl
      rw [hnew] at hn
      cases hn
    exact (Memo.progress?_start_of_ne s.memo hne).trans hn
  fresh := by simp
  entered := by simp
  done := by simp
  nodup := List.nodup_nil
  added := by
    intro n text hn hdone
    change (s.memo.start name).progress? n = _ at hdone
    by_cases hne : n = name
    · subst hne
      rw [Memo.progress?_start_self] at hdone
      cases hdone
    · rw [Memo.progress?_start_of_ne s.memo hne, hn] at hdone
      cases hdone

theorem enter (s : State φ) (name : String) : Extends s [] (s.enter name) := by
  unfold State.enter
  split
  · exact refl s
  · next hnew =>
    refine start (Option.not_isSome_iff_eq_none.mp ?_)
    rwa [← Memo.contains_eq_isSome]

/-- A name that is new later is new before. -/
theorem new_of_new (h : Extends s made t) {n : String} (hn : t.memo.progress? n = none) :
    s.memo.progress? n = none := by
  cases hs : s.memo.progress? n with
  | none => rfl
  | some p =>
    rw [h.known n p hs] at hn
    cases hn

/-- Two stretches of an expansion, one after the other. -/
theorem trans (h : Extends s made t) (h' : Extends t more u) : Extends s (made ++ more) u where
  keys := h.keys.trans h'.keys
  known := fun n p hn => h'.known n p (h.known n p hn)
  fresh := by
    refine List.forall_mem_append.mpr ⟨h.fresh, fun b hb => ?_⟩
    exact h.new_of_new (h'.fresh b hb)
  entered := by
    refine List.forall_mem_append.mpr ⟨fun b hb => ?_, h'.entered⟩
    obtain ⟨p, hp⟩ := h.entered b hb
    exact ⟨p, h'.known _ p hp⟩
  done := by
    refine List.forall_mem_append.mpr ⟨fun b hb text htext => ?_, h'.done⟩
    exact h'.known _ _ (h.done b hb text htext)
  nodup := by
    rw [List.map_append, List.nodup_append]
    refine ⟨h.nodup, h'.nodup, ?_⟩
    -- the names of the first attempts have come up when the others are made
    rintro n hn n' hn' rfl
    obtain ⟨b, hb, rfl⟩ := List.mem_map.mp hn
    obtain ⟨b', hb', heq⟩ := List.mem_map.mp hn'
    obtain ⟨p, hp⟩ := h.entered b hb
    have hnew := h'.fresh b' hb'
    rw [heq, hp] at hnew
    cases hnew
  added := by
    intro n text hn hdone
    cases ht : t.memo.progress? n with
    | none =>
      obtain ⟨b, hb, hname, hresult⟩ := h'.added n text ht hdone
      exact ⟨b, List.mem_append_right _ hb, hname, hresult⟩
    | some p =>
      obtain rfl : p = .done text := Option.some.inj ((h'.known n p ht).symm.trans hdone)
      obtain ⟨b, hb, hname, hresult⟩ := h.added n text hn ht
      exact ⟨b, List.mem_append_left _ hb, hname, hresult⟩

/-- A name that has come up stays so. -/
theorem contains (h : Extends s made t) {n : String} (hn : s.memo.contains n = true) :
    t.memo.contains n = true := by
  obtain ⟨p, hp⟩ := (Memo.contains_iff _ _).mp hn
  exact (Memo.contains_iff _ _).mpr ⟨p, h.known n p hp⟩

/-- What is done later was done before, or it is of the name of an attempt. -/
theorem done_or_named (h : Extends s made t) {n text : String}
    (hdone : t.memo.progress? n = some (.done text)) :
    s.memo.progress? n = some (.done text) ∨ n ∈ made.map Attempt.name := by
  cases hs : s.memo.progress? n with
  | none =>
    obtain ⟨b, hb, rfl, -⟩ := h.added n text hs hdone
    exact Or.inr (List.mem_map_of_mem hb)
  | some p =>
    obtain rfl : p = .done text := Option.some.inj ((h.known n p hs).symm.trans hdone)
    exact Or.inl rfl

theorem memo_eq (h : Extends s made t) (hmemo : u.memo = t.memo) : Extends s made u := by
  have h' := h.trans (of_memo_eq hmemo)
  rwa [List.append_nil] at h'

/-- One more attempt, which has an entry of its own, new as well, in the end. -/
theorem concat (h : Extends s made t) {a : Attempt φ} (hnew : s.memo.progress? a.name = none)
    (hne : ∀ b ∈ made, b.name ≠ a.name)
    (hkeys : Table.keys t.memo.entries <+: Table.keys u.memo.entries)
    (hother : ∀ n, n ≠ a.name → u.memo.progress? n = t.memo.progress? n)
    (hentered : ∃ p, u.memo.progress? a.name = some p)
    (hdone : ∀ text, a.result = .ok text ↔ u.memo.progress? a.name = some (.done text)) :
    Extends s (made ++ [a]) u where
  keys := h.keys.trans hkeys
  known := by
    intro n p hn
    have hn' : n ≠ a.name := by
      rintro rfl
      rw [hnew] at hn
      cases hn
    rw [hother n hn']
    exact h.known n p hn
  fresh := List.forall_mem_append.mpr ⟨h.fresh, List.forall_mem_singleton.mpr hnew⟩
  entered := by
    refine List.forall_mem_append.mpr ⟨fun b hb => ?_, List.forall_mem_singleton.mpr hentered⟩
    rw [hother _ (hne b hb)]
    exact h.entered b hb
  done := by
    refine List.forall_mem_append.mpr ⟨fun b hb text htext => ?_, List.forall_mem_singleton.mpr ?_⟩
    · rw [hother _ (hne b hb)]
      exact h.done b hb text htext
    · exact fun text => (hdone text).mp
  nodup := by
    rw [List.map_append, List.nodup_append]
    refine ⟨h.nodup, by simp, ?_⟩
    rintro n hn n' hn' rfl
    obtain ⟨b, hb, hname⟩ := List.mem_map.mp hn
    exact hne b hb (hname.trans (List.mem_singleton.mp hn'))
  added := by
    intro n text hn hu
    by_cases heq : n = a.name
    · subst heq
      exact ⟨a, by simp, rfl, (hdone text).mpr hu⟩
    · rw [hother n heq] at hu
      obtain ⟨b, hb, hname, hresult⟩ := h.added n text hn hu
      exact ⟨b, List.mem_append_left _ hb, hname, hresult⟩

end Extends

/-! ## Attempts extend memos -/

namespace Attempt

variable {a : Attempt φ}

/-- Where an attempt begins, the entries of other names are as before. -/
theorem progress?_entered_of_ne {n : String} (hn : n ≠ a.name) :
    a.entered.memo.progress? n = a.before.memo.progress? n := by
  unfold entered State.enter
  split
  · rfl
  · exact Memo.progress?_start_of_ne a.before.memo hn

/-- Where an attempt begins, its name has an entry. -/
theorem exists_entered (a : Attempt φ) : ∃ p, a.entered.memo.progress? a.name = some p := by
  unfold entered State.enter
  split
  · next h => exact (Memo.contains_iff _ _).mp h
  · exact ⟨_, Memo.progress?_start_self a.before.memo a.name⟩

/-- The attempts nested in an attempt are not of its name. -/
theorem name_ne_of_mem_nested (h : Extends a.entered a.nested a.rendered) :
    ∀ b ∈ a.nested, b.name ≠ a.name := by
  intro b hb heq
  obtain ⟨p, hp⟩ := a.exists_entered
  have hfresh := h.fresh b hb
  rw [heq, hp] at hfresh
  cases hfresh

/-- From before the start of its name to its end, an attempt does to a memo what the attempts
nested in it do, and adds its own entry. -/
theorem extends_all {s : State φ} (hentered : a.entered = s.start a.name)
    (hnew : s.memo.progress? a.name = none) (h : Extends a.entered a.nested a.rendered) :
    Extends s a.all a.after := by
  have hne := name_ne_of_mem_nested h
  rw [hentered] at h
  have hrendered : a.rendered.memo.progress? a.name = some .inProgress :=
    h.known _ _ (Memo.progress?_start_self s.memo a.name)
  have hnested : Extends s a.nested a.rendered := (Extends.start hnew).trans h
  cases hresult : a.result with
  | error e =>
    rw [after_of_error a hresult]
    refine hnested.concat hnew hne (List.prefix_refl _) (fun _ _ => rfl) ⟨_, hrendered⟩ ?_
    intro text
    simp [hresult, hrendered]
  | ok text =>
    rw [(of_result_eq_ok a hresult).2]
    have hfinish : (a.rendered.finish a.name text).memo.progress? a.name = some (.done text) :=
      Memo.progress?_finish_self a.rendered.memo a.name text
    refine hnested.concat hnew hne (Memo.keys_prefix_finish a.rendered.memo a.name text) ?_
      ⟨_, hfinish⟩ ?_
    · exact fun n hn => Memo.progress?_finish_of_ne a.rendered.memo text hn
    · intro text'
      simp [hresult, hfinish]

end Attempt

namespace Expansion

variable {x : Expansion φ} {bound : Nat}

/-- What the attempts at a new name, in a declaration nested less than `bound` deep, do to a
memo. -/
def NestedExtend (x : Expansion φ) (bound : Nat) : Prop :=
  ∀ name schema (s : State φ), s.memo.progress? name = none →
    Extends s (x.attempts bound name schema (s.start name))
      (x.declare bound name schema (s.start name)).2

/-- When a reference is met, the attempts that are made extend the memo. -/
theorem extends_of_meets (hnested : x.NestedExtend bound) {reference : Json} {s : State φ}
    {begun : Option (String × Json)} {result : Except Failure Unit × State φ}
    (h : Meets x (x.declare bound) reference s begun result) :
    Extends s (madeIn (x.attempts bound) s begun) result.2 := by
  cases h with
  | unheard hlistener => exact .refl s
  | nameless hname => exact .refl s
  | known hname hdone => exact .of_memo_eq (tell_memo x _ _ s)
  | underWay hname hprogress => exact .refl s
  | lost hname hnew htarget => exact .start hnew
  | @failed name schema e t hname hnew htarget hrun =>
    have hextends := hnested name schema s hnew
    rw [hrun] at hextends
    exact hextends
  | @declared name schema text t hname hnew htarget hrun =>
    have hextends := hnested name schema s hnew
    rw [hrun] at hextends
    exact hextends.memo_eq (tell_memo x name text t)

end Expansion

namespace Attempt

/-- A rendering extends the memo by the attempts nested in it, if these extend it. -/
theorem extends_rendered_of_nested (a : Attempt φ)
    (hnested : a.expansion.NestedExtend a.bound) : Extends a.entered a.nested a.rendered := by
  refine Rendering.run_course_always (P := fun c u => Extends a.entered (a.made c) u)
    (fun c r u h _ => ?_) (fun c code options u h _ => ?_) (ofSchema_within _ _ _ _ _)
    (Extends.refl _)
  · rw [made_meets]
    exact h.trans (Expansion.extends_of_meets hnested (Expansion.meet_meets _ _ r u))
  · exact h.memo_eq rfl

end Attempt

/-- However deep it is nested, the declaration of a new name extends the memo by its attempts. -/
theorem Expansion.nestedExtend (x : Expansion φ) (bound : Nat) : x.NestedExtend bound := by
  induction bound with
  | zero => exact fun name schema s hnew => .start hnew
  | succ bound ih =>
    intro name schema s hnew
    let a : Attempt φ := ⟨x, bound, name, schema, s.start name⟩
    have hentered : a.entered = s.start a.name := State.enter_start s name
    exact Attempt.extends_all hentered hnew (a.extends_rendered_of_nested ih)

/-! ## Discipline -/

namespace Attempt

/-- A rendering extends the memo by the attempts nested in it. -/
theorem extends_rendered (a : Attempt φ) : Extends a.entered a.nested a.rendered :=
  a.extends_rendered_of_nested (a.expansion.nestedExtend a.bound)

/-- What an attempt, with all attempts that are made in it, does to a memo. -/
structure Disciplined (a : Attempt φ) : Prop where
  /-- No entry is removed or changes its place. -/
  keys : Table.keys a.before.memo.entries <+: Table.keys a.after.memo.entries
  /-- No entry goes back from done to in progress, -/
  stays_done : ∀ n text, a.before.memo.progress? n = some (.done text) →
    ∃ text', a.after.memo.progress? n = some (.done text')
  /-- and if it is not that of the attempt, it is not altered. -/
  unaltered : ∀ n text, n ≠ a.name → a.before.memo.progress? n = some (.done text) →
    a.after.memo.progress? n = some (.done text)
  /-- Only what is new is attempted on the way, -/
  fresh : ∀ b ∈ a.nested, a.before.memo.progress? b.name = none
  /-- and nothing is attempted twice. -/
  nodup : (a.all.map Attempt.name).Nodup
  /-- An attempt that gives a text leaves its name done with this text, -/
  done : ∀ text, a.result = .ok text → a.after.memo.progress? a.name = some (.done text)
  /-- leaves every entry that it has added done with the text of the attempt at it, -/
  all_done : ∀ text, a.result = .ok text → ∀ n, a.before.memo.progress? n = none →
    a.after.memo.contains n = true →
      ∃ b ∈ a.all, b.name = n ∧
        ∃ text', b.result = .ok text' ∧ a.after.memo.progress? n = some (.done text')
  /-- and leaves those names in progress that were so, apart from its own. -/
  restores : ∀ text, a.result = .ok text → ∀ n,
    a.after.memo.isInProgress n = true ↔ n ≠ a.name ∧ a.before.memo.isInProgress n = true
  /-- An attempt that fails does not alter even its own entry if that was done, -/
  own_unaltered : ∀ e, a.result = .error e → ∀ text,
    a.before.memo.progress? a.name = some (.done text) →
      a.after.memo.progress? a.name = some (.done text)
  /-- and every entry that it has added as done holds the text of the attempt at it. -/
  added : ∀ e, a.result = .error e → ∀ n text, a.before.memo.progress? n = none →
    a.after.memo.progress? n = some (.done text) →
      ∃ b ∈ a.all, b.name = n ∧ b.result = .ok text

/-- An attempt that gives a text leaves the entries of other names as its rendering has left
them. -/
theorem progress?_after_of_ne {a : Attempt φ} {n : String} (hn : n ≠ a.name) :
    a.after.memo.progress? n = a.rendered.memo.progress? n := by
  cases hresult : a.result with
  | error e => rw [after_of_error a hresult]
  | ok text =>
    rw [(of_result_eq_ok a hresult).2]
    exact Memo.progress?_finish_of_ne a.rendered.memo text hn

/-- An attempt that gives a text leaves its name done with it. -/
theorem progress?_after_self {a : Attempt φ} {text : String} (h : a.result = .ok text) :
    a.after.memo.progress? a.name = some (.done text) := by
  rw [(of_result_eq_ok a h).2]
  exact Memo.progress?_finish_self a.rendered.memo a.name text

/-- An attempt that gives a text takes nothing but its name off those in progress. -/
theorem isInProgress_after {a : Attempt φ} {text : String} (h : a.result = .ok text) (n : String) :
    a.after.memo.isInProgress n = true ↔ n ≠ a.name ∧ a.entered.memo.isInProgress n = true :=
  Expansion.declareWith_restores (Expansion.declare_restores a.expansion a.bound) a.name a.schema
    a.before text a.after (Prod.ext h rfl) n

/-- From before an attempt to the end of its rendering, a memo is extended by the attempts nested
in it, whether or not its name is new. -/
theorem extends_before_rendered (a : Attempt φ) : Extends a.before a.nested a.rendered :=
  (Extends.enter _ _).trans a.extends_rendered

/-- An attempt leaves the entries of a memo in their places, and adds others behind them. -/
theorem keys_prefix_after (a : Attempt φ) :
    Table.keys a.before.memo.entries <+: Table.keys a.after.memo.entries := by
  have hkeys := a.extends_before_rendered.keys
  cases hresult : a.result with
  | error e => rwa [after_of_error a hresult]
  | ok text =>
    rw [(of_result_eq_ok a hresult).2]
    exact hkeys.trans (Memo.keys_prefix_finish _ _ _)

variable {a : Attempt φ}

/-- An attempt does not alter what other names are done with. -/
theorem progress?_after_of_done {n text : String} (hn : n ≠ a.name)
    (hdone : a.before.memo.progress? n = some (.done text)) :
    a.after.memo.progress? n = some (.done text) := by
  rw [progress?_after_of_ne hn]
  exact a.extends_before_rendered.known n _ hdone

/-- Nor does it alter what its own name is done with, if it fails. -/
theorem progress?_after_self_of_error {e : Failure} {text : String} (he : a.result = .error e)
    (hdone : a.before.memo.progress? a.name = some (.done text)) :
    a.after.memo.progress? a.name = some (.done text) := by
  rw [after_of_error a he]
  exact a.extends_before_rendered.known _ _ hdone

/-- An attempt leaves what is done so, perhaps with another text for its own name. -/
theorem exists_done_after {n text : String}
    (hdone : a.before.memo.progress? n = some (.done text)) :
    ∃ text', a.after.memo.progress? n = some (.done text') := by
  by_cases hn : n = a.name
  · subst hn
    cases hresult : a.result with
    | error e => exact ⟨text, progress?_after_self_of_error hresult hdone⟩
    | ok text' => exact ⟨text', progress?_after_self hresult⟩
  · exact ⟨text, progress?_after_of_done hn hdone⟩

/-- Neither the name of an attempt nor any other is attempted again in it. -/
theorem nodup_names_all (a : Attempt φ) : (a.all.map Attempt.name).Nodup := by
  rw [all, List.map_append, List.nodup_append]
  refine ⟨a.extends_before_rendered.nodup, by simp, ?_⟩
  rintro n hn n' hn' rfl
  obtain ⟨b, hb, hname⟩ := List.mem_map.mp hn
  exact name_ne_of_mem_nested a.extends_rendered b hb (hname.trans (by simpa using hn'))

/-- An attempt that gives a text restores which names are in progress, apart from its own. -/
theorem isInProgress_after_iff_before {text n : String} (hresult : a.result = .ok text) :
    a.after.memo.isInProgress n = true ↔ n ≠ a.name ∧ a.before.memo.isInProgress n = true := by
  rw [isInProgress_after hresult, and_congr_right_iff]
  intro hn
  rw [Memo.isInProgress_iff, Memo.isInProgress_iff, progress?_entered_of_ne hn]

/-- An attempt that gives a text has finished every entry that it has added. -/
theorem exists_done_of_added {n text : String} (hresult : a.result = .ok text)
    (hnew : a.before.memo.progress? n = none) (hcontains : a.after.memo.contains n = true) :
    ∃ text', a.after.memo.progress? n = some (.done text') := by
  obtain ⟨p, hp⟩ := (Memo.contains_iff _ _).mp hcontains
  cases p with
  | done text' => exact ⟨text', hp⟩
  | inProgress =>
    -- an entry that were left in progress would have been so before
    have hprogress :=
      (isInProgress_after_iff_before hresult).mp ((Memo.isInProgress_iff _ _).mpr hp)
    rw [Memo.isInProgress_iff, hnew] at hprogress
    cases hprogress.2

/-- An entry of another name that an attempt has added as done holds the text of the attempt at
this name. -/
theorem exists_nested_of_added {n text : String} (hn : n ≠ a.name)
    (hnew : a.before.memo.progress? n = none)
    (hdone : a.after.memo.progress? n = some (.done text)) :
    ∃ b ∈ a.all, b.name = n ∧ b.result = .ok text := by
  rw [progress?_after_of_ne hn] at hdone
  obtain ⟨b, hb, hname, hresult⟩ := a.extends_before_rendered.added n text hnew hdone
  exact ⟨b, by simp [hb], hname, hresult⟩

/-- Every attempt keeps the discipline. -/
theorem disciplined (a : Attempt φ) : a.Disciplined where
  keys := a.keys_prefix_after
  stays_done _ _ := exists_done_after
  unaltered _ _ := progress?_after_of_done
  fresh := a.extends_before_rendered.fresh
  nodup := a.nodup_names_all
  done _ := progress?_after_self
  all_done text hresult n hnew hcontains := by
    by_cases hn : n = a.name
    · subst hn
      exact ⟨a, by simp, rfl, text, hresult, progress?_after_self hresult⟩
    · obtain ⟨text', hdone⟩ := exists_done_of_added hresult hnew hcontains
      obtain ⟨b, hb, hname, hgiven⟩ := exists_nested_of_added hn hnew hdone
      exact ⟨b, hb, hname, text', hgiven, hdone⟩
  restores _ hresult _ := isInProgress_after_iff_before hresult
  own_unaltered _ he _ := progress?_after_self_of_error he
  added e hresult n text hnew hdone := by
    rw [after_of_error a hresult] at hdone
    obtain ⟨b, hb, hname, hgiven⟩ := a.extends_before_rendered.added n text hnew hdone
    exact ⟨b, by simp [hb], hname, hgiven⟩

end Attempt

/-- An expansion is an attempt, and it keeps the discipline of memos with all attempts that are made
in it, whatever the memo holds, also what earlier expansions have left there when they failed, and
whether it gives a text or fails itself. -/
theorem Expansion.attempts_disciplined (x : Expansion φ) (name : String) (schema : Json)
    (s : State φ) :
    x.run name schema s = ((x.attempt name schema s).result, (x.attempt name schema s).after) ∧
      (x.attempt name schema s).name = name ∧ (x.attempt name schema s).before = s ∧
      ∀ a ∈ (x.attempt name schema s).all,
        x.declare (a.bound + 1) a.name a.schema a.before = (a.result, a.after) ∧
          a.Disciplined := by
  refine ⟨rfl, rfl, rfl, fun a ha => ⟨?_, a.disciplined⟩⟩
  obtain rfl : a.expansion = x := Attempt.expansion_eq_of_mem_all ha
  rfl

/-- What is left of an expansion that met a reference to a definition that is missing. -/
def Expansion.interrupted : State Unit :=
  ⟨⟨[("Broken", .inProgress), ("Gone", .inProgress)]⟩, [], ()⟩

/-- After an expansion that has failed, with its own name and another one left in progress, the next
one leaves these two in progress, and its name done. -/
theorem Expansion.attempts_disciplined_failure :
    circle.run "Broken" (.obj [("$ref", .str "#/definitions/Gone")]) { formatter := () } =
        (.error (.unresolvable "#/definitions/Gone" (.noMember "Gone")), interrupted) ∧
      circle.attempt "A" (pointingTo "B") interrupted ∈
        (circle.attempt "A" (pointingTo "B") interrupted).all ∧
      (circle.run "A" (pointingTo "B") interrupted).1 = .ok circleText ∧
      (circle.run "A" (pointingTo "B") interrupted).2.memo.progress? "A" =
        some (.done circleText) ∧
      ∀ n, (circle.run "A" (pointingTo "B") interrupted).2.memo.isInProgress n = true ↔
        n ≠ "A" ∧ interrupted.memo.isInProgress n = true := by
  have hmem := (circle.attempt "A" (pointingTo "B") interrupted).mem_all.mpr (Or.inr rfl)
  have hresult : (circle.attempt "A" (pointingTo "B") interrupted).result = .ok circleText := by
    rfl
  obtain ⟨hrun, -, -, hall⟩ := attempts_disciplined circle "A" (pointingTo "B") interrupted
  obtain ⟨-, hdisciplined⟩ := hall _ hmem
  rw [hrun]
  exact ⟨by rfl, hmem, hresult, hdisciplined.done _ hresult, hdisciplined.restores _ hresult⟩

end SchemaTypes.Declaration

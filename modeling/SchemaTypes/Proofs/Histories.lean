import SchemaTypes.Declaration.Expansion
import SchemaTypes.Proofs.Names

/-!
# The history of a memo

A memo keeps one entry for each name, and every operation on the name overwrites it. So all that a
memo says can be read off the operations that were done with it: the last one on a name says how far
its declaration is, the first one where it stands among the others. `Reflects` states this for each
way to look into a memo, and `after_reflects` says that it holds after any operations
on a fresh one.

What carries this is `Records`: the keys are the different names in order, and what is found under
a name is what the last operation has left. Each operation keeps it (`Records.perform`).
-/

namespace SchemaTypes.Declaration

/-! ## Operations -/

/-- What is done with a memo. -/
inductive Operation (κ : Type) where
  | start (name : κ)
  | finish (name : κ) (text : String)

namespace Operation

variable {κ : Type}

/-- The name that an operation is on. -/
def name : Operation κ → κ
  | start name | finish name _ => name

/-- How far the declaration is after an operation. -/
def progress : Operation κ → Progress
  | start _ => .inProgress
  | finish _ text => .done text

/-- The text of the declaration, if an operation ends it. -/
def text? : Operation κ → Option String
  | start _ => none
  | finish _ text => some text

variable [BEq κ]

/-- Does it. -/
def perform (m : Memo κ) : Operation κ → Memo κ
  | start name => m.start name
  | finish name text => m.finish name text

theorem entries_perform (m : Memo κ) (o : Operation κ) :
    (o.perform m).entries = Table.put o.name o.progress m.entries := by
  cases o <;> rfl

end Operation

namespace Memo

variable {κ : Type} [BEq κ]

/-- A fresh memo after some operations. -/
def after (history : List (Operation κ)) : Memo κ :=
  history.foldl Operation.perform {}

theorem after_concat (past : List (Operation κ)) (o : Operation κ) :
    after (past ++ [o]) = o.perform (after past) := by
  simp [after]

end Memo

/-! ## What operations say -/

section Histories

variable {κ : Type} [BEq κ]

/-- The last operation on a name. -/
def lastOn (name : κ) (history : List (Operation κ)) : Option (Operation κ) :=
  (history.filter fun o => name == o.name).getLast?

/-- The different names, in the order in which they were named first. -/
def firstNames (history : List (Operation κ)) : List κ :=
  (history.map Operation.name).eraseDups

variable {name : κ} {past history : List (Operation κ)}

theorem lastOn_concat (name : κ) (past : List (Operation κ)) (o : Operation κ) :
    lastOn name (past ++ [o]) = if name == o.name then some o else lastOn name past := by
  unfold lastOn
  rw [List.filter_append, List.filter_cons, List.filter_nil]
  split <;> simp

theorem lastOn_isSome :
    (lastOn name history).isSome = true ↔ ∃ o ∈ history, (name == o.name) = true := by
  unfold lastOn
  rw [List.getLast?_isSome, ne_eq, List.filter_eq_nil_iff]
  simp

theorem beq_of_lastOn {o : Operation κ} (h : lastOn name history = some o) :
    (name == o.name) = true :=
  (List.mem_filter.mp (List.mem_of_getLast? h)).2

/-- If a name is written in one way only, it is started as it is written. -/
theorem exists_start_iff (hname : ∀ n, (name == n) = true → n = name) :
    (∃ n, lastOn name history = some (.start n)) ↔ lastOn name history = some (.start name) := by
  constructor
  · rintro ⟨n, hn⟩
    obtain rfl : n = name := hname n (beq_of_lastOn hn)
    exact hn
  · exact fun h => ⟨name, h⟩

theorem firstNames_concat (past : List (Operation κ)) (o : Operation κ) :
    firstNames (past ++ [o]) =
      if (firstNames past).any (o.name == ·) then firstNames past
      else firstNames past ++ [o.name] := by
  unfold firstNames
  rw [List.map_append, List.map_singleton, eraseDups_concat]

/-! ## Reflection -/

/-- All that a memo says is what a history says. -/
structure Reflects (history : List (Operation κ)) (m : Memo κ) : Prop where
  /-- A name has come up if there was an operation on it. -/
  contains_iff : ∀ name, m.contains name = true ↔ ∃ o ∈ history, (name == o.name) = true
  /-- Its declaration is as far as the last operation on it has left it, -/
  progress?_eq : ∀ name, m.progress? name = (lastOn name history).map Operation.progress
  /-- and has the text of this operation, if that was an end. -/
  get?_eq : ∀ name, m.get? name = (lastOn name history).bind Operation.text?
  /-- It is in progress if this was a start. -/
  isInProgress_iff : ∀ name,
    m.isInProgress name = true ↔ ∃ n, lastOn name history = some (.start n)
  /-- Every name is counted once, -/
  size_eq : m.size = (firstNames history).length
  /-- and those that are done are listed in the order in which they were named first. -/
  items_eq : m.items = (firstNames history).filterMap fun name =>
    ((lastOn name history).bind Operation.text?).map (name, ·)

/-- The keys of a memo are the different names in order, and each has what the last operation on it
has left. -/
structure Records (history : List (Operation κ)) (m : Memo κ) : Prop where
  keys : Table.keys m.entries = firstNames history
  progress? : ∀ name, m.progress? name = (lastOn name history).map Operation.progress

variable {ι : Type} {name? : κ → Option ι} {m : Memo κ}

theorem Records.isSome_of_mem_keys (hm : Records history m)
    (h : ∀ o ∈ history, (name? o.name).isSome) :
    ∀ k ∈ Table.keys m.entries, (name? k).isSome := by
  intro k hk
  rw [hm.keys] at hk
  obtain ⟨o, ho, rfl⟩ := List.mem_map.mp (mem_of_mem_eraseDups hk)
  exact h o ho

/-- Every operation is recorded. -/
theorem Records.perform (hnaming : IsNaming name?) (hm : Records past m)
    (hpast : ∀ o ∈ past, (name? o.name).isSome) {o : Operation κ} (ho : (name? o.name).isSome) :
    Records (past ++ [o]) (o.perform m) where
  keys := by rw [Operation.entries_perform, Table.keys_put_any, hm.keys, firstNames_concat]
  progress? name := by
    have hkeys := hm.isSome_of_mem_keys hpast
    have hname := hm.progress? name
    unfold Memo.progress? at hname ⊢
    rw [Operation.entries_perform, Table.lookup_put hnaming ho hkeys, lastOn_concat, hname]
    split <;> rfl

theorem records_after (hnaming : IsNaming name?) (h : ∀ o ∈ history, (name? o.name).isSome) :
    Records history (Memo.after history) := by
  induction history using List.reverseRecOn with
  | nil => exact ⟨rfl, fun _ => rfl⟩
  | append_singleton past o ih =>
    obtain ⟨hpast, ho⟩ := List.forall_mem_append.mp h
    rw [Memo.after_concat]
    exact (ih hpast).perform hnaming hpast (ho o List.mem_cons_self)

/-- The entries of a memo are the different names in order, with what has been left of them. -/
theorem Records.entries_eq (hnaming : IsNaming name?) (hm : Records history m)
    (h : ∀ o ∈ history, (name? o.name).isSome) :
    m.entries = (firstNames history).filterMap fun name =>
      (lastOn name history).map fun o => (name, o.progress) := by
  have hdistinct : (Table.keys m.entries).Pairwise fun k l => (l == k) = false := by
    rw [hm.keys]
    exact pairwise_eraseDups _
  rw [Table.eq_filterMap_lookup hnaming (hm.isSome_of_mem_keys h) hdistinct, hm.keys]
  refine List.filterMap_congr fun name _ => ?_
  have hname := hm.progress? name
  unfold Memo.progress? at hname
  rw [hname, Option.map_map]
  rfl

/-- After any operations on names, a memo reflects them. -/
theorem reflects_after (hnaming : IsNaming name?) (h : ∀ o ∈ history, (name? o.name).isSome) :
    Reflects history (Memo.after history) := by
  have hm := records_after hnaming h
  refine ⟨fun name => ?_, hm.progress?, fun name => ?_, fun name => ?_, ?_, ?_⟩
  · rw [Memo.contains_eq_isSome, hm.progress?, Option.isSome_map, lastOn_isSome]
  · unfold Memo.get?
    rw [hm.progress?]
    rcases lastOn name history with _ | (_ | _) <;> rfl
  · rw [Memo.isInProgress_iff, hm.progress?]
    rcases lastOn name history with _ | (_ | _) <;> simp [Operation.progress]
  · rw [← hm.keys]
    exact (List.length_map _).symm
  · unfold Memo.items
    rw [hm.entries_eq hnaming h, List.filterMap_filterMap]
    refine List.filterMap_congr fun name _ => ?_
    rcases lastOn name history with _ | (_ | _) <;> rfl

end Histories

/-- Whatever is started and finished on a fresh memo, in any order and however often, the memo
reflects the operations. Its names may be texts, as in an expansion: there the host, which was made
before any of the operations, finds those names under way whose last operation was a start. Or they
may be values of any kind that can be names: a view of those in progress, whenever it was taken, has
just the texts whose last operation was a start. -/
theorem after_reflects :
    (∀ history : List (Operation String),
      Reflects history (Memo.after history) ∧
      ∀ (φ : Type) (x : Expansion φ) (nested : String → Json → Step (Expansion.State φ) String)
        (s : Expansion.State φ), s.memo = Memo.after history → ∀ name,
          ((x.host nested).underWay name s = true ↔ lastOn name history = some (.start name))) ∧
    ∀ history : List (Operation Json), (∀ o ∈ history, o.name.name?.isSome) →
      Reflects history (Memo.after history) ∧
      ∀ past rest, history = past ++ rest → ∀ name,
        ((Memo.after past).view name (Memo.after history) = true ↔
          ∃ text, name = .str text ∧ lastOn name history = some (.start name)) := by
  constructor
  · intro history
    have hreflects : Reflects history (Memo.after history) :=
      reflects_after isNaming_text fun _ _ => rfl
    refine ⟨hreflects, fun φ x nested s hs name => ?_⟩
    change s.memo.isInProgress name = true ↔ _
    rw [hs, hreflects.isInProgress_iff]
    exact exists_start_iff fun n hn => (eq_of_beq hn).symm
  · intro history h
    have hreflects := reflects_after Json.isNaming_name? h
    refine ⟨hreflects, fun past rest _ name => ?_⟩
    unfold Memo.view Memo.isTextInProgress
    cases name with
    | str text =>
      have htext : ∀ n, (Json.str text == n) = true → n = .str text := by
        intro n hn
        change Json.same (.str text) n = true at hn
        cases n with
        | str s => rw [eq_of_beq hn]
        | _ => cases hn
      change (Memo.after history).isInProgress (.str text) = true ↔ _
      rw [hreflects.isInProgress_iff, exists_start_iff htext]
      simp
    | _ => simp

/-- Names of several kinds, some of them written in different ways: what is done is started again,
and what was never started is done. -/
def mixedHistory : List (Operation Json) :=
  [.finish (.str "B") "b", .start (.str "A"), .start (.int 1), .finish (.str "A") "a",
    .finish (.float 1.0) "one", .start (.str "B"), .finish (.bool true) "yes"]

/-- The first name is in progress again, and the third one is a number, however it is written. -/
theorem after_reflects_mixed_names :
    ((Expansion.mk .null {} none Formatter.identity).host fun _ _ s => (.ok "", s)).underWay "A"
        { memo := Memo.after [.finish "A" "a", .start "A"], formatter := () } = true ∧
      (∀ o ∈ mixedHistory, o.name.name?.isSome) ∧
      (Memo.after mixedHistory).size = 3 ∧
      (Memo.after mixedHistory).items = [(.str "A", "a"), (.int 1, "yes")] ∧
      (Memo.after (mixedHistory.take 1)).view (.str "B") (Memo.after mixedHistory) = true := by
  have hnames : ∀ o ∈ mixedHistory, o.name.name?.isSome := by decide
  obtain ⟨-, hhost⟩ := after_reflects.1 [.finish "A" "a", .start "A"]
  obtain ⟨hreflects, hview⟩ := after_reflects.2 mixedHistory hnames
  refine ⟨(hhost _ _ _ _ rfl "A").mpr rfl, hnames, hreflects.size_eq, hreflects.items_eq, ?_⟩
  exact (hview (mixedHistory.take 1) (mixedHistory.drop 1) rfl (.str "B")).mpr ⟨"B", rfl, rfl⟩

end SchemaTypes.Declaration

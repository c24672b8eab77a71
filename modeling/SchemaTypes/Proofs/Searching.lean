import Mathlib.Data.List.DropRight
import SchemaTypes.Text.Blank
import SchemaTypes.Text.Search

/-!
# Searching and stripping

What the functions on texts do is said here without their recursions. `Text.IsFirst` says that an
occurrence is the first one, and `Text.afterList?` finds just that; `Text.IsStripped` says that a
stretch is all there is between the blanks at the ends, and `Text.stripList` gives just that.

A stretch may also be searched with a pattern. A `Text.Pattern` is matched part by part; a run takes
as many characters as it can and gives them back one by one if the parts behind it do not match
otherwise, and places are tried from the front on. A text with blanks behind it and anything behind
these is found at its first occurrence, and nothing is ever given back (`Text.search_behindBlanks`).
-/

namespace SchemaTypes.Text

/-! ## First occurrences -/

section First

variable {α : Type}

/-- Behind `front` stands the first occurrence of a pattern in a list, and behind that stands
`rest`. -/
structure IsFirst (pattern list front rest : List α) : Prop where
  split : list = front ++ pattern ++ rest
  first : ∀ front' rest', list = front' ++ pattern ++ rest' → front.length ≤ front'.length

variable {pattern list front rest : List α}

/-- There is only one first occurrence. -/
theorem IsFirst.unique {front' rest' : List α} (h : IsFirst pattern list front rest)
    (h' : IsFirst pattern list front' rest') : front = front' ∧ rest = rest' := by
  have hlength : front.length = front'.length :=
    Nat.le_antisymm (h.first front' rest' h'.split) (h'.first front rest h.split)
  have hsame : front ++ (pattern ++ rest) = front' ++ (pattern ++ rest') := by
    rw [← List.append_assoc, ← List.append_assoc, ← h.split, ← h'.split]
  obtain ⟨hfront, hrest⟩ := List.append_inj hsame hlength
  exact ⟨hfront, List.append_cancel_left hrest⟩

theorem isFirst_nil (rest : List α) : IsFirst pattern (pattern ++ rest) [] rest :=
  ⟨rfl, fun _ _ _ => Nat.zero_le _⟩

/-- If a pattern does not stand in front, its first occurrence is the first one behind the first
item. -/
theorem IsFirst.cons {a : α} (h : IsFirst pattern list front rest)
    (hfront : ¬ pattern <+: a :: list) : IsFirst pattern (a :: list) (a :: front) rest where
  split := by rw [h.split]; rfl
  first := by
    intro front' rest' hsplit
    cases front' with
    | nil => exact absurd ⟨rest', hsplit.symm⟩ hfront
    | cons b front' =>
      obtain ⟨-, htail⟩ := List.cons.inj hsplit
      exact Nat.succ_le_succ (h.first front' rest' htail)

variable [DecidableEq α]

theorem exists_isFirst_of_afterList? (h : afterList? pattern list = some rest) :
    ∃ front, IsFirst pattern list front rest := by
  induction list with
  | nil =>
    rw [afterList?] at h
    split at h <;> cases h
    next hpattern => exact ⟨[], by rw [hpattern]; exact isFirst_nil []⟩
  | cons a tail ih =>
    rw [afterList?] at h
    split at h
    · next hprefix =>
      obtain ⟨back, hback⟩ := List.isPrefixOf_iff_prefix.mp hprefix
      rw [← hback, List.drop_left] at h
      cases h
      rw [← hback]
      exact ⟨[], isFirst_nil _⟩
    · next hprefix =>
      obtain ⟨front, hfirst⟩ := ih h
      exact ⟨a :: front, hfirst.cons (mt List.isPrefixOf_iff_prefix.mpr hprefix)⟩

/-- The search gives what stands behind the first occurrence. -/
theorem afterList?_eq_some_iff :
    afterList? pattern list = some rest ↔ ∃ front, IsFirst pattern list front rest := by
  constructor
  · exact exists_isFirst_of_afterList?
  · rintro ⟨front, hfirst⟩
    have hsome := afterList?_isSome front pattern rest
    rw [← hfirst.split] at hsome
    obtain ⟨rest', hrest'⟩ := Option.isSome_iff_exists.mp hsome
    obtain ⟨front', hfirst'⟩ := exists_isFirst_of_afterList? hrest'
    rw [hrest', (hfirst.unique hfirst').2]

/-- The search fails if there is no occurrence. -/
theorem afterList?_eq_none_iff : afterList? pattern list = none ↔ ¬ pattern <:+: list := by
  rw [← Option.not_isSome_iff_eq_none, not_iff_not, Option.isSome_iff_exists]
  constructor
  · rintro ⟨rest, h⟩
    obtain ⟨front, hsplit⟩ := exists_of_afterList? h
    exact ⟨front, rest, hsplit.symm⟩
  · rintro ⟨front, rest, rfl⟩
    exact Option.isSome_iff_exists.mp (afterList?_isSome front pattern rest)

end First

/-! ## Stripping -/

/-- A body is all of a list but for blanks at its ends. -/
structure IsStripped (list body : List Char) : Prop where
  between : ∃ front back, list = front ++ body ++ back ∧
    (∀ c ∈ front, isBlank c = true) ∧ ∀ c ∈ back, isBlank c = true
  head : ∀ c ∈ body.head?, isBlank c = false
  last : ∀ c ∈ body.getLast?, isBlank c = false

theorem dropBlank_of_head {cs : List Char} (h : ∀ c ∈ cs.head?, isBlank c = false) :
    dropBlank cs = cs := by
  cases cs with
  | nil => rfl
  | cons c rest => exact List.dropWhile_cons_of_neg (by simp [h c rfl])

theorem stripList_of_ends {cs : List Char} (hhead : ∀ c ∈ cs.head?, isBlank c = false)
    (hlast : ∀ c ∈ cs.getLast?, isBlank c = false) : stripList cs = cs := by
  have hreverse : ∀ c ∈ cs.reverse.head?, isBlank c = false := by rwa [List.head?_reverse]
  unfold stripList
  rw [dropBlank_of_head hhead, dropBlank_of_head hreverse, List.reverse_reverse]

theorem dropBlank_append {front : List Char} (h : ∀ c ∈ front, isBlank c = true)
    (cs : List Char) : dropBlank (front ++ cs) = dropBlank cs :=
  List.dropWhile_append_of_pos h

/-- Blanks at the ends are stripped off, whatever is between them. -/
theorem stripList_between {front back : List Char} (hfront : ∀ c ∈ front, isBlank c = true)
    (hback : ∀ c ∈ back, isBlank c = true) (body : List Char) :
    stripList (front ++ body ++ back) = stripList body := by
  have hblank : ∀ c ∈ back.reverse, isBlank c = true := fun c hc => hback c (List.mem_reverse.mp hc)
  unfold stripList
  rw [List.append_assoc, dropBlank_append hfront]
  cases hbody : dropBlank body with
  | nil =>
    -- the body is blank all through, so it goes with the blanks in front
    have hall : ∀ c ∈ body, isBlank c = true := List.dropWhile_eq_nil_iff.mp hbody
    have hrest : dropBlank back = [] := List.dropWhile_eq_nil_iff.mpr hback
    rw [dropBlank_append hall, hrest]
  | cons c rest =>
    have hdrop : dropBlank (body ++ back) = c :: rest ++ back := by
      have hlead : body = body.takeWhile isBlank ++ c :: rest := by
        rw [← hbody]
        exact List.takeWhile_append_dropWhile.symm
      rw [hlead, List.append_assoc, dropBlank_append fun d hd => List.mem_takeWhile_imp hd]
      exact List.dropWhile_cons_of_neg (by simp [not_isBlank_of_dropBlank_eq_cons hbody])
    rw [hdrop, List.reverse_append, dropBlank_append hblank]

theorem isStripped_stripList (cs : List Char) : IsStripped cs (stripList cs) := by
  have hstrip : stripList cs = (dropBlank cs).rdropWhile isBlank := rfl
  refine ⟨⟨cs.takeWhile isBlank, (dropBlank cs).rtakeWhile isBlank, ?_,
    fun c hc => List.mem_takeWhile_imp hc, fun c hc => List.mem_rtakeWhile_imp hc⟩, ?_, ?_⟩
  · rw [hstrip, List.append_assoc, List.rdropWhile_append_rtakeWhile]
    exact List.takeWhile_append_dropWhile.symm
  · intro c hc
    obtain ⟨rest, hrest⟩ := List.head?_eq_some_iff.mp hc
    obtain ⟨back, hback⟩ := List.rdropWhile_prefix isBlank (dropBlank cs)
    rw [← hstrip, hrest] at hback
    exact not_isBlank_of_dropBlank_eq_cons hback.symm
  · intro c hc
    rw [stripList, List.getLast?_reverse] at hc
    obtain ⟨rest, hrest⟩ := List.head?_eq_some_iff.mp hc
    exact not_isBlank_of_dropBlank_eq_cons hrest

/-- Stripping leaves all there is between the blanks at the ends. -/
theorem stripList_eq_iff {cs body : List Char} : stripList cs = body ↔ IsStripped cs body := by
  constructor
  · rintro rfl
    exact isStripped_stripList cs
  · rintro ⟨⟨front, back, rfl, hfront, hback⟩, hhead, hlast⟩
    rw [stripList_between hfront hback, stripList_of_ends hhead hlast]

theorem stripList_stripList (cs : List Char) : stripList (stripList cs) = stripList cs :=
  stripList_of_ends (isStripped_stripList cs).head (isStripped_stripList cs).last

theorem stripList_dropBlank (cs : List Char) : stripList (dropBlank cs) = stripList cs := by
  have hsplit : cs = cs.takeWhile isBlank ++ dropBlank cs :=
    List.takeWhile_append_dropWhile.symm
  conv_rhs => rw [hsplit, ← List.append_nil (_ ++ _)]
  exact (stripList_between (fun c hc => List.mem_takeWhile_imp hc) (by simp) _).symm

/-! ## Patterns -/

/-- A part of a pattern: some characters, or a run of characters of one kind. -/
inductive Part where
  | exactly (cs : List Char)
  | run (kind : Char → Bool)

/-- The parts of a pattern, in order. -/
abbrev Pattern := List Part

/-- Tries numbers from `n` on downwards. -/
def downFrom {β : Type} (attempt : Nat → Option β) : Nat → Option β
  | 0 => attempt 0
  | n + 1 => (attempt (n + 1)).orElse fun _ => downFrom attempt n

/-- The stretches that the parts of a pattern match at the front of a text. -/
def Pattern.matchFront : Pattern → List Char → Option (List (List Char))
  | [], _ => some []
  | .exactly l :: parts, cs =>
    if l.isPrefixOf cs then (matchFront parts (cs.drop l.length)).map (l :: ·) else none
  | .run kind :: parts, cs =>
    downFrom (fun n => (matchFront parts (cs.drop n)).map (cs.take n :: ·))
      (cs.takeWhile kind).length

/-- The stretches that the parts of a pattern match at the first place where it matches at all. -/
def Pattern.search (pattern : Pattern) : List Char → Option (List (List Char))
  | [] => pattern.matchFront []
  | c :: rest => (pattern.matchFront (c :: rest)).orElse fun _ => search pattern rest

/-- The first attempt is the last one, if it succeeds. -/
theorem downFrom_of_some {β : Type} {attempt : Nat → Option β} {n : Nat} {b : β}
    (h : attempt n = some b) : downFrom attempt n = some b := by
  cases n with
  | zero => exact h
  | succ n => rw [downFrom, h]; rfl

/-- Whatever a run takes at most is what it takes, if the rest of the pattern matches behind it. -/
theorem Pattern.matchFront_run {kind : Char → Bool} {parts : Pattern} {cs : List Char}
    {found : List (List Char)} (h : matchFront parts (cs.dropWhile kind) = some found) :
    matchFront (.run kind :: parts) cs = some (cs.takeWhile kind :: found) := by
  have hsplit : cs.takeWhile kind ++ cs.dropWhile kind = cs := List.takeWhile_append_dropWhile
  have hdrop : (cs.takeWhile kind ++ cs.dropWhile kind).drop (cs.takeWhile kind).length =
      cs.dropWhile kind := List.drop_left
  have htake : (cs.takeWhile kind ++ cs.dropWhile kind).take (cs.takeWhile kind).length =
      cs.takeWhile kind := List.take_left
  rw [hsplit] at hdrop htake
  rw [matchFront]
  exact downFrom_of_some (by rw [hdrop, h, htake]; rfl)

/-- The pattern of some characters, blanks behind them, and anything behind these. -/
def behindBlanks (l : List Char) : Pattern :=
  [.exactly l, .run isBlank, .run fun _ => true]

theorem matchFront_behindBlanks (l cs : List Char) :
    (behindBlanks l).matchFront cs =
      if l.isPrefixOf cs then
        some [l, (cs.drop l.length).takeWhile isBlank, dropBlank (cs.drop l.length)]
      else none := by
  have hrest : ∀ ds : List Char, Pattern.matchFront [.run fun _ => true] ds = some [ds] := by
    intro ds
    have htake : ds.takeWhile (fun _ => true) = ds := List.takeWhile_eq_self_iff.mpr (by simp)
    have hend : Pattern.matchFront [] (ds.dropWhile fun _ => true) = some [] := rfl
    rw [Pattern.matchFront_run hend, htake]
  unfold behindBlanks
  rw [Pattern.matchFront]
  split
  · rw [Pattern.matchFront_run (hrest _)]
    rfl
  · rfl

/-- The pattern is found at the first occurrence of the characters; the blanks behind them are taken
by the first run, and the second run takes the rest. -/
theorem search_behindBlanks (l cs : List Char) :
    (behindBlanks l).search cs =
      (afterList? l cs).map fun rest => [l, rest.takeWhile isBlank, dropBlank rest] := by
  induction cs with
  | nil =>
    rw [Pattern.search, matchFront_behindBlanks, afterList?]
    cases l <;> rfl
  | cons c rest ih =>
    rw [Pattern.search, matchFront_behindBlanks, afterList?, ih]
    split <;> rfl

end SchemaTypes.Text

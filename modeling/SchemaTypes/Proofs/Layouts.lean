import SchemaTypes.Proofs.Margins

/-!
# Indentation is layout

A type expression is a list of lines, each of which is so many levels deep; the margin of one level
only says how deep lines are set. `Laid` describes the lines of a type expression: the first one and
the last one are not set in, and the depth goes up behind a line of code that opens a record or a
tuple, and down at a line that closes one. Where two texts meet on one line, a line is left that
opens what the second one opens there and closes what the first one closes.

A margin of blanks makes no bars, since no line of a type expression starts with a bar. That is why
parentheses are the same under all such margins.
-/

namespace SchemaTypes.Expression

open Schema (Node Property)
open Text (OneLine Lacks lines unlines indentLines)

/-! ## Lines with a depth -/

/-- A line without its margin: how many levels it is set in, and what stands on it. -/
structure Line where
  depth : Nat
  body : String

/-- The margin of some levels, if `margin` is that of one level. -/
def margins (margin : String) : Nat → String
  | 0 => ""
  | depth + 1 => margin ++ margins margin depth

namespace Line

/-- A line behind its margin. -/
def text (margin : String) (l : Line) : String :=
  margins margin l.depth ++ l.body

/-- A line one level deeper. -/
def deeper (l : Line) : Line :=
  { l with depth := l.depth + 1 }

theorem text_deeper (margin : String) (l : Line) :
    l.deeper.text margin = margin ++ l.text margin := by
  unfold text deeper
  rw [margins, String.append_assoc]

end Line

/-- Lines behind their margins, as one text. -/
def layout (margin : String) (ls : List Line) : String :=
  unlines (ls.map (Line.text margin))

/-- A margin of spaces and tabs. -/
def IsMargin (margin : String) : Prop :=
  ∀ c ∈ margin.toList, c = ' ' ∨ c = '\t'

/-- How many levels a line of code closes at its front: one, if it starts with a closing bracket. -/
def closing (body : String) : Nat :=
  if body.toList.head? = some '\x7d' ∨ body.toList.head? = some ']' then 1 else 0

/-- How many levels a line opens for the lines behind it: one, if it is a line of code that ends
with an opening bracket. -/
def opening (body : String) : Nat :=
  if isCommentLine body = false ∧
    (body.toList.getLast? = some '\x7b' ∨ body.toList.getLast? = some '[') then 1 else 0

/-- Every line is as deep as records and tuples are open at it, if so many are open in front of the
lines, and so many behind them. -/
inductive Nested : Nat → List Line → Nat → Prop
  | nil (depth : Nat) : Nested depth [] depth
  | cons {depth after : Nat} {l : Line} {ls : List Line} (hdepth : depth = l.depth + closing l.body)
      (h : Nested (l.depth + opening l.body) ls after) : Nested depth (l :: ls) after

namespace Nested

variable {depth middle after : Nat} {l : Line} {ls ms : List Line}

theorem append (hl : Nested depth ls middle) (hm : Nested middle ms after) :
    Nested depth (ls ++ ms) after := by
  induction hl with
  | nil => exact hm
  | cons hdepth _ ih => exact .cons hdepth (ih hm)

theorem exists_of_append (h : Nested depth (ls ++ ms) after) :
    ∃ middle, Nested depth ls middle ∧ Nested middle ms after := by
  induction ls generalizing depth with
  | nil => exact ⟨depth, .nil depth, h⟩
  | cons l ls ih =>
    cases h with
    | cons hdepth h =>
      obtain ⟨middle, hls, hms⟩ := ih h
      exact ⟨middle, .cons hdepth hls, hms⟩

theorem single (hdepth : depth = l.depth + closing l.body)
    (hafter : after = l.depth + opening l.body) :
    Nested depth [l] after := by
  rw [hafter]
  exact .cons hdepth (.nil _)

/-- Nested lines stay so one level deeper. -/
theorem deeper (h : Nested depth ls after) :
    Nested (depth + 1) (ls.map Line.deeper) (after + 1) := by
  induction h with
  | nil => exact .nil _
  | @cons depth after l ls hdepth _ ih =>
    have hdepth' : depth + 1 = l.deeper.depth + closing l.deeper.body := by
      change depth + 1 = l.depth + 1 + closing l.body
      omega
    refine .cons hdepth' ?_
    have hopened : l.deeper.depth + opening l.deeper.body = l.depth + opening l.body + 1 := by
      change l.depth + 1 + opening l.body = l.depth + opening l.body + 1
      omega
    rw [hopened]
    exact ih

end Nested

/-! ## Lines of code and lines of comments -/

/-- Whether characters can stand at the start of a line of code. There is a blank only in front of a
sign between operands. -/
def startsCode : List Char → Bool
  | [] => true
  | [c] => c ≠ '/' && c ≠ '|' && c ≠ ' '
  | c :: d :: _ => if c = ' ' then d = '|' || d = '&' else c ≠ '/' && c ≠ '|'

theorem startsCode_append {cs ds : List Char} (hcs : startsCode cs = true)
    (hds : startsCode ds = true) : startsCode (cs ++ ds) = true := by
  match cs, ds with
  | [], _ => exact hds
  | [c], [] => exact hcs
  | [c], d :: ds =>
    simp only [startsCode, Bool.and_eq_true, decide_eq_true_eq] at hcs
    simp [startsCode, hcs.1.1, hcs.1.2, hcs.2]
  | c :: c' :: cs, _ => exact hcs

/-- Code is no comment. -/
theorem not_isCommentLine_of_startsCode {t : String} (h : startsCode t.toList = true) :
    isCommentLine t = false := by
  unfold isCommentLine
  split
  · next rest heq =>
    rw [heq] at h
    cases rest <;> simp [startsCode] at h
  · next rest heq =>
    rw [heq] at h
    simp [startsCode] at h
  · rfl

theorem opening_of_startsCode {t : String} (h : startsCode t.toList = true) :
    opening t =
      if t.toList.getLast? = some '\x7b' ∨ t.toList.getLast? = some '[' then 1 else 0 := by
  unfold opening
  simp only [not_isCommentLine_of_startsCode h, true_and]

/-- A comment opens nothing. -/
theorem opening_of_isCommentLine {t : String} (h : isCommentLine t = true) : opening t = 0 := by
  unfold opening
  rw [h]
  simp

/-- A line of a comment starts with a slash or a blank. -/
theorem head?_of_isCommentLine {t : String} (h : isCommentLine t = true) :
    t.toList.head? = some '/' ∨ t.toList.head? = some ' ' := by
  unfold isCommentLine at h
  split at h
  · next heq => exact Or.inl (by rw [heq]; rfl)
  · next heq => exact Or.inr (by rw [heq]; rfl)
  · cases h

/-- A comment closes nothing. -/
theorem closing_of_isCommentLine {t : String} (h : isCommentLine t = true) : closing t = 0 := by
  unfold closing
  rcases head?_of_isCommentLine h with hhead | hhead
  · rw [hhead]
    decide
  · rw [hhead]
    decide

/-- What stands on one line, behind any margin, makes no bar with the margin. -/
structure Sound (body : String) : Prop where
  oneLine : OneLine body
  first : body.toList.head? ≠ some '|'

/-- A piece of code on one line that opens and closes nothing. -/
structure Inline (t : String) : Prop where
  oneLine : OneLine t
  start : startsCode t.toList = true
  opening_eq : opening t = 0
  closing_eq : closing t = 0

/-- What starts code does not start with a bar. -/
theorem head?_ne_bar {cs : List Char} (h : startsCode cs = true) : cs.head? ≠ some '|' := by
  match cs with
  | [] => simp
  | [c] => simp_all [startsCode]
  | c :: d :: cs =>
    intro hc
    obtain rfl : c = '|' := by simpa using hc
    simp [startsCode] at h

/-- Where two pieces of code meet on a line, the first one decides what is closed there. -/
theorem closing_append {t u : String} (hu : closing u = 0) : closing (t ++ u) = closing t := by
  unfold closing at hu ⊢
  rw [String.toList_append]
  cases ht : t.toList with
  | nil => simpa using hu
  | cons c cs => rfl

/-- Where two pieces of code meet on a line, the second one decides what is opened there. -/
theorem opening_append {t u : String} (ht : startsCode t.toList = true)
    (hu : startsCode u.toList = true) (hopening : opening t = 0) :
    opening (t ++ u) = opening u := by
  have htu : startsCode (t ++ u).toList = true := by
    rw [String.toList_append]
    exact startsCode_append ht hu
  rw [opening_of_startsCode ht] at hopening
  rw [opening_of_startsCode htu, opening_of_startsCode hu, String.toList_append]
  cases hlast : u.toList with
  | nil => simpa using hopening
  | cons c cs => rw [List.getLast?_append_of_ne_nil _ (List.cons_ne_nil c cs)]

/-! ## The lines of a type expression -/

/-- The lines of a type expression: the first one and the last one are lines of code that are not
set in, and all of them are as deep as records and tuples are open. -/
structure Laid (ls : List Line) : Prop where
  first : ∃ body rest, ls = ⟨0, body⟩ :: rest ∧ startsCode body.toList = true
  last : ∃ front body, ls = front ++ [⟨0, body⟩] ∧ startsCode body.toList = true
  nested : Nested 0 ls 0
  sound : ∀ l ∈ ls, Sound l.body

theorem Inline.sound {t : String} (h : Inline t) : Sound t :=
  ⟨h.oneLine, head?_ne_bar h.start⟩

/-- A piece of code on one line. -/
theorem Inline.laid {t : String} (h : Inline t) : Laid [⟨0, t⟩] where
  first := ⟨t, [], rfl, h.start⟩
  last := ⟨[], t, rfl, h.start⟩
  nested := .single (by rw [h.closing_eq]) (by rw [h.opening_eq])
  sound := by
    intro l hl
    rw [List.mem_singleton.mp hl]
    exact h.sound

namespace Laid

variable {ls ms front rest : List Line} {body body' : String}

theorem ne_nil (h : Laid ls) : ls ≠ [] := by
  obtain ⟨body, rest, rfl, -⟩ := h.first
  exact List.cons_ne_nil _ _

/-- The first line is a line of code. -/
theorem startsCode_first (h : Laid (⟨0, body⟩ :: rest)) : startsCode body.toList = true := by
  obtain ⟨first, rest', heq, hfirst⟩ := h.first
  obtain rfl : body = first := by simpa using (List.cons.inj heq).1
  exact hfirst

/-- The last line is a line of code. -/
theorem startsCode_last (h : Laid (front ++ [⟨0, body⟩])) : startsCode body.toList = true := by
  obtain ⟨front', last, heq, hlast⟩ := h.last
  obtain ⟨-, hsame⟩ := List.append_inj' heq rfl
  obtain rfl : body = last := by simpa using hsame
  exact hlast

/-- A line that two texts meet on is as deep as both of them have it. -/
theorem nested_append (hl : Laid (front ++ [⟨0, body⟩])) (hm : Laid (⟨0, body'⟩ :: rest)) :
    Nested 0 (front ++ ⟨0, body ++ body'⟩ :: rest) 0 := by
  obtain ⟨depth, hfront, hlast⟩ := hl.nested.exists_of_append
  cases hlast with
  | @cons _ _ _ _ hdepth hend =>
    generalize hopened : (0 : Nat) + opening body = opened at hend
    cases hend with
    | nil =>
      cases hm.nested with
      | cons hdepth' hrest =>
        change 0 = 0 + closing body' at hdepth'
        change depth = 0 + closing body at hdepth
        have hopening : opening body = 0 := by omega
        have hclosing : closing body' = 0 := by omega
        refine hfront.append (.cons ?_ ?_)
        · change depth = 0 + closing (body ++ body')
          rw [closing_append hclosing]
          exact hdepth
        · change Nested (0 + opening (body ++ body')) rest 0
          rw [opening_append hl.startsCode_last hm.startsCode_first hopening]
          exact hrest

/-- The last line of one text and the first line of another one become one line. -/
theorem append (hl : Laid (front ++ [⟨0, body⟩])) (hm : Laid (⟨0, body'⟩ :: rest)) :
    Laid (front ++ ⟨0, body ++ body'⟩ :: rest) := by
  have hmiddle : startsCode (body ++ body').toList = true := by
    rw [String.toList_append]
    exact startsCode_append hl.startsCode_last hm.startsCode_first
  refine ⟨?_, ?_, nested_append hl hm, ?_⟩
  · cases front with
    | nil => exact ⟨body ++ body', rest, rfl, hmiddle⟩
    | cons l front =>
      obtain ⟨first, rest', heq, hfirst⟩ := hl.first
      obtain ⟨rfl, -⟩ := List.cons.inj heq
      exact ⟨first, front ++ ⟨0, body ++ body'⟩ :: rest, rfl, hfirst⟩
  · obtain ⟨front', last, heq, hlast'⟩ := hm.last
    cases rest with
    | nil => exact ⟨front, body ++ body', rfl, hmiddle⟩
    | cons l rest =>
      cases front' with
      | nil => simp at heq
      | cons l' front' =>
        obtain ⟨-, hrest⟩ := List.cons.inj heq
        refine ⟨front ++ ⟨0, body ++ body'⟩ :: front', last, ?_, hlast'⟩
        rw [hrest]
        simp
  · intro l hl'
    rcases List.mem_append.mp hl' with hfront' | htail
    · exact hl.sound l (List.mem_append_left _ hfront')
    · rcases List.mem_cons.mp htail with rfl | hrest
      · refine ⟨?_, head?_ne_bar hmiddle⟩
        exact (hl.sound ⟨0, body⟩ (by simp)).oneLine.append
          (hm.sound ⟨0, body'⟩ List.mem_cons_self).oneLine
      · exact hm.sound l (List.mem_cons_of_mem _ hrest)

end Laid

/-- The lines inside of brackets are nested one level deep. -/
structure Inside (ls : List Line) : Prop where
  nested : Nested 1 ls 1
  sound : ∀ l ∈ ls, Sound l.body

theorem inside_nil : Inside [] :=
  ⟨.nil 1, by simp⟩

theorem Inside.append {ls ms : List Line} (hl : Inside ls) (hm : Inside ms) : Inside (ls ++ ms) :=
  ⟨hl.nested.append hm.nested, List.forall_mem_append.mpr ⟨hl.sound, hm.sound⟩⟩

/-- The lines of a text, one level deeper. -/
theorem Laid.inside {ls : List Line} (h : Laid ls) : Inside (ls.map Line.deeper) := by
  refine ⟨h.nested.deeper, ?_⟩
  intro l hl
  obtain ⟨l', hl', rfl⟩ := List.mem_map.mp hl
  exact h.sound l' hl'

/-- The lines of a comment, one level deep. -/
theorem inside_comment {ks : List String} (hks : ∀ k ∈ ks, isCommentLine k = true)
    (honeLine : ∀ k ∈ ks, OneLine k) : Inside (ks.map (Line.mk 1)) := by
  induction ks with
  | nil => exact inside_nil
  | cons k ks ih =>
    have hk := hks k List.mem_cons_self
    have hline : Inside [⟨1, k⟩] := by
      refine ⟨.single ?_ ?_, ?_⟩
      · rw [closing_of_isCommentLine hk]
      · rw [opening_of_isCommentLine hk]
      · intro l hl
        rw [List.mem_singleton.mp hl]
        refine ⟨honeLine k List.mem_cons_self, ?_⟩
        rcases head?_of_isCommentLine hk with hhead | hhead
        · rw [hhead]
          decide
        · rw [hhead]
          decide
    exact hline.append (ih (fun m hm => hks m (List.mem_cons_of_mem k hm))
      fun m hm => honeLine m (List.mem_cons_of_mem k hm))

/-- Lines between brackets are the lines of a text. -/
theorem Inside.enclose {ls : List Line} (h : Inside ls) {o c : String}
    (hbrackets : IsBrackets o c) :
    Laid (⟨0, o⟩ :: ls ++ [⟨0, c⟩]) := by
  have hsigns : startsCode o.toList = true ∧ startsCode c.toList = true ∧ closing o = 0 ∧
      opening o = 1 ∧ closing c = 1 ∧ opening c = 0 ∧ OneLine o ∧ OneLine c := by
    rcases hbrackets with ⟨rfl, rfl⟩ | ⟨rfl, rfl⟩
    · decide
    · decide
  obtain ⟨ho, hc, hclosingO, hopeningO, hclosingC, hopeningC, honeLineO, honeLineC⟩ := hsigns
  have hend : Nested 1 [⟨0, c⟩] 0 := .single (by rw [hclosingC]) (by rw [hopeningC])
  have hinner : Nested (0 + opening o) (ls ++ [⟨0, c⟩]) 0 := by
    rw [hopeningO]
    exact h.nested.append hend
  refine ⟨⟨o, ls ++ [⟨0, c⟩], rfl, ho⟩, ⟨⟨0, o⟩ :: ls, c, rfl, hc⟩, .cons ?_ hinner, ?_⟩
  · rw [hclosingO]
  · intro l hl
    rcases List.mem_append.mp hl with hl | hl
    · rcases List.mem_cons.mp hl with rfl | hl
      · exact ⟨honeLineO, head?_ne_bar ho⟩
      · exact h.sound l hl
    · rw [List.mem_singleton.mp hl]
      exact ⟨honeLineC, head?_ne_bar hc⟩

/-! ## Texts of lines -/

section Texts

variable {margin : String} {ls : List Line}

theorem IsMargin.oneLine (h : IsMargin margin) : OneLine margin := by
  intro hmem
  rcases h '\n' hmem with heq | heq
  · cases heq
  · cases heq

theorem IsMargin.margins (h : IsMargin margin) (depth : Nat) : IsMargin (margins margin depth) := by
  induction depth with
  | zero => exact nofun
  | succ depth ih =>
    intro c hc
    rw [Expression.margins, String.toList_append] at hc
    rcases List.mem_append.mp hc with hc | hc
    · exact h c hc
    · exact ih c hc

theorem IsMargin.oneLine_text (h : IsMargin margin) {l : Line} (hl : OneLine l.body) :
    OneLine (l.text margin) :=
  (h.margins l.depth).oneLine.append hl

/-- The lines of a layout are the lines that are laid out. -/
theorem lines_layout (h : IsMargin margin) (hne : ls ≠ []) (hls : ∀ l ∈ ls, OneLine l.body) :
    lines (layout margin ls) = ls.map (Line.text margin) := by
  refine Text.lines_unlines (by simpa using hne) ?_
  intro t ht
  obtain ⟨l, hl, rfl⟩ := List.mem_map.mp ht
  exact h.oneLine_text (hls l hl)

/-- A margin makes no bar with what stands behind it. -/
theorem bar_isInfix_margin {cs ds : List Char} (hcs : ∀ c ∈ cs, c = ' ' ∨ c = '\t')
    (hds : ds.head? ≠ some '|') : [' ', '|', ' '] <:+: cs ++ ds ↔ [' ', '|', ' '] <:+: ds := by
  induction cs with
  | nil => exact Iff.rfl
  | cons c cs ih =>
    rw [List.cons_append, List.infix_cons_iff, ih fun d hd => hcs d (List.mem_cons_of_mem c hd)]
    refine or_iff_right ?_
    rintro ⟨rest, hrest⟩
    have htail : '|' :: ' ' :: rest = cs ++ ds := (List.cons.inj hrest).2
    cases cs with
    | nil =>
      rw [List.nil_append] at htail
      rw [← htail] at hds
      exact hds rfl
    | cons d cs =>
      have hd : d = '|' := (List.cons.inj htail).1.symm
      rcases hcs d (by simp) with heq | heq
      · rw [heq] at hd
        cases hd
      · rw [heq] at hd
        cases hd

/-- A layout has a bar if one of its lines has one behind the margin. -/
theorem contains_bar_layout (h : IsMargin margin) (hne : ls ≠ [])
    (hls : ∀ l ∈ ls, Sound l.body) :
    Text.contains " | " (layout margin ls) = true ↔
      ∃ l ∈ ls, Text.contains " | " l.body = true := by
  have hline : ∀ l ∈ ls, (Text.contains " | " (l.text margin) = true ↔
      Text.contains " | " l.body = true) := by
    intro l hl
    have hbar : " | ".toList = [' ', '|', ' '] := by decide
    rw [Text.contains_iff_isInfix, Text.contains_iff_isInfix, Line.text, String.toList_append, hbar]
    exact bar_isInfix_margin (h.margins l.depth) (hls l hl).first
  rw [Text.contains_iff_lines (by decide), lines_layout h hne fun l hl => (hls l hl).oneLine]
  constructor
  · rintro ⟨t, ht, hbar⟩
    obtain ⟨l, hl, rfl⟩ := List.mem_map.mp ht
    exact ⟨l, hl, (hline l hl).mp hbar⟩
  · rintro ⟨l, hl, hbar⟩
    exact ⟨_, List.mem_map_of_mem hl, (hline l hl).mpr hbar⟩

/-- Two layouts one after the other. -/
theorem layout_append (margin : String) (front rest : List Line) (body body' : String) :
    layout margin (front ++ [⟨0, body⟩]) ++ layout margin (⟨0, body'⟩ :: rest) =
      layout margin (front ++ ⟨0, body ++ body'⟩ :: rest) := by
  have hzero : ∀ t, Line.text margin ⟨0, t⟩ = t := fun t => String.empty_append
  unfold layout
  simp only [List.map_append, List.map_cons, List.map_nil, hzero]
  induction front.map (Line.text margin) with
  | nil =>
    by_cases hrest : rest.map (Line.text margin) = []
    · rw [hrest]
      rfl
    · rw [List.nil_append, List.nil_append, Text.unlines_cons body' hrest,
        Text.unlines_cons _ hrest]
      simp only [unlines, Text.join, String.append_assoc]
  | cons f fs ih =>
    rw [List.cons_append, List.cons_append, Text.unlines_cons f (by simp),
      Text.unlines_cons f (by simp), String.append_assoc, ih]

end Texts

/-! ## Pieces of code -/

/-- The characters that code on one line is not to have in certain places: line feeds, and what
starts a comment, makes a bar, or opens and closes levels. -/
def signals : List Char := ['\n', '/', '|', ' ', '\x7b', '[', '\x7d', ']']

-- `decide` on the quantified statement may go through all characters there are.
/-- What a check of the list finds holds for each of the signals. -/
theorem forall_signals {p : Char → Prop} [DecidablePred p] (h : signals.all (p ·) = true) :
    ∀ c ∈ signals, p c := fun c hc =>
  of_decide_eq_true (List.all_eq_true.mp h c hc)

/-- What has no signals at all opens and closes nothing. -/
theorem inline_of_lacks {t : String} (h : ∀ c ∈ signals, Lacks c t) : Inline t := by
  have hfirst : ∀ c ∈ signals, t.toList.head? ≠ some c := fun c hc hhead =>
    h c hc (List.mem_of_mem_head? hhead)
  have hlast : ∀ c ∈ signals, t.toList.getLast? ≠ some c := fun c hc hlast =>
    h c hc (List.mem_of_mem_getLast? hlast)
  refine ⟨h '\n' (by decide), ?_, ?_, ?_⟩
  · have hslash := hfirst '/' (by decide)
    have hbar := hfirst '|' (by decide)
    have hblank := hfirst ' ' (by decide)
    match hcs : t.toList with
    | [] => rfl
    | [c] => simp_all [startsCode]
    | c :: d :: cs => simp_all [startsCode]
  · unfold opening
    rw [if_neg]
    rintro ⟨-, hbrace | hbracket⟩
    · exact hlast '\x7b' (by decide) hbrace
    · exact hlast '[' (by decide) hbracket
  · unfold closing
    rw [if_neg]
    rintro (hbrace | hbracket)
    · exact hfirst '\x7d' (by decide) hbrace
    · exact hfirst ']' (by decide) hbracket

/-- What stands between two characters opens and closes nothing, if the first one cannot start
anything else and the second one opens nothing. -/
theorem inline_enclosed {t : String} {c d : Char} {cs : List Char}
    (ht : t.toList = c :: (cs ++ [d])) (honeLine : OneLine t)
    (hc : c ∉ ['/', '|', ' ', '\x7d', ']']) (hd : d ∉ ['\x7b', '[']) :
    Inline t := by
  simp only [List.mem_cons, List.not_mem_nil, or_false, not_or] at hc hd
  obtain ⟨hslash, hbar, hblank, hbrace, hbracket⟩ := hc
  have hlast : t.toList.getLast? = some d := by
    rw [ht, ← List.cons_append, List.getLast?_concat]
  refine ⟨honeLine, ?_, ?_, ?_⟩
  · rw [ht]
    cases hrest : cs ++ [d] with
    | nil => simp at hrest
    | cons e es => simp [startsCode, hslash, hbar, hblank]
  · unfold opening
    rw [hlast, if_neg]
    simp [hd.1, hd.2]
  · unfold closing
    rw [ht, if_neg]
    simp [hbrace, hbracket]

theorem inline_quote (s : String) : Inline (Json.quote s) := by
  have hquote : (Json.quote s).toList = '"' :: (s.toList.flatMap Json.escapeChar ++ ['"']) := by
    unfold Json.quote Json.quoteList
    rw [String.toList_ofList, List.cons_append]
  exact inline_enclosed hquote (Json.oneLine_quote s) (by decide) (by decide)

/-- JSON text opens and closes nothing. -/
theorem inline_text (v : Json) : Inline v.text := by
  have honeLine := v.oneLine_text
  have hnumeric : ∀ c ∈ signals, Decimal.isNumeric c = false := forall_signals (by decide)
  cases v with
  | null => exact inline_of_lacks (forall_signals (by decide))
  | bool b => cases b <;> exact inline_of_lacks (forall_signals (by decide))
  | int n => exact inline_of_lacks fun c hc => Decimal.lacks_int (hnumeric c hc) n
  | float x =>
    have hnames : ∀ c ∈ signals, Lacks c Json.numberLayout.notANumber ∧
        Lacks c Json.numberLayout.infinity := forall_signals (by decide)
    refine inline_of_lacks fun c hc => ?_
    exact Decimal.Layout.lacks_float (hnumeric c hc) (hnames c hc).1 (hnames c hc).2 x
  | str s => exact inline_quote s
  | arr items =>
    have hitems : (Json.arr items).text.toList =
        '[' :: ((Text.join ", " (Json.itemTexts items)).toList ++ [']']) := by
      rw [Json.text, String.toList_append, String.toList_append]
      rfl
    exact inline_enclosed hitems honeLine (by decide) (by decide)
  | obj members =>
    have hmembers : (Json.obj members).text.toList =
        '\x7b' :: ((Text.join ", " (Json.memberTexts members)).toList ++ ['\x7d']) := by
      rw [Json.text, String.toList_append, String.toList_append]
      rfl
    exact inline_enclosed hmembers honeLine (by decide) (by decide)

theorem inline_of_isIdentifier {name : String} (h : isIdentifier name = true) : Inline name := by
  have hparts : ∀ c ∈ signals, isIdentifierPart c = false := forall_signals (by decide)
  exact inline_of_lacks fun c hc => lacks_of_isIdentifier h (hparts c hc)

theorem inline_signs : ∀ t ∈ signs, startsCode t.toList = true ∧ opening t = 0 ∧ closing t = 0 ∧
    OneLine t := by
  decide

/-- All pieces of type expressions open and close nothing, if names are identifiers. -/
theorem CodePiece.inline {t : String} (h : CodePiece (isIdentifier · = true) t) : Inline t := by
  cases h with
  | name hname => exact inline_of_isIdentifier hname
  | value v => exact inline_text v
  | key name =>
    unfold propertyKey
    split
    · next hname => exact inline_of_isIdentifier hname
    · exact inline_quote name
  | sign ht =>
    obtain ⟨hstart, hopening, hclosing, honeLine⟩ := inline_signs t ht
    exact ⟨honeLine, hstart, hopening, hclosing⟩

/-! ## Type expressions -/

/-- Texts under all margins of spaces and tabs that are one layout. -/
def IsLayout (F : { m : String // IsMargin m } → String) : Prop :=
  ∃ ls, Laid ls ∧ ∀ m, F m = layout m.1 ls

/-- Lines inside of brackets, under all margins of spaces and tabs, that are the same but for the
margins. -/
def IsLayoutInside (L : { m : String // IsMargin m } → List String) : Prop :=
  ∃ ls, Inside ls ∧ ∀ m, L m = ls.map (Line.text m.1)

theorem isLayout_append {F G : { m : String // IsMargin m } → String} (hF : IsLayout F)
    (hG : IsLayout G) : IsLayout fun m => F m ++ G m := by
  obtain ⟨ls, hls, hF⟩ := hF
  obtain ⟨ms, hms, hG⟩ := hG
  obtain ⟨front, body, rfl, -⟩ := hls.last
  obtain ⟨body', rest, rfl, -⟩ := hms.first
  refine ⟨_, hls.append hms, fun m => ?_⟩
  change F m ++ G m = _
  rw [hF, hG, layout_append]

/-- Whether a layout has a bar does not depend on the margin. -/
theorem isLayout_bar {F : { m : String // IsMargin m } → String} (hF : IsLayout F)
    (m m' : { m : String // IsMargin m }) :
    Text.contains " | " (F m) = Text.contains " | " (F m') := by
  obtain ⟨ls, hls, hF⟩ := hF
  rw [Bool.eq_iff_iff, hF, hF, contains_bar_layout m.2 hls.ne_nil hls.sound,
    contains_bar_layout m'.2 hls.ne_nil hls.sound]

/-- The lines of a text under a comment, one level deeper. -/
theorem isLayoutInside_entry {comment : String} (hcomment : IsComment comment)
    {F : { m : String // IsMargin m } → String} (hF : IsLayout F) :
    IsLayoutInside fun m => indentLines m.1 (comment ++ F m) := by
  obtain ⟨ks, hks, hmarked⟩ := hcomment.exists_lines
  obtain ⟨ls, hls, hF⟩ := hF
  have honeLine : ∀ k ∈ ks, OneLine k := by
    intro k hk
    refine Text.oneLine_of_mem_lines (t := comment) ?_
    rw [hks]
    exact List.mem_append_left _ hk
  refine ⟨_, (inside_comment hmarked honeLine).append hls.inside, fun m => ?_⟩
  have hlines : lines (comment ++ F m) = ks ++ ls.map (Line.text m.1) := by
    have hlayout : lines (F m) = ls.map (Line.text m.1) := by
      rw [hF, lines_layout m.2 hls.ne_nil fun l hl => (hls.sound l hl).oneLine]
    obtain ⟨body, rest, rfl, -⟩ := hls.first
    rw [Text.lines_append hks hlayout, String.empty_append]
    rfl
  change (lines (comment ++ F m)).map (m.1 ++ ·) = _
  rw [hlines]
  simp only [List.map_append, List.map_map]
  congr 1
  · refine List.map_congr_left fun k _ => ?_
    change m.1 ++ k = margins m.1 1 ++ k
    rw [margins, margins, String.append_empty]
  · exact List.map_congr_left fun l _ => (Line.text_deeper m.1 l).symm

/-- Being one layout is kept by everything that is done to write a type expression. -/
theorem layouts_closed :
    ClosedUnderWriting (fun m : { m : String // IsMargin m } => m.1) (isIdentifier · = true)
      IsLayout IsLayoutInside where
  piece := by
    intro t ht
    refine ⟨_, ht.inline.laid, fun m => ?_⟩
    exact String.empty_append.symm
  append := fun F G hF hG => isLayout_append hF hG
  bar := fun F hF => isLayout_bar hF
  nil := ⟨[], inside_nil, fun m => rfl⟩
  more := by
    rintro L L' ⟨ls, hls, hL⟩ ⟨ms, hms, hL'⟩
    refine ⟨_, hls.append hms, fun m => ?_⟩
    change L m ++ L' m = _
    rw [hL, hL', List.map_append]
  entry := fun comment F hcomment hF => isLayoutInside_entry hcomment hF
  block := by
    rintro o c hbrackets L ⟨ls, hls, hL⟩
    refine ⟨_, hls.enclose hbrackets, fun m => ?_⟩
    change block o c (L m) = _
    have hzero : ∀ t, Line.text m.1 ⟨0, t⟩ = t := fun t => String.empty_append
    unfold block layout
    rw [hL]
    simp only [List.map_append, List.map_cons, List.map_nil, hzero]

/-- A line without the spaces and tabs in front of it. -/
def unindented (line : String) : String :=
  String.ofList (line.toList.dropWhile fun c => c = ' ' || c = '\t')

/-- A margin makes no difference to what stands behind it. -/
theorem unindented_text {margin : String} (h : IsMargin margin) (l : Line) :
    unindented (l.text margin) = unindented l.body := by
  unfold unindented Line.text
  rw [String.toList_append, List.dropWhile_append_of_pos]
  intro c hc
  rcases h.margins l.depth c hc with rfl | rfl
  · rfl
  · rfl

/-- If a schema is written and all names that are met are identifiers, then there are lines with
depths, the first one and the last one not set in, each of them as deep as records and tuples are
open at it, and these lines are laid out under every margin of spaces and tabs: under two such
margins there are the same lines but for spaces and tabs in front of them. -/
theorem ofSchema_eq_layout (document schema : Json) (settings : Settings)
    (underWay : String → Bool) (met : List Json) (text : String)
    (hrun : (ofSchema document settings schema).observe underWay = (met, .ok text))
    (hnames : ∀ target ∈ met, ∀ name, Reference.displayNameOf target = .ok name →
      isIdentifier name = true) :
    ∃ ls : List Line, (∃ body rest, ls = ⟨0, body⟩ :: rest) ∧
      (∃ front body, ls = front ++ [⟨0, body⟩]) ∧ Nested 0 ls 0 ∧
      ∀ margin, IsMargin margin →
        (ofSchema document { settings with indent := .ok margin } schema).observe underWay =
          (met, .ok (layout margin ls)) ∧
        lines (layout margin ls) = ls.map (Line.text margin) ∧
        (lines (layout margin ls)).map unindented = ls.map fun l => unindented l.body := by
  obtain ⟨F, ⟨ls, hls, hF⟩, hall⟩ :=
    layouts_closed.varies_ofSchema document settings schema met text hrun hnames
  obtain ⟨body, rest, hfirst, -⟩ := hls.first
  obtain ⟨front, body', hlast, -⟩ := hls.last
  refine ⟨ls, ⟨body, rest, hfirst⟩, ⟨front, body', hlast⟩, hls.nested, fun margin hmargin => ?_⟩
  have hlines := lines_layout hmargin hls.ne_nil fun l hl => (hls.sound l hl).oneLine
  refine ⟨?_, hlines, ?_⟩
  · rw [hall ⟨margin, hmargin⟩, hF]
  · rw [hlines, List.map_map]
    exact List.map_congr_left fun l _ => unindented_text hmargin l

/-- A place in a plane with a remark, or a pair of such places, with a choice inside. -/
def placesInUse : Json :=
  .obj [("allOf", .arr [
    .obj [("type", .str "array"), ("items", .arr [
      .obj [("properties", .obj [
        ("x", .obj [("type", .str "number"), ("description", .str "From the left \x7b")])])],
      .obj [("enum", .arr [.str "a | b", .arr [.null]])]])],
    .obj [("anyOf", .arr [
      .obj [("properties", .obj [("a b", .obj [("$ref", .str "#/definitions/Place")])])],
      .obj [("type", .str "null")]])]])]

/-- What is written for these places under a margin. -/
def placesUnder (margin : String) : List Json × Except Failure String :=
  (ofSchema (.obj [("definitions", .obj [("Place", .obj [])])])
    { deep := false, indent := .ok margin } placesInUse).observe fun _ => false

/-- Two margins give the same lines; the remark opens nothing though it ends with a bracket, and the
line between the two parts closes a level and opens another one. -/
theorem ofSchema_eq_layout_places :
    ∃ ls : List Line, Nested 0 ls 0 ∧
      placesUnder "" = ([.str "#/definitions/Place"], .ok (layout "" ls)) ∧
      layout "\t" ls = "[\n\t\x7b\n\t\t// From the left \x7b\n\t\tx?: number;\n\t\x7d,\n" ++
        "\t\"a | b\" | [null],\n] & (\x7b\n\t\"a b\"?: Place;\n\x7d | null)" := by
  have hmet : (placesUnder "  ").1 = [.str "#/definitions/Place"] := rfl
  have htext : (placesUnder "  ").2.toOption =
      some ("[\n  \x7b\n    // From the left \x7b\n    x?: number;\n  \x7d,\n" ++
        "  \"a | b\" | [null],\n] & (\x7b\n  \"a b\"?: Place;\n\x7d | null)") := by
    decide +kernel
  have htext' : (placesUnder "\t").2.toOption =
      some ("[\n\t\x7b\n\t\t// From the left \x7b\n\t\tx?: number;\n\t\x7d,\n" ++
        "\t\"a | b\" | [null],\n] & (\x7b\n\t\"a b\"?: Place;\n\x7d | null)") := by
    decide +kernel
  obtain ⟨met, hrun⟩ := exists_observe htext
  obtain ⟨met', hrun'⟩ := exists_observe htext'
  obtain rfl : met = [.str "#/definitions/Place"] := (congrArg Prod.fst hrun).symm.trans hmet
  have hnames : ∀ target ∈ [Json.str "#/definitions/Place"], ∀ name,
      Reference.displayNameOf target = .ok name → isIdentifier name = true := by
    intro target htarget name hname
    rw [List.mem_singleton.mp htarget] at hname
    obtain rfl : "Place" = name := Except.ok.inj hname
    decide
  obtain ⟨ls, -, -, hnested, hall⟩ := ofSchema_eq_layout _ _ _ _ _ _ hrun hnames
  refine ⟨ls, hnested, ?_, ?_⟩
  · have hempty : IsMargin "" := nofun
    exact (hall "" hempty).1
  · have htab : IsMargin "\t" := by
      intro c hc
      exact Or.inr (List.mem_singleton.mp hc)
    have hsame := hrun'.symm.trans (hall "\t" htab).1
    exact (Except.ok.inj (congrArg Prod.snd hsame)).symm

end SchemaTypes.Expression

import Mathlib.Data.List.Chain
import SchemaTypes.Proofs.OneLine

/-!
# Paragraphs

`Text.split` cuts a text at every occurrence of a separator. A text is put together from paragraphs
by blank lines, and it is taken apart again into the same paragraphs if none of them has an empty
line in it or is open at its ends: `Text.Unbroken` is this property, and it stays when texts are
joined on a line, when lines that are not empty are stacked, and when blanks are stripped off.
-/

namespace SchemaTypes.Text

/-! ## Lines and their text -/

theorem join_ofList (sep : String) (ls : List (List Char)) :
    join sep (ls.map String.ofList) = String.ofList (List.intercalate sep.toList ls) := by
  induction ls with
  | nil => rfl
  | cons l rest ih =>
    cases rest with
    | nil => simp [join, List.intercalate]
    | cons l' rest =>
      rw [List.map_cons, List.map_cons, join_cons_cons, ← List.map_cons, ih,
        List.intercalate_cons_cons, String.ofList_append, String.ofList_append,
        String.ofList_toList]

/-- A text is made of its lines. -/
theorem unlines_lines (text : String) : unlines (lines text) = text := by
  unfold unlines lines
  rw [join_ofList]
  exact (congrArg String.ofList (intercalate_fields '\n' text.toList)).trans String.ofList_toList

/-- An empty margin changes nothing. -/
theorem hang_empty (text : String) : hang "" text = text := by
  have hlines := unlines_lines text
  unfold hang
  split
  · next h =>
    rw [h] at hlines
    exact hlines
  · next first others h =>
    have hothers : others.map ("" ++ ·) = others := by simp
    rw [hothers, ← h, hlines]

/-- Behind a text that starts with a pattern stands what follows the pattern. -/
theorem after?_append (pattern rest : String) : after? pattern (pattern ++ rest) = some rest := by
  unfold after?
  have hlist : afterList? pattern.toList (pattern ++ rest).toList = some rest.toList := by
    rw [String.toList_append]
    cases hcs : pattern.toList ++ rest.toList with
    | nil =>
      obtain ⟨hpattern, hrest⟩ := List.append_eq_nil_iff.mp hcs
      rw [afterList?, hpattern, hrest, if_pos rfl]
    | cons c cs =>
      rw [afterList?, ← hcs, if_pos (by simp), List.drop_left]
  rw [hlist, Option.map_some, String.ofList_toList]

/-! ## Splitting -/

/-- The stretches of a list between the occurrences of a separator, if the list starts inside or
behind an occurrence: `skip` items are still to be dropped. -/
def splitFrom {α : Type} [DecidableEq α] (sep : List α) : Nat → List α → List (List α)
  | _, [] => [[]]
  | skip + 1, _ :: rest => splitFrom sep skip rest
  | 0, a :: rest =>
    if sep.isPrefixOf (a :: rest) then
      [] :: splitFrom sep (sep.length - 1) rest
    else
      match splitFrom sep 0 rest with
      | [] => [[a]]
      | first :: others => (a :: first) :: others

/-- The texts between the occurrences of a separator, from left to right. -/
def split (sep text : String) : List String :=
  (splitFrom sep.toList 0 text.toList).map String.ofList

/-! ## Lists without empty lines -/

/-- Two characters are not both line feeds. -/
def NotFeeds (c d : Char) : Prop := ¬ (c = '\n' ∧ d = '\n')

/-- A list of characters without empty lines that does not end with a line feed. -/
structure Closed (cs : List Char) : Prop where
  chain : cs.IsChain NotFeeds
  last : cs.getLast? ≠ some '\n'

theorem Closed.tail {c : Char} {cs : List Char} (h : Closed (c :: cs)) : Closed cs := by
  refine ⟨h.chain.tail, fun hlast => h.last ?_⟩
  cases cs with
  | nil => cases hlast
  | cons d rest => rwa [List.getLast?_cons_cons]

/-- No blank line starts at an item of a list that is closed, whatever follows. -/
theorem isPrefixOf_append_of_closed {c : Char} {cs : List Char} (h : Closed (c :: cs))
    (rest : List Char) : ['\n', '\n'].isPrefixOf (c :: (cs ++ rest)) = false := by
  cases cs with
  | nil =>
    have hc : c ≠ '\n' := fun hc => h.last (by rw [hc]; rfl)
    simp [List.isPrefixOf, Ne.symm hc]
  | cons d cs =>
    have hcd : NotFeeds c d := (List.isChain_cons_cons.mp h.chain).1
    unfold NotFeeds at hcd
    simp only [List.cons_append, List.isPrefixOf, Bool.and_eq_false_iff, beq_eq_false_iff_ne]
    grind

/-- A list that is closed is the first stretch in front of a blank line. -/
theorem splitFrom_append {cs : List Char} (h : Closed cs) (rest : List Char) :
    splitFrom ['\n', '\n'] 0 (cs ++ ('\n' :: '\n' :: rest)) =
      cs :: splitFrom ['\n', '\n'] 0 rest := by
  induction cs with
  | nil => rfl
  | cons c cs ih =>
    have hmiss := isPrefixOf_append_of_closed h ('\n' :: '\n' :: rest)
    rw [List.cons_append, splitFrom, if_neg (by rw [hmiss]; decide), ih h.tail]

theorem splitFrom_self {cs : List Char} (h : Closed cs) :
    splitFrom ['\n', '\n'] 0 cs = [cs] := by
  induction cs with
  | nil => rfl
  | cons c cs ih =>
    have hmiss := isPrefixOf_append_of_closed h []
    rw [List.append_nil] at hmiss
    rw [splitFrom, if_neg (by rw [hmiss]; decide), ih h.tail]

/-- The first line is empty only if there is nothing else on it. -/
theorem eq_nil_or_head?_of_fields {cs : List Char} {others : List (List Char)}
    (h : fields '\n' cs = [] :: others) : cs = [] ∨ cs.head? = some '\n' := by
  cases cs with
  | nil => exact .inl rfl
  | cons c cs =>
    unfold fields at h
    split at h
    · next hc => exact .inr (by rw [hc]; rfl)
    · split at h <;> cases h

/-- Only the first line of a list that is closed can be empty. -/
theorem nil_not_mem_tail_fields {cs : List Char} (h : Closed cs) : [] ∉ (fields '\n' cs).tail := by
  induction cs with
  | nil => simp [fields]
  | cons c cs ih =>
    have hrest := ih h.tail
    cases hfields : fields '\n' cs with
    | nil => exact absurd hfields (fields_ne_nil _ _)
    | cons first others =>
      rw [hfields] at hrest
      by_cases hc : c = '\n'
      · -- the line behind a line feed is empty at the end, or in front of another line feed
        subst hc
        rw [fields, if_pos rfl, hfields, List.tail_cons, List.mem_cons, not_or]
        refine ⟨?_, hrest⟩
        rintro rfl
        rcases eq_nil_or_head?_of_fields hfields with rfl | hhead
        · exact h.last rfl
        · exact h.chain.rel_head? hhead ⟨rfl, rfl⟩
      · rw [fields, if_neg hc, hfields]
        exact hrest

/-! ## Unbroken texts -/

/-- A text without empty lines, unless it is empty itself. -/
structure Unbroken (t : String) : Prop where
  closed : Closed t.toList
  first : t.toList.head? ≠ some '\n'

theorem unbroken_empty : Unbroken "" :=
  ⟨⟨.nil, nofun⟩, nofun⟩

theorem unbroken_of_oneLine {t : String} (h : OneLine t) : Unbroken t := by
  have hchain : ∀ cs : List Char, '\n' ∉ cs → cs.IsChain NotFeeds := by
    intro cs hcs
    induction cs with
    | nil => exact .nil
    | cons c cs ih =>
      obtain ⟨hc, hcs⟩ := not_or.mp (mt List.mem_cons.mpr hcs)
      exact (ih hcs).cons fun _ _ hfeeds => hc hfeeds.1.symm
  exact ⟨⟨hchain _ h, fun hlast => h (List.mem_of_getLast? hlast)⟩,
    fun hhead => h (List.mem_of_head? hhead)⟩

/-- A text that is not empty has no empty line if it is unbroken. -/
theorem Unbroken.empty_not_mem_lines {t : String} (h : Unbroken t) (hne : t ≠ "") :
    "" ∉ lines t := by
  intro hmem
  obtain ⟨line, hline, hempty⟩ := List.mem_map.mp hmem
  obtain rfl : line = [] := by simpa using congrArg String.toList hempty
  cases hfields : fields '\n' t.toList with
  | nil => exact fields_ne_nil _ _ hfields
  | cons first others =>
    have hothers := nil_not_mem_tail_fields h.closed
    rw [hfields] at hline hothers
    rcases List.mem_cons.mp hline with rfl | hline
    · rcases eq_nil_or_head?_of_fields hfields with hnil | hhead
      · exact hne (by simpa using hnil)
      · exact h.first hhead
    · exact hothers hline

/-- Two lists in a row are closed if they do not meet with two line feeds. -/
theorem Closed.append {cs ds : List Char} (hcs : cs.IsChain NotFeeds) (hds : Closed ds)
    (hne : ds ≠ []) (hmeet : cs.getLast? ≠ some '\n' ∨ ds.head? ≠ some '\n') :
    Closed (cs ++ ds) := by
  constructor
  · refine hcs.append hds.chain fun c hc d hd => ?_
    rintro ⟨rfl, rfl⟩
    rcases hmeet with hmeet | hmeet
    · exact hmeet hc
    · exact hmeet hd
  · rw [List.getLast?_append_of_ne_nil _ hne]
    exact hds.last

theorem Unbroken.append {t u : String} (ht : Unbroken t) (hu : Unbroken u) : Unbroken (t ++ u) := by
  by_cases hnil : u.toList = []
  · rw [show u = "" by simpa using hnil, String.append_empty]
    exact ht
  · refine ⟨?_, ?_⟩
    · rw [String.toList_append]
      exact .append ht.closed.chain hu.closed hnil (.inl ht.closed.last)
    · rw [String.toList_append, List.head?_append]
      have hfirst := ht.first
      cases hhead : t.toList.head? with
      | none => exact hu.first
      | some c =>
        rw [hhead] at hfirst
        exact hfirst

/-- Two unbroken texts can be stacked, if neither is empty. -/
theorem Unbroken.stack {t u : String} (ht : Unbroken t) (hu : Unbroken u) (hne : t ≠ "")
    (hne' : u ≠ "") : Unbroken (t ++ "\n" ++ u) := by
  have hnil : t.toList ≠ [] := by simpa using hne
  have hnil' : u.toList ≠ [] := by simpa using hne'
  have hfeed : ['\n'].IsChain NotFeeds := .singleton _
  have hchain : (t.toList ++ ['\n']).IsChain NotFeeds :=
    ht.closed.chain.append hfeed fun c hc d _ hfeeds => ht.closed.last (hfeeds.1 ▸ hc)
  have htext : (t ++ "\n" ++ u).toList = t.toList ++ ['\n'] ++ u.toList := by
    simp
  refine ⟨?_, ?_⟩
  · rw [htext]
    exact .append hchain hu.closed hnil' (.inr hu.first)
  · rw [htext, List.append_assoc, List.head?_append_of_ne_nil _ hnil]
    exact ht.first

/-- Lines that are not empty make an unbroken text. -/
theorem unbroken_unlines {ls : List String} (h : ∀ l ∈ ls, l ≠ "" ∧ OneLine l) :
    Unbroken (unlines ls) ∧ (ls ≠ [] → unlines ls ≠ "") := by
  unfold unlines
  induction ls with
  | nil => exact ⟨unbroken_empty, fun hne => absurd rfl hne⟩
  | cons l rest ih =>
    obtain ⟨hne, hl⟩ := h l List.mem_cons_self
    cases rest with
    | nil => exact ⟨unbroken_of_oneLine hl, fun _ => hne⟩
    | cons l' rest =>
      obtain ⟨hrest, hrestNe⟩ := ih fun u hu => h u (List.mem_cons_of_mem l hu)
      rw [join_cons_cons]
      refine ⟨(unbroken_of_oneLine hl).stack hrest hne (hrestNe (by simp)), fun _ => ?_⟩
      simp [hne]

/-- Unbroken texts are joined on a line. -/
theorem unbroken_join {sep : String} (hsep : OneLine sep) {texts : List String}
    (h : ∀ t ∈ texts, Unbroken t) : Unbroken (join sep texts) := by
  induction texts with
  | nil => exact unbroken_empty
  | cons t rest ih =>
    cases rest with
    | nil => exact h t List.mem_cons_self
    | cons t' rest =>
      rw [join_cons_cons]
      exact ((h t List.mem_cons_self).append (unbroken_of_oneLine hsep)).append
        (ih fun u hu => h u (List.mem_cons_of_mem t hu))

/-- Every line of a text stands on one line, behind a margin too. -/
theorem oneLine_of_mem_indentLines {margin text l : String} (hmargin : OneLine margin)
    (h : l ∈ indentLines margin text) : OneLine l := by
  obtain ⟨line, hline, rfl⟩ := List.mem_map.mp h
  obtain ⟨cs, hcs, rfl⟩ := List.mem_map.mp hline
  exact hmargin.append (lacks_ofList.mpr (not_mem_of_mem_fields _ _ _ hcs))

/-! ## Stripping -/

/-- What is stripped stands in front of what only the blanks at the front are dropped from. -/
theorem stripList_isPrefix (cs : List Char) : stripList cs <+: dropBlank cs := by
  have hback := List.reverse_prefix.mpr
    (List.dropWhile_suffix isBlank : dropBlank (dropBlank cs).reverse <:+ (dropBlank cs).reverse)
  rwa [List.reverse_reverse] at hback

/-- What is stripped stands in the text. -/
theorem strip_isInfix (text : String) : (strip text).toList <:+: text.toList := by
  unfold strip
  rw [String.toList_ofList]
  exact (stripList_isPrefix _).isInfix.trans (List.dropWhile_suffix isBlank).isInfix

theorem head?_dropBlank_ne (cs : List Char) : (dropBlank cs).head? ≠ some '\n' := by
  intro h
  obtain ⟨rest, hrest⟩ := List.head?_eq_some_iff.mp h
  have hblank := not_isBlank_of_dropBlank_eq_cons hrest
  exact absurd hblank (by decide)

/-- A stripped list neither starts nor ends with a line feed. -/
theorem stripList_ends (cs : List Char) :
    (stripList cs).head? ≠ some '\n' ∧ (stripList cs).getLast? ≠ some '\n' := by
  constructor
  · intro h
    obtain ⟨rest, hrest⟩ := List.head?_eq_some_iff.mp h
    obtain ⟨back, hback⟩ := stripList_isPrefix cs
    refine head?_dropBlank_ne cs ?_
    rw [← hback, hrest]
    rfl
  · rw [stripList, List.getLast?_reverse]
    exact head?_dropBlank_ne _

/-- Nothing is stripped off a text between two characters that are not blank. -/
theorem strip_enclosed {t : String} {c d : Char} {cs : List Char} (ht : t.toList = c :: (cs ++ [d]))
    (hc : isBlank c = false) (hd : isBlank d = false) : strip t = t := by
  have hfront : dropBlank (c :: (cs ++ [d])) = c :: (cs ++ [d]) :=
    List.dropWhile_cons_of_neg (by simp [hc])
  have hback : dropBlank (d :: (cs.reverse ++ [c])) = d :: (cs.reverse ++ [c]) :=
    List.dropWhile_cons_of_neg (by simp [hd])
  have hreverse : (c :: (cs ++ [d])).reverse = d :: (cs.reverse ++ [c]) := by simp
  unfold strip stripList
  rw [ht, hfront, hreverse, hback, ← hreverse, List.reverse_reverse, ← ht, String.ofList_toList]

theorem Unbroken.strip {t : String} (h : Unbroken t) : Unbroken (strip t) := by
  obtain ⟨hfirst, hlast⟩ := stripList_ends t.toList
  obtain ⟨back, hback⟩ := stripList_isPrefix t.toList
  have hchain : (dropBlank t.toList).IsChain NotFeeds :=
    h.closed.chain.suffix (List.dropWhile_suffix isBlank)
  rw [← hback] at hchain
  unfold Text.strip
  refine ⟨⟨?_, ?_⟩, ?_⟩ <;> rw [String.toList_ofList]
  · exact hchain.left_of_append
  · exact hlast
  · exact hfirst

/-! ## Paragraphs -/

/-- Unbroken texts that are joined by blank lines are the paragraphs of what they make. -/
theorem split_join {paragraphs : List String} (hne : paragraphs ≠ [])
    (h : ∀ p ∈ paragraphs, Unbroken p) :
    split "\n\n" (join "\n\n" paragraphs) = paragraphs := by
  unfold split
  change List.map String.ofList (splitFrom ['\n', '\n'] 0 _) = _
  induction paragraphs with
  | nil => exact absurd rfl hne
  | cons p rest ih =>
    have hp := (h p List.mem_cons_self).closed
    cases rest with
    | nil =>
      rw [join, splitFrom_self hp]
      simp
    | cons p' rest =>
      have hrest := ih (by simp) fun q hq => h q (List.mem_cons_of_mem p hq)
      have htext : (join "\n\n" (p :: p' :: rest)).toList =
          p.toList ++ '\n' :: '\n' :: (join "\n\n" (p' :: rest)).toList := by
        rw [join_cons_cons]
        simp
      rw [htext, splitFrom_append hp, List.map_cons, hrest, String.ofList_toList]

end SchemaTypes.Text

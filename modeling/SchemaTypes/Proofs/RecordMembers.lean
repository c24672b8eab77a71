import SchemaTypes.Json.Reader
import SchemaTypes.Proofs.Margins
import SchemaTypes.Proofs.Precedence

/-!
# The members of a record

The text of a record tells which properties it has, in which order, and which of them are required.
A member has one line that starts, behind the margin of one level, with its key; the lines of its
comment start with a slash or a blank there, and the lines of its type but for the first one start
with a blank or a closing bracket. So the heads of the members are found among the lines, whatever
stands in comments and in literals. A key is read off the front of its line: a bare name ends where
no identifier goes on, and quotes read back.
-/

namespace SchemaTypes

open Text (OneLine Lacks lines indentLines)

/-! ## Keys -/

namespace Json.Reader

/-- The digits of a control character read back. -/
theorem hex4?_hexDigits : ∀ n < 0x20, ∃ a b d e,
    Text.hexDigits 4 n = [a, b, d, e] ∧ hex4? a b d e = some n := by
  intro n hn
  have hall : ∀ n < 0x20, let digit i := (Text.hexDigits 4 n).getD i '0'
      Text.hexDigits 4 n = [digit 0, digit 1, digit 2, digit 3] ∧
        hex4? (digit 0) (digit 1) (digit 2) (digit 3) = some n := by
    decide
  exact ⟨_, _, _, _, hall n hn⟩

variable (halves : Text.Halves)

/-- A character in quotes is read back. -/
theorem string?_escapeChar (codes : List Nat) (c : Char) (rest : List Char) :
    string? halves codes (escapeChar c ++ rest) = string? halves (c.toNat :: codes) rest := by
  unfold escapeChar
  split
  · next h => rw [h]; rfl
  split
  · next h => rw [h]; rfl
  split
  · next h => rw [h]; rfl
  split
  · next h => rw [h]; rfl
  split
  · next h => rw [h]; rfl
  split
  · next h => rw [h]; rfl
  split
  · next h => rw [h]; rfl
  split
  · next hcontrol =>
    obtain ⟨a, b, d, e, hdigits, hread⟩ := hex4?_hexDigits c.toNat hcontrol
    have hpush : pushCode codes c.toNat = c.toNat :: codes := by
      cases codes with
      | nil => rfl
      | cons high codes => exact if_neg (by omega)
    rw [hdigits, string?.eq_def]
    simp only [List.cons_append, List.nil_append, Char.reduceEq, if_true, if_false, hread]
    exact congrArg (string? halves · rest) hpush
  · next hquote hbackslash _ _ _ _ _ hprintable =>
    rw [List.singleton_append, string?.eq_def]
    dsimp only
    rw [if_neg hquote, if_neg hbackslash, if_neg hprintable]

/-- The codes of characters are those of the characters. -/
theorem textOf_reverse (cs : List Char) :
    textOf halves (cs.map Char.toNat).reverse = String.ofList cs := by
  have hchar : charOf halves ∘ Char.toNat = id := by
    funext c
    have hvalid : c.toNat < 0xD800 ∨ 0xDFFF < c.toNat ∧ c.toNat < 0x110000 := c.valid
    have hcharacter : Text.isSurrogate c.toNat = false := by
      simp only [Text.isSurrogate, Bool.and_eq_false_iff, decide_eq_false_iff_not]
      omega
    change charOf halves c.toNat = c
    rw [charOf, hcharacter, if_neg Bool.false_ne_true, Char.ofNat_toNat]
  unfold textOf
  rw [List.reverse_reverse, List.map_map, hchar, List.map_id]

/-- A text in quotes is read back, whatever stands behind it. -/
theorem string?_quoteList (cs rest : List Char) :
    string? halves [] (cs.flatMap escapeChar ++ '"' :: rest) = some (String.ofList cs, rest) := by
  have hcodes : ∀ (cs : List Char) (codes : List Nat),
      string? halves codes (cs.flatMap escapeChar ++ '"' :: rest) =
        some (textOf halves ((cs.map Char.toNat).reverse ++ codes), rest) := by
    intro cs
    induction cs with
    | nil =>
      intro codes
      rw [List.flatMap_nil, List.nil_append, string?.eq_def]
      rfl
    | cons c cs ih =>
      intro codes
      rw [List.flatMap_cons, List.append_assoc, string?_escapeChar, ih]
      simp
  rw [hcodes cs [], List.append_nil, textOf_reverse]

end Json.Reader

namespace Json

/-- Quotes read back, so different texts in quotes differ, and none goes on as another one. -/
theorem quote_append_inj {s s' : String} {r r' : List Char}
    (h : (quote s).toList ++ r = (quote s').toList ++ r') : s = s' ∧ r = r' := by
  have hquote : ∀ (s : String) (r : List Char), (quote s).toList ++ r =
      '"' :: (s.toList.flatMap escapeChar ++ '"' :: r) := by
    intro s r
    unfold quote quoteList
    rw [String.toList_ofList]
    simp
  rw [hquote, hquote] at h
  have hread := congrArg (Reader.string? (Text.Halves.block 0) []) (List.cons.inj h).2
  rw [Reader.string?_quoteList, Reader.string?_quoteList] at hread
  obtain ⟨hs, hr⟩ := Prod.mk.inj (Option.some.inj hread)
  rw [String.ofList_toList, String.ofList_toList] at hs
  exact ⟨hs, hr⟩

end Json

namespace Expression

open Schema (Node Property)
open Reference (displayNameOf)

/-- All characters of an identifier are parts of it, and the first one can start it. -/
theorem exists_of_isIdentifier {name : String} (h : isIdentifier name = true) :
    (∃ c cs, name.toList = c :: cs ∧ isIdentifierStart c = true) ∧
      ∀ c ∈ name.toList, isIdentifierPart c = true := by
  unfold isIdentifier at h
  split at h
  · cases h
  · next c cs hname =>
    obtain ⟨hfirst, hothers⟩ := Bool.and_eq_true_iff.mp h
    refine ⟨⟨c, cs, hname, hfirst⟩, ?_⟩
    rw [hname]
    intro d hd
    rcases List.mem_cons.mp hd with rfl | hd
    · unfold isIdentifierPart
      rw [hfirst, Bool.true_or]
    · exact List.all_eq_true.mp hothers d hd

/-- What stands in front of other identifier parts is determined, if nothing that goes on an
identifier follows. -/
theorem isIdentifier_append_inj {name name' : String} {r r' : List Char}
    (hname : isIdentifier name = true) (hname' : isIdentifier name' = true)
    (hr : ∀ c ∈ r.head?, isIdentifierPart c = false)
    (hr' : ∀ c ∈ r'.head?, isIdentifierPart c = false)
    (h : name.toList ++ r = name'.toList ++ r') : name = name' ∧ r = r' := by
  have htake : ∀ {name : String} {r : List Char}, isIdentifier name = true →
      (∀ c ∈ r.head?, isIdentifierPart c = false) →
        (name.toList ++ r).takeWhile isIdentifierPart = name.toList := by
    intro name r hname hr
    rw [List.takeWhile_append_of_pos (exists_of_isIdentifier hname).2]
    cases r with
    | nil => rw [List.takeWhile_nil, List.append_nil]
    | cons c cs =>
      rw [List.takeWhile_cons_of_neg (by rw [hr c rfl]; exact Bool.false_ne_true), List.append_nil]
  have hsame : name.toList = name'.toList := by
    rw [← htake hname hr, h, htake hname' hr']
  refine ⟨String.toList_inj.mp hsame, ?_⟩
  rw [hsame] at h
  exact List.append_cancel_left h

/-- A key starts with a quote or like an identifier. -/
theorem exists_of_propertyKey (name : String) :
    ∃ c cs, (propertyKey name).toList = c :: cs ∧ (c = '"' ∨ isIdentifierStart c = true) := by
  unfold propertyKey
  split
  · next hname =>
    obtain ⟨⟨c, cs, hcs, hstart⟩, -⟩ := exists_of_isIdentifier hname
    exact ⟨c, cs, hcs, Or.inr hstart⟩
  · refine ⟨'"', name.toList.flatMap Json.escapeChar ++ ['"'], ?_, Or.inl rfl⟩
    unfold Json.quote Json.quoteList
    rw [String.toList_ofList, List.cons_append]

/-- Different names have different keys, and none goes on as another one. -/
theorem propertyKey_append_inj {name name' : String} {r r' : List Char}
    (hr : ∀ c ∈ r.head?, isIdentifierPart c = false)
    (hr' : ∀ c ∈ r'.head?, isIdentifierPart c = false)
    (h : (propertyKey name).toList ++ r = (propertyKey name').toList ++ r') :
    name = name' ∧ r = r' := by
  have hmixed : ∀ {name name' : String} {r r' : List Char}, isIdentifier name = true →
      name.toList ++ r ≠ (Json.quote name').toList ++ r' := by
    intro name name' r r' hname heq
    obtain ⟨⟨c, cs, hcs, hstart⟩, -⟩ := exists_of_isIdentifier hname
    rw [hcs] at heq
    unfold Json.quote Json.quoteList at heq
    rw [String.toList_ofList] at heq
    obtain rfl : c = '"' := (List.cons.inj heq).1
    cases hstart
  unfold propertyKey at h
  by_cases hname : isIdentifier name = true
  · by_cases hname' : isIdentifier name' = true
    · rw [if_pos hname, if_pos hname'] at h
      exact isIdentifier_append_inj hname hname' hr hr' h
    · rw [if_pos hname, if_neg hname'] at h
      exact absurd h (hmixed hname)
  · by_cases hname' : isIdentifier name' = true
    · rw [if_neg hname, if_pos hname'] at h
      exact absurd h.symm (hmixed hname')
    · rw [if_neg hname, if_neg hname'] at h
      exact Json.quote_append_inj h

/-- What a member starts with: its key and its mark. -/
def heading (p : Property) : String :=
  propertyKey p.name ++ (if p.required then "" else "?") ++ ": "

/-- A heading tells the name of a property, and whether it is required. -/
theorem heading_append_inj {p p' : Property} {rest rest' : String}
    (h : heading p ++ rest = heading p' ++ rest') :
    p.name = p'.name ∧ p.required = p'.required := by
  have hlist : ∀ (p : Property) (rest : String), (heading p ++ rest).toList =
      (propertyKey p.name).toList ++
        ((if p.required then "" else "?").toList ++ (':' :: ' ' :: rest.toList)) := by
    intro p rest
    unfold heading
    simp only [String.toList_append, List.append_assoc]
    rfl
  have hmark : ∀ (p : Property) (rest : String),
      ((if p.required then "" else "?").toList ++ (':' :: ' ' :: rest.toList)).head? =
        some (if p.required then ':' else '?') := by
    intro p rest
    cases p.required <;> rfl
  have hend : ∀ (p : Property) (rest : String), ∀ c ∈ ((if p.required then "" else "?").toList ++
      (':' :: ' ' :: rest.toList)).head?, isIdentifierPart c = false := by
    intro p rest c hc
    rw [hmark] at hc
    rw [← Option.some.inj hc]
    cases p.required <;> decide
  have hsame := congrArg String.toList h
  rw [hlist, hlist] at hsame
  -- A name ends where no identifier can go on: at the mark, or at the colon.
  obtain ⟨hname, hrest⟩ := propertyKey_append_inj (hend p rest) (hend p' rest') hsame
  refine ⟨hname, ?_⟩
  have hhead := congrArg List.head? hrest
  rw [hmark, hmark] at hhead
  cases hp : p.required <;> cases hp' : p'.required
  · rfl
  · rw [hp, hp'] at hhead
    cases hhead
  · rw [hp, hp'] at hhead
    cases hhead
  · rfl

/-! ## Lines behind the first one -/

/-- Whether a line is set in or starts with a closing bracket. -/
def trails (line : String) : Bool :=
  match line.toList with
  | ' ' :: ' ' :: _ => true
  | '\x7d' :: _ => true
  | ']' :: _ => true
  | _ => false

theorem trails_append {l : String} (h : trails l = true) (m : String) : trails (l ++ m) = true := by
  unfold trails at h ⊢
  rw [String.toList_append]
  split at h
  · next heq => rw [heq]; rfl
  · next heq => rw [heq]; rfl
  · next heq => rw [heq]; rfl
  · cases h

/-- All lines of a text but the first one are set in or start with a closing bracket. -/
def Trailing (text : String) : Prop :=
  ∀ l ∈ (lines text).tail, trails l = true

theorem trailing_of_oneLine {t : String} (h : OneLine t) : Trailing t := by
  unfold Trailing
  rw [Text.lines_of_oneLine h]
  exact nofun

theorem Trailing.append {t u : String} (ht : Trailing t) (hu : Trailing u) : Trailing (t ++ u) := by
  have hne : lines t ≠ [] ∧ lines u ≠ [] := by
    unfold lines
    simp [Text.fields_ne_nil]
  obtain ⟨front, l, hfront⟩ := List.eq_nil_or_concat' (lines t) |>.resolve_left hne.1
  obtain ⟨first, rest, hrest⟩ := List.exists_cons_of_ne_nil hne.2
  unfold Trailing at ht hu ⊢
  rw [hfront] at ht
  rw [hrest] at hu
  rw [Text.lines_append hfront hrest]
  cases front with
  | nil => exact hu
  | cons f front =>
    intro m hm
    rcases List.mem_append.mp hm with hm | hm
    · exact ht m (List.mem_append_left _ hm)
    · rcases List.mem_cons.mp hm with rfl | hm
      · exact trails_append (ht l (List.mem_append_right _ (List.mem_singleton.mpr rfl))) first
      · exact hu m hm

theorem CodePiece.oneLine {t : String} (h : CodePiece OneLine t) : OneLine t := by
  cases h with
  | name hname => exact hname
  | value v => exact v.oneLine_text
  | key name =>
    unfold propertyKey
    split
    · next hname => exact lacks_of_isIdentifier hname (by decide)
    · exact Json.oneLine_quote name
  | sign ht =>
    have hsigns : ∀ t ∈ signs, OneLine t := by decide
    exact hsigns t ht

/-- A line behind the margin of one level. -/
def SetIn (l : String) : Prop :=
  ∃ rest, l = "  " ++ rest ∧ OneLine rest

theorem setIn_of_mem_indentLines {text l : String} (h : l ∈ indentLines "  " text) : SetIn l := by
  obtain ⟨rest, hrest, rfl⟩ := List.mem_map.mp h
  exact ⟨rest, rfl, Text.oneLine_of_mem_lines hrest⟩

/-- The lines of a block are its brackets and the lines between them. -/
theorem lines_block {o c : String} (hbrackets : IsBrackets o c) {ls : List String}
    (h : ∀ l ∈ ls, SetIn l) : lines (block o c ls) = o :: ls ++ [c] := by
  have hsigns : OneLine o ∧ OneLine c := by
    rcases hbrackets with ⟨rfl, rfl⟩ | ⟨rfl, rfl⟩
    · decide
    · decide
  refine Text.lines_unlines (by simp) ?_
  intro l hl
  rcases List.mem_append.mp hl with hl | hl
  · rcases List.mem_cons.mp hl with rfl | hl
    · exact hsigns.1
    · obtain ⟨rest, rfl, hrest⟩ := h l hl
      exact Lacks.append (by decide) hrest
  · rw [List.mem_singleton.mp hl]
    exact hsigns.2

/-- Trailing is kept by everything that is done to write a type expression. -/
theorem trailing_closed :
    ClosedUnderWriting (fun _ : Unit => "  ") OneLine (fun F => Trailing (F ()))
      (fun L => ∀ l ∈ L (), SetIn l) where
  piece := fun t ht => trailing_of_oneLine ht.oneLine
  append := fun F G hF hG => hF.append hG
  bar := fun F _ i j => rfl
  nil := nofun
  more := fun L L' hL hL' => List.forall_mem_append.mpr ⟨hL, hL'⟩
  entry := fun comment F _ _ l hl => setIn_of_mem_indentLines hl
  block := by
    intro o c hbrackets L hL
    unfold Trailing
    rw [lines_block hbrackets hL]
    intro l hl
    rcases List.mem_append.mp hl with hl | hl
    · obtain ⟨rest, rfl, -⟩ := hL l hl
      unfold trails
      rw [String.toList_append]
      rfl
    · rw [List.mem_singleton.mp hl]
      rcases hbrackets with ⟨-, rfl⟩ | ⟨-, rfl⟩
      · decide
      · decide

section Records

variable {s : Scope} {underWay : String → Bool} {met : List Json}

theorem withMargin_of_indent {margin : String} (h : s.settings.indent = .ok margin) :
    s.withMargin margin = s := by
  unfold Scope.withMargin
  rw [← h]

theorem trailing_ofTree (hindent : s.settings.indent = .ok "  ") {bound : Nat}
    {inlining : List String} {node : Node} {text : String}
    (hrun : (ofTree s bound inlining node).observe underWay = (met, .ok text))
    (hnames : Named OneLine met) : Trailing text := by
  obtain ⟨F, hF, hall⟩ := trailing_closed.varies_ofTree s bound inlining node met text hrun hnames
  have hsame := hall ()
  rw [withMargin_of_indent hindent, hrun] at hsame
  rw [Except.ok.inj (congrArg Prod.snd hsame)]
  exact hF

/-! ## Heads -/

/-- Whether a line is the head of a member: behind the margin of one level, neither a blank nor a
slash nor a closing bracket. -/
def isHead (line : String) : Bool :=
  match line.toList with
  | ' ' :: ' ' :: c :: _ => c ∉ [' ', '/', '\x7d', ']']
  | _ => false

/-- The heads among the lines of a text. -/
def heads (text : String) : List String :=
  (lines text).filter isHead

theorem isHead_heading (p : Property) (rest : String) :
    isHead ("  " ++ (heading p ++ rest)) = true := by
  obtain ⟨c, cs, hcs, hstart⟩ := exists_of_propertyKey p.name
  have hc : c ∉ [' ', '/', '\x7d', ']'] := by
    rcases hstart with rfl | hstart
    · decide
    · intro hmem
      simp only [List.mem_cons, List.not_mem_nil, or_false] at hmem
      rcases hmem with rfl | rfl | rfl | rfl <;> exact absurd hstart (by decide)
  have hlist : ("  " ++ (heading p ++ rest)).toList = ' ' :: ' ' :: c :: (cs ++
      ((if p.required then "" else "?").toList ++ (": ".toList ++ rest.toList))) := by
    unfold heading
    simp only [String.toList_append, List.append_assoc, hcs]
    rfl
  unfold isHead
  rw [hlist]
  exact decide_eq_true hc

theorem isHead_of_trails {l : String} (h : trails l = true) : isHead ("  " ++ l) = false := by
  unfold trails at h
  unfold isHead
  rw [String.toList_append]
  split at h
  · next heq => rw [heq]; rfl
  · next heq => rw [heq]; rfl
  · next heq => rw [heq]; rfl
  · cases h

theorem isHead_of_isCommentLine {l : String} (h : isCommentLine l = true) :
    isHead ("  " ++ l) = false := by
  unfold isCommentLine at h
  unfold isHead
  rw [String.toList_append]
  split at h
  · next heq => rw [heq]; rfl
  · next heq => rw [heq]; rfl
  · cases h

/-- What the line of a member looks like that starts with its key. -/
def IsHeadOf (p : Property) (line : String) : Prop :=
  ∃ rest, line = "  " ++ (heading p ++ rest)

/-- The lines of a member are set in, and one of them is a head. -/
structure IsMember (p : Property) (ls : List String) : Prop where
  setIn : ∀ l ∈ ls, SetIn l
  exists_head : ∃ head, IsHeadOf p head ∧ ls.filter isHead = [head]

theorem isMember_indentLines {p : Property} {comment text : String} (hcomment : IsComment comment)
    (htext : Trailing text) :
    IsMember p (indentLines "  " (comment ++ (heading p ++ text))) := by
  refine ⟨fun l hl => setIn_of_mem_indentLines hl, ?_⟩
  obtain ⟨ks, hks, hmarked⟩ := hcomment.exists_lines
  obtain ⟨first, rest, hlines⟩ := List.exists_cons_of_ne_nil
    (show lines text ≠ [] by unfold lines; simp [Text.fields_ne_nil])
  have hheading : OneLine (heading p) := by
    have hkey : OneLine (propertyKey p.name) := CodePiece.oneLine (.key p.name)
    unfold heading
    exact (hkey.append (by split <;> decide)).append (by decide)
  have halone : lines (heading p) = [] ++ [heading p] := Text.lines_of_oneLine hheading
  have hmember : lines (heading p ++ text) = (heading p ++ first) :: rest :=
    Text.lines_append halone hlines
  have hall : lines (comment ++ (heading p ++ text)) = ks ++ (heading p ++ first) :: rest := by
    rw [Text.lines_append hks hmember, String.empty_append]
  have hcomments : (ks.map ("  " ++ ·)).filter isHead = [] := by
    rw [List.filter_eq_nil_iff]
    intro l hl
    obtain ⟨k, hk, rfl⟩ := List.mem_map.mp hl
    rw [isHead_of_isCommentLine (hmarked k hk)]
    exact Bool.false_ne_true
  have hrest : (rest.map ("  " ++ ·)).filter isHead = [] := by
    rw [List.filter_eq_nil_iff]
    intro l hl
    obtain ⟨k, hk, rfl⟩ := List.mem_map.mp hl
    have htrails : trails k = true := htext k (by rw [hlines]; exact hk)
    rw [isHead_of_trails htrails]
    exact Bool.false_ne_true
  refine ⟨"  " ++ (heading p ++ first), ⟨first, rfl⟩, ?_⟩
  unfold indentLines
  rw [hall, List.map_append, List.map_cons, List.filter_append, hcomments, List.nil_append,
    List.filter_cons_of_pos (isHead_heading p first), hrest]

/-- A property is written as a member. -/
theorem isMember_ofProperty (hindent : s.settings.indent = .ok "  ") {bound : Nat}
    {inlining : List String} {p : Property} {ls : List String}
    (hrun : (ofProperty s (ofReference s (ofTree s bound) inlining) p).observe underWay =
      (met, .ok ls)) (hnames : Named OneLine met) : IsMember p ls := by
  obtain ⟨comment, text, hcomment, htext, hlines⟩ := observe_ofProperty_eq_ok.mp hrun
  have htype : (ofTree s (bound + 1) inlining p.type).observe underWay = (met, .ok text) := htext
  have htrailing : Trailing (text ++ ";") :=
    (trailing_ofTree hindent htype hnames).append (trailing_of_oneLine (by decide))
  obtain rfl : indentLines "  " (comment ++ propertyKey p.name ++
      (if p.required then "" else "?") ++ ": " ++ text ++ ";") = ls := by
    unfold Scope.indented at hlines
    rw [hindent] at hlines
    exact Except.ok.inj hlines
  have hassoc : comment ++ propertyKey p.name ++ (if p.required then "" else "?") ++ ": " ++
      text ++ ";" = comment ++ (heading p ++ (text ++ ";")) := by
    unfold heading
    simp only [String.append_assoc]
  rw [hassoc]
  exact isMember_indentLines (isComment_of_commentOf hcomment) htrailing

/-- The lines of members are set in, and among them there is one head for each member. -/
theorem heads_of_members {properties : List Property} {members : List (List String)}
    (h : List.Forall₂ IsMember properties members) :
    (∀ l ∈ members.flatMap id, SetIn l) ∧
      List.Forall₂ IsHeadOf properties ((members.flatMap id).filter isHead) := by
  induction h with
  | nil => exact ⟨nofun, .nil⟩
  | @cons p ls properties members hone _ ih =>
    obtain ⟨hsetIn, hheads⟩ := ih
    obtain ⟨head, hhead, hfilter⟩ := hone.exists_head
    have hcons : (ls :: members).flatMap id = ls ++ members.flatMap id := List.flatMap_cons
    rw [hcons, List.filter_append, hfilter]
    exact ⟨List.forall_mem_append.mpr ⟨hone.setIn, hsetIn⟩, .cons hhead hheads⟩

/-- The heads of a record are those of its properties, in order. -/
theorem heads_record (hindent : s.settings.indent = .ok "  ") {bound : Nat}
    {inlining : List String} {info : Schema.Info} {properties : List Property}
    {required : List Json} {text : String}
    (hrun : (ofTree s (bound + 1) inlining (.record info properties required)).observe underWay =
      (met, .ok text)) (hnames : Named OneLine met) :
    List.Forall₂ IsHeadOf properties (heads text) := by
  rw [ofTree, ofNode_record] at hrun
  split at hrun
  · next hempty =>
    obtain ⟨-, rfl⟩ := Rendering.observe_pure_eq_ok.mp hrun
    rw [hempty]
    exact .nil
  · obtain ⟨ls, hls, rfl⟩ := Rendering.observe_map_eq_ok.mp hrun
    have hone : ∀ p ∈ properties, ∀ m ts,
        (ofProperty s (ofReference s (ofTree s bound) inlining) p).observe underWay = (m, .ok ts) →
          Named OneLine m → ∃ member, IsMember p member ∧ id member = ts :=
      fun p _ m ts hrun hm => ⟨ts, isMember_ofProperty hindent hrun hm, rfl⟩
    obtain ⟨members, hmembers, rfl⟩ := exists_of_collect hone hls hnames
    obtain ⟨hsetIn, hheads⟩ := heads_of_members hmembers
    unfold heads
    rw [lines_block (Or.inl ⟨rfl, rfl⟩) hsetIn, List.cons_append,
      List.filter_cons_of_neg (by decide), List.filter_append,
      List.filter_cons_of_neg (by decide), List.filter_nil, List.append_nil]
    exact hheads

end Records

/-- Properties with the same heads have the same names and are required alike. -/
theorem members_eq_of_heads {ps ps' : List Property} {hs : List String}
    (h : List.Forall₂ IsHeadOf ps hs) (h' : List.Forall₂ IsHeadOf ps' hs) :
    ps.map (fun p => (p.name, p.required)) = ps'.map fun p => (p.name, p.required) := by
  induction h generalizing ps' with
  | nil =>
    cases h'
    rfl
  | cons hone _ ih =>
    cases h' with
    | cons hone' hrest' =>
      obtain ⟨rest, rfl⟩ := hone
      obtain ⟨rest', heq⟩ := hone'
      obtain ⟨hname, hrequired⟩ := heading_append_inj (String.append_right_inj _ |>.mp heq)
      rw [List.map_cons, List.map_cons, ih hrest', hname, hrequired]

/-- If two schemas of records are written as the same text, with the margin of two blanks and with
names without line feeds, then they have properties of the same names, in the same order, and the
same ones are required. -/
theorem ofSchema_record_inj (document schema schema' : Json) (settings : Settings)
    (underWay : String → Bool) (info info' : Schema.Info) (properties properties' : List Property)
    (required required' met met' : List Json) (text : String)
    (hindent : settings.indent = .ok "  ")
    (hroot : Node.ofJson schema "#" = .ok (.record info properties required))
    (hroot' : Node.ofJson schema' "#" = .ok (.record info' properties' required'))
    (hrun : (ofSchema document settings schema).observe underWay = (met, .ok text))
    (hrun' : (ofSchema document settings schema').observe underWay = (met', .ok text))
    (hnames : ∀ target ∈ met ++ met', ∀ name, displayNameOf target = .ok name → OneLine name) :
    properties.map (fun p => (p.name, p.required)) =
      properties'.map fun p => (p.name, p.required) := by
  have hheads : ∀ {schema : Json} {info : Schema.Info} {properties : List Property}
      {required met : List Json}, Node.ofJson schema "#" = .ok (.record info properties required) →
      (ofSchema document settings schema).observe underWay = (met, .ok text) →
      Named OneLine met → List.Forall₂ IsHeadOf properties (heads text) := by
    intro schema info properties required met hroot hrun hmet
    rw [ofSchema_eq_ofTree, hroot] at hrun
    exact heads_record (s := ⟨document, settings⟩) hindent hrun hmet
  obtain ⟨hmet, hmet'⟩ := named_append.mp hnames
  exact members_eq_of_heads (hheads hroot hrun hmet) (hheads hroot' hrun' hmet')

/-- A record of two numbers, one of which lies deeper. The description of the first property and the
name of the second one say what looks like members. -/
def numbersOf (type : String) : Json :=
  .obj [("required", .arr [.str "a\n  b"]), ("properties", .obj [
    ("a", .obj [("type", .str type), ("description", .str "One.\n  c: string;")]),
    ("a\n  b", .obj [("properties", .obj [("d", .obj [("type", .str type)])])])])]

/-- Whether numbers are integers makes no difference to the text, nor to the names and marks. -/
theorem ofSchema_record_inj_numbers :
    ∃ info info' properties properties' required required' text,
      Node.ofJson (numbersOf "integer") "#" = .ok (.record info properties required) ∧
      Node.ofJson (numbersOf "number") "#" = .ok (.record info' properties' required') ∧
      (ofSchema .null {} (numbersOf "integer")).observe (fun _ => false) = ([], .ok text) ∧
      (ofSchema .null {} (numbersOf "number")).observe (fun _ => false) = ([], .ok text) ∧
      text = "\x7b\n  // One.\n  //   c: string;\n  a?: number;\n  // [required]\n" ++
        "  \"a\\n  b\": \x7b\n    d?: number;\n  \x7d;\n\x7d" ∧
      properties.map (fun p => (p.name, p.required)) =
        properties'.map fun p => (p.name, p.required) := by
  have htext : ∀ type ∈ ["integer", "number"],
      ((ofSchema .null {} (numbersOf type)).observe fun _ => false).2.toOption =
        some ("\x7b\n  // One.\n  //   c: string;\n  a?: number;\n  // [required]\n" ++
          "  \"a\\n  b\": \x7b\n    d?: number;\n  \x7d;\n\x7d") := by
    decide +kernel
  have hmet : ∀ type ∈ ["integer", "number"], ∀ met text,
      (ofSchema .null {} (numbersOf type)).observe (fun _ => false) = (met, .ok text) →
        met = [] := by
    intro type htype met text hrun
    simp only [List.mem_cons, List.not_mem_nil, or_false] at htype
    rcases htype with rfl | rfl
    · exact (congrArg Prod.fst hrun).symm
    · exact (congrArg Prod.fst hrun).symm
  obtain ⟨met, hrun⟩ := exists_observe (htext "integer" (by decide))
  obtain ⟨met', hrun'⟩ := exists_observe (htext "number" (by decide))
  obtain rfl := hmet "integer" (by decide) _ _ hrun
  obtain rfl := hmet "number" (by decide) _ _ hrun'
  obtain ⟨info, properties, required, hroot⟩ : ∃ info properties required,
      Node.ofJson (numbersOf "integer") "#" = .ok (.record info properties required) :=
    ⟨_, _, _, rfl⟩
  obtain ⟨info', properties', required', hroot'⟩ : ∃ info properties required,
      Node.ofJson (numbersOf "number") "#" = .ok (.record info properties required) :=
    ⟨_, _, _, rfl⟩
  refine ⟨info, info', properties, properties', required, required', _, hroot, hroot', hrun, hrun',
    rfl, ?_⟩
  exact ofSchema_record_inj .null (numbersOf "integer") (numbersOf "number") {}
    (fun _ => false) info info' properties properties' required required' [] [] _ rfl hroot hroot'
    hrun hrun' nofun

end Expression

end SchemaTypes

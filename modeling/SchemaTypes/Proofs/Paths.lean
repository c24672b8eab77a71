import Mathlib.Data.List.Forall2
import SchemaTypes.Proofs.PercentEncoding
import SchemaTypes.Reference

/-!
# Paths and the references that spell them

A path leads into a document by the names of members and the indices of items. Of a reference that
spells a path, each token may be written in many ways; `Reference.Spells` has all of them.

The target and the display name read a reference in different orders: the target decodes the whole
text and cuts it at its slashes, the display name cuts first. The two agree because a token that is
written holds no slash, neither after decoding (`not_mem_escaped`) nor before it
(`not_mem_of_encodes`).
-/

namespace SchemaTypes

namespace Text

/-! ## Replacing patterns of one character and of two -/

theorem replaceFrom_singleton (a : Char) (new cs : List Char) :
    replaceFrom [a] new 0 cs = cs.flatMap fun c => if c = a then new else [c] := by
  induction cs with
  | nil => rfl
  | cons c cs ih =>
    by_cases h : c = a
    · simp [replaceFrom, h, ih]
    · simp [replaceFrom, h, Ne.symm h, ih]

theorem replaceFrom_pair_hit (a b : Char) (new cs : List Char) :
    replaceFrom [a, b] new 0 (a :: b :: cs) = new ++ replaceFrom [a, b] new 0 cs := by
  simp [replaceFrom]

theorem replaceFrom_pair_miss {a b c : Char} {cs : List Char} (new : List Char)
    (h : c = a → cs.head? ≠ some b) :
    replaceFrom [a, b] new 0 (c :: cs) = c :: replaceFrom [a, b] new 0 cs := by
  have hmiss : [a, b].isPrefixOf (c :: cs) = false := by
    rw [Bool.eq_false_iff, Ne, List.isPrefixOf_iff_prefix, List.cons_prefix_cons]
    rintro ⟨rfl, rest, rfl⟩
    exact h rfl rfl
  simp only [replaceFrom, reduceCtorEq, if_false, hmiss, Bool.false_eq_true]

/-! ## Cutting at a separator -/

/-- The last stretch is what stands behind the last separator. -/
theorem getLast?_fields {α : Type} [DecidableEq α] {sep : α} {back : List α} (h : sep ∉ back)
    (front : List α) : (fields sep (front ++ sep :: back)).getLast? = some back := by
  rw [fields_append_cons, fields_of_not_mem h, List.getLast?_concat]

/-- Parts behind separators are what is cut out again, behind what stood in front. -/
theorem fields_flatMap {α : Type} [DecidableEq α] {sep : α} {l : List α} {parts : List (List α)}
    (h : sep ∉ l) (hparts : ∀ part ∈ parts, sep ∉ part) :
    fields sep (l ++ parts.flatMap (sep :: ·)) = l :: parts := by
  induction parts generalizing l with
  | nil => rw [List.flatMap_nil, List.append_nil, fields_of_not_mem h]
  | cons part parts ih =>
    rw [List.flatMap_cons, List.cons_append, fields_append_cons, fields_of_not_mem h,
      ih (hparts part List.mem_cons_self) fun p hp => hparts p (List.mem_cons_of_mem _ hp)]
    rfl

end Text

namespace Pointer

/-! ## Tokens as they are written -/

/-- A character of a token as it is written. -/
def escapeChar : Char → List Char
  | '~' => ['~', '0']
  | '/' => ['~', '1']
  | c => [c]

theorem escapeChar_of_ne {c : Char} (htilde : c ≠ '~') (hslash : c ≠ '/') : escapeChar c = [c] := by
  unfold escapeChar
  split <;> trivial

/-- A token is written character by character, although all tildes are replaced before the first
slash. -/
theorem toList_escape (token : String) :
    (escape token).toList = token.toList.flatMap escapeChar := by
  unfold escape Text.replace
  simp only [String.toList_ofList]
  change Text.replaceFrom ['/'] ['~', '1'] 0 (Text.replaceFrom ['~'] ['~', '0'] 0 _) = _
  rw [Text.replaceFrom_singleton, Text.replaceFrom_singleton, List.flatMap_assoc]
  congr 1
  funext c
  by_cases htilde : c = '~'
  · subst htilde
    decide
  · by_cases hslash : c = '/'
    · subst hslash
      decide
    · simp [htilde, hslash, escapeChar_of_ne]

theorem not_mem_escapeChar (c : Char) : '/' ∉ escapeChar c := by
  unfold escapeChar
  split <;> simp_all [eq_comm]

theorem not_mem_escaped (cs : List Char) : '/' ∉ cs.flatMap escapeChar := by
  simp only [List.mem_flatMap, not_exists, not_and]
  exact fun c _ => not_mem_escapeChar c

theorem badEscape?_cons_of_ne {c : Char} (h : c ≠ '~') (cs : List Char) :
    badEscape? (c :: cs) = badEscape? cs := by
  cases cs <;> simp [badEscape?, h]

/-- No tilde of a written token is out of place, whatever follows. -/
theorem badEscape?_escaped (cs rest : List Char) :
    badEscape? (cs.flatMap escapeChar ++ rest) = badEscape? rest := by
  induction cs with
  | nil => rfl
  | cons c cs ih =>
    rw [List.flatMap_cons, List.append_assoc]
    unfold escapeChar
    split
    · exact ((if_neg (by decide)).trans (badEscape?_cons_of_ne (by decide) _)).trans ih
    · exact ((if_neg (by decide)).trans (badEscape?_cons_of_ne (by decide) _)).trans ih
    · next htilde _ => exact (badEscape?_cons_of_ne htilde _).trans ih

/-! ## Reading a token -/

/-- The token that a written token stands for, read from the left. -/
def unescapeList : List Char → List Char
  | '~' :: '0' :: cs => '~' :: unescapeList cs
  | '~' :: '1' :: cs => '/' :: unescapeList cs
  | c :: cs => c :: unescapeList cs
  | [] => []

/-- A token is read from the left, although all slashes are put in before the first tilde. -/
theorem toList_unescape (written : String) :
    (unescape written).toList = unescapeList written.toList := by
  unfold unescape Text.replace
  simp only [String.toList_ofList]
  generalize written.toList = cs
  change Text.replaceFrom ['~', '0'] ['~'] 0 (Text.replaceFrom ['~', '1'] ['/'] 0 cs) = _
  fun_induction unescapeList cs with
  | case1 cs ih =>
    have hfirst : Text.replaceFrom ['~', '1'] ['/'] 0 ('~' :: '0' :: cs) =
        '~' :: '0' :: Text.replaceFrom ['~', '1'] ['/'] 0 cs := by
      rw [Text.replaceFrom_pair_miss _ (by simp), Text.replaceFrom_pair_miss _ (by simp)]
    rw [hfirst, Text.replaceFrom_pair_hit, List.singleton_append, ih]
  | case2 cs ih =>
    rw [Text.replaceFrom_pair_hit, List.singleton_append, Text.replaceFrom_pair_miss _ (by simp),
      ih]
  | case3 c cs hzero hone ih =>
    -- What the first pass puts at the head is a slash or was there before.
    have hhead : (Text.replaceFrom ['~', '1'] ['/'] 0 cs).head? = some '0' →
        cs.head? = some '0' := by
      cases cs with
      | nil => exact id
      | cons d ds =>
        by_cases hd : d = '~' ∧ ds.head? = some '1'
        · obtain ⟨rfl, hds⟩ := hd
          obtain ⟨es, rfl⟩ := List.head?_eq_some_iff.1 hds
          rw [Text.replaceFrom_pair_hit]
          simp
        · rw [Text.replaceFrom_pair_miss _ fun h h' => hd ⟨h, h'⟩]
          exact id
    rw [Text.replaceFrom_pair_miss, Text.replaceFrom_pair_miss, ih]
    · intro htilde h
      obtain ⟨ds, rfl⟩ := List.head?_eq_some_iff.1 (hhead h)
      exact hzero ds htilde rfl
    · intro htilde h
      obtain ⟨ds, rfl⟩ := List.head?_eq_some_iff.1 h
      exact hone ds htilde rfl
  | case4 => rfl

theorem unescapeList_cons_of_ne {c : Char} (h : c ≠ '~') (cs : List Char) :
    unescapeList (c :: cs) = c :: unescapeList cs := by
  rw [unescapeList.eq_def]
  split <;> simp_all

/-- Reading undoes writing, whatever follows. -/
theorem unescapeList_escapeChar (c : Char) (rest : List Char) :
    unescapeList (escapeChar c ++ rest) = c :: unescapeList rest := by
  unfold escapeChar
  split
  · rfl
  · rfl
  · next htilde _ => exact unescapeList_cons_of_ne htilde rest

theorem unescapeList_escaped (cs : List Char) : unescapeList (cs.flatMap escapeChar) = cs := by
  induction cs with
  | nil => rfl
  | cons c cs ih => rw [List.flatMap_cons, unescapeList_escapeChar, ih]

/-! ## Paths -/

/-- One step of a path: to the member of an object, or to the item of a list. -/
inductive Token where
  | key (name : String)
  | index (i : Nat)
deriving DecidableEq, Repr

/-- The text of a step. Indices are in decimal. -/
def Token.text : Token → String
  | .key name => name
  | .index i => i.repr

/-- The value that one step leads to. -/
def child? : Json → Token → Option Json
  | .obj members, .key name => members.lookup name
  | .arr items, .index i => items[i]?
  | _, _ => none

/-- The value that a path leads to. -/
def descend? : List Token → Json → Option Json
  | [], v => some v
  | token :: path, v => child? v token >>= descend? path

/-- The digits of a number have no zero in front, unless they are all there is. -/
theorem exists_head_toDigits {n : Nat} (h : 0 < n) :
    ∃ d ds, Nat.toDigits 10 n = d :: ds ∧ d ≠ '0' := by
  have hdigit : ∀ n < 10, 0 < n → n.digitChar ≠ '0' := by decide
  induction n using Nat.strongRecOn with
  | ind n ih =>
    by_cases hn : n < 10
    · exact ⟨n.digitChar, [], Nat.toDigits_of_lt_base hn, hdigit n hn h⟩
    · obtain ⟨d, ds, hds, hd⟩ := ih (n / 10) (by omega) (by omega)
      exact ⟨d, ds ++ [(n % 10).digitChar],
        by rw [Nat.toDigits_of_base_le (by decide) (by omega), hds, List.cons_append], hd⟩

theorem index?_repr (i : Nat) : index? i.repr = some i := by
  have hdigits : ∀ c ∈ Nat.toDigits 10 i, c.isDigit = true := fun c hc =>
    Nat.isDigit_of_mem_toDigits (by decide) (by decide) hc
  have hvalue : Decimal.Numeral.value (Nat.toDigits 10 i) = i := Nat.ofDigitChars_ten_toDigits
  unfold index?
  rw [Nat.toList_repr]
  rcases Nat.eq_zero_or_pos i with rfl | hi
  · rfl
  · obtain ⟨d, ds, hds, hd⟩ := exists_head_toDigits hi
    rw [hds] at hdigits hvalue ⊢
    rw [← List.all_eq_true] at hdigits
    split
    · next heq => exact absurd (List.cons.inj heq).1 hd
    · next heq =>
      rw [← heq, if_pos ⟨by rwa [← (List.cons.inj heq).1], hdigits⟩, hvalue]
    · next heq => exact absurd heq (List.cons_ne_nil d ds)

theorem repr_ne_dash (i : Nat) : i.repr ≠ "-" := by
  intro h
  have hdash : '-' ∈ Nat.toDigits 10 i := by
    rw [← Nat.toList_repr, h]
    decide
  exact absurd (Nat.isDigit_of_mem_toDigits (by decide) (by decide) hdash) (by decide)

/-- One step of a walk takes one step of the path. -/
theorem step_of_child? {v w : Json} {token : Token} (h : child? v token = some w) :
    step token.text (.value v) = .ok (.value w) := by
  cases v <;> cases token <;> simp only [child?, reduceCtorEq] at h
  · simp only [Token.text, step, if_neg (repr_ne_dash _), index?_repr, h]
  · simp only [Token.text, step, h]

theorem walk_of_descend? {path : List Token} {v w : Json} (h : descend? path v = some w) :
    walk (path.map Token.text) (.value v) = .ok (.value w) := by
  induction path generalizing v with
  | nil => exact congrArg (fun u => Except.ok (Place.value u)) (Option.some.inj h)
  | cons token path ih =>
    obtain ⟨u, hchild, hpath⟩ := Option.bind_eq_some_iff.1 h
    simp only [List.map_cons, walk, step_of_child? hchild]
    exact ih hpath

/-- The pointer that a path is written as, in characters. -/
def writtenPath (path : List Token) : List Char :=
  path.flatMap fun token => '/' :: token.text.toList.flatMap escapeChar

theorem badEscape?_writtenPath (path : List Token) : badEscape? (writtenPath path) = none := by
  induction path with
  | nil => rfl
  | cons token path ih =>
    calc badEscape? (writtenPath (token :: path))
        = badEscape? ('/' :: (token.text.toList.flatMap escapeChar ++ writtenPath path)) := rfl
      _ = badEscape? (token.text.toList.flatMap escapeChar ++ writtenPath path) :=
          badEscape?_cons_of_ne (by decide) _
      _ = badEscape? (writtenPath path) := badEscape?_escaped _ _
      _ = none := ih

/-- A written path is cut at the slashes that stand for its steps and at no others. -/
theorem fields_writtenPath (path : List Token) :
    Text.fields '/' (writtenPath path) =
      [] :: path.map fun token => token.text.toList.flatMap escapeChar := by
  have hparts : ∀ part ∈ path.map fun token => token.text.toList.flatMap escapeChar, '/' ∉ part :=
    List.forall_mem_map.2 fun token _ => not_mem_escaped token.text.toList
  have hfields := Text.fields_flatMap List.not_mem_nil hparts
  rwa [List.nil_append, List.flatMap_map] at hfields

/-- Resolving the pointer that is written for a path takes the path. -/
theorem resolve_writtenPath {path : List Token} {document v : Json}
    (h : descend? path document = some v) :
    resolve document (String.ofList (writtenPath path)) = .ok (.value v) := by
  have htokens : (path.map fun token => token.text.toList.flatMap escapeChar).map
      (unescape ∘ String.ofList) = path.map Token.text := by
    rw [List.map_map]
    refine List.map_congr_left fun token _ => ?_
    rw [← String.toList_inj]
    simp only [Function.comp_apply, toList_unescape, String.toList_ofList, unescapeList_escaped]
  unfold resolve
  rw [String.toList_ofList, badEscape?_writtenPath, fields_writtenPath]
  dsimp only
  rw [htokens]
  exact walk_of_descend? h

end Pointer

namespace Text

/-! ## Slashes in encoded text -/

theorem IsHexDigit.ne_slash {n : Nat} {c : Char} (h : IsHexDigit n c) : c ≠ '/' := by
  rintro rfl
  have hvalue := hexValue?_of_isHexDigit h
  rw [show hexValue? '/' = none by decide] at hvalue
  cases hvalue

theorem not_mem_of_writesBytes {bytes : List Nat} {written : List Char}
    (h : WritesBytes bytes written) : '/' ∉ written := by
  induction h with
  | nil => exact List.not_mem_nil
  | cons first second _ ih => simp [first.ne_slash.symm, second.ne_slash.symm, ih]

/-- A text is encoded without a slash if it has none. -/
theorem not_mem_of_encodes {cs ws : List Char} (h : Encodes cs ws) (hslash : '/' ∉ cs) :
    '/' ∉ ws := by
  induction h with
  | nil => exact hslash
  | plain _ _ ih =>
    rw [List.mem_cons, not_or] at hslash ⊢
    exact ⟨hslash.1, ih hslash.2⟩
  | bytes first _ ih =>
    rw [List.mem_cons, not_or] at hslash
    rw [List.mem_append, not_or]
    exact ⟨not_mem_of_writesBytes first, ih hslash.2⟩

theorem Encodes.append {cs ws cs' ws' : List Char} (h : Encodes cs ws) (h' : Encodes cs' ws') :
    Encodes (cs ++ cs') (ws ++ ws') := by
  induction h with
  | nil => exact h'
  | plain ne _ ih => exact .plain ne ih
  | bytes first _ ih =>
    rw [List.append_assoc]
    exact .bytes first ih

end Text

namespace Reference

open Pointer (Token escapeChar descend? writtenPath)

/-! ## References that spell a path -/

/-- The segment encodes the step: its text with the tildes and slashes escaped, and then with any
characters as bytes. -/
def EncodesStep (token : Token) (segment : List Char) : Prop :=
  Text.Encodes (token.text.toList.flatMap escapeChar) segment

/-- The reference is written for the path: a `#` and, for each step, a slash and an encoding of
it. -/
def Spells (reference : String) (path : List Token) : Prop :=
  ∃ segments : List (List Char), reference.toList = '#' :: segments.flatMap ('/' :: ·) ∧
    List.Forall₂ EncodesStep path segments

variable {path : List Token} {segments : List (List Char)}

/-- The steps are encoded one by one, hence as a whole. -/
theorem encodes_writtenPath (h : List.Forall₂ EncodesStep path segments) :
    Text.Encodes (writtenPath path) (segments.flatMap ('/' :: ·)) := by
  induction h with
  | nil => exact .nil
  | cons first _ ih => exact .plain (by decide) (Text.Encodes.append first ih)

/-- The last segment encodes the last step. -/
theorem encodes_getLast (h : List.Forall₂ EncodesStep path segments) {token : Token}
    (hlast : token ∈ path.getLast?) :
    ∃ segment ∈ segments.getLast?, EncodesStep token segment := by
  induction h with
  | nil => cases hlast
  | @cons _ segment _ _ first rest ih =>
    cases rest with
    | nil =>
      obtain rfl := Option.some.inj hlast
      exact ⟨segment, rfl, first⟩
    | cons second rest =>
      rw [List.getLast?_cons_cons] at hlast ⊢
      exact ih hlast

/-! ## Where a reference leads and what it is called -/

/-- What a reference comes to that leads to a value: only objects are schemas. -/
def endingAt (reference : String) : Json → Except Failure Json
  | .obj members => .ok (.obj members)
  | v => .error (.unresolvable reference (.notObject (.value v.kind)))

/-- A reference leads to the place whose path it is written for, once it is decoded. -/
theorem target_of_decoded {document v : Json} {reference : String} {encoded : List Char}
    (hplace : descend? path document = some v) (hreference : reference.toList = '#' :: encoded)
    (hdecoded : Text.percentDecodeList encoded = writtenPath path) :
    target document reference = endingAt reference v := by
  have hencoded : Text.afterStart? "#" reference = some (String.ofList encoded) := by
    unfold Text.afterStart?
    rw [hreference]
    rfl
  unfold target
  rw [hencoded]
  dsimp only
  rw [Text.percentDecode, String.toList_ofList, hdecoded, Pointer.resolve_writtenPath hplace]
  cases v <;> rfl

/-- A reference is called by what stands behind its last slash. -/
theorem toList_displayName {reference : String} {front segment : List Char}
    (hreference : reference.toList = front ++ '/' :: segment) (hslash : '/' ∉ segment) :
    (displayName reference).toList =
      Pointer.unescapeList (Text.percentDecodeList segment) := by
  unfold displayName Text.percentDecode lastSegment
  rw [hreference, List.getLastD_eq_getLast?, Text.getLast?_fields hslash, Pointer.toList_unescape]
  simp only [String.toList_ofList, Option.getD_some]

/-- However a path to a schema object is spelled, the reference leads there and is called by the
text of the last step. -/
theorem target_of_spells {document : Json} {path : List Token} {reference : String}
    {members : List (String × Json)} (hplace : descend? path document = some (.obj members))
    (hspells : Spells reference path) :
    target document reference = .ok (.obj members) ∧
      ∀ token ∈ path.getLast?, displayName reference = token.text := by
  obtain ⟨segments, hreference, hsegments⟩ := hspells
  constructor
  · exact target_of_decoded hplace hreference
      (Text.percentDecodeList_of_encodes (encodes_writtenPath hsegments))
  · intro token hlast
    obtain ⟨segment, hsegment, hencodes⟩ := encodes_getLast hsegments hlast
    obtain ⟨front, rfl⟩ := List.getLast?_eq_some_iff.1 (Option.mem_def.1 hsegment)
    have hslash : '/' ∉ segment := Text.not_mem_of_encodes hencodes (Pointer.not_mem_escaped _)
    rw [List.flatMap_append, List.flatMap_singleton, ← List.cons_append] at hreference
    rw [← String.toList_inj, toList_displayName hreference hslash,
      Text.percentDecodeList_of_encodes hencodes, Pointer.unescapeList_escaped]

/-- Objects and a list with an empty key, a key with a slash and a tilde, and a key that holds an
escape by chance. -/
def oddKeys : Json :=
  .obj [("", .obj [("a/b~c", .arr [.obj [("%41é", .obj [("type", .str "string")])]])])]

/-- The path to the only schema among odd keys. -/
def oddPath : List Token :=
  [.key "", .key "a/b~c", .index 0, .key "%41é"]

/-- A spelling of the path with more characters encoded than have to be, in digits of both cases. -/
def oddSpelling : String :=
  "#//a%7e1b~0%63/%30/%2541%C3%a9"

theorem target_of_spells_odd :
    descend? oddPath oddKeys = some (.obj [("type", .str "string")]) ∧
      Spells oddSpelling oddPath ∧
      target oddKeys oddSpelling = .ok (.obj [("type", .str "string")]) ∧
      displayName oddSpelling = "%41é" := by
  have hslash : Text.Encodes "a~1b~0c".toList "a%7e1b~0%63".toList :=
    .plain (by decide) <| @Text.Encodes.bytes '~' "%7e".toList _ _
      (.cons (by decide) (by decide) .nil) <|
    .plain (by decide) <| .plain (by decide) <| .plain (by decide) <| .plain (by decide) <|
    @Text.Encodes.bytes 'c' "%63".toList _ _ (.cons (by decide) (by decide) .nil) .nil
  have hindex : Text.Encodes "0".toList "%30".toList :=
    @Text.Encodes.bytes '0' "%30".toList _ _ (.cons (by decide) (by decide) .nil) .nil
  have hchance : Text.Encodes "%41é".toList "%2541%C3%a9".toList :=
    @Text.Encodes.bytes '%' "%25".toList _ _ (.cons (by decide) (by decide) .nil) <|
    .plain (by decide) <| .plain (by decide) <|
    @Text.Encodes.bytes 'é' "%C3%a9".toList _ _
      (.cons (by decide) (by decide) (.cons (by decide) (by decide) .nil)) .nil
  have hplace : descend? oddPath oddKeys = some (.obj [("type", .str "string")]) := rfl
  have hspells : Spells oddSpelling oddPath :=
    ⟨["", "a%7e1b~0%63", "%30", "%2541%C3%a9"].map String.toList, by decide,
      .cons .nil (.cons hslash (.cons hindex (.cons hchance .nil)))⟩
  obtain ⟨htarget, hname⟩ := target_of_spells hplace hspells
  exact ⟨hplace, hspells, htarget, hname (.key "%41é") rfl⟩

end Reference

end SchemaTypes

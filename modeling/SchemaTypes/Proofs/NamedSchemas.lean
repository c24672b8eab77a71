import SchemaTypes.Proofs.Paths
import SchemaTypes.Proofs.Tables
import SchemaTypes.TsModule.Basic

/-!
# The pointers to the named schemas of a document

Every named schema has a pointer: the path to the container that holds it first, and its name with
the tildes and slashes escaped. A pointer is read as a percent-encoded text, but the name in it is
not encoded. So it leads back to its schema, and is called by its name, exactly if decoding leaves
the name alone: `TsModule.pointers_lead_back`.

That decoding cannot give the name back if it changes anything is a matter of length: an escape has
three characters and gives one at most, and all other steps keep the length or make it shorter.
-/

namespace SchemaTypes

/-! ## Escaped names that are decoded -/

namespace Text

theorem pieces_percent_of_not_byte {cs : List Char}
    (h : ∀ a b rest, cs = a :: b :: rest → hexByte? a b = none) :
    pieces ('%' :: cs) = .char '%' :: pieces cs := by
  match cs with
  | [] => rfl
  | [_] => rfl
  | a :: b :: rest => simp [pieces, h a b rest rfl]

theorem hexByte?_of_left {a : Char} (h : hexValue? a = none) (b : Char) : hexByte? a b = none := by
  simp [hexByte?, h]

theorem hexByte?_of_right (a : Char) {b : Char} (h : hexValue? b = none) : hexByte? a b = none := by
  unfold hexByte?
  rw [h]
  split <;> simp_all

theorem assemble_chars_append (run : List Nat) {cs : List Char} (h : cs ≠ []) (ps : List Piece) :
    assemble run (cs.map .char ++ ps) = Utf8.decode run.reverse ++ cs ++ assemble [] ps := by
  induction cs generalizing run with
  | nil => exact absurd rfl h
  | cons c cs ih =>
    rw [List.map_cons, List.cons_append, assemble]
    cases cs with
    | nil => simp
    | cons d ds => rw [ih [] (List.cons_ne_nil d ds)]; simp [Utf8.decode]

end Text

namespace Pointer

open Text

theorem hexValue?_tilde : hexValue? '~' = none := by decide

theorem hexValue?_slash : hexValue? '/' = none := by decide

/-- A digit is not escaped. -/
theorem escapeChar_of_hexByte? {a b : Char} {n : Nat} (h : hexByte? a b = some n) :
    escapeChar a = [a] ∧ escapeChar b = [b] := by
  have hplain : ∀ c, hexValue? c ≠ none → escapeChar c = [c] := by
    intro c hc
    refine escapeChar_of_ne ?_ ?_ <;> rintro rfl
    · exact hc hexValue?_tilde
    · exact hc hexValue?_slash
  constructor
  · refine hplain a fun ha => ?_
    rw [hexByte?_of_left ha] at h
    cases h
  · refine hplain b fun hb => ?_
    rw [hexByte?_of_right a hb] at h
    cases h

theorem escapeChar_eq_or (c : Char) :
    escapeChar c = [c] ∨ ∃ d, d ≠ '%' ∧ escapeChar c = ['~', d] := by
  unfold escapeChar
  split
  · exact .inr ⟨'0', by decide, rfl⟩
  · exact .inr ⟨'1', by decide, rfl⟩
  · exact .inl rfl

/-- Escaping makes no byte out of two characters that are none. -/
theorem hexByte?_escaped {cs : List Char}
    (h : ∀ a b rest, cs = a :: b :: rest → hexByte? a b = none) :
    ∀ a b rest, cs.flatMap escapeChar = a :: b :: rest → hexByte? a b = none := by
  intro a b rest heq
  cases cs with
  | nil => cases heq
  | cons c cs =>
    rcases escapeChar_eq_or c with hc | ⟨_, _, hc⟩
    · rw [List.flatMap_cons, hc, List.singleton_append] at heq
      obtain ⟨rfl, htail⟩ := List.cons.inj heq
      cases cs with
      | nil => cases htail
      | cons d cs =>
        rcases escapeChar_eq_or d with hd | ⟨_, _, hd⟩
        · rw [List.flatMap_cons, hd, List.singleton_append] at htail
          obtain ⟨rfl, -⟩ := List.cons.inj htail
          exact h c d cs rfl
        · rw [List.flatMap_cons, hd, List.cons_append] at htail
          obtain ⟨rfl, -⟩ := List.cons.inj htail
          exact hexByte?_of_right c hexValue?_tilde
    · rw [List.flatMap_cons, hc, List.cons_append] at heq
      obtain ⟨rfl, -⟩ := List.cons.inj heq
      exact hexByte?_of_left hexValue?_tilde b

/-- A piece of a name, once the name is escaped. -/
def escapePiece : Piece → List Piece
  | .byte n => [.byte n]
  | .char c => (escapeChar c).map .char

/-- A character that starts no byte is escaped piece by piece. -/
theorem pieces_escapeChar_append {c : Char} {rest : List Char}
    (h : c = '%' → ∀ a b more, rest = a :: b :: more → hexByte? a b = none) :
    pieces (escapeChar c ++ rest) = escapePiece (.char c) ++ pieces rest := by
  change _ = (escapeChar c).map .char ++ pieces rest
  rcases escapeChar_eq_or c with hc | ⟨d, hd, hc⟩
  · rw [hc, List.singleton_append]
    by_cases hpercent : c = '%'
    · subst hpercent
      exact pieces_percent_of_not_byte (h rfl)
    · exact pieces_cons_of_ne hpercent rest
  · rw [hc]
    calc pieces ('~' :: d :: rest)
        = .char '~' :: pieces (d :: rest) := pieces_cons_of_ne (by decide) _
      _ = .char '~' :: .char d :: pieces rest := by rw [pieces_cons_of_ne hd]

/-- Escaping a name escapes its pieces. -/
theorem pieces_escaped (cs : List Char) :
    pieces (cs.flatMap escapeChar) = (pieces cs).flatMap escapePiece := by
  -- Two characters behind a percent sign that are no byte are none after escaping.
  have hmiss : ∀ c rest, (c = '%' → ∀ a b more, rest = a :: b :: more → hexByte? a b = none) →
      pieces ((c :: rest).flatMap escapeChar) =
        escapePiece (.char c) ++ pieces (rest.flatMap escapeChar) := by
    intro c rest h
    rw [List.flatMap_cons]
    exact pieces_escapeChar_append fun hc => hexByte?_escaped (h hc)
  fun_induction pieces cs with
  | case1 => rfl
  | case2 a => exact hmiss a [] (by simp)
  | case3 a b =>
    rw [hmiss a [b] (by simp), hmiss b [] (by simp)]
    rfl
  | case4 a b rest n hbyte ih =>
    obtain ⟨ha, hb⟩ := escapeChar_of_hexByte? hbyte
    have hpercent : escapeChar '%' = ['%'] := rfl
    simp only [List.flatMap_cons, hpercent, ha, hb, List.singleton_append, escapePiece, ← ih]
    simp only [pieces, if_pos, hbyte]
  | case5 a b rest hnone ih =>
    rw [hmiss '%' (a :: b :: rest), ih, List.flatMap_cons]
    rintro - a' b' more heq
    obtain ⟨rfl, rfl, -⟩ : a = a' ∧ b = b' ∧ rest = more := by simpa using heq
    exact hnone
  | case6 c a b rest hne ih =>
    rw [hmiss c (a :: b :: rest) fun hc => absurd hc hne, ih, List.flatMap_cons]

/-! ### Lengths -/

theorem length_unescapeList_cons_le (c : Char) (cs : List Char) :
    (unescapeList (c :: cs)).length ≤ (unescapeList cs).length + 1 := by
  rw [unescapeList.eq_def]
  split
  · next heq =>
    obtain ⟨rfl, rfl⟩ := List.cons.inj heq
    rw [unescapeList_cons_of_ne (by decide)]
    simp
  · next heq =>
    obtain ⟨rfl, rfl⟩ := List.cons.inj heq
    rw [unescapeList_cons_of_ne (by decide)]
    simp
  · next heq =>
    obtain ⟨rfl, rfl⟩ := List.cons.inj heq
    rfl
  · next heq => cases heq

theorem length_unescapeList_append_le (front rest : List Char) :
    (unescapeList (front ++ rest)).length ≤ front.length + (unescapeList rest).length := by
  induction front with
  | nil => simp
  | cons c front ih =>
    have hcons := length_unescapeList_cons_le c (front ++ rest)
    simp only [List.cons_append, List.length_cons]
    omega

/-- What is read of an escaped name has a character for each piece of the name at most. -/
theorem length_unescapeList_assemble_le (run : List Nat) (ps : List Piece) :
    (unescapeList (assemble run (ps.flatMap escapePiece))).length ≤ run.length + ps.length := by
  induction ps generalizing run with
  | nil =>
    have happend := length_unescapeList_append_le (Utf8.decode run.reverse) []
    have hdecode := Utf8.length_decode_le run.reverse
    rw [List.append_nil] at happend
    rw [List.length_reverse] at hdecode
    exact happend.trans hdecode
  | cons p ps ih =>
    cases p with
    | byte n =>
      have hrest := ih (n :: run)
      simp only [List.length_cons] at hrest ⊢
      exact hrest.trans (by omega)
    | char c =>
      have hne : escapeChar c ≠ [] := by
        unfold escapeChar
        split <;> exact List.cons_ne_nil _ _
      have hdecode := Utf8.length_decode_le run.reverse
      have happend := length_unescapeList_append_le (Utf8.decode run.reverse)
        (escapeChar c ++ assemble [] (ps.flatMap escapePiece))
      have hrest := ih []
      rw [unescapeList_escapeChar] at happend
      simp only [List.flatMap_cons, escapePiece, assemble_chars_append run hne, List.append_assoc]
      simp only [List.length_cons, List.length_reverse, List.length_nil] at happend hdecode hrest ⊢
      omega

/-- An escaped name is decoded to itself if it holds no escape by chance. -/
theorem percentDecodeList_escaped {cs : List Char} (h : ¬HoldsEscape cs) :
    percentDecodeList (cs.flatMap escapeChar) = cs.flatMap escapeChar := by
  unfold percentDecodeList
  rw [pieces_escaped, pieces_of_not_holdsEscape h, List.flatMap_map]
  change assemble [] (cs.flatMap fun c => (escapeChar c).map Piece.char) = _
  rw [← List.map_flatMap, assemble_chars]

/-- The name is read off its escaped form exactly if it holds no escape by chance. -/
theorem unescapeList_decoded_iff (cs : List Char) :
    unescapeList (percentDecodeList (cs.flatMap escapeChar)) = cs ↔ ¬HoldsEscape cs := by
  constructor
  · intro heq hescape
    have hpos := (holdsEscape_iff cs).1 hescape
    have hpieces := length_pieces cs
    have hle := length_unescapeList_assemble_le [] (pieces cs)
    rw [← pieces_escaped] at hle
    have hlength := congrArg List.length heq
    unfold percentDecodeList at hlength
    simp only [List.length_nil] at hle
    omega
  · intro h
    rw [percentDecodeList_escaped h, unescapeList_escaped]

end Pointer

/-! ## Pointers -/

namespace TsModule

open Pointer (Token descend? writtenPath escapeChar)

/-- The value that is stored under a name in the first container that has the name. -/
def namedMember? (document : Json) (name : String) : Option Json :=
  containers.findSome? fun path => (atPath document path).member? name

/-- The named schemas in a container, with references to them. -/
def entriesAt (document : Json) (path : List String) : List (String × String) :=
  (memberNames (atPath document path)).map fun name =>
    (name, Reference.ofPath (path ++ [name]))

theorem pointers_eq_addAll (document : Json) :
    pointers document = Table.addAll (containers.flatMap (entriesAt document)) [] := by
  unfold pointers Table.addAll entriesAt
  rw [List.foldl_flatMap]
  simp only [List.foldl_map]

theorem mem_memberNames {v : Json} {name : String} :
    name ∈ memberNames v ↔ (v.member? name).isSome := by
  cases v with
  | obj members => exact (Table.contains_iff_mem_keys name members).symm
  | _ => simp [memberNames, Json.member?]

theorem mem_keys_entriesAt {document : Json} {path : List String} {name : String} :
    name ∈ Table.keys (entriesAt document path) ↔
      ((atPath document path).member? name).isSome := by
  rw [← mem_memberNames]
  simp [Table.keys, entriesAt]

/-- Where a name comes first among the entries of some containers, there is the first container that
has the name. -/
theorem exists_first_container {document : Json} {paths : List (List String)}
    {before after : List (String × String)} {name pointer : String}
    (hentries : paths.flatMap (entriesAt document) = before ++ (name, pointer) :: after)
    (hfirst : name ∉ Table.keys before) :
    ∃ path ∈ paths, ∃ member, (atPath document path).member? name = some member ∧
      pointer = Reference.ofPath (path ++ [name]) ∧
      (paths.findSome? fun path => (atPath document path).member? name) = some member := by
  induction paths generalizing before with
  | nil => simp at hentries
  | cons path paths ih =>
    rw [List.flatMap_cons] at hentries
    rcases Table.split_append hentries with ⟨back, hhere⟩ | ⟨front, rfl, hrest⟩
    · have hmem : (name, pointer) ∈ entriesAt document path := by
        rw [hhere]
        exact List.mem_append_right before List.mem_cons_self
      obtain ⟨name', hname', heq⟩ := List.mem_map.1 hmem
      obtain ⟨rfl, rfl⟩ := Prod.mk.inj heq
      obtain ⟨member, hmember⟩ := Option.isSome_iff_exists.1 (mem_memberNames.1 hname')
      refine ⟨path, List.mem_cons_self, member, hmember, rfl, ?_⟩
      rw [List.findSome?_cons, hmember]
    · have hkeys : name ∉ Table.keys (entriesAt document path) ∧ name ∉ Table.keys front := by
        rw [Table.keys, List.map_append, List.mem_append, not_or] at hfirst
        exact hfirst
      have hnone : (atPath document path).member? name = none := by
        rw [mem_keys_entriesAt, Bool.not_eq_true, Option.isSome_eq_false_iff,
          Option.isNone_iff_eq_none] at hkeys
        exact hkeys.1
      obtain ⟨path', hpath', member, hmember, hpointer, hfind⟩ := ih hrest hkeys.2
      refine ⟨path', List.mem_cons_of_mem _ hpath', member, hmember, hpointer, ?_⟩
      rw [List.findSome?_cons, hnone]
      exact hfind

/-- A pointer is the path to the first container that has the name, with the name behind it. -/
theorem exists_container_of_mem_pointers {document : Json} {name pointer : String}
    (h : (name, pointer) ∈ pointers document) :
    ∃ path ∈ containers, ∃ member, (atPath document path).member? name = some member ∧
      pointer = Reference.ofPath (path ++ [name]) ∧ namedMember? document name = some member := by
  rw [pointers_eq_addAll] at h
  obtain ⟨front, back, hsplit⟩ := List.append_of_mem h
  obtain ⟨before, after, hentries, hfirst, -⟩ := Table.exists_split_addAll hsplit
  exact exists_first_container hentries hfirst

theorem child?_key (v : Json) (key : String) : Pointer.child? v (.key key) = v.member? key := by
  cases v <;> rfl

/-- The path to a member of a container is a path of keys. -/
theorem descend?_of_member? {document member : Json} {path : List String} {name : String}
    (h : (atPath document path).member? name = some member) :
    descend? (path.map .key ++ [.key name]) document = some member := by
  induction path generalizing document with
  | nil =>
    change Pointer.child? document (.key name) >>= descend? [] = some member
    rw [child?_key, show document.member? name = some member from h]
    rfl
  | cons key path ih =>
    have hrest : descend? (path.map .key ++ [.key name]) (document.memberD key) = some member :=
      ih h
    change Pointer.child? document (.key key) >>= descend? (path.map .key ++ [.key name]) = _
    rw [child?_key]
    unfold Json.memberD at hrest
    cases hkey : document.member? key with
    | some v =>
      rw [hkey] at hrest
      exact hrest
    | none =>
      -- Without the key, the path would go on through nothing, which has no members.
      rw [hkey] at hrest
      cases path <;> cases hrest

theorem toList_ofPath (path : List String) :
    (Reference.ofPath path).toList = '#' :: writtenPath (path.map .key) := by
  have hstep : ∀ token : String, ("/" ++ Pointer.escape token).toList =
      '/' :: token.toList.flatMap escapeChar := fun token => by
    rw [String.toList_append, Pointer.toList_escape]
    rfl
  unfold Reference.ofPath writtenPath
  rw [String.toList_append, String.toList_join, List.flatMap_map, List.flatMap_map]
  simp only [hstep]
  rfl

theorem toList_ofPath_concat (path : List String) (name : String) :
    (Reference.ofPath (path ++ [name])).toList =
      '#' :: (writtenPath (path.map .key) ++ '/' :: name.toList.flatMap escapeChar) := by
  rw [toList_ofPath]
  simp [writtenPath, Token.text]

/-- The pointer to a named schema is called by the name and leads to what is stored under it in the
first container that has it, if the name holds no escape by chance; otherwise decoding gives another
name. -/
theorem pointers_lead_back {document : Json} {name pointer : String}
    (h : (name, pointer) ∈ pointers document) :
    ∃ member, namedMember? document name = some member ∧
      (¬Text.HoldsEscape name.toList → Reference.displayName pointer = name ∧
        Reference.target document pointer = Reference.endingAt pointer member) ∧
      (Text.HoldsEscape name.toList → Reference.displayName pointer ≠ name) := by
  obtain ⟨path, hpath, member, hmember, rfl, hnamed⟩ := exists_container_of_mem_pointers h
  have hreference := toList_ofPath_concat path name
  -- The name that is read is the one that is written, unless it is changed by decoding.
  have hname : Reference.displayName (Reference.ofPath (path ++ [name])) = name ↔
      ¬Text.HoldsEscape name.toList := by
    rw [← List.cons_append] at hreference
    rw [← String.toList_inj, Reference.toList_displayName hreference (Pointer.not_mem_escaped _),
      Pointer.unescapeList_decoded_iff]
  have htarget : ¬Text.HoldsEscape name.toList →
      Reference.target document (Reference.ofPath (path ++ [name])) =
        Reference.endingAt (Reference.ofPath (path ++ [name])) member := by
    intro hescape
    have hplain : ∀ path ∈ containers, '%' ∉ writtenPath (path.map .key) ++ ['/'] := by decide
    have hfront := Text.Encodes.refl (hplain path hpath)
    refine Reference.target_of_decoded (descend?_of_member? hmember) hreference ?_
    calc Text.percentDecodeList
          (writtenPath (path.map .key) ++ '/' :: name.toList.flatMap escapeChar)
        = Text.percentDecodeList
            (writtenPath (path.map .key) ++ ['/'] ++ name.toList.flatMap escapeChar) := by simp
      _ = writtenPath (path.map .key) ++ ['/'] ++ name.toList.flatMap escapeChar := by
          rw [Text.percentDecodeList_append hfront, Pointer.percentDecodeList_escaped hescape]
      _ = writtenPath (path.map .key ++ [.key name]) := by simp [writtenPath, Token.text]
  exact ⟨member, hnamed, fun hescape => ⟨hname.mpr hescape, htarget hescape⟩,
    fun hescape heq => hname.mp heq hescape⟩

/-- Names with percent signs: one of them is decoded to another one, and one stays as it is. -/
def percentNames : Json :=
  .obj [("definitions", .obj [("a%41", .obj [("type", .str "string")]),
    ("aA", .obj [("type", .str "integer")]), ("50%~/é", .obj [("type", .str "null")])])]

theorem pointers_lead_back_percent :
    ("50%~/é", "#/definitions/50%~0~1é") ∈ pointers percentNames ∧
      Reference.displayName "#/definitions/50%~0~1é" = "50%~/é" ∧
      Reference.target percentNames "#/definitions/50%~0~1é" =
        .ok (.obj [("type", .str "null")]) ∧
      ("a%41", "#/definitions/a%41") ∈ pointers percentNames ∧
      Reference.displayName "#/definitions/a%41" ≠ "a%41" := by
  have hpointers : pointers percentNames = [("a%41", "#/definitions/a%41"),
      ("aA", "#/definitions/aA"), ("50%~/é", "#/definitions/50%~0~1é")] := rfl
  have hstays : ("50%~/é", "#/definitions/50%~0~1é") ∈ pointers percentNames := by
    rw [hpointers]
    decide
  have hchanges : ("a%41", "#/definitions/a%41") ∈ pointers percentNames := by
    rw [hpointers]
    decide
  obtain ⟨member, hmember, hback, -⟩ := pointers_lead_back hstays
  obtain ⟨-, -, -, haway⟩ := pointers_lead_back hchanges
  obtain ⟨hname, htarget⟩ := hback (mt (Text.holdsEscape_iff _).1 (by decide))
  obtain rfl : Json.obj [("type", .str "null")] = member := Option.some.inj hmember
  exact ⟨hstays, hname, htarget, hchanges, haway ((Text.holdsEscape_iff _).2 (by decide))⟩

/-- The pointer to the first of the names is called by the second one and leads to its schema. -/
theorem pointers_decoded_astray :
    ("a%41", "#/definitions/a%41") ∈ pointers percentNames ∧
      namedMember? percentNames "a%41" = some (.obj [("type", .str "string")]) ∧
      Reference.displayName "#/definitions/a%41" = "aA" ∧
      Reference.target percentNames "#/definitions/a%41" =
        .ok (.obj [("type", .str "integer")]) := by
  have hpointers : pointers percentNames = [("a%41", "#/definitions/a%41"),
      ("aA", "#/definitions/aA"), ("50%~/é", "#/definitions/50%~0~1é")] := rfl
  refine ⟨?_, rfl, rfl, rfl⟩
  rw [hpointers]
  decide

end TsModule

end SchemaTypes

import Mathlib.Data.List.Infix
import Mathlib.Tactic.SplitIfs
import SchemaTypes.Text.Percent

/-!
# Percent-encoding and back

`Text.Encodes` says which texts are spellings of a text: any of its characters may be written as the
bytes of their UTF-8 encodings, each byte as `%` and two hexadecimal digits of either case, and
every `%` has to be. Decoding undoes all of them. It gathers bytes across characters, so the proof
takes one character at a time off a run of bytes that goes on behind it: `assemble_written`.

A text that was not encoded is left alone by decoding unless it holds an escape by chance, that is a
`%` with two hexadecimal digits behind it: `Text.HoldsEscape`.
-/

namespace SchemaTypes.Text

/-! ## UTF-8 -/

namespace Utf8

/-- The bytes of a character are those of its UTF-8 encoding. -/
theorem encodeChar_eq (c : Char) : encodeChar c = (String.utf8EncodeChar c).map UInt8.toNat := by
  have hlt : c.toNat < 0x110000 := by
    rcases c.valid with h | ⟨-, h⟩
    · exact Nat.lt_trans h (by decide)
    · exact h
  change c.val.toNat < 0x110000 at hlt
  unfold encodeChar String.utf8EncodeChar
  dsimp only [Char.toNat]
  generalize c.val.toNat = n at hlt
  -- Both are lists of the same bytes in each range; the ranges that do not meet go first.
  split_ifs <;> try omega
  all_goals
    simp only [List.map_cons, List.map_nil, UInt8.toNat_ofNat', List.cons.injEq, and_true]
    omega

/-! ### What the first byte of a character tells -/

theorem lead_of_lt {n : Nat} (h : n < 0x80) : lead n = .single := by
  unfold lead
  rw [if_pos h]

theorem lead_double {n : Nat} (h : 0x80 ≤ n) (h' : n < 0x800) :
    lead (0xC0 + n / 0x40) = .double := by
  unfold lead
  rw [if_neg (by omega), if_neg (by omega), if_pos (by omega)]

/-- Of three bytes, the second one is in the range that the first one asks for, since the character
is no surrogate and needs so many. -/
theorem lead_triple {n : Nat} (h : 0x800 ≤ n) (h' : n < 0x10000)
    (hvalid : n < 0xD800 ∨ 0xDFFF < n) :
    ∃ low high, lead (0xE0 + n / 0x1000) = .triple low high ∧
      low ≤ 0x80 + n / 0x40 % 0x40 ∧ 0x80 + n / 0x40 % 0x40 ≤ high := by
  unfold lead
  rw [if_neg (by omega), if_neg (by omega), if_neg (by omega)]
  by_cases hfirst : n / 0x1000 = 0
  · exact ⟨0xA0, 0xBF, by rw [if_pos (by omega)], by omega, by omega⟩
  · rw [if_neg (by omega)]
    by_cases hsurrogate : n / 0x1000 = 0xD
    · exact ⟨0x80, 0x9F, by rw [if_pos (by omega)], by omega, by omega⟩
    · exact ⟨0x80, 0xBF, by rw [if_neg (by omega), if_pos (by omega)], by omega, by omega⟩

/-- Of four bytes, the second one is in the range that the first one asks for, since the character
needs so many and is not beyond the last one. -/
theorem lead_quadruple {n : Nat} (h : 0x10000 ≤ n) (h' : n < 0x110000) :
    ∃ low high, lead (0xF0 + n / 0x40000) = .quadruple low high ∧
      low ≤ 0x80 + n / 0x1000 % 0x40 ∧ 0x80 + n / 0x1000 % 0x40 ≤ high := by
  unfold lead
  rw [if_neg (by omega), if_neg (by omega), if_neg (by omega), if_neg (by omega),
    if_neg (by omega), if_neg (by omega)]
  by_cases hfirst : n / 0x40000 = 0
  · exact ⟨0x90, 0xBF, by rw [if_pos (by omega)], by omega, by omega⟩
  · rw [if_neg (by omega)]
    by_cases hlast : n / 0x40000 = 4
    · exact ⟨0x80, 0x8F, by rw [if_neg (by omega), if_pos (by omega)], by omega, by omega⟩
    · exact ⟨0x80, 0xBF, by rw [if_pos (by omega)], by omega, by omega⟩

theorem isTail_of_lt {n : Nat} (h : n < 0x40) : isTail (0x80 + n) = true := by
  simp only [isTail, Bool.and_eq_true, decide_eq_true_eq]
  omega

/-- Reading undoes writing, whatever follows. -/
theorem decode_encodeChar (c : Char) (rest : List Nat) :
    decode (encodeChar c ++ rest) = c :: decode rest := by
  have hvalid : c.toNat < 0xD800 ∨ 0xDFFF < c.toNat ∧ c.toNat < 0x110000 := c.valid
  have hchar : ∀ n, n = c.toNat → Char.ofNat n = c := by
    rintro n rfl
    exact Char.ofNat_toNat c
  unfold encodeChar
  dsimp only
  generalize c.toNat = n at hvalid hchar
  have htail : ∀ k, isTail (0x80 + k % 0x40) = true := fun k =>
    isTail_of_lt (Nat.mod_lt _ (by decide))
  split_ifs with hone htwo hthree
  all_goals
    simp only [List.cons_append, List.nil_append]
    rw [decode.eq_def]
    dsimp only
  · rw [lead_of_lt hone]
    dsimp only
    rw [hchar n rfl]
  · rw [lead_double (by omega) htwo]
    dsimp only
    rw [if_pos (htail n), hchar _ (by omega)]
  · obtain ⟨low, high, hlead, hrange⟩ := lead_triple (by omega) hthree (by omega)
    rw [hlead]
    dsimp only
    rw [if_pos hrange, if_pos (htail n), hchar _ (by omega)]
  · obtain ⟨low, high, hlead, hrange⟩ := lead_quadruple (n := n) (by omega) (by omega)
    rw [hlead]
    dsimp only
    rw [if_pos hrange, if_pos (htail _), if_pos (htail n), hchar _ (by omega)]

theorem decode_encode (cs : List Char) : decode (encode cs) = cs := by
  unfold encode
  induction cs with
  | nil => rfl
  | cons c rest ih => rw [List.flatMap_cons, decode_encodeChar, ih]

/-- The bytes of a text are read as this text, and no others are. -/
theorem text?_eq_some {bytes : List Nat} {text : String} :
    text? bytes = some text ↔ bytes = encode text.toList := by
  unfold text?
  dsimp only
  constructor
  · intro h
    split at h
    · next hbytes =>
      obtain rfl := Option.some.inj h
      rw [String.toList_ofList, hbytes]
    · cases h
  · rintro rfl
    rw [decode_encode, if_pos rfl, String.ofList_toList]

theorem length_decode_le (bytes : List Nat) : (decode bytes).length ≤ bytes.length := by
  fun_induction decode bytes <;> simp only [List.length_cons, List.length_nil] at * <;> omega

end Utf8

/-! ## Bytes in hexadecimal digits -/

/-- The character is the hexadecimal digit of the number, in lower or upper case. -/
def IsHexDigit (n : Nat) (c : Char) : Prop :=
  n < 16 ∧ (c = Nat.digitChar n ∨ c = (Nat.digitChar n).toUpper)

instance (n : Nat) (c : Char) : Decidable (IsHexDigit n c) :=
  inferInstanceAs (Decidable (n < 16 ∧ (c = Nat.digitChar n ∨ c = (Nat.digitChar n).toUpper)))

theorem hexValue?_of_isHexDigit {n : Nat} {c : Char} (h : IsHexDigit n c) :
    hexValue? c = some n := by
  have hdigits : ∀ n < 16, hexValue? (Nat.digitChar n) = some n ∧
      hexValue? (Nat.digitChar n).toUpper = some n := by
    decide
  obtain ⟨hn, rfl | rfl⟩ := h
  · exact (hdigits n hn).1
  · exact (hdigits n hn).2

/-- The text writes the bytes, each as `%` and two hexadecimal digits. -/
inductive WritesBytes : List Nat → List Char → Prop
  | nil : WritesBytes [] []
  | cons {byte : Nat} {bytes : List Nat} {a b : Char} {cs : List Char}
      (first : IsHexDigit (byte / 16) a) (second : IsHexDigit (byte % 16) b)
      (rest : WritesBytes bytes cs) : WritesBytes (byte :: bytes) ('%' :: a :: b :: cs)

/-- The second text writes the first one: each character as it is, unless it is a `%`, or as the
bytes of its UTF-8 encoding. -/
inductive Encodes : List Char → List Char → Prop
  | nil : Encodes [] []
  | plain {c : Char} {cs ws : List Char} (ne : c ≠ '%') (rest : Encodes cs ws) :
      Encodes (c :: cs) (c :: ws)
  | bytes {c : Char} {written cs ws : List Char}
      (first : WritesBytes ((String.utf8EncodeChar c).map UInt8.toNat) written)
      (rest : Encodes cs ws) : Encodes (c :: cs) (written ++ ws)

/-- A text without `%` may stay as it is. -/
theorem Encodes.refl {cs : List Char} (h : '%' ∉ cs) : Encodes cs cs := by
  induction cs with
  | nil => exact .nil
  | cons c cs ih =>
    rw [List.mem_cons, not_or] at h
    exact .plain (Ne.symm h.1) (ih h.2)

/-- The bytes that were written are the pieces that are read, whatever follows. -/
theorem pieces_written {bytes : List Nat} {written : List Char} (h : WritesBytes bytes written)
    (rest : List Char) :
    pieces (written ++ rest) = bytes.map .byte ++ pieces rest := by
  induction h with
  | nil => rfl
  | @cons byte bytes a b cs first second _ ih =>
    have hbyte : hexByte? a b = some byte := by
      unfold hexByte?
      rw [hexValue?_of_isHexDigit first, hexValue?_of_isHexDigit second]
      exact congrArg some (Nat.div_add_mod byte 16)
    simp only [List.cons_append, List.map_cons, pieces, if_pos, hbyte, ih]

theorem assemble_bytes (bytes run : List Nat) (ps : List Piece) :
    assemble run (bytes.map .byte ++ ps) = assemble (bytes.reverse ++ run) ps := by
  induction bytes generalizing run with
  | nil => rfl
  | cons byte bytes ih =>
    simp only [List.map_cons, List.cons_append, assemble, ih, List.reverse_cons, List.append_assoc,
      List.nil_append]

/-- A character at the start of an open run is done with, wherever the run ends. -/
theorem assemble_written (c : Char) (more : List Nat) (ps : List Piece) :
    assemble (more ++ (Utf8.encodeChar c).reverse) ps = c :: assemble more ps := by
  induction ps generalizing more with
  | nil =>
    simp only [assemble, List.reverse_append, List.reverse_reverse, Utf8.decode_encodeChar]
  | cons p ps ih =>
    cases p with
    | byte b => exact ih (b :: more)
    | char d =>
      simp only [assemble, List.reverse_append, List.reverse_reverse, Utf8.decode_encodeChar,
        List.cons_append]

/-- Decoding undoes every encoding, whatever follows. -/
theorem percentDecodeList_append {cs ws : List Char} (h : Encodes cs ws) (rest : List Char) :
    percentDecodeList (ws ++ rest) = cs ++ percentDecodeList rest := by
  unfold percentDecodeList
  induction h with
  | nil => rfl
  | plain ne _ ih =>
    rw [List.cons_append, pieces_cons_of_ne ne, assemble, ih]
    rfl
  | @bytes c written cs ws first _ ih =>
    rw [← Utf8.encodeChar_eq] at first
    rw [List.append_assoc, pieces_written first, assemble_bytes, List.append_nil]
    have hdone := assemble_written c [] (pieces (ws ++ rest))
    rw [List.nil_append] at hdone
    rw [hdone, ih, List.cons_append]

theorem percentDecodeList_of_encodes {cs ws : List Char} (h : Encodes cs ws) :
    percentDecodeList ws = cs := by
  have hall := percentDecodeList_append h []
  rwa [List.append_nil, percentDecodeList_of_not_mem List.not_mem_nil, List.append_nil] at hall

/-! ## Escapes by chance -/

/-- Somewhere in the text stand a `%` and two hexadecimal digits. -/
def HoldsEscape (cs : List Char) : Prop :=
  ∃ a b, ['%', a, b] <:+: cs ∧ (hexByte? a b).isSome

/-- How many bytes are among the pieces. -/
def byteCount : List Piece → Nat
  | [] => 0
  | .byte _ :: ps => byteCount ps + 1
  | .char _ :: ps => byteCount ps

/-- Every byte takes three characters, every other piece one. -/
theorem length_pieces (cs : List Char) :
    (pieces cs).length + 2 * byteCount (pieces cs) = cs.length := by
  fun_induction pieces cs <;> simp only [byteCount, List.length_cons, List.length_nil] at * <;>
    omega

theorem holdsEscape_cons (c : Char) (cs : List Char) :
    HoldsEscape (c :: cs) ↔
      (∃ a b rest, c = '%' ∧ cs = a :: b :: rest ∧ (hexByte? a b).isSome) ∨ HoldsEscape cs := by
  simp only [HoldsEscape, List.infix_cons_iff, List.cons_prefix_cons]
  constructor
  · rintro ⟨a, b, ⟨rfl, rest, rfl⟩ | hinfix, hhex⟩
    · exact .inl ⟨a, b, rest, rfl, rfl, hhex⟩
    · exact .inr ⟨a, b, hinfix, hhex⟩
  · rintro (⟨a, b, rest, rfl, rfl, hhex⟩ | ⟨a, b, hinfix, hhex⟩)
    · exact ⟨a, b, .inl ⟨rfl, rest, rfl⟩, hhex⟩
    · exact ⟨a, b, .inr hinfix, hhex⟩

theorem not_holdsEscape_of_length_lt {cs : List Char} (h : cs.length < 3) : ¬HoldsEscape cs := by
  rintro ⟨a, b, hinfix, -⟩
  exact Nat.not_le.2 h hinfix.length_le

/-- Bytes are read exactly where an escape stands. -/
theorem holdsEscape_iff (cs : List Char) : HoldsEscape cs ↔ 0 < byteCount (pieces cs) := by
  fun_induction pieces cs with
  | case1 => simp [not_holdsEscape_of_length_lt, byteCount]
  | case2 a => simp [not_holdsEscape_of_length_lt, byteCount]
  | case3 a b => simp [not_holdsEscape_of_length_lt, byteCount]
  | case4 a b rest value hbyte ih => simp [holdsEscape_cons, hbyte, byteCount]
  | case5 a b rest hnone ih => simp [holdsEscape_cons _ (a :: b :: rest), hnone, byteCount, ih]
  | case6 c a b rest hne ih => simp [holdsEscape_cons c, hne, byteCount, ih]

/-- Without an escape, every character is read as itself. -/
theorem pieces_of_not_holdsEscape {cs : List Char} (h : ¬HoldsEscape cs) :
    pieces cs = cs.map .char := by
  fun_induction pieces cs with
  | case1 => rfl
  | case2 a => rfl
  | case3 a b => rfl
  | case4 a b rest value hbyte ih => exact absurd (by simp [holdsEscape_cons, hbyte]) h
  | case5 a b rest hnone ih =>
    exact congrArg (_ :: ·) (ih fun hrest => h ((holdsEscape_cons ..).2 (.inr hrest)))
  | case6 c a b rest hne ih =>
    exact congrArg (_ :: ·) (ih fun hrest => h ((holdsEscape_cons ..).2 (.inr hrest)))

theorem assemble_chars (cs : List Char) : assemble [] (cs.map .char) = cs := by
  induction cs with
  | nil => rfl
  | cons c cs ih => rw [List.map_cons, assemble, ih]; rfl

end SchemaTypes.Text

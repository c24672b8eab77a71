import SchemaTypes.Text.Utf8

/-!
# Halves of surrogate pairs

JSON text may escape one half of a surrogate pair without the other one. A text that is read from it
keeps the half, but no character is a half, and no sequence of bytes encodes one. So a block of
characters that are used for nothing else stands for the halves: `Halves` is a choice of the block,
and `Halves.freshFor` finds one that some texts do not use.
-/

namespace SchemaTypes.Text

/-- Whether a code is that of a half of a surrogate pair. -/
def isSurrogate (n : Nat) : Bool :=
  0xD800 ≤ n && n < 0xE000

/-- A block of characters, one for each half of surrogate pairs. -/
structure Halves where
  /-- The code of the first character in the block. -/
  first : Nat
  /-- All codes of the block are codes of characters. -/
  valid : first + 0x800 ≤ 0xD800 ∨ 0xE000 ≤ first ∧ first + 0x800 ≤ 0x110000

namespace Halves

variable (halves : Halves)

/-- The character that stands for a half, given by its code. -/
def char (n : Nat) : Char :=
  Char.ofNat (halves.first + (n - 0xD800))

/-- Whether a character stands for a half. -/
def isHalf (c : Char) : Bool :=
  halves.first ≤ c.toNat && c.toNat < halves.first + 0x800

/-- Whether a text holds a half. -/
def occurIn (text : String) : Bool :=
  text.toList.any halves.isHalf

/-- The bytes of a text, unless it holds a half. -/
def encode? (text : String) : Option (List Nat) :=
  if halves.occurIn text then none else some (Utf8.encode text.toList)

/-- Some half of a surrogate pair stands in a text. -/
def OccurIn (text : String) : Prop :=
  ∃ n, isSurrogate n = true ∧ halves.char n ∈ text.toList

/-- The characters that stand for halves are those of the block. -/
theorem isHalf_iff {c : Char} :
    halves.isHalf c = true ↔ ∃ n, isSurrogate n = true ∧ halves.char n = c := by
  have hvalid := halves.valid
  unfold isHalf isSurrogate char
  simp only [Bool.and_eq_true, decide_eq_true_eq]
  constructor
  · rintro ⟨hfirst, hlast⟩
    refine ⟨0xD800 + (c.toNat - halves.first), by omega, ?_⟩
    rw [show halves.first + (0xD800 + (c.toNat - halves.first) - 0xD800) = c.toNat by omega,
      Char.ofNat_toNat]
  · rintro ⟨n, hn, rfl⟩
    have hchar : (halves.first + (n - 0xD800)).isValidChar := by
      unfold Nat.isValidChar
      omega
    have hcode : (Char.ofNat (halves.first + (n - 0xD800))).toNat =
        halves.first + (n - 0xD800) := by
      rw [Char.ofNat, dif_pos hchar]
      rfl
    omega

theorem occurIn_iff {text : String} : halves.occurIn text = true ↔ halves.OccurIn text := by
  unfold occurIn OccurIn
  simp only [List.any_eq_true, isHalf_iff]
  constructor
  · rintro ⟨_, hc, n, hn, rfl⟩
    exact ⟨n, hn, hc⟩
  · rintro ⟨n, hn, hc⟩
    exact ⟨_, hc, n, hn, rfl⟩

variable {halves} {text : String}

theorem encode?_of_occurIn (h : halves.OccurIn text) : halves.encode? text = none :=
  if_pos (halves.occurIn_iff.mpr h)

theorem encode?_of_not_occurIn (h : ¬ halves.OccurIn text) :
    halves.encode? text = some (Utf8.encode text.toList) :=
  if_neg (mt halves.occurIn_iff.mp h)

/-! ## Finding a block -/

/-- The `i`-th block behind the first 65536 characters. -/
def block (i : Fin 512) : Halves where
  first := 0x10000 + 0x800 * i
  valid := .inr (by omega)

/-- A block that some texts do not use. The last blocks are tried first. -/
def freshFor (texts : List String) : Halves :=
  (((List.finRange 512).reverse.map block).find? fun halves =>
    !texts.any halves.occurIn).getD (block (Fin.last 511))

/-- Where one of the blocks is not used, a block is found that is not used. -/
theorem not_occurIn_freshFor {texts : List String} {i : Fin 512}
    (h : ∀ text ∈ texts, ¬ (block i).OccurIn text) :
    ∀ text ∈ texts, ¬ (freshFor texts).OccurIn text := by
  have hunused : ∀ halves : Halves,
      (!texts.any halves.occurIn) = true ↔ ∀ text ∈ texts, ¬ halves.OccurIn text := by
    intro halves
    simp [← occurIn_iff]
  have hmem : block i ∈ (List.finRange 512).reverse.map block := by
    simp only [List.mem_map, List.mem_reverse]
    exact ⟨i, List.mem_finRange i, rfl⟩
  unfold freshFor
  generalize (List.finRange 512).reverse.map block = blocks at hmem
  cases hfind : blocks.find? fun halves => !texts.any halves.occurIn with
  | none => exact absurd ((hunused _).mpr h) (List.find?_eq_none.mp hfind _ hmem)
  | some halves =>
    have hfound : (!texts.any halves.occurIn) = true := by
      simpa using List.find?_some hfind
    exact (hunused halves).mp hfound

end Halves

end SchemaTypes.Text

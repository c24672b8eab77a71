import SchemaTypes.Text.Utf8

/-!
# Percent-encoding

A byte may be written as `%` and two hexadecimal digits. `percentDecode` gathers every maximal run
of written bytes and reads it as UTF-8; a `%` without two digits behind it stands for itself, and so
do all other characters.
-/

namespace SchemaTypes.Text

/-- The value of a hexadecimal digit, of either case. -/
def hexValue? (c : Char) : Option Nat :=
  let n := c.toNat
  if 0x30 ≤ n ∧ n ≤ 0x39 then some (n - 0x30)
  else if 0x41 ≤ n ∧ n ≤ 0x46 then some (n - 0x41 + 10)
  else if 0x61 ≤ n ∧ n ≤ 0x66 then some (n - 0x61 + 10)
  else none

/-- A piece of percent-encoded text. -/
inductive Piece where
  | byte (value : Nat)
  | char (value : Char)
deriving DecidableEq, Repr

/-- The value of two hexadecimal digits. -/
def hexByte? (a b : Char) : Option Nat :=
  match hexValue? a, hexValue? b with
  | some x, some y => some (16 * x + y)
  | _, _ => none

/-- The pieces of a percent-encoded text. -/
def pieces : List Char → List Piece
  | [] => []
  | [a] => [.char a]
  | [a, b] => [.char a, .char b]
  | c :: a :: b :: rest =>
    if c = '%' then
      match hexByte? a b with
      | some value => .byte value :: pieces rest
      | none => .char c :: pieces (a :: b :: rest)
    else
      .char c :: pieces (a :: b :: rest)

/-- The text of some pieces, behind a run of bytes that is still open (last byte first). -/
def assemble (run : List Nat) : List Piece → List Char
  | [] => Utf8.decode run.reverse
  | .byte b :: rest => assemble (b :: run) rest
  | .char c :: rest => Utf8.decode run.reverse ++ c :: assemble [] rest

/-- Undoes percent-encoding on a list of characters. -/
def percentDecodeList (cs : List Char) : List Char :=
  assemble [] (pieces cs)

/-- Undoes percent-encoding. -/
def percentDecode (text : String) : String :=
  String.ofList (percentDecodeList text.toList)

/-- A character other than `%` is a piece of its own. -/
theorem pieces_cons_of_ne {c : Char} (h : c ≠ '%') (rest : List Char) :
    pieces (c :: rest) = .char c :: pieces rest := by
  match rest with
  | [] => rfl
  | [_] => rfl
  | _ :: _ :: _ => simp [pieces, h]

/-- A list without `%` stands for itself. -/
theorem percentDecodeList_of_not_mem {cs : List Char} (h : '%' ∉ cs) :
    percentDecodeList cs = cs := by
  unfold percentDecodeList
  induction cs with
  | nil => rfl
  | cons c rest ih =>
    have hc : c ≠ '%' := fun e => h (by simp [e])
    have hr : '%' ∉ rest := fun m => h (by simp [m])
    simp [pieces_cons_of_ne hc, assemble, Utf8.decode, ih hr]

end SchemaTypes.Text

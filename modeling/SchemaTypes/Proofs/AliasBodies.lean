import SchemaTypes.Proofs.Hosts
import SchemaTypes.Proofs.ModuleTexts
import SchemaTypes.Proofs.Searching

/-!
# Bodies of formatted aliases

A type expression goes to the formatter as the body of an alias, and the body is cut out of what
comes back: it is what stands behind the first `type Ts =`, without the blanks at its ends, and it
is missing only if `type Ts =` does not occur. Where it stands in indented code, the indentation
comes behind each of its line feeds and nowhere else.

Without a formatter the alias is there, so nothing can be missing; and as the body of the alias is
the expression itself, formatting a formatted expression changes nothing, whatever stands in it.
-/

namespace SchemaTypes

/-! ## Texts behind line feeds -/

namespace Text

/-- A text with another one behind each of its line feeds. -/
def behindFeeds (margin text : String) : String :=
  String.ofList (text.toList.flatMap fun c => if c = '\n' then c :: margin.toList else [c])

theorem intercalate_append_head (sep front first : List Char) (others : List (List Char)) :
    List.intercalate sep ((front ++ first) :: others) =
      front ++ List.intercalate sep (first :: others) := by
  cases others with
  | nil => simp [List.intercalate]
  | cons second others =>
    rw [List.intercalate_cons_cons, List.intercalate_cons_cons]
    simp only [List.append_assoc]

/-- Putting a margin in front of all lines but the first is putting it behind the line feeds. -/
theorem intercalate_hung (margin : List Char) {cs first : List Char} {others : List (List Char)}
    (h : fields '\n' cs = first :: others) :
    List.intercalate ['\n'] (first :: others.map (margin ++ ·)) =
      cs.flatMap fun c => if c = '\n' then c :: margin else [c] := by
  induction cs generalizing first others with
  | nil =>
    cases h
    rfl
  | cons c rest ih =>
    obtain ⟨f, fs, hrest⟩ := List.exists_cons_of_ne_nil (fields_ne_nil '\n' rest)
    rw [fields, hrest] at h
    rw [List.flatMap_cons, ← ih hrest]
    -- a line feed begins a line behind the first one; other characters go into the first line
    by_cases hc : c = '\n'
    · rw [if_pos hc] at h ⊢
      cases h
      rw [List.map_cons, List.intercalate_cons_cons, intercalate_append_head, hc]
      rfl
    · rw [if_neg hc] at h ⊢
      cases h
      exact intercalate_append_head _ [c] _ _

theorem hang_eq_behindFeeds (margin text : String) :
    hang margin text = behindFeeds margin text := by
  obtain ⟨first, others, hfields⟩ :=
    List.exists_cons_of_ne_nil (fields_ne_nil '\n' text.toList)
  have hlines : lines text = String.ofList first :: others.map String.ofList := by
    unfold lines
    rw [hfields]
    rfl
  have hmargin : (others.map String.ofList).map (margin ++ ·) =
      (others.map (margin.toList ++ ·)).map String.ofList := by
    simp [String.ofList_append]
  unfold hang
  rw [hlines]
  dsimp only
  rw [hmargin, ← List.map_cons, unlines, join_ofList]
  exact congrArg String.ofList (intercalate_hung margin.toList hfields)

theorem strip_strip (text : String) : strip (strip text) = strip text := by
  unfold strip
  rw [String.toList_ofList, stripList_stripList]

end Text

namespace Expression

open Text (IsFirst IsStripped behindBlanks behindFeeds)

/-! ## Cutting out -/

/-- What a body stands behind. -/
def aliasSign : List Char := "type Ts =".toList

theorem aliasBody?_eq_none_iff {text : String} :
    aliasBody? text = none ↔ ¬ aliasSign <:+: text.toList := by
  unfold aliasBody? Text.after?
  rw [Option.map_eq_none_iff, Option.map_eq_none_iff]
  exact Text.afterList?_eq_none_iff

theorem aliasBody?_eq_some_iff {text body : String} :
    aliasBody? text = some body ↔
      ∃ front rest, IsFirst aliasSign text.toList front rest ∧ IsStripped rest body.toList := by
  unfold aliasBody? Text.after? Text.strip
  simp only [Option.map_eq_some_iff]
  constructor
  · rintro ⟨_, ⟨rest, hrest, rfl⟩, rfl⟩
    obtain ⟨front, hfirst⟩ := Text.afterList?_eq_some_iff.mp hrest
    rw [String.toList_ofList, String.toList_ofList]
    exact ⟨front, rest, hfirst, Text.isStripped_stripList rest⟩
  · rintro ⟨front, rest, hfirst, hstripped⟩
    refine ⟨_, ⟨rest, Text.afterList?_eq_some_iff.mpr ⟨front, hfirst⟩, rfl⟩, ?_⟩
    rw [String.toList_ofList, Text.stripList_eq_iff.mpr hstripped, String.ofList_toList]

/-- What the pattern captures behind the blanks is the body, but for the blanks at its end. -/
theorem search_of_aliasBody? {text body : String} (h : aliasBody? text = some body) :
    ∃ blanks tail, (behindBlanks aliasSign).search text.toList = some [aliasSign, blanks, tail] ∧
      IsStripped tail body.toList := by
  obtain ⟨front, rest, hfirst, hstripped⟩ := aliasBody?_eq_some_iff.mp h
  refine ⟨rest.takeWhile Text.isBlank, Text.dropBlank rest, ?_, ?_⟩
  · rw [Text.search_behindBlanks, Text.afterList?_eq_some_iff.mpr ⟨front, hfirst⟩]
    rfl
  · rw [← Text.stripList_eq_iff, Text.stripList_dropBlank]
    exact Text.stripList_eq_iff.mpr hstripped

theorem search_eq_none_iff {text : String} :
    (behindBlanks aliasSign).search text.toList = none ↔ ¬ aliasSign <:+: text.toList := by
  rw [Text.search_behindBlanks, Option.map_eq_none_iff, Text.afterList?_eq_none_iff]

theorem hung_ok (preText body : String) :
    hung (.ok preText) body = .ok (behindFeeds preText body) := by
  unfold hung
  split
  · next line hlines =>
    have hbody := Text.unlines_lines body
    rw [← Text.hang_eq_behindFeeds, Text.hang, hlines]
    rw [hlines] at hbody
    exact congrArg Except.ok hbody.symm
  · exact congrArg Except.ok (Text.hang_eq_behindFeeds preText body)

/-! ## Runs -/

variable {σ : Type}

/-- What a body is to be cut out of: the alias that the expression makes, as the formatter gives it
back under its options, with statements left without a terminator; or the alias itself, if there is
no formatter. -/
def HandedBack (host : Host σ) (formatting : Option Formatter.Setting) (expression : String)
    (s : σ) (text : String) (t : σ) : Prop :=
  match formatting with
  | none => text = "type Ts = " ++ expression ∧ t = s
  | some setting => ∃ options, setting.forRun = .ok options ∧
      host.format ("type Ts = " ++ expression) { options with semicolons := .bool false } s =
        (.ok text, t)

variable {host : Host σ} {formatting : Option Formatter.Setting} {expression text : String}
  {s t : σ}

theorem run_formatAlias (h : HandedBack host formatting expression s text t) :
    (formatAlias formatting (aliasOf expression)).run host s = (.ok text, t) := by
  cases formatting with
  | none =>
    obtain ⟨rfl, rfl⟩ := h
    rfl
  | some setting =>
    obtain ⟨options, hoptions, hformat⟩ := h
    unfold formatAlias
    refine Rendering.run_bind_eq_ok.mpr
      ⟨options, s, Rendering.run_lift_eq_ok.mpr ⟨hoptions, rfl⟩, ?_⟩
    unfold Rendering.format aliasOf
    rw [Rendering.run, hformat]
    rfl

/-- What comes back decides how it goes on, and nothing else is done to the state. -/
theorem run_formatted (h : HandedBack host formatting expression s text t) (preText : String) :
    (formatted (.ok preText) formatting expression).run host s =
      match aliasBody? text with
      | none => (.error (.noAliasBody text), t)
      | some body => (.ok (behindFeeds preText body), t) := by
  unfold formatted
  rw [Rendering.run_bind, Step.andThen, run_formatAlias h]
  dsimp only
  cases aliasBody? text with
  | none => rfl
  | some body =>
    dsimp only
    rw [hung_ok]
    rfl

/-- Without a formatter the result is the expression without blanks at its ends. -/
theorem run_formatted_none (host : Host σ) (preText expression : String) (s : σ) :
    (formatted (.ok preText) none expression).run host s =
      (.ok (behindFeeds preText (Text.strip expression)), s) := by
  have hhanded : HandedBack host none expression s (aliasOf expression) s := ⟨rfl, rfl⟩
  rw [run_formatted hhanded, aliasBody?_aliasOf]

theorem behindFeeds_empty (text : String) : behindFeeds "" text = text :=
  (Text.hang_eq_behindFeeds "" text).symm.trans (Text.hang_empty text)

/-- The body is cut out of what the formatter gives back exactly. The failure is that there is no
body, and it arises if and only if there is no `type Ts =`; this is also when the search for the
pattern fails. Otherwise the result is what stands behind the first `type Ts =`, without blanks at
its ends and with the other text behind its line feeds; it is what the pattern captures as well.

Without a formatter there is always a result. Behind the line feeds in it stands the other text, and
what is formatted stays as it is when it is formatted again. -/
theorem formatted_eq_body (host : Host σ) (preText expression : String) (s : σ) :
    (∀ formatting text t, HandedBack host formatting expression s text t →
      (((formatted (.ok preText) formatting expression).run host s).1 =
          .error (.noAliasBody text) ↔ ¬ aliasSign <:+: text.toList) ∧
      ((behindBlanks aliasSign).search text.toList = none ↔
        ¬ aliasSign <:+: text.toList) ∧
      (aliasSign <:+: text.toList → ∃ front rest body,
        IsFirst aliasSign text.toList front rest ∧ IsStripped rest body ∧
        (formatted (.ok preText) formatting expression).run host s =
          (.ok (behindFeeds preText (String.ofList body)), t) ∧
        ∃ blanks tail, (behindBlanks aliasSign).search text.toList =
          some [aliasSign, blanks, tail] ∧ IsStripped tail body)) ∧
    ∃ plain, (formatted (.ok "") none expression).run host s = (.ok plain, s) ∧
      (formatted (.ok preText) none expression).run host s =
        (.ok (behindFeeds preText plain), s) ∧
      (formatted (.ok "") none plain).run host s = (.ok plain, s) := by
  refine ⟨fun formatting text t h => ⟨?_, search_eq_none_iff, fun hoccurs => ?_⟩, ?_⟩
  · rw [run_formatted h, ← aliasBody?_eq_none_iff]
    cases aliasBody? text <;> simp
  · obtain ⟨body, hbody⟩ := Option.ne_none_iff_exists'.mp
      fun hnone => aliasBody?_eq_none_iff.mp hnone hoccurs
    obtain ⟨front, rest, hfirst, hstripped⟩ := aliasBody?_eq_some_iff.mp hbody
    refine ⟨front, rest, body.toList, hfirst, hstripped, ?_, search_of_aliasBody? hbody⟩
    rw [run_formatted h, hbody, String.ofList_toList]
  · refine ⟨Text.strip expression, ?_, run_formatted_none host preText expression s, ?_⟩
    · rw [run_formatted_none, behindFeeds_empty]
    · rw [run_formatted_none, Text.strip_strip, behindFeeds_empty]

/-- A formatter that gives a remark and a union over several lines back, one member of which looks
like an alias. -/
def breakingHost : Host Unit :=
  Host.still (fun _ => false)
    fun _ _ => .ok "// a type\ntype Ts =\u2003\n  | \"type Ts =\"\n  | null\n"

/-- The body starts behind the first sign of an alias and the blanks, although there is another
sign in it. -/
theorem formatted_eq_body_alias :
    HandedBack breakingHost (some (.options {})) "string" ()
        "// a type\ntype Ts =\u2003\n  | \"type Ts =\"\n  | null\n" () ∧
      (formatted (.ok "\t") (some (.options {})) "string").run breakingHost () =
        (.ok "| \"type Ts =\"\n\t  | null", ()) := by
  have hhanded : HandedBack breakingHost (some (.options {})) "string" ()
      "// a type\ntype Ts =\u2003\n  | \"type Ts =\"\n  | null\n" () := ⟨{}, rfl, rfl⟩
  have hfound : Text.afterList? aliasSign
      "// a type\ntype Ts =\u2003\n  | \"type Ts =\"\n  | null\n".toList =
        some "\u2003\n  | \"type Ts =\"\n  | null\n".toList := by decide
  have hoccurs : aliasSign <:+:
      "// a type\ntype Ts =\u2003\n  | \"type Ts =\"\n  | null\n".toList := by
    obtain ⟨front, hsplit⟩ := Text.exists_of_afterList? hfound
    exact ⟨front, _, hsplit.symm⟩
  obtain ⟨-, -, hresult⟩ :=
    (formatted_eq_body breakingHost "\t" "string" ()).1 _ _ _ hhanded
  obtain ⟨front, rest, body, hfirst, hstripped, hrun, -⟩ := hresult hoccurs
  have hrest : some rest = some "\u2003\n  | \"type Ts =\"\n  | null\n".toList :=
    (Text.afterList?_eq_some_iff.mpr ⟨front, hfirst⟩).symm.trans hfound
  have hbody : "| \"type Ts =\"\n  | null".toList = body := by
    rw [← Text.stripList_eq_iff.mpr hstripped, Option.some.inj hrest]
    decide
  refine ⟨hhanded, ?_⟩
  rw [hrun, ← hbody]
  rfl

end Expression

end SchemaTypes

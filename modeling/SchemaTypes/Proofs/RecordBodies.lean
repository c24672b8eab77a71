import SchemaTypes.Proofs.ModuleTexts
import SchemaTypes.Proofs.RecordMembers

/-!
# The bodies of interfaces

A declaration is an interface if its schema is read as a record with properties, and an alias
otherwise. The body of an interface is the type expression of the schema, and that of such a record
is one block: its first line opens it, its last line closes it, and all lines between, of which
there is at least one, are set in, whatever comments, names and inlined targets stand on them. The
body starts and ends with a brace, so nothing is stripped off it when it is cut out of an alias.
-/

namespace SchemaTypes

open Text (lines unlines indentLines OneLine)

/-! ## Bodies of records -/

namespace Expression

open Schema (Node Property)

/-- The body of a single record: a line that opens it, one line or more that are set in, and a line
that closes it. -/
def IsRecordBody (body : String) : Prop :=
  ∃ inner, inner ≠ [] ∧ lines body = "\x7b" :: (inner ++ ["\x7d"]) ∧ ∀ l ∈ inner, SetIn l

namespace IsRecordBody

variable {body : String}

/-- No line but the last one starts with a closing brace. -/
theorem closed_at_end (h : IsRecordBody body) :
    ∀ l ∈ (lines body).dropLast, l.toList.head? ≠ some '\x7d' := by
  obtain ⟨inner, -, hlines, hinner⟩ := h
  rw [hlines, ← List.cons_append, List.dropLast_concat]
  intro l hl
  rcases List.mem_cons.mp hl with rfl | hl
  · decide
  · obtain ⟨rest, rfl, -⟩ := hinner l hl
    rw [String.toList_append]
    exact fun hhead => absurd (Option.some.inj hhead) (by decide)

/-- Nothing is stripped off the body of a record. -/
theorem strip_eq (h : IsRecordBody body) : Text.strip body = body := by
  obtain ⟨inner, hne, hlines, -⟩ := h
  have hbody : body = "\x7b" ++ "\n" ++ (unlines inner ++ "\n" ++ "\x7d") := by
    rw [← Text.unlines_lines body, hlines, Text.unlines_cons _ (by simp),
      Text.unlines_concat _ hne]
  have hlist : body.toList =
      '\x7b' :: ('\n' :: ((unlines inner).toList ++ ['\n']) ++ ['\x7d']) := by
    rw [hbody]
    simp
  exact Text.strip_enclosed hlist (by decide) (by decide)

end IsRecordBody

variable {s : Scope}

/-- The lines of a text that is indented: they are set in, and there is at least one. -/
theorem setIn_of_indented (hindent : s.settings.indent = .ok "  ") {text : String}
    {ls : List String} (h : s.indented text = .ok ls) : ls ≠ [] ∧ ∀ l ∈ ls, SetIn l := by
  unfold Scope.indented at h
  rw [hindent] at h
  obtain rfl := Except.ok.inj h
  refine ⟨?_, fun l hl => setIn_of_mem_indentLines hl⟩
  unfold indentLines lines
  simp [Text.fields_ne_nil]

theorem ofProperty_gives (hindent : s.settings.indent = .ok "  ") (f : Json → Rendering String)
    (p : Property) : (ofProperty s f p).Gives fun ls => ls ≠ [] ∧ ∀ l ∈ ls, SetIn l :=
  ofProperty_gives_indented (fun _ _ => setIn_of_indented hindent) p

/-- A record with properties is written as one block, however its references are written. -/
theorem ofNode_gives_recordBody (hindent : s.settings.indent = .ok "  ")
    (f : Json → Rendering String) {node : Node} (hnode : node.hasProperties = true) :
    (ofNode s f node).Gives IsRecordBody := by
  cases node with
  | record info properties required =>
    cases properties with
    | nil => cases hnode
    | cons p rest =>
      have hrest : (collect (ofProperty s f) rest).Gives fun ls => ∀ l ∈ ls, SetIn l :=
        collect_gives fun q _ => (ofProperty_gives hindent f q).mono fun _ hls => hls.2
      have hall : (collect (ofProperty s f) (p :: rest)).Gives
          fun ls => ls ≠ [] ∧ ∀ l ∈ ls, SetIn l := by
        refine (ofProperty_gives hindent f p).bind fun ls hls => ?_
        refine hrest.bind fun others hothers => Rendering.gives_pure ⟨?_, ?_⟩
        · exact List.append_ne_nil_of_left_ne_nil hls.1 others
        · exact List.forall_mem_append.mpr ⟨hls.2, hothers⟩
      rw [ofNode_record, if_neg (List.cons_ne_nil p rest)]
      refine hall.map fun ls hls => ⟨ls, hls.1, ?_, hls.2⟩
      rw [lines_block (Or.inl ⟨rfl, rfl⟩) hls.2, List.cons_append]
  | _ => cases hnode

variable {document schema : Json} {settings : Settings}

theorem exists_of_isRecord (h : Schema.isRecord schema = .ok true) :
    schema.truthy = true ∧
      ∃ node, Node.ofJson schema "#" = .ok node ∧ node.hasProperties = true := by
  unfold Schema.isRecord at h
  split at h
  · next htruthy => exact ⟨htruthy, map_eq_ok.mp h⟩
  · cases h

theorem ofSchema_gives_recordBody (hindent : settings.indent = .ok "  ")
    (h : Schema.isRecord schema = .ok true) :
    (ofSchema document settings schema).Gives IsRecordBody := by
  obtain ⟨-, node, hnode, hproperties⟩ := exists_of_isRecord h
  rw [ofSchema_eq_ofTree, hnode]
  exact ofNode_gives_recordBody (s := ⟨document, settings⟩) hindent _ hproperties

/-- Nothing is lost of the body of a record when it is cut out of an alias. -/
theorem convert_gives_recordBody (hindent : settings.indent = .ok "  ")
    (hpre : settings.preText = .ok "") (h : Schema.isRecord schema = .ok true) :
    (convert document settings none schema).Gives IsRecordBody := by
  unfold convert
  rw [if_pos (exists_of_isRecord h).1]
  refine (ofSchema_gives_recordBody hindent h).bind fun expression hexpression => ?_
  refine Rendering.Gives.bind (P := fun text => text = aliasOf expression) rfl fun text htext => ?_
  rw [htext, aliasBody?_aliasOf, hexpression.strip_eq, hpre]
  dsimp only
  rw [hung_empty]
  exact Rendering.gives_pure hexpression

end Expression

/-! ## Interfaces and aliases -/

namespace Declaration

open Expression (convert IsRecordBody)

/-- What stands in front of a declaration. -/
def exportMark (exported : Bool) : String :=
  if exported then "export " else ""

/-- How a declaration goes on behind its mark. -/
def introduction (isInterface : Bool) (name : String) : String :=
  if isInterface then "interface " ++ name ++ " " else "type " ++ name ++ " = "

theorem ofExpression_eq (name expression : String) (exported isInterface : Bool) :
    ofExpression name expression exported isInterface =
      exportMark exported ++ (introduction isInterface name ++ expression) := by
  unfold ofExpression exportMark introduction
  cases exported <;> cases isInterface <;> simp

theorem head?_introduction (isInterface : Bool) (name rest : String) :
    (introduction isInterface name ++ rest).toList.head? =
      some (if isInterface then 'i' else 't') := by
  cases isInterface with
  | true =>
    change ("interface " ++ name ++ " " ++ rest).toList.head? = some 'i'
    rw [String.append_assoc, String.append_assoc, String.toList_append]
    rfl
  | false =>
    change ("type " ++ name ++ " = " ++ rest).toList.head? = some 't'
    rw [String.append_assoc, String.append_assoc, String.toList_append]
    rfl

/-- A declaration shows whether it is exported. -/
theorem export_isPrefix_iff (name expression : String) (exported isInterface : Bool) :
    "export ".toList <+: (ofExpression name expression exported isInterface).toList ↔
      exported = true := by
  rw [ofExpression_eq, String.toList_append]
  cases exported with
  | true => exact iff_of_true (List.prefix_append _ _) rfl
  | false =>
    refine iff_of_false (fun ⟨rest, hrest⟩ => ?_) Bool.false_ne_true
    have hhead := congrArg List.head? hrest
    rw [show (exportMark false).toList = [] from rfl, List.nil_append, head?_introduction] at hhead
    have hletter : 'e' = if isInterface then 'i' else 't' := Option.some.inj hhead
    cases isInterface <;> exact absurd hletter (by decide)

/-- A declaration shows whether it is an interface. -/
theorem exists_interface_iff (name expression : String) (exported isInterface : Bool) :
    (∃ body, ofExpression name expression exported isInterface =
        exportMark exported ++ ("interface " ++ name ++ " " ++ body)) ↔ isInterface = true := by
  rw [ofExpression_eq]
  refine ⟨fun ⟨body, hbody⟩ => ?_, fun h => ⟨expression, by rw [h]; rfl⟩⟩
  have hsame : introduction isInterface name ++ expression = introduction true name ++ body :=
    String.append_right_inj _ |>.mp hbody
  have hhead := congrArg (List.head? ∘ String.toList) hsame
  rw [Function.comp_apply, Function.comp_apply, head?_introduction, head?_introduction] at hhead
  cases isInterface with
  | true => rfl
  | false => exact absurd (Option.some.inj hhead) (by decide)

variable {σ : Type}

/-- Without a formatter, a declaration is an interface exactly if its schema is read as a record
with properties, and an alias otherwise; either way it ends with the type expression of the schema.
The expression behind the name of an interface is the body of a single record. -/
theorem ofSchema_interface_iff (document : Json) (options : Options) (name : String)
    (schema : Json) (host : Host σ) (s t : σ) (text : String)
    (hrun : (ofSchema document options none name schema).run host s = (.ok text, t)) :
    ∃ isRecord defaultType expression,
      Schema.isRecord schema = .ok isRecord ∧
      DefaultType.check options.defaultType = .ok defaultType ∧
      (convert document (settings options defaultType) none schema).run host s =
        (.ok expression, t) ∧
      text = exportMark options.exported ++ (introduction isRecord name ++ expression) ∧
      ("export ".toList <+: text.toList ↔ options.exported = true) ∧
      ((∃ body, text = exportMark options.exported ++ ("interface " ++ name ++ " " ++ body)) ↔
        isRecord = true) ∧
      (isRecord = true → IsRecordBody expression ∧
        ∀ l ∈ (lines expression).dropLast, l.toList.head? ≠ some '\x7d') := by
  unfold ofSchema at hrun
  obtain ⟨defaultType, s₁, hchecked, hrun⟩ := Rendering.run_bind_eq_ok.mp hrun
  obtain ⟨hdefault, rfl⟩ := Rendering.run_lift_eq_ok.mp hchecked
  obtain ⟨expression, s₂, hexpression, hrun⟩ := Rendering.run_bind_eq_ok.mp hrun
  obtain ⟨isRecord, s₃, hread, hrun⟩ := Rendering.run_bind_eq_ok.mp hrun
  obtain ⟨hrecord, rfl⟩ := Rendering.run_lift_eq_ok.mp hread
  obtain ⟨rfl, rfl⟩ : ofExpression name expression options.exported isRecord = text ∧ s₂ = t := by
    cases hrun
    exact ⟨rfl, rfl⟩
  refine ⟨isRecord, defaultType, expression, hrecord, hdefault, hexpression,
    ofExpression_eq _ _ _ _, export_isPrefix_iff _ _ _ _, exists_interface_iff _ _ _ _, ?_⟩
  rintro rfl
  have hbody : IsRecordBody expression :=
    (Expression.convert_gives_recordBody rfl rfl hrecord).run hexpression
  exact ⟨hbody, hbody.closed_at_end⟩

/-- A document with a definition whose name has a line that looks like the end of a record. -/
def notesDocument : Json :=
  .obj [("definitions", .obj [
    ("Note", .obj [("properties", .obj [
      ("text", .obj [("type", .str "string"), ("description", .str "\x7d\n*/ \x7d")])])]),
    ("a\n\x7d", .obj [("type", .str "null")])])]

/-- A record that refers to both definitions. -/
def notesInUse : Json :=
  .obj [("required", .arr [.str "main"]), ("properties", .obj [
    ("main", .obj [("$ref", .str "#/definitions/Note")]),
    ("odd", .obj [("$ref", .str "#/definitions/a\n\x7d")])])]

/-- A host who lists the references that are met, and says of one name that it is under way. -/
def listing (name : String) : Host (List Json) where
  meet := fun reference met => (.ok (), met ++ [reference])
  underWay := fun other _ => other == name
  format := fun code _ met => (.ok code, met)

/-- The body of the interface of that record. -/
def notesBody : String :=
  "\x7b\n  /**\n   * [required]\n   */\n  main: \x7b\n    /**\n     * \x7d\n" ++
    "     * *\\/ \x7d\n     */\n    text?: string;\n  \x7d;\n  odd?: a\n  \x7d;\n\x7d"

/-- The name and the description that look like the end of a record are set in. -/
theorem ofSchema_interface_iff_notes :
    ∃ met, (ofSchema notesDocument { exported := true, deep := true } none "Notes" notesInUse).run
        (listing "a\n\x7d") [] = (.ok ("export interface Notes " ++ notesBody), met) ∧
      IsRecordBody notesBody ∧
      ∀ l ∈ (lines notesBody).dropLast, l.toList.head? ≠ some '\x7d' := by
  have htext : ((ofSchema notesDocument { exported := true, deep := true } none "Notes"
      notesInUse).run (listing "a\n\x7d") []).1.toOption =
        some ("export interface Notes " ++ notesBody) := by
    decide +kernel
  rcases hrun : (ofSchema notesDocument { exported := true, deep := true } none "Notes"
      notesInUse).run (listing "a\n\x7d") [] with ⟨e | text, met⟩ <;> rw [hrun] at htext
  · cases htext
  · obtain rfl := Option.some.inj htext
    obtain ⟨isRecord, defaultType, expression, hrecord, -, -, htext, -, -, hbody⟩ :=
      ofSchema_interface_iff _ _ _ _ _ _ _ _ hrun
    obtain rfl : true = isRecord := Except.ok.inj hrecord
    obtain rfl : notesBody = expression := String.append_right_inj _ |>.mp htext
    exact ⟨met, rfl, hbody rfl⟩

end Declaration

end SchemaTypes

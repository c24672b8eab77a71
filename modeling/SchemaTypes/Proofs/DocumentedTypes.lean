import SchemaTypes.Proofs.CodeLines
import SchemaTypes.Proofs.Grammar
import SchemaTypes.Proofs.Inlining
import SchemaTypes.Proofs.Likenesses

/-!
# Documentation in type expressions

Two schemas that differ in the words of their documentation are written step by step in the same
way, so they meet the same references, and what is written is the same code between other comments.
There is one place where a text is looked at again after it was written: an operand of an
intersection is put in parentheses if there is a bar in it, and this bar may stand in a comment. So
the code is the same if no comment has a bar between blanks.
-/

namespace SchemaTypes

open Text (OneLine Lacks IsCode IsAside Aside SameCode SameText bar)

/-! ## Block comments -/

namespace Comment

open Expression.Grammar (Marked)

/-- No line of a comment is its end, whatever stands behind the lead. -/
theorem strip_lead_ne (rest : String) : Text.strip (" * " ++ rest) ≠ "*/" := by
  intro h
  have hfront := Text.stripList_isPrefix (" * " ++ rest).toList
  have hdrop : Text.dropBlank (" * " ++ rest).toList = '*' :: ' ' :: rest.toList := by
    rw [String.toList_append]
    rfl
  have hstrip : Text.stripList (" * " ++ rest).toList = ['*', '/'] := by
    rw [← String.toList_ofList (l := Text.stripList _)]
    exact congrArg String.toList h
  rw [hdrop, hstrip, List.cons_prefix_cons, List.cons_prefix_cons] at hfront
  exact absurd hfront.2.1 (by decide)

/-- A line comment is its lines, and an empty one. -/
theorem lines_line {ls : List String} (honeLine : ∀ l ∈ ls, OneLine l) :
    Text.lines (text ⟨.line, ls⟩) = ls ++ [""] := by
  by_cases hne : ls = []
  · rw [hne]
    rfl
  · have htext : text ⟨.line, ls⟩ = Text.unlines ls ++ "\n" ++ "" := by
      obtain ⟨l, ls, rfl⟩ := List.exists_cons_of_ne_nil hne
      rw [String.append_empty]
      rfl
    rw [htext, Text.lines_stack, Text.lines_unlines hne honeLine]
    rfl

/-- A block comment that is not empty is a line for its start, its lines, and a line for its end. -/
theorem lines_block {ls : List String} (hne : ls ≠ []) (honeLine : ∀ l ∈ ls, OneLine l) :
    Text.lines (text ⟨.block, ls⟩) = ("/**" :: (ls ++ [" */"])) ++ [""] := by
  have htext : text ⟨.block, ls⟩ =
      "/**" ++ "\n" ++ (Text.unlines ls ++ "\n" ++ (" */" ++ "\n" ++ "")) := by
    cases ls with
    | nil => exact absurd rfl hne
    | cons l ls =>
      unfold text
      simp only [String.append_assoc]
      rfl
  rw [htext, Text.lines_stack, Text.lines_stack, Text.lines_stack, Text.lines_unlines hne honeLine,
    Text.lines_of_oneLine (t := "/**") (by decide), Text.lines_of_oneLine (t := " */") (by decide),
    Text.lines_of_oneLine (t := "") (by decide)]
  simp

/-- Every line of a comment is one line. -/
theorem oneLine_of_marked {c : Comment} (h : Marked c) :
    ∀ l ∈ c.lines, OneLine l := by
  intro l hl
  obtain ⟨rest, rfl, hrest⟩ := h l hl
  have hlead : OneLine c.style.lead := by
    cases c.style <;> decide
  exact hlead.append hrest

/-- A finished block comment is a line for its start, its lines, and a line for its end, if it is
not empty. -/
theorem lines_text {c : Comment} (hstyle : c.style = .block) (hmarked : Marked c) :
    ∃ ks, Text.lines c.text = ks ++ [""] ∧ (Text.contains bar c.text = false → Aside ks) := by
  have honeLine := oneLine_of_marked hmarked
  obtain ⟨style, ls⟩ := c
  obtain rfl : style = .block := hstyle
  have hls : ∀ l ∈ ls, ∃ rest, l = " * " ++ rest ∧ OneLine rest := hmarked
  cases ls with
  | nil => exact ⟨[], Text.lines_of_oneLine (by decide), fun _ => .none⟩
  | cons l ls =>
    have hlines := lines_block (List.cons_ne_nil l ls) honeLine
    refine ⟨_, hlines, fun hbar => .comment (by decide) (fun k hk => ?_) (by decide) fun k hk => ?_⟩
    · obtain ⟨rest, rfl, -⟩ := hls k hk
      exact strip_lead_ne rest
    · have hmem : k ∈ Text.lines (text ⟨.block, l :: ls⟩) := by
        rw [hlines]
        exact List.mem_append_left _ hk
      refine ⟨Text.oneLine_of_mem_lines hmem, ?_, ?_⟩
      · rw [Bool.eq_false_iff]
        intro hk
        rw [Text.contains_iff_lines (by decide) |>.mpr ⟨k, hmem, hk⟩] at hbar
        cases hbar
      · rcases List.mem_cons.mp hk with rfl | hk
        · decide
        · rcases List.mem_append.mp hk with hk | hk
          · obtain ⟨rest, rfl, -⟩ := hls k hk
            rw [String.toList_append]
            exact fun hhead => absurd (Option.some.inj hhead) (by decide)
          · rw [List.mem_singleton.mp hk]
            decide

end Comment

/-- The comments that documentation gives rise to have no bar between blanks. -/
def Documentation.Unbarred (doc : Documentation) : Prop :=
  ∀ required, ∀ comment ∈ (propertyComment .block doc required).toOption,
    Text.contains bar comment = false

instance (doc : Documentation) : Decidable doc.Unbarred :=
  inferInstanceAs (Decidable (∀ required,
    ∀ comment ∈ (propertyComment .block doc required).toOption, Text.contains bar comment = false))

theorem unbarred_empty : Documentation.Unbarred {} := by
  decide +kernel

/-- No comment that a value gives rise to has a bar between blanks. -/
def Json.Unbarred (v : Json) : Prop :=
  ∀ doc ∈ v.documentations, doc.Unbarred

instance (v : Json) : Decidable v.Unbarred :=
  inferInstanceAs (Decidable (∀ doc ∈ v.documentations, doc.Unbarred))

/-! ## Pieces of code -/

theorem Json.isCode_quote (s : String) : IsCode (quote s) :=
  ⟨oneLine_quote s, .inr ⟨'"', by simp [quote, quoteList], by decide⟩⟩

theorem Json.isCode_text (v : Json) : IsCode v.text := by
  have honeLine := v.oneLine_text
  cases v with
  | null => decide
  | bool b => cases b <;> decide
  | int n => exact ⟨honeLine, .inl (Decimal.lacks_int (by decide) n)⟩
  | float x =>
    exact ⟨honeLine, .inl (Decimal.Layout.lacks_float (by decide) (by decide) (by decide) x)⟩
  | str s => exact isCode_quote s
  | arr items => exact ⟨honeLine, .inr ⟨'[', by simp [text], by decide⟩⟩
  | obj members => exact ⟨honeLine, .inr ⟨'\x7b', by simp [text], by decide⟩⟩

namespace Expression

open Schema (Node Property)

theorem isCode_of_isIdentifier {name : String} (h : isIdentifier name = true) : IsCode name :=
  ⟨lacks_of_isIdentifier h (by decide), .inl (lacks_of_isIdentifier h (by decide))⟩

theorem isCode_propertyKey (name : String) : IsCode (propertyKey name) := by
  unfold propertyKey
  split
  · next h => exact isCode_of_isIdentifier h
  · exact Json.isCode_quote name

theorem isCode_primitiveType (name : Schema.Primitive) : IsCode (primitiveType name) :=
  ⟨oneLine_primitiveType name, .inl (by cases name <;> decide)⟩

theorem isCode_defaultType (type : DefaultType) : IsCode type.name :=
  ⟨oneLine_defaultType type, .inl (by cases type <;> decide)⟩

/-! ## Trees -/

section Trees

variable {underWay : String → Bool} {α β : Type}

/-- The texts of two lists of things are related if those of the things are. -/
theorem collect_coupled {S : α → β → Prop} {R : List String → List String → Prop} (hnil : R [] [])
    (happend : ∀ {ts ts' us us'}, R ts ts' → R us us' → R (ts ++ us) (ts' ++ us'))
    {one : α → Rendering (List String)} {one' : β → Rendering (List String)} {l : List α}
    {l' : List β} (hl : List.Forall₂ S l l')
    (h : ∀ a ∈ l, ∀ b, S a b → (one a).Coupled underWay R (one' b)) :
    (collect one l).Coupled underWay R (collect one' l') := by
  induction hl with
  | nil => exact Rendering.coupled_pure hnil
  | @cons a b _ _ hab _ ih =>
    rw [collect, collect]
    refine (h a List.mem_cons_self b hab).bind fun texts texts' htexts => ?_
    refine (ih fun c hc d => h c (List.mem_cons_of_mem a hc) d).bind
      fun others others' hothers => ?_
    exact Rendering.coupled_pure (happend htexts hothers)

variable {Q : Prop} {document document' : Json} {settings : Settings}

/-- Things with lines of the same code are enclosed in texts of the same code. -/
theorem block_coupled {opening closing : String} (hopening : IsCode opening)
    (hclosing : IsCode closing) {S : α → β → Prop} {one : α → Rendering (List String)}
    {one' : β → Rendering (List String)} {l : List α} {l' : List β} (hl : List.Forall₂ S l l')
    (h : ∀ a ∈ l, ∀ b, S a b →
      (one a).Coupled underWay (fun ls ls' => Q → SameCode ls ls') (one' b)) :
    (block opening closing <$> collect one l).Coupled underWay (fun t t' => Q → SameText t t')
      (block opening closing <$> collect one' l') :=
  (collect_coupled (R := fun ls ls' => Q → SameCode ls ls') (fun _ => .nil)
    (fun h h' hq => (h hq).append (h' hq)) hl h).map
      fun _ _ hls hq => .enclose hopening hclosing (hls hq)

/-- Things with texts of the same code are joined to texts of the same code. -/
theorem join_coupled {sep : String} (hsep : IsCode sep) {S : α → β → Prop}
    {one : α → Rendering (List String)} {one' : β → Rendering (List String)} {l : List α}
    {l' : List β} (hl : List.Forall₂ S l l')
    (h : ∀ a ∈ l, ∀ b, S a b →
      (one a).Coupled underWay (fun ts ts' => Q → List.Forall₂ SameText ts ts') (one' b)) :
    (Text.join sep <$> collect one l).Coupled underWay (fun t t' => Q → SameText t t')
      (Text.join sep <$> collect one' l') :=
  (collect_coupled (R := fun ts ts' => Q → List.Forall₂ SameText ts ts') (fun _ => .nil)
    (fun h h' hq => List.rel_append (h hq) (h' hq)) hl h).map fun _ _ hts hq => .join hsep (hts hq)

/-- Documentation whose comments have no bar between blanks, under a condition. -/
abbrev UnbarredIf (Q : Prop) (doc : Documentation) : Prop :=
  Q → doc.Unbarred

theorem arrayOf_sameText {node node' : Node} (hnode : node.Alike (UnbarredIf Q) node')
    {t t' : String} (h : SameText t t') : SameText (arrayOf node t) (arrayOf node' t') := by
  have hitems : SameText (t ++ "[]") (t' ++ "[]") := h.append (.refl (by decide))
  have hoperands : SameText ("(" ++ t ++ ")[]") ("(" ++ t' ++ ")[]") :=
    ((SameText.refl (by decide)).append h).append (.refl (by decide))
  cases hnode with
  | record => exact ((SameText.refl (by decide)).append h).append (.refl (by decide))
  | enumeration => exact hoperands
  | union => exact hoperands
  | intersection => exact hoperands
  | _ => exact hitems

/-- Operands are put in parentheses for the same bars. -/
theorem operandOf_sameText {node node' : Node} (hnode : node.Alike (UnbarredIf Q) node')
    {t t' : String} (h : SameText t t') : SameText (operandOf node t) (operandOf node' t') := by
  have hkind : isAlternative node = isAlternative node' := by
    cases hnode <;> rfl
  have hbar : Text.contains " | " t = Text.contains " | " t' := h.contains_bar
  unfold operandOf
  rw [hkind, hbar]
  split
  · exact ((SameText.refl (by decide)).append h).append (.refl (by decide))
  · exact h

theorem indented_eq (hindent : settings.indent = .ok "  ") (text : String) :
    Scope.indented ⟨document, settings⟩ text = .ok ((Text.lines text).map ("  " ++ ·)) := by
  unfold Scope.indented
  rw [hindent]
  rfl

/-- Places with types of the same code have lines of the same code. -/
theorem ofPlace_coupled (hindent : settings.indent = .ok "  ") {f f' : Json → Rendering String}
    {item item' : Node}
    (h : (ofNode ⟨document, settings⟩ f item).Coupled underWay (fun t t' => Q → SameText t t')
      (ofNode ⟨document', settings⟩ f' item')) :
    (ofPlace ⟨document, settings⟩ f item).Coupled underWay (fun ls ls' => Q → SameCode ls ls')
      (ofPlace ⟨document', settings⟩ f' item') := by
  refine h.bind fun t t' ht => ?_
  rw [indented_eq hindent, indented_eq hindent]
  refine Rendering.coupled_lift (coupled_ok fun hq => SameCode.margin (SameText.sameCode ?_))
  exact (ht hq).append (.refl (by decide))

variable (hdocument : document.Alike (UnbarredIf Q) document')

include hdocument

/-- Comments are written as lines of comments, and these have no bars under a condition. -/
theorem commentOf_coupled (hstyle : settings.style = .ok .block) {type type' : Node}
    (htype : type.Alike (UnbarredIf Q) type') (required : Bool) :
    Coupled (fun c c' => ∃ ks ks', Text.lines c = ks ++ [""] ∧ Text.lines c' = ks' ++ [""] ∧
        (Q → Aside ks ∧ Aside ks'))
      (Scope.commentOf ⟨document, settings⟩ type required)
      (Scope.commentOf ⟨document', settings⟩ type' required) := by
  have hempty : UnbarredIf Q {} := fun _ => unbarred_empty
  unfold Scope.commentOf
  dsimp only
  rw [hstyle]
  refine (described_coupled hempty hdocument htype).bind fun node node' hnode => ?_
  intro comment comment' hcomment hcomment'
  change propertyComment .block node.info.doc required = _ at hcomment
  change propertyComment .block node'.info.doc required = _ at hcomment'
  obtain ⟨remark, hblock, rfl⟩ := Grammar.exists_remark hcomment
  obtain ⟨remark', hblock', rfl⟩ := Grammar.exists_remark hcomment'
  obtain ⟨ks, hlines, haside⟩ := Comment.lines_text hblock remark.marked
  obtain ⟨ks', hlines', haside'⟩ := Comment.lines_text hblock' remark'.marked
  refine ⟨ks, ks', hlines, hlines', fun hq => ⟨haside ?_, haside' ?_⟩⟩
  · exact hnode.info.left hq required _ (by rw [hcomment]; rfl)
  · exact hnode.info.right hq required _ (by rw [hcomment']; rfl)

theorem arrayText_coupled {item item' : Node} (hitem : item.Alike (UnbarredIf Q) item')
    {t t' : String} (h : Q → SameText t t') :
    Coupled (fun u u' => Q → SameText u u') (Scope.arrayText ⟨document, settings⟩ item t)
      (Scope.arrayText ⟨document', settings⟩ item' t') := by
  have hempty : UnbarredIf Q {} := fun _ => unbarred_empty
  have hdescribed : Coupled (fun u u' => Q → SameText u u')
      ((arrayOf · t) <$> described document item) ((arrayOf · t') <$> described document' item') :=
    (described_coupled hempty hdocument hitem).map fun _ _ hnode hq => arrayOf_sameText hnode (h hq)
  unfold Scope.arrayText
  dsimp only
  cases hitem with
  | reference =>
    cases settings.deep with
    | true => exact hdescribed
    | false =>
      exact coupled_ok fun hq => (h hq).append (.refl (by decide))
  | _ => exact hdescribed

theorem operandText_coupled {part part' : Node} (hpart : part.Alike (UnbarredIf Q) part')
    {t t' : String} (h : Q → SameText t t') :
    Coupled (fun u u' => Q → SameText u u') (Scope.operandText ⟨document, settings⟩ part t)
      (Scope.operandText ⟨document', settings⟩ part' t') := by
  have hempty : UnbarredIf Q {} := fun _ => unbarred_empty
  exact (described_coupled hempty hdocument hpart).map fun _ _ hnode hq =>
    operandOf_sameText hnode (h hq)

/-- Properties with types of the same code have lines of the same code. -/
theorem ofProperty_coupled (hstyle : settings.style = .ok .block)
    (hindent : settings.indent = .ok "  ") {f f' : Json → Rendering String} {p p' : Property}
    (hp : p.Alike (UnbarredIf Q) p')
    (h : (ofNode ⟨document, settings⟩ f p.type).Coupled underWay (fun t t' => Q → SameText t t')
      (ofNode ⟨document', settings⟩ f' p'.type)) :
    (ofProperty ⟨document, settings⟩ f p).Coupled underWay (fun ls ls' => Q → SameCode ls ls')
      (ofProperty ⟨document', settings⟩ f' p') := by
  cases hp with
  | mk path path' name required htype =>
    refine (Rendering.coupled_lift (commentOf_coupled hdocument hstyle htype required)).bind
      fun comment comment' hcomment => h.bind fun text text' htext => ?_
    dsimp only
    rw [indented_eq hindent, indented_eq hindent]
    refine Rendering.coupled_lift (coupled_ok fun hq => SameCode.margin ?_)
    obtain ⟨ks, ks', hks, hks', haside⟩ := hcomment
    have hmark : SameText (if required then "" else "?") (if required then "" else "?") := by
      split <;> exact .refl (by decide)
    have hmember := ((((SameText.refl (isCode_propertyKey name)).append hmark).append
      (.refl (t := ": ") (by decide))).append (htext hq)).append (.refl (t := ";") (by decide))
    have hlines := hmember.behind hks hks' (haside hq).1 (haside hq).2
    simp only [← String.append_assoc] at hlines
    exact hlines

/-- The operands of parts that are alike are of the same code, if the parts are. -/
theorem ofPart_coupled {f f' : Json → Rendering String} {part part' : Node}
    (hpart : part.Alike (UnbarredIf Q) part')
    (h : (ofNode ⟨document, settings⟩ f part).Coupled underWay (fun t t' => Q → SameText t t')
      (ofNode ⟨document', settings⟩ f' part')) :
    (ofPart ⟨document, settings⟩ f part).Coupled underWay
      (fun ts ts' => Q → List.Forall₂ SameText ts ts') (ofPart ⟨document', settings⟩ f' part') :=
  h.bind fun _ _ ht => (Rendering.coupled_lift (operandText_coupled hdocument hpart ht)).map
    fun _ _ hu hq => .cons (hu hq) .nil

/-- The trees of values that are alike are written as the same code, if their references are. -/
theorem ofNode_coupled (hstyle : settings.style = .ok .block) (hindent : settings.indent = .ok "  ")
    {f f' : Json → Rendering String} {node node' : Node} (hnode : node.Alike (UnbarredIf Q) node')
    (h : ∀ target ∈ node.targets, ∀ target', target.Alike (UnbarredIf Q) target' →
      (f target).Coupled underWay (fun t t' => Q → SameText t t') (f' target')) :
    (ofNode ⟨document, settings⟩ f node).Coupled underWay (fun t t' => Q → SameText t t')
      (ofNode ⟨document', settings⟩ f' node') := by
  have hfixed : ∀ {t : String}, IsCode t →
      (pure t : Rendering String).Coupled underWay (fun t t' => Q → SameText t t') (pure t) :=
    fun ht => Rendering.coupled_pure fun _ => .refl ht
  -- Trees that are alike have the same shape, so in each case one tree tells that of the other.
  induction node generalizing node' with
  | reference info target =>
    cases hnode with
    | reference _ htarget =>
      rw [ofNode_reference, ofNode_reference]
      exact h target (by simp [Node.targets]) _ htarget
  | enumeration info values =>
    cases hnode
    refine hfixed (Text.IsCode.join (by decide) fun t ht => ?_)
    obtain ⟨v, -, rfl⟩ := List.mem_map.mp ht
    exact v.isCode_text
  | primitive info name =>
    cases hnode
    exact hfixed (isCode_primitiveType name)
  | openArray info =>
    cases hnode
    exact hfixed (by decide)
  | unknown info declared =>
    cases hnode
    exact hfixed (isCode_defaultType _)
  | record info properties required ih =>
    cases hnode with
    | @record _ _ _ properties' _ hproperties =>
      rw [ofNode_record, ofNode_record]
      cases hproperties with
      | nil => exact hfixed (by decide)
      | @cons p p' ps ps' hp hps =>
        rw [if_neg (by simp), if_neg (by simp)]
        refine block_coupled (by decide) (by decide) (.cons hp hps) fun q hq q' hqq' => ?_
        refine ofProperty_coupled hdocument hstyle hindent hqq' (ih q hq ?_ fun target ht => ?_)
        · cases hqq' with
          | mk _ _ _ _ htype => exact htype
        · exact h target (Schema.mem_targets_record hq ht)
  | array info item ih =>
    cases hnode with
    | array _ hitem =>
      rw [ofNode_array, ofNode_array]
      exact (ih hitem fun target ht => h target (by rwa [Node.targets])).bind fun t t' ht =>
        Rendering.coupled_lift (arrayText_coupled hdocument hitem ht)
  | tuple info items ih =>
    cases hnode with
    | tuple _ hitems =>
      rw [ofNode_tuple, ofNode_tuple]
      refine block_coupled (by decide) (by decide) hitems
        fun item hitem item' halike => ?_
      refine ofPlace_coupled hindent (ih item hitem halike fun target ht => h target ?_)
      exact Schema.mem_nodeTargets.mpr ⟨item, hitem, ht⟩
  | union info choice variants ih =>
    cases hnode with
    | union _ _ hvariants =>
      rw [ofNode_union, ofNode_union]
      refine join_coupled (by decide) hvariants fun variant hvariant variant' halike => ?_
      refine (ih variant hvariant halike fun target ht => h target ?_).map fun t t' ht hq =>
        .cons (ht hq) .nil
      exact Schema.mem_nodeTargets.mpr ⟨variant, hvariant, ht⟩
  | intersection info parts ih =>
    cases hnode with
    | intersection _ hparts =>
      rw [ofNode_intersection, ofNode_intersection]
      refine join_coupled (by decide) hparts fun part hpart part' halike => ?_
      refine ofPart_coupled hdocument halike (ih part hpart halike fun target ht => h target ?_)
      exact Schema.mem_nodeTargets.mpr ⟨part, hpart, ht⟩

end Trees

/-! ## References and schemas -/

section Schemas

variable {underWay : String → Bool} {Q : Prop} {document document' schema schema' : Json}
  {settings : Settings}

/-- A reference is named or inlined alike, if its name is an identifier and the targets are written
alike. -/
theorem ofReference_coupled (hdocument : document.Alike (UnbarredIf Q) document')
    {inlined inlined' : List String → Node → Rendering String} {inlining : List String}
    {target target' : Json} (htarget : target.Alike (UnbarredIf Q) target')
    (hname : ∀ name, Reference.displayNameOf target = .ok name → isIdentifier name = true)
    (h : ∀ name node node', targetNode document target = .ok node →
      node.Alike (UnbarredIf Q) node' →
        (inlined (name :: inlining) node).Coupled underWay (fun t t' => Q → SameText t t')
          (inlined' (name :: inlining) node')) :
    (ofReference ⟨document, settings⟩ inlined inlining target).Coupled underWay
      (fun t t' => Q → SameText t t')
      (ofReference ⟨document', settings⟩ inlined' inlining target') := by
  have hempty : UnbarredIf Q {} := fun _ => unbarred_empty
  cases hdisplay : Reference.displayNameOf target with
  | error e =>
    rw [ofReference_of_error hdisplay]
    intro met met' t t' ht
    rw [Rendering.observe_bind, Rendering.observe_meet] at ht
    cases ht
  | ok name =>
    obtain ⟨r, rfl, -⟩ := displayNameOf_eq_ok.mp hdisplay
    obtain rfl := htarget.eq_of_not_isContainer rfl
    have hnamed : (pure name : Rendering String).Coupled underWay (fun t t' => Q → SameText t t')
        (pure name) :=
      Rendering.coupled_pure fun _ => .refl (isCode_of_isIdentifier (hname name hdisplay))
    rw [ofReference_of_ok hdisplay, ofReference_of_ok hdisplay]
    refine (Rendering.coupled_refl (Rendering.meet (.str r))).bind fun _ _ _ => ?_
    dsimp only
    split
    · exact hnamed
    · refine (Rendering.coupled_refl (Rendering.ask name)).bind fun b b' hb => ?_
      subst hb
      split
      · exact hnamed
      · refine (Rendering.coupled_lift (R := fun node node' =>
          targetNode document (.str r) = .ok node ∧ node.Alike (UnbarredIf Q) node')
          fun node node' hnode hnode' => ⟨hnode, ?_⟩).bind fun node node' hnode =>
            h name node node' hnode.1 hnode.2
        exact targetNode_coupled hempty hdocument htarget node node' hnode hnode'

theorem ofTree_coupled (hdocument : document.Alike (UnbarredIf Q) document')
    (hstyle : settings.style = .ok .block) (hindent : settings.indent = .ok "  ")
    (hnames : ∀ name ∈ displayNames document schema, isIdentifier name = true) (bound : Nat)
    (inlining : List String) {node node' : Node} (hlocal : IsLocal document schema node)
    (hnode : node.Alike (UnbarredIf Q) node') :
    (ofTree ⟨document, settings⟩ bound inlining node).Coupled underWay
      (fun t t' => Q → SameText t t') (ofTree ⟨document', settings⟩ bound inlining node') := by
  induction bound generalizing inlining node node' with
  | zero => exact Rendering.coupled_failed _ _
  | succ bound ih =>
    refine ofNode_coupled hdocument hstyle hindent hnode fun target htarget target' halike => ?_
    refine ofReference_coupled hdocument halike (fun name hname => ?_)
      fun name next next' hnext hnextAlike => ?_
    · exact hnames name (mem_displayNames_of_mem_targets hlocal htarget hname)
    · exact ih (name :: inlining) (isLocal_of_targetNode hnext) hnextAlike

theorem ofSchema_coupled (hdocument : document.Alike (UnbarredIf Q) document')
    (hschema : schema.Alike (UnbarredIf Q) schema') (hstyle : settings.style = .ok .block)
    (hindent : settings.indent = .ok "  ")
    (hnames : ∀ name ∈ displayNames document schema, isIdentifier name = true) :
    (ofSchema document settings schema).Coupled underWay (fun t t' => Q → SameText t t')
      (ofSchema document' settings schema') := by
  have hempty : UnbarredIf Q {} := fun _ => unbarred_empty
  have hbound : nestingBound document' schema' = nestingBound document schema := by
    unfold nestingBound displayNames
    rw [hdocument.references, hschema.references]
  unfold ofSchema
  rw [← hschema.truthy, hbound]
  split
  · refine (Rendering.coupled_lift (R := fun node node' =>
      Node.ofJson schema "#" = .ok node ∧ node.Alike (UnbarredIf Q) node')
      fun node node' hnode hnode' => ⟨hnode, ?_⟩).bind fun node node' hnode => ?_
    · exact Node.ofJson_coupled hempty hschema "#" "#" node node' hnode hnode'
    · exact ofTree_coupled hdocument hstyle hindent hnames _ [] (isLocal_of_ofJson hnode.1) hnode.2
  · exact Rendering.coupled_pure fun _ => .refl (isCode_defaultType _)

/-- Schemas and documents that differ in the words of their documentation meet the same references,
and they are written as the same code, unless there is a bar between blanks in a comment. -/
theorem ofSchema_withoutComments (hstyle : settings.style = .ok .block)
    (hindent : settings.indent = .ok "  ")
    (hdocument : document.undocumented = document'.undocumented)
    (hschema : schema.undocumented = schema'.undocumented)
    (hnames : ∀ name ∈ displayNames document schema, isIdentifier name = true)
    {met met' : List Json} {text text' : String}
    (hrun : (ofSchema document settings schema).observe underWay = (met, .ok text))
    (hrun' : (ofSchema document' settings schema').observe underWay = (met', .ok text')) :
    met = met' ∧ ((∀ v ∈ [schema, document, schema', document'], v.Unbarred) →
      Text.withoutComments text = Text.withoutComments text') := by
  have halike : ∀ {v v' : Json}, v ∈ [schema, document, schema', document'] →
      v' ∈ [schema, document, schema', document'] → v.undocumented = v'.undocumented →
        v.Alike (UnbarredIf (∀ v ∈ [schema, document, schema', document'], v.Unbarred)) v' :=
    fun hv hv' hsame => ⟨hsame, fun d hd hq => hq _ hv d hd, fun d hd hq => hq _ hv' d hd⟩
  obtain ⟨hmet, htext⟩ := ofSchema_coupled (halike (by simp) (by simp) hdocument)
    (halike (by simp) (by simp) hschema) hstyle hindent hnames met met' text text' hrun hrun'
  exact ⟨hmet, fun hq => (htext hq).withoutComments_eq⟩

end Schemas

/-! ## Documentation that matters, and documentation that does not -/

theorem exists_observe {x : Rendering String} {underWay : String → Bool} {text : String}
    (h : (x.observe underWay).2.toOption = some text) :
    ∃ met, x.observe underWay = (met, .ok text) := by
  rcases hend : x.observe underWay with ⟨met, e | t⟩ <;> rw [hend] at h <;> cases h
  exact ⟨met, rfl⟩

/-- Settings with block comments. -/
def blockComments : Settings where
  style := .ok .block

/-- A document with one definition, whose title and whose property's description are given. -/
def pets (title description : String) : Json :=
  .obj [("definitions", .obj [("Pet", .obj [("title", .str title), ("properties",
    .obj [("name", .obj [("type", .str "string"), ("description", .str description)])])])])]

/-- A schema that refers to that definition. -/
def owner : Json :=
  .obj [("properties", .obj [("pet", .obj [("$ref", .str "#/definitions/Pet")])])]

/-- With comments and without them, an owner is written as the same code. -/
theorem ofSchema_withoutComments_pets :
    (pets "A pet" "Its name.\n*/ once").undocumented = (pets "" "").undocumented ∧
      (∀ name ∈ displayNames (pets "A pet" "Its name.\n*/ once") owner,
        isIdentifier name = true) ∧
      ∃ met text, (ofSchema (pets "A pet" "Its name.\n*/ once") blockComments owner).observe
          (fun _ => false) = (met, .ok text) ∧
        (ofSchema (pets "" "") blockComments owner).observe (fun _ => false) =
          (met, .ok "\x7b\n  pet?: \x7b\n    name?: string;\n  \x7d;\n\x7d") ∧
        Text.withoutComments text = "\x7b\n  pet?: \x7b\n    name?: string;\n  \x7d;\n\x7d" := by
  have hsame : (pets "A pet" "Its name.\n*/ once").undocumented = (pets "" "").undocumented := by
    rfl
  have hnames : ∀ name ∈ displayNames (pets "A pet" "Its name.\n*/ once") owner,
      isIdentifier name = true := by
    decide +kernel
  have htext : ((ofSchema (pets "A pet" "Its name.\n*/ once") blockComments owner).observe
      fun _ => false).2.toOption =
        some ("\x7b\n  /**\n   * A pet\n   * ---\n   */\n  pet?: \x7b\n    /**\n" ++
          "     * Its name.\n     * *\\/ once\n     */\n    name?: string;\n  \x7d;\n\x7d") := by
    decide +kernel
  have htext' : ((ofSchema (pets "" "") blockComments owner).observe fun _ => false).2.toOption =
      some "\x7b\n  pet?: \x7b\n    name?: string;\n  \x7d;\n\x7d" := by
    decide +kernel
  obtain ⟨met, hrun⟩ := exists_observe htext
  obtain ⟨met', hrun'⟩ := exists_observe htext'
  obtain ⟨rfl, hcode⟩ := ofSchema_withoutComments rfl rfl hsame rfl hnames hrun hrun'
  refine ⟨hsame, hnames, met, _, hrun, hrun', ?_⟩
  rw [hcode (by decide +kernel)]
  decide +kernel

/-- A schema of one part, which has one branch, with a description inside. -/
def onlyBranch (description : String) : Json :=
  .obj [("allOf", .arr [.obj [("oneOf", .arr [.obj [("type", .str "object"), ("properties",
    .obj [("a", .obj [("type", .str "string"), ("description", .str description)])])]])]])]

/-- A bar in a description brings parentheses into the code. -/
theorem ofSchema_bar_in_description :
    (onlyBranch "x | y").undocumented = (onlyBranch "x, y").undocumented ∧
      displayNames (.obj []) (onlyBranch "x | y") = [] ∧
      ∃ met met' text text',
        (ofSchema (.obj []) blockComments (onlyBranch "x | y")).observe (fun _ => false) =
          (met, .ok text) ∧
        (ofSchema (.obj []) blockComments (onlyBranch "x, y")).observe (fun _ => false) =
          (met', .ok text') ∧
        Text.withoutComments text = "(\x7b\n  a?: string;\n\x7d)" ∧
        Text.withoutComments text' = "\x7b\n  a?: string;\n\x7d" := by
  have htext : ((ofSchema (.obj []) blockComments (onlyBranch "x | y")).observe
      fun _ => false).2.toOption =
        some "(\x7b\n  /**\n   * x | y\n   */\n  a?: string;\n\x7d)" := by
    decide +kernel
  have htext' : ((ofSchema (.obj []) blockComments (onlyBranch "x, y")).observe
      fun _ => false).2.toOption =
        some "\x7b\n  /**\n   * x, y\n   */\n  a?: string;\n\x7d" := by
    decide +kernel
  obtain ⟨met, hrun⟩ := exists_observe htext
  obtain ⟨met', hrun'⟩ := exists_observe htext'
  exact ⟨rfl, rfl, met, met', _, _, hrun, hrun', by decide +kernel, by decide +kernel⟩

end Expression

end SchemaTypes

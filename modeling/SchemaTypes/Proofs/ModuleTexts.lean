import SchemaTypes.Proofs.DependencyOrder
import SchemaTypes.Proofs.Paragraphs

/-!
# The text of a module falls into its declarations

No declaration has an empty line, whatever titles, descriptions, property names and values it is
made from: what stands inside brackets is indented, so that its lines are not empty, and the rest
is written on one line. So the blank lines in the text of a module are those between its parts, and
cutting it there gives the header and the declarations back.

`Rendering.Gives` says what values a rendering can end with, whatever it is answered; it is what a
run then ends with.
-/

namespace SchemaTypes

open Text (OneLine Unbroken)

/-! ## The values of renderings -/

namespace Rendering

variable {α β σ : Type}

/-- A rendering ends with values of a certain kind only, whatever it is answered. -/
def Gives (P : α → Prop) : Rendering α → Prop
  | done a => P a
  | failed _ => True
  | meets _ rest => rest.Gives P
  | asks _ rest => ∀ b, (rest b).Gives P
  | formats _ _ rest => ∀ t, (rest t).Gives P

variable {P : α → Prop} {Q : β → Prop}

theorem gives_pure {a : α} (h : P a) : (pure a : Rendering α).Gives P := h

theorem gives_lift {x : Except Failure α} (h : ∀ a, x = .ok a → P a) :
    (liftM x : Rendering α).Gives P := by
  cases x with
  | ok a => exact h a rfl
  | error e => exact trivial

theorem Gives.bind {x : Rendering α} {f : α → Rendering β} (hx : x.Gives P)
    (hf : ∀ a, P a → (f a).Gives Q) : (x >>= f).Gives Q := by
  change (x.bind f).Gives Q
  induction x with
  | done a => exact hf a hx
  | failed e => exact trivial
  | meets r rest ih => exact ih hx
  | asks n rest ih => exact fun b => ih b (hx b)
  | formats c o rest ih => exact fun t => ih t (hx t)

theorem Gives.mono {P Q : α → Prop} {x : Rendering α} (h : x.Gives P) (hPQ : ∀ a, P a → Q a) :
    x.Gives Q := by
  have hbind : (x >>= pure).Gives Q := h.bind fun a ha => gives_pure (hPQ a ha)
  rwa [bind_pure] at hbind

theorem Gives.map {x : Rendering α} {f : α → β} (hx : x.Gives P) (hf : ∀ a, P a → Q (f a)) :
    (f <$> x).Gives Q := by
  rw [map_eq_pure_bind]
  exact hx.bind fun a ha => gives_pure (hf a ha)

/-- Nothing is known of the values of a rendering in general. -/
theorem gives_true (x : Rendering α) : x.Gives fun _ => True := by
  induction x with
  | done a => exact trivial
  | failed e => exact trivial
  | meets r rest ih => exact ih
  | asks n rest ih => exact ih
  | formats c o rest ih => exact ih

/-- A run ends with one of the values that the rendering can end with. -/
theorem Gives.run {host : Host σ} {x : Rendering α} (hx : x.Gives P) {s t : σ} {a : α}
    (h : x.run host s = (.ok a, t)) : P a := by
  induction x generalizing s with
  | done b =>
    cases h
    exact hx
  | failed e => cases h
  | meets r rest ih =>
    obtain ⟨s', -, hrest⟩ := run_meets_eq_ok.mp h
    exact ih hx hrest
  | asks n rest ih => exact ih _ (hx _) h
  | formats c o rest ih =>
    obtain ⟨text, s', -, hrest⟩ := run_formats_eq_ok.mp h
    exact ih text (hx text) hrest

end Rendering

/-! ## Type expressions -/

namespace Expression

open Schema (Node Property)

/-- A line inside brackets: it is not empty, and it is one. -/
def IsLine (l : String) : Prop := l ≠ "" ∧ OneLine l

theorem collect_gives {α : Type} {Q : String → Prop} {one : α → Rendering (List String)}
    {l : List α} (h : ∀ a ∈ l, (one a).Gives fun ts => ∀ t ∈ ts, Q t) :
    (collect one l).Gives fun ts => ∀ t ∈ ts, Q t := by
  induction l with
  | nil => exact Rendering.gives_pure (by simp)
  | cons a rest ih =>
    rw [collect]
    refine (h a List.mem_cons_self).bind fun texts htexts => ?_
    refine (ih fun b hb => h b (List.mem_cons_of_mem a hb)).bind fun others hothers => ?_
    refine Rendering.gives_pure fun t ht => ?_
    rcases List.mem_append.mp ht with ht | ht
    · exact htexts t ht
    · exact hothers t ht

theorem unbroken_block {opening closing : String} (hopening : IsLine opening)
    (hclosing : IsLine closing) {body : List String} (hbody : ∀ l ∈ body, IsLine l) :
    Unbroken (block opening closing body) := by
  refine (Text.unbroken_unlines fun l hl => ?_).1
  rcases List.mem_append.mp hl with hl | hl
  · rcases List.mem_cons.mp hl with rfl | hl
    · exact hopening
    · exact hbody l hl
  · rw [List.mem_singleton.mp hl]
    exact hclosing

variable {s : Scope} {f : Json → Rendering String}

/-- Lines that are indented are not empty. -/
theorem indented_lines (hindent : s.settings.indent = .ok "  ") {text : String}
    {ls : List String} (h : s.indented text = .ok ls) : ∀ l ∈ ls, IsLine l := by
  unfold Scope.indented at h
  rw [hindent] at h
  obtain rfl := Except.ok.inj h
  refine fun l hl => ⟨?_, Text.oneLine_of_mem_indentLines (by decide) hl⟩
  obtain ⟨line, -, rfl⟩ := List.mem_map.mp hl
  simp

theorem unbroken_arrayOf (node : Node) {item : String} (h : Unbroken item) :
    Unbroken (arrayOf node item) := by
  have hshort : ∀ {t : String}, OneLine t → Unbroken t := Text.unbroken_of_oneLine
  unfold arrayOf
  split
  · exact ((hshort (by decide)).append h).append (hshort (by decide))
  · split
    · exact ((hshort (by decide)).append h).append (hshort (by decide))
    · exact h.append (hshort (by decide))

theorem unbroken_operandOf (node : Node) {part : String} (h : Unbroken part) :
    Unbroken (operandOf node part) := by
  have hshort : ∀ {t : String}, OneLine t → Unbroken t := Text.unbroken_of_oneLine
  unfold operandOf
  split
  · exact ((hshort (by decide)).append h).append (hshort (by decide))
  · exact h

/-- The brackets around items add no empty line. -/
theorem unbroken_arrayText {item : Node} {text array : String} (htext : Unbroken text)
    (harray : s.arrayText item text = .ok array) : Unbroken array := by
  unfold Scope.arrayText at harray
  split at harray
  · obtain rfl := Except.ok.inj harray
    exact htext.append (Text.unbroken_of_oneLine (by decide))
  · obtain ⟨node, -, rfl⟩ := map_eq_ok.mp harray
    exact unbroken_arrayOf node htext

/-- The brackets around a part add no empty line. -/
theorem unbroken_operandText {part : Node} {text operand : String} (htext : Unbroken text)
    (hoperand : s.operandText part text = .ok operand) : Unbroken operand := by
  obtain ⟨node, -, rfl⟩ := map_eq_ok.mp hoperand
  exact unbroken_operandOf node htext

/-- The lines of a property are those of some text that is set in. -/
theorem ofProperty_gives_indented {P : List String → Prop}
    (h : ∀ text ls, s.indented text = .ok ls → P ls) (p : Property) :
    (ofProperty s f p).Gives P := by
  refine (Rendering.gives_true _).bind fun comment _ => ?_
  refine (Rendering.gives_true _).bind fun text _ => ?_
  exact Rendering.gives_lift (h _)

/-- The lines of a place of a tuple are those of some text that is set in. -/
theorem ofPlace_gives_indented {P : List String → Prop}
    (h : ∀ text ls, s.indented text = .ok ls → P ls) (item : Node) :
    (ofPlace s f item).Gives P :=
  (Rendering.gives_true _).bind fun _ _ => Rendering.gives_lift (h _)

/-- The operand of a part has no empty lines if the part has none. -/
theorem ofPart_gives {part : Node} (h : (ofNode s f part).Gives Unbroken) :
    (ofPart s f part).Gives fun ts => ∀ t ∈ ts, Unbroken t := by
  refine h.bind fun text htext => ?_
  have hoperand : (liftM (s.operandText part text) : Rendering String).Gives Unbroken :=
    Rendering.gives_lift fun operand => unbroken_operandText htext
  exact hoperand.map fun operand hoperand => by simpa using hoperand

/-- A tree is written without empty lines, if its references are. -/
theorem ofNode_gives (hindent : s.settings.indent = .ok "  ") {node : Node}
    (h : ∀ target ∈ node.targets, (f target).Gives Unbroken) :
    (ofNode s f node).Gives Unbroken := by
  have hshort : ∀ {t : String}, OneLine t → Unbroken t := Text.unbroken_of_oneLine
  have hblock : ∀ {opening closing : String}, IsLine opening → IsLine closing →
      ∀ {lines : Rendering (List String)}, (lines.Gives fun ls => ∀ l ∈ ls, IsLine l) →
        (block opening closing <$> lines).Gives Unbroken :=
    fun hopening hclosing _ hlines => hlines.map fun _ => unbroken_block hopening hclosing
  induction node with
  | reference info target => exact h target (by simp [Node.targets])
  | enumeration info values =>
    refine Rendering.gives_pure (Text.unbroken_join (by decide) fun t ht => ?_)
    obtain ⟨v, -, rfl⟩ := List.mem_map.mp ht
    exact hshort v.oneLine_text
  | primitive info name => exact Rendering.gives_pure (hshort (oneLine_primitiveType name))
  | openArray info => exact Rendering.gives_pure (hshort (by decide))
  | unknown info declared => exact Rendering.gives_pure (hshort (oneLine_defaultType _))
  | record info properties required ih =>
    rw [ofNode_record]
    split
    · exact Rendering.gives_pure (hshort (by decide))
    -- What stands inside braces is set in, so its lines are not empty, whatever the types are.
    · exact hblock ⟨by decide, by decide⟩ ⟨by decide, by decide⟩
        (collect_gives fun p _ => ofProperty_gives_indented (fun _ _ => indented_lines hindent) p)
  | array info item ih =>
    rw [ofNode_array]
    refine (ih fun t ht => h t (by rwa [Node.targets])).bind fun text htext => ?_
    exact Rendering.gives_lift fun array => unbroken_arrayText htext
  | tuple info items ih =>
    rw [ofNode_tuple]
    exact hblock ⟨by decide, by decide⟩ ⟨by decide, by decide⟩
      (collect_gives fun item _ => ofPlace_gives_indented (fun _ _ => indented_lines hindent) item)
  | union info choice variants ih =>
    rw [ofNode_union]
    have hvariants : (collect (ofVariant s f) variants).Gives fun ts => ∀ t ∈ ts, Unbroken t := by
      refine collect_gives fun variant hvariant => ?_
      refine (ih variant hvariant fun t ht => h t ?_).map fun text htext => by simpa using htext
      exact Schema.mem_nodeTargets.mpr ⟨variant, hvariant, ht⟩
    exact hvariants.map fun ts => Text.unbroken_join (by decide)
  | intersection info parts ih =>
    rw [ofNode_intersection]
    have hparts : (collect (ofPart s f) parts).Gives fun ts => ∀ t ∈ ts, Unbroken t :=
      collect_gives fun part hpart => ofPart_gives
        (ih part hpart fun t ht => h t (Schema.mem_nodeTargets.mpr ⟨part, hpart, ht⟩))
    exact hparts.map fun ts => Text.unbroken_join (by decide)

/-! ### References, inlined or named -/

/-- References of a certain kind have names on one line. -/
def NamesOnOneLine (P : Json → Prop) : Prop :=
  ∀ target, P target → ∀ name, Reference.displayNameOf target = .ok name → OneLine name

variable {document : Json} {P : Json → Prop} {settings : Settings}

theorem ofTree_gives (hindent : settings.indent = .ok "  ") (hclosed : Reference.Closed document P)
    (hnames : NamesOnOneLine P) (bound : Nat) (inlining : List String) {node : Node}
    (hnode : ∀ target ∈ node.targets, P target) :
    (ofTree ⟨document, settings⟩ bound inlining node).Gives Unbroken := by
  induction bound generalizing inlining node with
  | zero => exact trivial
  | succ bound ih =>
    refine ofNode_gives hindent fun target htarget => ?_
    have htarget' := hnode target htarget
    cases hname : Reference.displayNameOf target with
    | error e =>
      rw [ofReference_of_error hname]
      exact (Rendering.gives_true _).bind fun _ _ => trivial
    | ok name =>
      have hunbroken : Unbroken name :=
        Text.unbroken_of_oneLine (hnames target htarget' name hname)
      rw [ofReference_of_ok hname]
      refine (Rendering.gives_true _).bind fun _ _ => ?_
      split
      · exact Rendering.gives_pure hunbroken
      · refine (Rendering.gives_true _).bind fun underWay _ => ?_
        split
        · exact Rendering.gives_pure hunbroken
        · refine Rendering.Gives.bind (P := fun next => targetNode document target = .ok next)
            (Rendering.gives_lift fun next hnext => hnext) fun next hnext => ?_
          refine ih (name :: inlining) fun target' htarget'' => ?_
          obtain ⟨schema, hschema, hrefers⟩ := refers_of_targetNode hnext htarget''
          exact hclosed target htarget' schema hschema target' hrefers

theorem ofSchema_gives (hindent : settings.indent = .ok "  ")
    (hclosed : Reference.Closed document P) (hnames : NamesOnOneLine P) {schema : Json}
    (hschema : ∀ target, Schema.Refers schema target → P target) :
    (ofSchema document settings schema).Gives Unbroken := by
  unfold ofSchema
  split
  · refine Rendering.Gives.bind (P := fun root => Node.ofJson schema "#" = .ok root)
      (Rendering.gives_lift fun root hroot => hroot) fun root hroot => ?_
    exact ofTree_gives hindent hclosed hnames _ [] fun target htarget =>
      hschema target ⟨"#", root, hroot, htarget⟩
  · exact Rendering.gives_pure (Text.unbroken_of_oneLine (oneLine_defaultType _))

/-! ### The body of an alias -/

/-- The body that is cut out of an alias is the body that was put in, without blanks at its ends. -/
theorem aliasBody?_aliasOf (body : String) :
    aliasBody? (aliasOf body) = some (Text.strip body) := by
  have hsplit : aliasOf body = "type Ts =" ++ (" " ++ body) := by
    unfold aliasOf
    rw [← String.append_assoc]
    rfl
  have hstrip : Text.strip (" " ++ body) = Text.strip body := by
    unfold Text.strip Text.stripList
    rw [String.toList_append]
    rfl
  unfold aliasBody?
  rw [hsplit, Text.after?_append, Option.map_some, hstrip]

theorem hung_empty (text : String) : hung (.ok "") text = .ok text := by
  unfold hung
  split
  · rfl
  · exact congrArg Except.ok (Text.hang_empty text)

theorem convert_gives (hindent : settings.indent = .ok "  ") (hpre : settings.preText = .ok "")
    (hclosed : Reference.Closed document P) (hnames : NamesOnOneLine P) {schema : Json}
    (hschema : ∀ target, Schema.Refers schema target → P target) :
    (convert document settings none schema).Gives Unbroken := by
  unfold convert
  split
  · refine (ofSchema_gives hindent hclosed hnames hschema).bind fun expression hexpression => ?_
    unfold formatted
    refine Rendering.Gives.bind (P := fun text => text = aliasOf expression) rfl
      fun text htext => ?_
    rw [htext, aliasBody?_aliasOf, hpre]
    dsimp only
    rw [hung_empty]
    exact Rendering.gives_pure hexpression.strip
  · exact Rendering.gives_pure (Text.unbroken_of_oneLine (oneLine_defaultType _))

end Expression

/-! ## Declarations -/

namespace Declaration

/-- The text of a declaration: it has no empty line, and it is not empty. -/
structure IsWhole (text : String) : Prop where
  unbroken : Unbroken text
  ne_empty : text ≠ ""

theorem isWhole_ofExpression {name expression : String} (hname : OneLine name)
    (hexpression : Unbroken expression) (exported isInterface : Bool) :
    IsWhole (ofExpression name expression exported isInterface) := by
  have hshort : ∀ {t : String}, OneLine t → Unbroken t := Text.unbroken_of_oneLine
  have hbody : IsWhole (if isInterface then "interface " ++ name ++ " " ++ expression
      else "type " ++ name ++ " = " ++ expression) := by
    split
    · refine ⟨?_, by simp⟩
      exact (((hshort (by decide)).append (hshort hname)).append (hshort (by decide))).append
        hexpression
    · refine ⟨?_, by simp⟩
      exact (((hshort (by decide)).append (hshort hname)).append (hshort (by decide))).append
        hexpression
  unfold ofExpression
  dsimp only
  split
  · exact ⟨(hshort (by decide)).append hbody.unbroken, by simp⟩
  · exact hbody

/-- A declaration is written without empty lines. -/
theorem ofSchema_gives {document schema : Json} {P : Json → Prop} {name : String}
    (hclosed : Reference.Closed document P) (hnames : Expression.NamesOnOneLine P)
    (hname : OneLine name) (hschema : ∀ target, Schema.Refers schema target → P target)
    (options : Options) : (ofSchema document options none name schema).Gives IsWhole := by
  refine (Rendering.gives_true _).bind fun defaultType _ => ?_
  refine (Expression.convert_gives rfl rfl hclosed hnames hschema).bind
    fun expression hexpression => ?_
  refine (Rendering.gives_true _).bind fun isInterface _ => ?_
  exact Rendering.gives_pure (isWhole_ofExpression hname hexpression _ _)

/-! ## Expansions -/

namespace Expansion

variable {φ : Type} {x : Expansion φ} {P : Json → Prop}

/-- The declarations that an expansion has and those that it has reported are whole. -/
structure Whole (s : State φ) : Prop where
  memo : ∀ name text, s.memo.progress? name = some (.done text) → IsWhole text
  reported : ∀ d ∈ s.reported, IsWhole d.2

namespace Whole

variable {s : State φ}

theorem start (h : Whole s) (name : String) : Whole (s.start name) := by
  refine ⟨fun other text hdone => ?_, h.reported⟩
  by_cases hother : other = name
  · subst hother
    rw [State.start, Memo.progress?_start_self] at hdone
    cases hdone
  · rw [State.start, Memo.progress?_start_of_ne _ hother] at hdone
    exact h.memo other text hdone

theorem enter (h : Whole s) (name : String) : Whole (s.enter name) := by
  unfold State.enter
  split
  · exact h
  · exact h.start name

theorem finish (h : Whole s) {text : String} (htext : IsWhole text) (name : String) :
    Whole (s.finish name text) := by
  refine ⟨fun other text' hdone => ?_, h.reported⟩
  by_cases hother : other = name
  · subst hother
    rw [State.finish, Memo.progress?_finish_self] at hdone
    cases hdone
    exact htext
  · rw [State.finish, Memo.progress?_finish_of_ne _ _ hother] at hdone
    exact h.memo other text' hdone

theorem report (h : Whole s) {text : String} (htext : IsWhole text) (name : String) :
    Whole (s.report name text) := by
  refine ⟨h.memo, fun d hd => ?_⟩
  rcases List.mem_append.mp hd with hd | hd
  · exact h.reported d hd
  · rw [List.mem_singleton.mp hd]
    exact htext

theorem tell (h : Whole s) {text : String} (htext : IsWhole text) (name : String) :
    Step.Ends (x.tell name text s) Whole fun _ _ => True :=
  tell_keeps name text (fun _ hs => hs.report htext name) (fun _ _ _ _ _ => trivial) s h

end Whole

/-- A step gives a whole declaration, and it keeps all that there is whole. -/
def GivesWhole (step : Step (State φ) String) : Prop :=
  ∀ s, Whole s → ∀ text t, step s = (.ok text, t) → IsWhole text ∧ Whole t

variable {nested : String → Json → Step (State φ) String}

theorem meet_keeps_whole (hnames : Expression.NamesOnOneLine P)
    (hclosed : Reference.Closed x.document P)
    (hnested : ∀ name schema, OneLine name → (∀ target, Schema.Refers schema target → P target) →
      GivesWhole (nested name schema)) {reference : Json} (hreference : P reference) :
    (x.meet nested reference).Keeps Whole fun _ _ => True := by
  intro s hs
  refine meet_ends hs (fun _ _ => trivial)
    (fun name text hdone => hs.tell (hs.memo name text hdone) name) fun name hname _ => ?_
  dsimp only [declareTarget]
  cases hschema : Reference.targetOf x.document reference with
  | error e => exact trivial
  | ok schema =>
    dsimp only
    rcases hrun : nested name schema (s.start name) with ⟨e | text, t⟩
    · exact trivial
    · obtain ⟨htext, ht⟩ := hnested name schema (hnames reference hreference name hname)
        (hclosed reference hreference schema hschema) _ (hs.start name) text t hrun
      exact ht.tell htext name

/-- Declarations are whole, however deep they are nested. -/
theorem declare_givesWhole (hnames : Expression.NamesOnOneLine P)
    (hclosed : Reference.Closed x.document P) (hformatting : x.formatting = none) (bound : Nat)
    (name : String) (schema : Json) (hname : OneLine name)
    (hschema : ∀ target, Schema.Refers schema target → P target) :
    GivesWhole (x.declare bound name schema) := by
  induction bound generalizing name schema with
  | zero => exact fun s _ text t hrun => nomatch hrun
  | succ bound ih =>
    intro s hs text t hrun
    obtain ⟨u, hu, rfl⟩ := declareWith_eq_ok.mp hrun
    have hkeeps := Rendering.run_keeps (E := fun _ _ => True) (fun _ _ _ _ => trivial)
      (fun r hr => meet_keeps_whole hnames hclosed ih hr)
      (fun _ code options => format_keeps code options (fun _ _ _ _ hs => ⟨hs.memo, hs.reported⟩)
        fun _ _ _ _ _ => trivial)
      (ofSchema_meets hclosed hschema x.options x.formatting name) (s.enter name) (hs.enter name)
    rw [hu] at hkeeps
    rw [hformatting] at hu
    have htext := (ofSchema_gives hclosed hnames hname hschema x.options).run hu
    exact ⟨htext, hkeeps.finish htext name⟩

end Expansion

end Declaration

/-! ## Modules -/

/-- What is added to a table comes from the table or from the entries. -/
theorem Table.mem_of_mem_addAll {κ ν : Type} [BEq κ] [LawfulBEq κ] {entries : List (κ × ν)}
    (table : List (κ × ν)) {e : κ × ν} (h : e ∈ Table.addAll entries table) :
    e ∈ table ∨ e ∈ entries := by
  induction entries generalizing table with
  | nil => exact .inl h
  | cons d rest ih =>
    rcases ih (Table.putNew d.1 d.2 table) h with hput | hrest
    · by_cases hkey : d.1 ∈ Table.keys table
      · rw [Table.putNew_of_mem hkey] at hput
        exact .inl hput
      · rw [Table.putNew_of_not_mem hkey] at hput
        rcases List.mem_append.mp hput with hput | hput
        · exact .inl hput
        · exact .inr (List.mem_cons.mpr (.inl (List.mem_singleton.mp hput)))
    · exact .inr (List.mem_cons_of_mem d hrest)

namespace TsModule

open Declaration (IsWhole)

theorem str_mem_of_mem_texts {vs : List Json} {texts : List String}
    (h : vs.mapM Json.asText = .ok texts) : ∀ n ∈ texts, .str n ∈ vs := by
  induction vs generalizing texts with
  | nil =>
    obtain rfl : [] = texts := Except.ok.inj h
    simp
  | cons v vs ih =>
    rw [List.mapM_cons] at h
    obtain ⟨text, htext, h⟩ := bind_eq_ok.mp h
    obtain ⟨rest, hrest, h⟩ := bind_eq_ok.mp h
    obtain rfl : text :: rest = texts := Except.ok.inj h
    intro n hn
    rcases List.mem_cons.mp hn with rfl | hn
    · cases v <;> cases htext
      exact List.mem_cons_self
    · exact List.mem_cons_of_mem v (ih hrest n hn)

theorem mapM_eq_ok_nil {ε α β : Type} {f : α → Except ε β} {l : List α}
    (h : l.mapM f = .ok []) : l = [] := by
  cases l with
  | nil => rfl
  | cons a rest =>
    rw [List.mapM_cons] at h
    obtain ⟨b, -, h⟩ := bind_eq_ok.mp h
    obtain ⟨bs, -, h⟩ := bind_eq_ok.mp h
    cases h

/-- Only names that there are can be selected. -/
theorem mem_of_mem_selected {names selection : List String} {wanted : Json}
    (h : selected names wanted = .ok selection) : ∀ n ∈ selection, n ∈ names := by
  unfold selected at h
  split at h
  · obtain ⟨vs, -, h⟩ := bind_eq_ok.mp h
    split at h
    · cases h
    · obtain ⟨absent, habsent, h⟩ := bind_eq_ok.mp h
      split at h
      · next hempty =>
        obtain rfl : absent = [] := List.isEmpty_iff.mp hempty
        have hmissing : missing names vs = [] := by
          refine mapM_eq_ok_nil (f := Json.orMisfit) ?_
          cases hmapped : (missing names vs).mapM Json.orMisfit with
          | error v =>
            rw [hmapped] at habsent
            cases habsent
          | ok texts =>
            rw [hmapped] at habsent
            obtain rfl : texts = [] := Except.ok.inj (α := List String) (ε := Failure) habsent
            rfl
        intro n hn
        have hany := List.filter_eq_nil_iff.mp hmissing (.str n) (str_mem_of_mem_texts h n hn)
        simpa [Json.isText] using hany
      · cases h
  · obtain rfl := Except.ok.inj h
    exact fun n hn => hn

variable {φ : Type} {m : TsModule φ}

/-- The names of the schemas of a document. -/
def schemaNames (m : TsModule φ) : List String :=
  Table.keys (pointers m.document)

/-- The names of all schemas in a module, and of all references in these, are on one line. -/
structure NamesOnOneLine (m : TsModule φ) : Prop where
  schemas : ∀ name ∈ m.schemaNames, OneLine name
  references : Expression.NamesOnOneLine (m.Reached m.schemaNames)

theorem addDeclaration_whole (hformatter : m.formatter = none) (hnames : m.NamesOnOneLine)
    {name : String} (hname : name ∈ m.schemaNames) {declared result : List (String × String)}
    {f g : φ} (hdeclared : ∀ d ∈ declared, IsWhole d.2)
    (hrun : m.addDeclaration declared name f = (.ok result, g)) : ∀ d ∈ result, IsWhole d.2 := by
  by_cases hknown : name ∈ Table.keys declared
  · rw [addDeclaration_of_mem m hknown] at hrun
    cases hrun
    exact hdeclared
  · obtain ⟨schema, setting, text, s, hschema, -, hend, rfl, -⟩ :=
      (addDeclaration_eq_ok hknown).mp hrun
    have hformatting : (m.expansion setting).formatting = none := by
      unfold expansion
      rw [hformatter]
      rfl
    have hclosed : Reference.Closed m.document (m.Reached m.schemaNames) :=
      fun target htarget schema hschema target' hrefers => .next htarget hschema hrefers
    obtain ⟨htext, hwhole⟩ := Declaration.Expansion.declare_givesWhole hnames.references
      (x := m.expansion setting) hclosed hformatting _ name schema (hnames.schemas name hname)
      (fun target hrefers => .here hname hschema hrefers) { formatter := f }
      ⟨by rintro n t ⟨⟩, by simp⟩ text s hend
    intro d hd
    rcases Table.mem_of_mem_addAll _ hd with hd | hd
    · exact hdeclared d hd
    · rcases List.mem_append.mp hd with hd | hd
      · exact hwhole.reported d hd
      · rw [List.mem_singleton.mp hd]
        exact htext

theorem addDeclarations_whole (hformatter : m.formatter = none) (hnames : m.NamesOnOneLine)
    {names : List String} (hknown : ∀ n ∈ names, n ∈ m.schemaNames)
    {declared result : List (String × String)} {f g : φ} (hdeclared : ∀ d ∈ declared, IsWhole d.2)
    (hrun : m.addDeclarations names declared f = (.ok result, g)) : ∀ d ∈ result, IsWhole d.2 := by
  induction names generalizing declared f with
  | nil =>
    cases hrun
    exact hdeclared
  | cons name rest ih =>
    obtain ⟨next, f', hfirst, hrest⟩ := addDeclarations_cons_eq_ok.mp hrun
    have hnext := addDeclaration_whole hformatter hnames (hknown name List.mem_cons_self)
      hdeclared hfirst
    exact ih (fun n hn => hknown n (List.mem_cons_of_mem name hn)) hnext hrest

/-- The declarations of a module are whole. -/
theorem declarations_whole (hformatter : m.formatter = none) (hnames : m.NamesOnOneLine)
    {declared : List (String × String)} {f g : φ}
    (hrun : m.declarations f = (.ok declared, g)) : ∀ d ∈ declared, IsWhole d.2 := by
  obtain ⟨names, hselected, hadds⟩ := declarations_eq_ok.mp hrun
  obtain ⟨wanted, -, hwanted⟩ := bind_eq_ok.mp hselected
  exact addDeclarations_whole hformatter hnames (mem_of_mem_selected hwanted) (by simp) hadds

/-! ## Parts of a text -/

theorem unbroken_header (m : TsModule φ) (h : OneLine m.commandLine) : Unbroken m.header := by
  unfold header
  split
  · have hfirst : OneLine ("// Generated by schema_to_ts 0.1.0" ++
        (if m.commandLine = "" then "" else " using: " ++ m.commandLine)) := by
      refine Text.Lacks.append (by decide) ?_
      split
      · exact Text.lacks_empty
      · exact Text.Lacks.append (by decide) h
    have hlast : Unbroken "// Do not edit by hand." := Text.unbroken_of_oneLine (by decide)
    have hstacked := (Text.unbroken_of_oneLine hfirst).stack hlast (by simp) (by decide)
    rwa [String.append_assoc] at hstacked
  · exact Text.unbroken_empty

/-- The parts of a module: its header, if there is one, and its declarations. -/
def parts (header : String) (declarations : List String) : List String :=
  (if header = "" then [] else [header]) ++ declarations

/-- A module is its parts with blank lines between them, and a line feed at the end. -/
theorem assemble_eq (header : String) {declarations : List String} (hne : declarations ≠ []) :
    assemble header declarations = Text.join "\n\n" (parts header declarations) ++ "\n" := by
  have hjoin : Text.join "\n" (declarations.map (· ++ "\n")) =
      Text.join "\n\n" declarations ++ "\n" := by
    induction declarations with
    | nil => exact absurd rfl hne
    | cons d rest ih =>
      cases rest with
      | nil => rfl
      | cons d' rest =>
        have hrest := ih (by simp)
        rw [List.map_cons] at hrest ⊢
        have hfeeds : d ++ "\n" ++ "\n" = d ++ "\n\n" := String.append_assoc
        rw [List.map_cons, Text.join_cons_cons, hrest, Text.join_cons_cons, hfeeds,
          ← String.append_assoc]
  unfold assemble parts
  rw [hjoin]
  split
  · rw [String.empty_append, List.nil_append]
  · cases declarations with
    | nil => exact absurd rfl hne
    | cons d rest =>
      rw [List.singleton_append, Text.join_cons_cons, ← String.append_assoc]

theorem text_of_declarations {f g : φ} {declared : List (String × String)}
    (h : m.declarations f = (.ok declared, g)) :
    m.text f = (.ok (assemble m.header (declared.map Prod.snd)), g) := by
  unfold TsModule.text Step.andThen
  rw [h]
  rfl

/-- Without a formatter, the text of a module falls into its header and its declarations at its
blank lines, if the names and the command line in it are on one line. -/
theorem text_split (m : TsModule φ) (hformatter : m.formatter = none)
    (hnames : m.NamesOnOneLine) (hcommand : OneLine m.commandLine) {f g : φ} {text : String}
    (hrun : m.text f = (.ok text, g)) :
    ∃ declared, m.declarations f = (.ok declared, g) ∧
      (∀ d ∈ declared, "" ∉ Text.lines d.2) ∧
      (declared ≠ [] → ∃ body, text = body ++ "\n" ∧
        Text.split "\n\n" body = parts m.header (declared.map Prod.snd)) := by
  unfold TsModule.text Step.andThen at hrun
  rcases hdeclarations : m.declarations f with ⟨e | declared, f'⟩ <;> rw [hdeclarations] at hrun
  · cases hrun
  · cases hrun
    have hwhole := declarations_whole hformatter hnames hdeclarations
    refine ⟨declared, rfl, fun d hd => ?_, fun hne => ?_⟩
    · exact (hwhole d hd).unbroken.empty_not_mem_lines (hwhole d hd).ne_empty
    · refine ⟨_, assemble_eq m.header (by simpa using hne), Text.split_join ?_ fun p hp => ?_⟩
      · simp [parts, hne]
      · rcases List.mem_append.mp hp with hp | hp
        · split at hp
          · cases hp
          · rw [List.mem_singleton.mp hp]
            exact unbroken_header m hcommand
        · obtain ⟨d, hd, rfl⟩ := List.mem_map.mp hp
          exact (hwhole d hd).unbroken

/-- A module with two definitions, and with empty lines in a description and in a value. -/
def remarked : TsModule Unit where
  document := .obj [("definitions", .obj [
    ("Use", .obj [("properties", .obj [
      ("item", .obj [("$ref", .str "#/definitions/Item")]),
      ("kind", .obj [("description", .str "1\n\n2"), ("enum", .arr [.str "a\n\nb"])])])]),
    ("Item", .obj [("type", .str "string")])])]
  commandLine := "schema_to_ts api.json"

/-- The header of that module. -/
def remarkedHeader : String :=
  "// Generated by schema_to_ts 0.1.0 using: schema_to_ts api.json\n// Do not edit by hand."

/-- The declarations of that module. -/
def remarkedDeclarations : List String :=
  ["export type Item = string",
    "export interface Use \x7b\n  item?: Item;\n  /**\n   * 1\n   * \n   * 2\n   */\n" ++
      "  kind?: \"a\\n\\nb\";\n\x7d"]

theorem namesOnOneLine_remarked : remarked.NamesOnOneLine := by
  have huse : Schema.RefersToAll (atPath remarked.document ["definitions", "Use"])
      ["#/definitions/Item"] := fun path => rfl
  have hitem : Schema.RefersToAll (atPath remarked.document ["definitions", "Item"]) [] :=
    fun path => rfl
  have hnames : remarked.schemaNames = ["Use", "Item"] := by rfl
  have hreached : ∀ target, remarked.Reached remarked.schemaNames target →
      ∃ r ∈ ["#/definitions/Item"], target = .str r := by
    refine fun target => Reached.mem_known (fun name hname => ?_) fun r hr => ?_
    · simp only [hnames, List.mem_cons, List.not_mem_nil, or_false] at hname
      rcases hname with rfl | rfl
      · exact ⟨_, rfl, _, by simp, huse⟩
      · exact ⟨_, rfl, _, by simp, hitem⟩
    · rw [List.mem_singleton.mp hr]
      exact ⟨_, rfl, _, by simp, hitem⟩
  refine ⟨by decide, fun target htarget name hname => ?_⟩
  obtain ⟨r, hr, rfl⟩ := hreached target htarget
  rw [List.mem_singleton.mp hr] at hname
  obtain rfl : Reference.displayName "#/definitions/Item" = name := Except.ok.inj hname
  decide

/-- Cut at its blank lines, the text of that module falls into a header and two declarations. -/
theorem text_split_remarks :
    remarked.formatter.isNone ∧ remarked.NamesOnOneLine ∧ OneLine remarked.commandLine ∧
      ∃ text body, remarked.text () = (.ok text, ()) ∧ text = body ++ "\n" ∧
        (∀ d ∈ remarkedDeclarations, "" ∉ Text.lines d) ∧
        Text.split "\n\n" body = remarkedHeader :: remarkedDeclarations := by
  have hdeclarations : (remarked.declarations ()).1.toOption.map (List.map Prod.snd) =
      some remarkedDeclarations := by
    decide +kernel
  have hheader : remarked.header = remarkedHeader := by rfl
  rcases hend : remarked.declarations () with ⟨e | declared, u⟩ <;> rw [hend] at hdeclarations
  · cases hdeclarations
  · have htexts : declared.map Prod.snd = remarkedDeclarations := Option.some.inj hdeclarations
    have hrun : remarked.text () = (.ok (assemble remarkedHeader remarkedDeclarations), ()) := by
      rw [← hheader, ← htexts]
      exact text_of_declarations hend
    obtain ⟨declared', hdeclared', hlines, hparts⟩ := text_split remarked rfl
      namesOnOneLine_remarked (by decide) hrun
    obtain rfl : declared = declared' :=
      Except.ok.inj (congrArg Prod.fst (hend.symm.trans hdeclared'))
    obtain ⟨body, hbody, hsplit⟩ := hparts (by rintro rfl; cases htexts)
    rw [htexts, hheader] at hsplit
    refine ⟨rfl, namesOnOneLine_remarked, by decide, _, body, hrun, hbody, fun d hd => ?_, hsplit⟩
    rw [← htexts] at hd
    obtain ⟨e, he, rfl⟩ := List.mem_map.mp hd
    exact hlines e he

end TsModule

end SchemaTypes

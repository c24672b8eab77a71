import SchemaTypes.Proofs.DocumentedTypes
import SchemaTypes.Proofs.Occurrences

/-!
# Type expressions under several margins

The margin of one level has a say in a type expression at one place only besides the indented lines
themselves: an operand of an intersection is put in parentheses if there is a bar in its text, which
is indented by then. So as long as the texts under some margins have a bar together or not at all, a
schema is written step by step in the same way under all of them, and meets the same references.

`Varies` relates one work to a family of works, one for each margin, whose results have a property
together. `ClosedUnderWriting` lists what is asked of such a property: it holds of fixed pieces of
code, and it is kept when texts are joined, indented and put between brackets. Every property of
this kind holds of type expressions.
-/

namespace SchemaTypes.Expression

open Schema (Node Property)
open Reference (displayNameOf)
open Text (OneLine Lacks indentLines)

/-- References of which all names are allowed. -/
def Named (allowed : String → Prop) (met : List Json) : Prop :=
  ∀ target ∈ met, ∀ name, displayNameOf target = .ok name → allowed name

variable {allowed : String → Prop}

theorem named_append {met met' : List Json} :
    Named allowed (met ++ met') ↔ Named allowed met ∧ Named allowed met' := by
  unfold Named
  exact List.forall_mem_append

/-! ## Works under several margins -/

section Varies

variable {ι α β γ δ A : Type} {underWay : String → Bool}

/-- Whenever a work ends with a value, having met references with allowed names only, every work of
a family meets the same references and ends with a value, too, and the value of the one is related
to those of the others together. -/
def Varies (underWay : String → Bool) (allowed : String → Prop) (R : α → (ι → β) → Prop)
    (x : Rendering α) (y : ι → Rendering β) : Prop :=
  ∀ met a, x.observe underWay = (met, .ok a) → Named allowed met →
    ∃ F, R a F ∧ ∀ i, (y i).observe underWay = (met, .ok (F i))

variable {R : α → (ι → β) → Prop} {S : γ → (ι → δ) → Prop} {x : Rendering α} {y : ι → Rendering β}

theorem varies_pure {a : α} {F : ι → β} (h : R a F) :
    Varies underWay allowed R (pure a) fun i => pure (F i) := by
  intro met b hrun _
  obtain ⟨rfl, rfl⟩ := Rendering.observe_pure_eq_ok.mp hrun
  exact ⟨F, h, fun i => rfl⟩

theorem varies_lift {x : Except Failure α} {y : ι → Except Failure β}
    (h : ∀ a, x = .ok a → ∃ F, R a F ∧ ∀ i, y i = .ok (F i)) :
    Varies underWay allowed R (liftM x : Rendering α) fun i => liftM (y i) := by
  intro met a hrun _
  obtain ⟨rfl, ha⟩ := Rendering.observe_lift_eq_ok.mp hrun
  obtain ⟨F, hF, hy⟩ := h a ha
  exact ⟨F, hF, fun i => Rendering.observe_lift_eq_ok.mpr ⟨rfl, hy i⟩⟩

theorem varies_failed (e : Failure) (y : ι → Rendering β) :
    Varies underWay allowed R (.failed e) y := by
  intro met a hrun _
  cases hrun

theorem Varies.bind {f : α → Rendering γ} {g : ι → β → Rendering δ}
    (hx : Varies underWay allowed R x y)
    (hf : ∀ a F, R a F → Varies underWay allowed S (f a) fun i => g i (F i)) :
    Varies underWay allowed S (x >>= f) fun i => y i >>= g i := by
  intro met c hrun hmet
  obtain ⟨m₁, a, m₂, hfirst, hsecond, rfl⟩ := Rendering.observe_bind_eq_ok.mp hrun
  obtain ⟨hm₁, hm₂⟩ := named_append.mp hmet
  obtain ⟨F, hF, hy⟩ := hx m₁ a hfirst hm₁
  obtain ⟨G, hG, hg⟩ := hf a F hF m₂ c hsecond hm₂
  exact ⟨G, hG, fun i => Rendering.observe_bind_eq_ok.mpr ⟨m₁, F i, m₂, hy i, hg i, rfl⟩⟩

theorem Varies.map {f : α → γ} {g : ι → β → δ} (hx : Varies underWay allowed R x y)
    (hg : ∀ a F, R a F → S (f a) fun i => g i (F i)) :
    Varies underWay allowed S (f <$> x) fun i => g i <$> y i := by
  simp only [map_eq_pure_bind]
  exact hx.bind fun a F hF => varies_pure (hg a F hF)

/-- What is done without regard to margins goes on in the same way under all of them. -/
theorem Varies.same {x : Rendering α} {f : α → Rendering γ} {g : ι → α → Rendering δ}
    (hf : ∀ a, Varies underWay allowed S (f a) fun i => g i a) :
    Varies underWay allowed S (x >>= f) fun i => x >>= g i := by
  have hx : Varies underWay allowed (fun a F => F = fun _ => a) x fun _ : ι => x :=
    fun met a hrun _ => ⟨fun _ => a, rfl, fun _ => hrun⟩
  refine hx.bind fun a F hF => ?_
  rw [hF]
  exact hf a

/-- A result that does not depend on the margin is handed on under all margins. -/
theorem varies_lift_bind {x : Except Failure α} {f : α → Rendering γ} {g : ι → α → Rendering δ}
    (hf : ∀ a, x = .ok a → Varies underWay allowed S (f a) fun i => g i a) :
    Varies underWay allowed S (liftM x >>= f) fun i => liftM x >>= g i := by
  cases x with
  | error e => exact varies_failed e _
  | ok a => exact hf a rfl

/-- A choice that does not depend on the margin. -/
theorem varies_ite {c : Prop} [Decidable c] {x' : Rendering α} {y' : ι → Rendering β}
    (hpos : c → Varies underWay allowed R x y) (hneg : ¬ c → Varies underWay allowed R x' y') :
    Varies underWay allowed R (if c then x else x') fun i => if c then y i else y' i := by
  by_cases hc : c
  · simp only [if_pos hc]
    exact hpos hc
  · simp only [if_neg hc]
    exact hneg hc

/-- Things are written one after the other with a property that is kept by appending. -/
theorem varies_collect {B : (ι → List String) → Prop} (hnil : B fun _ => [])
    (happend : ∀ L L', B L → B L' → B fun i => L i ++ L' i)
    {one : A → Rendering (List String)} {one' : ι → A → Rendering (List String)} {l : List A}
    (h : ∀ a ∈ l, Varies underWay allowed (fun _ => B) (one a) fun i => one' i a) :
    Varies underWay allowed (fun _ => B) (collect one l) fun i => collect (one' i) l := by
  induction l with
  | nil => exact varies_pure hnil
  | cons a rest ih =>
    refine (h a List.mem_cons_self).bind fun _ L hL => ?_
    refine (ih fun b hb => h b (List.mem_cons_of_mem a hb)).bind fun _ L' hL' => ?_
    exact varies_pure (happend L L' hL hL')

end Varies

/-! ## What is asked of a property -/

/-- The words and signs that type expressions are made of, apart from those that depend on the
schema. -/
def signs : List String :=
  ["", "string", "number", "boolean", "null", "object", "unknown", "any", "[]", " | ", " & ", "(",
    ")", ")[]", "Array<", ">", "?", ": ", ";", ","]

/-- The pieces that type expressions are made of; each of them stands on one line. -/
inductive CodePiece (allowed : String → Prop) : String → Prop
  | name {name : String} (h : allowed name) : CodePiece allowed name
  | value (v : Json) : CodePiece allowed v.text
  | key (name : String) : CodePiece allowed (propertyKey name)
  | sign {t : String} (h : t ∈ signs) : CodePiece allowed t

/-- The brackets around the lines of a record and of a tuple. -/
def IsBrackets (opening closing : String) : Prop :=
  (opening = "\x7b" ∧ closing = "\x7d") ∨ (opening = "[" ∧ closing = "]")

/-- A comment above a property, or nothing. -/
def IsComment (comment : String) : Prop :=
  ∃ style doc required, propertyComment style doc required = .ok comment

/-- No comment at all is one that nothing was added to. -/
theorem isComment_empty : IsComment "" :=
  ⟨.line, {}, false, rfl⟩

/-- Whether a line is one of a comment: it starts with a slash, or with a star behind a blank. -/
def isCommentLine (line : String) : Bool :=
  match line.toList with
  | '/' :: _ => true
  | ' ' :: '*' :: _ => true
  | _ => false

/-- What stands behind the lead of a style is a line of a comment. -/
theorem isCommentLine_lead (style : Comment.Style) (rest : String) :
    isCommentLine (style.lead ++ rest) = true := by
  have hlead : style.lead.toList = ['/', '/', ' '] ∨ style.lead.toList = [' ', '*', ' '] := by
    cases style with
    | line => exact Or.inl (by decide)
    | block => exact Or.inr (by decide)
  unfold isCommentLine
  rw [String.toList_append]
  rcases hlead with hlead | hlead
  · rw [hlead]
    rfl
  · rw [hlead]
    rfl

/-- A finished comment is made of lines of comments. -/
theorem exists_lines_of_marked {c : Comment} (h : Grammar.Marked c) :
    ∃ ks, Text.lines c.text = ks ++ [""] ∧ ∀ k ∈ ks, isCommentLine k = true := by
  have honeLine := Comment.oneLine_of_marked h
  have hlead : ∀ l ∈ c.lines, isCommentLine l = true := by
    intro l hl
    obtain ⟨rest, rfl, -⟩ := h l hl
    exact isCommentLine_lead c.style rest
  obtain ⟨style, ls⟩ := c
  cases style with
  | line => exact ⟨ls, Comment.lines_line honeLine, hlead⟩
  | block =>
    by_cases hempty : ls = []
    · rw [hempty]
      exact ⟨[], Text.lines_of_oneLine (by decide), by simp⟩
    · refine ⟨_, Comment.lines_block hempty honeLine, ?_⟩
      intro k hk
      rcases List.mem_cons.mp hk with rfl | hk
      · decide
      · rcases List.mem_append.mp hk with hk | hk
        · exact hlead k hk
        · rw [List.mem_singleton.mp hk]
          decide

theorem IsComment.exists_lines {comment : String} (h : IsComment comment) :
    ∃ ks, Text.lines comment = ks ++ [""] ∧ ∀ k ∈ ks, isCommentLine k = true := by
  obtain ⟨style, doc, required, hcomment⟩ := h
  obtain ⟨remark, -, rfl⟩ := Grammar.exists_remark hcomment
  exact exists_lines_of_marked remark.marked

variable {ι : Type}

/-- A property of texts and one of lists of lines, under all margins of a family together, that are
kept by everything that is done to write a type expression. -/
structure ClosedUnderWriting (margin : ι → String) (allowed : String → Prop)
    (P : (ι → String) → Prop) (B : (ι → List String) → Prop) : Prop where
  piece : ∀ t, CodePiece allowed t → P fun _ => t
  append : ∀ F G, P F → P G → P fun i => F i ++ G i
  bar : ∀ F, P F → ∀ i j, Text.contains " | " (F i) = Text.contains " | " (F j)
  nil : B fun _ => []
  more : ∀ L L', B L → B L' → B fun i => L i ++ L' i
  entry : ∀ comment F, IsComment comment → P F →
    B fun i => indentLines (margin i) (comment ++ F i)
  block : ∀ opening closing, IsBrackets opening closing → ∀ L, B L →
    P fun i => block opening closing (L i)

/-- The same surroundings with another margin. -/
def Scope.withMargin (s : Scope) (margin : String) : Scope :=
  { s with settings := { s.settings with indent := .ok margin } }

@[simp] theorem Scope.withMargin_deep (s : Scope) (margin : String) :
    (s.withMargin margin).settings.deep = s.settings.deep := rfl

@[simp] theorem Scope.withMargin_document (s : Scope) (margin : String) :
    (s.withMargin margin).document = s.document := rfl

/-- The comment that is written above a property is one. -/
theorem isComment_of_commentOf {s : Scope} {type : Node} {required : Bool} {comment : String}
    (h : s.commentOf type required = .ok comment) : IsComment comment := by
  obtain ⟨node, -, hstyle⟩ := bind_eq_ok.mp h
  obtain ⟨style, -, hcomment⟩ := bind_eq_ok.mp hstyle
  exact ⟨style, node.info.doc, required, hcomment⟩

namespace ClosedUnderWriting

variable {margin : ι → String} {P : (ι → String) → Prop} {B : (ι → List String) → Prop}
  {underWay : String → Bool} {s : Scope} {f : Json → Rendering String}
  {g : ι → Json → Rendering String}

/-! ## Texts -/

section Texts

variable (h : ClosedUnderWriting margin allowed P B)

include h

theorem sign {t : String} (ht : t ∈ signs) : P fun _ => t :=
  h.piece t (.sign ht)

/-- A text between two signs. -/
theorem between {t u : String} (ht : t ∈ signs) (hu : u ∈ signs) {F : ι → String} (hF : P F) :
    P fun i => t ++ F i ++ u :=
  h.append _ _ (h.append _ _ (h.sign ht) hF) (h.sign hu)

/-- Texts that are joined by a sign. -/
theorem join {sep : String} (hsep : sep ∈ signs) {Fs : List (ι → String)} (hFs : ∀ F ∈ Fs, P F) :
    P fun i => Text.join sep (Fs.map (· i)) := by
  induction Fs with
  | nil => exact h.sign (by decide)
  | cons F rest ih =>
    have hF : P F := hFs F List.mem_cons_self
    cases rest with
    | nil => exact hF
    | cons F' rest =>
      have hrest := ih fun G hG => hFs G (List.mem_cons_of_mem F hG)
      exact h.append _ _ (h.append _ _ hF (h.sign hsep)) hrest

theorem enumeration (values : List Json) : P fun _ => unionOf (values.map Json.text) := by
  have hvalues : ∀ F ∈ values.map fun v (_ : ι) => v.text, P F := by
    intro F hF
    obtain ⟨v, -, rfl⟩ := List.mem_map.mp hF
    exact h.piece _ (.value v)
  have hbar : " | " ∈ signs := by decide
  have hjoin := h.join hbar hvalues
  simpa only [List.map_map, Function.comp_def, unionOf] using hjoin

theorem arrayOf (node : Node) {F : ι → String} (hF : P F) :
    P fun i => Expression.arrayOf node (F i) := by
  unfold Expression.arrayOf
  split
  · exact h.between (by decide) (by decide) hF
  · split
    · exact h.between (by decide) (by decide) hF
    · exact h.append _ _ hF (h.sign (by decide))

/-- Whether a text is put in parentheses does not depend on the margin. -/
theorem operandOf (node : Node) {F : ι → String} (hF : P F) :
    P fun i => Expression.operandOf node (F i) := by
  by_cases hparens : ∃ i, (isAlternative node && Text.contains " | " (F i)) = true
  · obtain ⟨j, hj⟩ := hparens
    have hall : (fun i => Expression.operandOf node (F i)) = fun i => "(" ++ F i ++ ")" := by
      funext i
      unfold Expression.operandOf
      rw [h.bar F hF i j, if_pos hj]
    rw [hall]
    exact h.between (by decide) (by decide) hF
  · have hall : (fun i => Expression.operandOf node (F i)) = F := by
      funext i
      unfold Expression.operandOf
      rw [if_neg (not_exists.mp hparens i)]
    rw [hall]
    exact hF

/-- The lines of a member, under a comment. -/
theorem member {comment : String} (hcomment : IsComment comment) (name : String) (required : Bool)
    {F : ι → String} (hF : P F) :
    B fun i => indentLines (margin i) (comment ++ propertyKey name ++
      (if required then "" else "?") ++ ": " ++ F i ++ ";") := by
  have hmark : P fun _ => if required then "" else "?" := by
    cases required with
    | true => exact h.sign (by decide)
    | false => exact h.sign (by decide)
  have hhead := h.append _ _ (h.append _ _ (h.piece _ (.key name)) hmark)
    (h.sign (t := ": ") (by decide))
  have hentry := h.entry comment _ hcomment
    (h.append _ _ (h.append _ _ hhead hF) (h.sign (t := ";") (by decide)))
  simpa only [String.append_assoc] using hentry

/-- The lines of a place of a tuple. -/
theorem place {F : ι → String} (hF : P F) : B fun i => indentLines (margin i) (F i ++ ",") := by
  have hentry := h.entry "" _ isComment_empty (h.append _ _ hF (h.sign (t := ",") (by decide)))
  simpa only [String.empty_append] using hentry

end Texts

/-! ## Trees -/

section Trees

variable (h : ClosedUnderWriting margin allowed P B)

include h

/-- Items are put in brackets of the same kind under all margins. -/
theorem arrayText {item : Node} {text array : String} (hrun : s.arrayText item text = .ok array)
    {F : ι → String} (hF : P F) :
    ∃ G, P G ∧ ∀ i, (s.withMargin (margin i)).arrayText item (F i) = .ok (G i) := by
  unfold Scope.arrayText at hrun ⊢
  simp only [Scope.withMargin_deep, Scope.withMargin_document]
  split at hrun
  · exact ⟨_, h.append _ _ hF (h.sign (t := "[]") (by decide)), fun i => rfl⟩
  · obtain ⟨node, hnode, -⟩ := map_eq_ok.mp hrun
    exact ⟨_, h.arrayOf node hF, fun i => map_eq_ok.mpr ⟨node, hnode, rfl⟩⟩

/-- Parts are put in parentheses under all margins or under none. -/
theorem operandText {part : Node} {text operand : String}
    (hrun : s.operandText part text = .ok operand) {F : ι → String} (hF : P F) :
    ∃ G, P G ∧ ∀ i, (s.withMargin (margin i)).operandText part (F i) = .ok (G i) := by
  obtain ⟨node, hnode, -⟩ := map_eq_ok.mp hrun
  exact ⟨_, h.operandOf node hF, fun i => map_eq_ok.mpr ⟨node, hnode, rfl⟩⟩

/-- The lines of a property, if its type is written with the property. -/
theorem varies_ofProperty {p : Property}
    (htype : Varies underWay allowed (fun _ => P) (ofNode s f p.type)
      fun i => ofNode (s.withMargin (margin i)) (g i) p.type) :
    Varies underWay allowed (fun _ => B) (ofProperty s f p)
      fun i => ofProperty (s.withMargin (margin i)) (g i) p := by
  refine varies_lift_bind (x := s.commentOf p.type p.required) fun comment hcomment => ?_
  refine htype.bind fun text F hF => varies_lift fun lines _ => ?_
  exact ⟨_, h.member (isComment_of_commentOf hcomment) p.name p.required hF, fun i => rfl⟩

/-- The texts of some variants or parts, which are joined by a sign. -/
theorem varies_joined {A : Type} {sep : String} (hsep : sep ∈ signs)
    {one : A → Rendering (List String)} {one' : ι → A → Rendering (List String)} {l : List A}
    (hone : ∀ a ∈ l, Varies underWay allowed (fun _ L => ∃ F, P F ∧ L = fun i => [F i]) (one a)
      fun i => one' i a) :
    Varies underWay allowed (fun _ => P) (Text.join sep <$> collect one l)
      fun i => Text.join sep <$> collect (one' i) l := by
  refine Varies.map (R := fun _ L => ∃ Fs : List (ι → String), (∀ F ∈ Fs, P F) ∧
    L = fun i => Fs.map (· i)) ?_ ?_
  · refine varies_collect ⟨[], by simp, rfl⟩ ?_ fun a ha => ?_
    · rintro _ _ ⟨Fs, hFs, rfl⟩ ⟨Gs, hGs, rfl⟩
      refine ⟨Fs ++ Gs, List.forall_mem_append.mpr ⟨hFs, hGs⟩, ?_⟩
      simp only [List.map_append]
    · intro met texts hrun hmet
      obtain ⟨L, ⟨F, hF, rfl⟩, hL⟩ := hone a ha met texts hrun hmet
      exact ⟨_, ⟨[F], by simpa using hF, rfl⟩, hL⟩
  · rintro _ _ ⟨Fs, hFs, rfl⟩
    exact h.join hsep hFs

/-- A tree is written with the property, if its references are. -/
theorem varies_ofNode
    (hf : ∀ target, Varies underWay allowed (fun _ => P) (f target) fun i => g i target)
    (node : Node) :
    Varies underWay allowed (fun _ => P) (ofNode s f node)
      fun i => ofNode (s.withMargin (margin i)) (g i) node := by
  -- A margin stands in front of lines only, so it shows where records and tuples are set in.
  induction node with
  | reference info target =>
    simp only [ofNode_reference]
    exact hf target
  | enumeration info values =>
    simp only [ofNode]
    exact varies_pure (h.enumeration values)
  | primitive info name =>
    simp only [ofNode]
    exact varies_pure (h.sign (by cases name <;> decide))
  | openArray info =>
    simp only [ofNode]
    exact varies_pure (h.sign (by decide))
  | unknown info declared =>
    simp only [ofNode]
    refine varies_pure (h.sign (t := s.settings.defaultType.name) ?_)
    cases s.settings.defaultType <;> decide
  | record info properties required ih =>
    simp only [ofNode_record]
    refine varies_ite (fun _ => varies_pure (h.sign (by decide))) fun _ => ?_
    refine (varies_collect h.nil h.more fun p hp => h.varies_ofProperty (ih p hp)).map ?_
    exact fun _ L hL => h.block _ _ (Or.inl ⟨rfl, rfl⟩) L hL
  | array info item ih =>
    simp only [ofNode_array]
    exact ih.bind fun text F hF => varies_lift fun array harray => h.arrayText harray hF
  | tuple info items ih =>
    simp only [ofNode_tuple]
    refine (varies_collect h.nil h.more fun item hitem => ?_).map ?_
    · refine (ih item hitem).bind fun text F hF => varies_lift fun lines _ => ?_
      exact ⟨_, h.place hF, fun i => rfl⟩
    · exact fun _ L hL => h.block _ _ (Or.inr ⟨rfl, rfl⟩) L hL
  | union info choice variants ih =>
    simp only [ofNode_union]
    refine h.varies_joined (by decide) fun variant hvariant => ?_
    exact (ih variant hvariant).map fun text F hF => ⟨F, hF, rfl⟩
  | intersection info parts ih =>
    simp only [ofNode_intersection]
    refine h.varies_joined (by decide) fun part hpart => ?_
    refine (ih part hpart).bind fun text F hF => ?_
    refine Varies.map (varies_lift fun operand hoperand => h.operandText hoperand hF) ?_
    exact fun _ G hG => ⟨G, hG, rfl⟩

/-- A reference is written with the property, if targets are. -/
theorem varies_ofReference {inlined : List String → Node → Rendering String}
    {inlined' : ι → List String → Node → Rendering String}
    (hinlined : ∀ names node, Varies underWay allowed (fun _ => P) (inlined names node)
      fun i => inlined' i names node) (inlining : List String) (target : Json) :
    Varies underWay allowed (fun _ => P) (ofReference s inlined inlining target)
      fun i => ofReference (s.withMargin (margin i)) (inlined' i) inlining target := by
  intro met text hrun hmet
  obtain ⟨name, hname, hwritten⟩ := observe_ofReference_eq_ok.mp hrun
  have hallowed : allowed name := by
    have htarget : target ∈ met := by
      split at hwritten
      · rw [hwritten.1]
        exact List.mem_singleton_self target
      · obtain ⟨node, others, -, -, rfl⟩ := hwritten
        exact List.mem_cons_self
    exact hmet target htarget name hname
  have hnamed : Varies underWay allowed (fun _ => P) (pure name : Rendering String)
      fun _ => pure name := varies_pure (h.piece _ (.name hallowed))
  suffices hvaries : Varies underWay allowed (fun _ => P) (ofReference s inlined inlining target)
      fun i => ofReference (s.withMargin (margin i)) (inlined' i) inlining target from
    hvaries met text hrun hmet
  simp only [ofReference_of_ok hname]
  refine Varies.same fun _ => ?_
  refine varies_ite (c := s.settings.deep = false ∨ name ∈ inlining) (fun _ => hnamed) fun _ => ?_
  refine Varies.same fun answer => varies_ite (fun _ => hnamed) fun _ => ?_
  exact varies_lift_bind fun node _ => hinlined (name :: inlining) node

/-- A tree is written with the property, inside targets of any names. -/
theorem varies_ofTree (s : Scope) (bound : Nat) (inlining : List String) (node : Node) :
    Varies underWay allowed (fun _ => P) (ofTree s bound inlining node)
      fun i => ofTree (s.withMargin (margin i)) bound inlining node := by
  induction bound generalizing inlining node with
  | zero => exact varies_failed .boundExceeded _
  | succ bound ih =>
    simp only [ofTree]
    exact h.varies_ofNode (h.varies_ofReference (fun names target => ih names target) inlining) node

/-- A schema is written with the property. -/
theorem varies_ofSchema (document : Json) (settings : Settings) (schema : Json) :
    Varies underWay allowed (fun _ => P) (ofSchema document settings schema)
      fun i => ofSchema document { settings with indent := .ok (margin i) } schema := by
  simp only [ofSchema_eq_ofTree]
  exact varies_lift_bind fun node _ => h.varies_ofTree ⟨document, settings⟩ _ [] node

end Trees

end ClosedUnderWriting

end SchemaTypes.Expression

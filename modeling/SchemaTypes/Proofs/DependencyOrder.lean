import Mathlib.Data.Nat.Basic
import Mathlib.Order.Basic
import SchemaTypes.Proofs.Modules

/-!
# Declarations in the order of dependency

If names do not run in circles, the declarations of a module come in an order in which everything
that a declaration refers to stands in front of it.

That names do not run in circles is said by a rank, in any order, which goes down along references:
`TsModule.Descends`. What is met in an attempt is of a lower rank than the attempt, since it comes
from its schema or from targets of references in there; and the names in progress around an attempt
are of higher ranks. So no reference is ever left alone because its name is in progress, and its
declaration comes first.
-/

namespace SchemaTypes

open Schema (Node)
open Reference (displayNameOf targetOf)

/-- A schema refers to something if the tree that it is read as does, at whatever path it stands. -/
def Schema.Refers (schema target : Json) : Prop :=
  ∃ path node, Node.ofJson schema path = .ok node ∧ target ∈ node.targets

/-- The references of a schema are certain texts, at whatever path it stands. -/
def Schema.RefersToAll (schema : Json) (references : List String) : Prop :=
  ∀ path, Node.targets <$> Node.ofJson schema path = .ok (references.map .str)

theorem Schema.RefersToAll.exists_text {schema target : Json} {references : List String}
    (h : Schema.RefersToAll schema references) (htarget : Schema.Refers schema target) :
    ∃ r ∈ references, target = .str r := by
  obtain ⟨path, node, hnode, hmem⟩ := htarget
  have htargets := h path
  rw [hnode] at htargets
  rw [Except.ok.inj htargets] at hmem
  obtain ⟨r, hr, rfl⟩ := List.mem_map.mp hmem
  exact ⟨r, hr, rfl⟩

/-! ## What is met in a rendering -/

/-- References that hold those in their targets. -/
def Reference.Closed (document : Json) (P : Json → Prop) : Prop :=
  ∀ target, P target → ∀ schema, targetOf document target = .ok schema →
    ∀ target', Schema.Refers schema target' → P target'

/-- The leave to meet certain references, and to do everything else. -/
def Rendering.Leave.meetingOnly (P : Json → Prop) : Rendering.Leave where
  meeting := P
  asking := True
  failing := fun _ => True
  formatting := True

namespace Expression

variable {document : Json} {P : Json → Prop} {settings : Settings}

/-- The references in the tree of a target are references of the target. -/
theorem refers_of_targetNode {target target' : Json} {node : Node}
    (h : targetNode document target = .ok node) (h' : target' ∈ node.targets) :
    ∃ schema, targetOf document target = .ok schema ∧ Schema.Refers schema target' := by
  obtain ⟨r, hr, hrest⟩ := bind_eq_ok.mp h
  obtain ⟨schema, hschema, hnode⟩ := bind_eq_ok.mp hrest
  exact ⟨schema, bind_eq_ok.mpr ⟨r, hr, hschema⟩, r, node, hnode, h'⟩

/-- A tree with references of a closed kind meets no others, however deep targets are inlined. -/
theorem ofTree_meets (hclosed : Reference.Closed document P) (bound : Nat)
    (inlining : List String) {node : Node} (hnode : ∀ target ∈ node.targets, P target) :
    (ofTree ⟨document, settings⟩ bound inlining node).Within (.meetingOnly P) := by
  induction bound generalizing inlining node with
  | zero => exact trivial
  | succ bound ih =>
    refine ofNode_within (fun _ _ => trivial) fun target htarget => ?_
    refine ofReference_within (hnode target htarget) (fun _ => trivial) (fun _ _ => trivial)
      fun name next _ _ hnext => ih (name :: inlining) fun target' htarget' => ?_
    obtain ⟨schema, hschema, hrefers⟩ := refers_of_targetNode hnext htarget'
    exact hclosed target (hnode target htarget) schema hschema target' hrefers

theorem ofSchema_meets (hclosed : Reference.Closed document P) {schema : Json}
    (hschema : ∀ target, Schema.Refers schema target → P target) :
    (ofSchema document settings schema).Within (.meetingOnly P) := by
  unfold ofSchema
  split
  · refine Rendering.within_lift_bind (fun _ _ => trivial) fun root hroot => ?_
    exact ofTree_meets hclosed _ [] fun target htarget =>
      hschema target ⟨"#", root, hroot, htarget⟩
  · exact Rendering.within_pure _

end Expression

namespace Declaration

/-- A declaration of a schema with references of a closed kind meets no others. -/
theorem ofSchema_meets {document schema : Json} {P : Json → Prop}
    (hclosed : Reference.Closed document P)
    (hschema : ∀ target, Schema.Refers schema target → P target) (options : Options)
    (formatting : Option Formatter.Setting) (name : String) :
    (ofSchema document options formatting name schema).Within (.meetingOnly P) := by
  refine Rendering.within_lift_bind (fun _ _ => trivial) fun defaultType _ => ?_
  refine Rendering.within_bind ?_ fun expression => ?_
  · unfold Expression.convert
    split
    · refine Rendering.within_bind (Expression.ofSchema_meets hclosed hschema) fun expression => ?_
      exact Expression.formatted_within (fun _ _ => trivial) (fun _ => trivial) _ expression
    · exact Rendering.within_pure _
  · exact Rendering.within_lift_bind (fun _ _ => trivial) fun isInterface _ =>
      Rendering.within_pure _

open Expansion (State AsIn)

variable {φ : Type}

/-- If the references in the schema of an attempt are of a closed kind, so are those that are met;
and they are met while the same names are in progress as in the beginning. -/
theorem Attempt.meetings_of_closed (a : Attempt φ) {P : Json → Prop}
    (hclosed : Reference.Closed a.expansion.document P)
    (hschema : ∀ target, Schema.Refers a.schema target → P target) :
    ∀ m ∈ a.meetings, P m.reference ∧ AsIn a.entered m.before := by
  intro m hm
  have hmeet := Expansion.meet_keeps_asIn a.expansion
    (Expansion.declare_restores a.expansion a.bound) a.entered
  have hformat := Expansion.format_keeps_asIn a.expansion (a.expansion.declare a.bound) a.entered
  obtain ⟨hreference, hprogress, -⟩ := Rendering.meetings_keep hmeet hformat
    (ofSchema_meets hclosed hschema _ _ _) (AsIn.refl a.entered) m hm
  exact ⟨hreference, hprogress⟩

end Declaration

/-! ## Ranks -/

namespace TsModule

open Declaration (Attempt)
open Declaration.Expansion (State)

variable {φ : Type} {m : TsModule φ} {names : List String}

/-- The references in the named schemas, and those in the targets of references that are reached. -/
inductive Reached (m : TsModule φ) (names : List String) : Json → Prop where
  | here {name : String} {schema target : Json} (hname : name ∈ names)
      (hschema : m.namedSchema name = .ok schema) (h : Schema.Refers schema target) :
    Reached m names target
  | next {target target' schema : Json} (h : Reached m names target)
      (hschema : targetOf m.document target = .ok schema) (h' : Schema.Refers schema target') :
    Reached m names target'

/-- Only known references are reached, if the schemas of the names refer to known references, and
these to known references again. -/
theorem Reached.mem_known {known : List String}
    (hnamed : ∀ name ∈ names, ∃ schema, m.namedSchema name = .ok schema ∧
      ∃ rs ⊆ known, Schema.RefersToAll schema rs)
    (hknown : ∀ r ∈ known, ∃ schema, Reference.target m.document r = .ok schema ∧
      ∃ rs ⊆ known, Schema.RefersToAll schema rs) {target : Json} (h : m.Reached names target) :
    ∃ r ∈ known, target = .str r := by
  induction h with
  | here hname hschema h =>
    obtain ⟨schema', hschema', rs, hsub, hrefers⟩ := hnamed _ hname
    obtain rfl := Except.ok.inj (hschema.symm.trans hschema')
    obtain ⟨r, hr, heq⟩ := hrefers.exists_text h
    exact ⟨r, hsub hr, heq⟩
  | next h hschema h' ih =>
    obtain ⟨r, hr, rfl⟩ := ih
    obtain ⟨schema', hschema', rs, hsub, hrefers⟩ := hknown r hr
    obtain rfl := Except.ok.inj (hschema.symm.trans hschema')
    obtain ⟨r', hr', heq⟩ := hrefers.exists_text h'
    exact ⟨r', hsub hr', heq⟩

/-- A rank of names goes down from every one of the names to the references in its schema, and from
every reference that is reached to those in its target. -/
structure Descends {ρ : Type} [Preorder ρ] (m : TsModule φ) (names : List String)
    (rank : String → ρ) : Prop where
  named : ∀ name ∈ names, ∀ schema, m.namedSchema name = .ok schema →
    ∀ target, Schema.Refers schema target → ∀ n, displayNameOf target = .ok n → rank n < rank name
  referenced : ∀ target, m.Reached names target → ∀ schema,
    targetOf m.document target = .ok schema → ∀ name, displayNameOf target = .ok name →
      ∀ target', Schema.Refers schema target' → ∀ n, displayNameOf target' = .ok n →
        rank n < rank name

variable {ρ : Type} [Preorder ρ] {rank : String → ρ}

/-- Ranks go down from names if their schemas refer only to known references, and these to known
references again, of lower ranks in each case. -/
theorem Descends.of_known (known : List String)
    (hnamed : ∀ name ∈ names, ∃ schema, m.namedSchema name = .ok schema ∧
      ∃ rs ⊆ known, Schema.RefersToAll schema rs ∧
        ∀ r ∈ rs, rank (Reference.displayName r) < rank name)
    (hknown : ∀ r ∈ known, ∃ schema, Reference.target m.document r = .ok schema ∧
      ∃ rs ⊆ known, Schema.RefersToAll schema rs ∧
        ∀ r' ∈ rs, rank (Reference.displayName r') < rank (Reference.displayName r)) :
    m.Descends names rank := by
  have hreached : ∀ target, m.Reached names target → ∃ r ∈ known, target = .str r := by
    intro target
    refine Reached.mem_known (fun name hname => ?_) fun r hr => ?_
    · obtain ⟨schema, hschema, rs, hsub, hrefers, -⟩ := hnamed name hname
      exact ⟨schema, hschema, rs, hsub, hrefers⟩
    · obtain ⟨schema, hschema, rs, hsub, hrefers, -⟩ := hknown r hr
      exact ⟨schema, hschema, rs, hsub, hrefers⟩
  refine ⟨fun name hname schema hschema target htarget n hn => ?_,
    fun target h schema hschema name hname target' htarget' n hn => ?_⟩
  · obtain ⟨schema', hschema', rs, -, hrefers, hlt⟩ := hnamed name hname
    obtain rfl := Except.ok.inj (hschema.symm.trans hschema')
    obtain ⟨r, hr, rfl⟩ := hrefers.exists_text htarget
    obtain rfl : Reference.displayName r = n := Except.ok.inj hn
    exact hlt r hr
  · obtain ⟨r, hr, rfl⟩ := hreached target h
    obtain ⟨schema', hschema', rs, -, hrefers, hlt⟩ := hknown r hr
    obtain rfl := Except.ok.inj (hschema.symm.trans hschema')
    obtain ⟨r', hr', rfl⟩ := hrefers.exists_text htarget'
    obtain rfl : Reference.displayName r = name := Except.ok.inj hname
    obtain rfl : Reference.displayName r' = n := Except.ok.inj hn
    exact hlt r' hr'

/-- A reference that is reached, and whose name is below a rank. -/
def Below (m : TsModule φ) (names : List String) (rank : String → ρ) (limit : ρ)
    (target : Json) : Prop :=
  m.Reached names target ∧ ∀ n, displayNameOf target = .ok n → rank n < limit

/-- A reference that leads somewhere has a name. -/
theorem exists_displayNameOf {document target schema : Json}
    (h : targetOf document target = .ok schema) : ∃ n, displayNameOf target = .ok n := by
  obtain ⟨r, hr, -⟩ := bind_eq_ok.mp h
  exact ⟨Reference.displayName r, by rw [displayNameOf, hr]; rfl⟩

/-- What a reference below a rank refers to is below its name. -/
theorem Below.next (hd : m.Descends names rank) {limit : ρ} {target schema : Json} {name : String}
    (h : m.Below names rank limit target) (hschema : targetOf m.document target = .ok schema)
    (hname : displayNameOf target = .ok name) {target' : Json}
    (h' : Schema.Refers schema target') : m.Below names rank (rank name) target' :=
  ⟨h.1.next hschema h', hd.referenced target h.1 schema hschema name hname target' h'⟩

theorem closed_below (hd : m.Descends names rank) (limit : ρ) :
    Reference.Closed m.document (m.Below names rank limit) := by
  intro target h schema hschema target' h'
  obtain ⟨name, hname⟩ := exists_displayNameOf hschema
  obtain ⟨hreached, hlt⟩ := h.next hd hschema hname h'
  exact ⟨hreached, fun n hn => (hlt n hn).trans (h.2 name hname)⟩

/-- What an attempt refers to is below its name, and what is in progress is not. -/
structure Placed (m : TsModule φ) (names : List String) (rank : String → ρ) (a : Attempt φ) :
    Prop where
  document_eq : a.expansion.document = m.document
  refers : ∀ target, Schema.Refers a.schema target → m.Below names rank (rank a.name) target
  around : ∀ n, a.entered.memo.isInProgress n = true → rank a.name ≤ rank n

namespace Placed

variable {a : Attempt φ}

theorem meetings (hd : m.Descends names rank) (h : m.Placed names rank a) :
    ∀ meeting ∈ a.meetings, m.Below names rank (rank a.name) meeting.reference ∧
      ∀ n, meeting.before.memo.isInProgress n = true → rank a.name ≤ rank n := by
  intro meeting hmeeting
  have hclosed : Reference.Closed a.expansion.document (m.Below names rank (rank a.name)) := by
    rw [h.document_eq]
    exact closed_below hd _
  obtain ⟨hbelow, hprogress⟩ := a.meetings_of_closed hclosed h.refers meeting hmeeting
  refine ⟨hbelow, fun n hn => h.around n ?_⟩
  rwa [← hprogress n]

/-- No name of a reference that is met is in progress. -/
theorem not_isInProgress (hd : m.Descends names rank) (h : m.Placed names rank a) {r : Json}
    (hr : r ∈ a.met) {n : String} (hn : displayNameOf r = .ok n) :
    ¬ a.entered.memo.isInProgress n = true := by
  obtain ⟨meeting, hmeeting, rfl⟩ := List.mem_map.mp hr
  intro hprogress
  exact ((h.meetings hd meeting hmeeting).1.2 n hn).not_ge (h.around n hprogress)

/-- An attempt at a named schema has its place, -/
theorem of_isRoot (hd : m.Descends names rank) (hroot : m.IsRoot a) (hname : a.name ∈ names) :
    m.Placed names rank a := by
  obtain ⟨setting, -, hexpansion⟩ := hroot.expansion_eq
  obtain ⟨f, hbefore⟩ := hroot.before_eq
  refine ⟨by rw [hexpansion]; rfl, fun target htarget => ?_, fun n hn => ?_⟩
  · exact ⟨.here hname hroot.schema_eq htarget,
      hd.named a.name hname a.schema hroot.schema_eq target htarget⟩
  · rw [Declaration.Attempt.entered_of_fresh hbefore, hbefore] at hn
    rcases (Declaration.Memo.isInProgress_start _ _ _).mp hn with rfl | hnone
    · exact le_refl _
    · cases hnone

/-- and so has an attempt that is made in one which has its own. -/
theorem begins (hd : m.Descends names rank) (h : m.Placed names rank a)
    {meeting : Meeting (State φ)} {b : Attempt φ} (hb : a.Begins meeting b) :
    m.Placed names rank b := by
  obtain ⟨hname, -, htarget⟩ := Declaration.Expansion.of_begins?_eq_some hb.begins
  rw [h.document_eq] at htarget
  obtain ⟨hbelow, haround⟩ := h.meetings hd meeting hb.mem
  refine ⟨by rw [hb.expansion_eq, h.document_eq], fun target htarget' => ?_, fun n hn => ?_⟩
  · exact hbelow.next hd htarget hname htarget'
  · have hentered : b.entered = meeting.before.start b.name := by
      unfold Attempt.entered
      rw [hb.before_eq, Declaration.Expansion.State.enter_start]
    rw [hentered] at hn
    rcases (Declaration.Memo.isInProgress_start _ _ _).mp hn with rfl | hprogress
    · exact le_refl _
    · exact (hbelow.2 b.name hname).le.trans (haround n hprogress)

end Placed

/-- Every attempt that is made to declare the names has its place. -/
theorem Declares.placed {declared result : List (String × String)} {made : List (Attempt φ)}
    (h : m.Declares names declared made result) (hd : m.Descends names rank) {a : Attempt φ}
    (ha : a ∈ made) : m.Placed names rank a := by
  obtain ⟨root, hroot, hname, hall, -⟩ := h.roots a ha
  exact Declaration.Attempt.induct_all hall (.of_isRoot hd hroot hname)
    fun _ _ hb _ _ hc => hb.begins hd hc

/-- When a module is declared together with the schemas that it refers to, and a rank of names goes
down along all references that can be reached from the selected ones, then every declaration that is
kept is the text of an attempt at its name, and the names of all references that were met in this
attempt stand in front of it. -/
theorem declarations_dependencies_first (m : TsModule φ)
    (hinclude : m.settings.includeReferenced.truthy = true) (rank : String → ρ)
    (hrank : ∀ names, m.selectedNames = .ok names → m.Descends names rank) (f g : φ)
    (declared : List (String × String)) (hrun : m.declarations f = (.ok declared, g)) :
    ∃ names, m.selectedNames = .ok names ∧ (Table.keys declared).Nodup ∧
      ∀ front n text back, declared = front ++ (n, text) :: back →
        ∃ before a after, m.attempts names [] f = before ++ a :: after ∧ a.name = n ∧
          a.result = .ok text ∧ n ∉ before.map Attempt.name ∧
          ∀ r ∈ a.met, ∃ k ∈ Table.keys front, displayNameOf r = .ok k := by
  obtain ⟨names, hnames, h⟩ := declarations_declares hinclude hrun
  have hd := hrank names hnames
  refine ⟨names, hnames, h.nodup_keys, fun front n text back hsplit => ?_⟩
  obtain ⟨before, a, after, hmade, hname, hresult, hfirst, hfront⟩ := h.exists_first hsplit
  have ha : a ∈ m.attempts names [] f := by
    rw [hmade]
    simp
  refine ⟨before, a, after, hmade, hname, hresult, hfirst, fun r hr => ?_⟩
  obtain ⟨k, hk, -⟩ := h.heard a ha r hr
  refine ⟨k, (hfront k).mpr ?_, hk⟩
  rcases h.order before a after hmade r hr k hk with hnil | hbefore | hprogress
  · cases hnil
  · exact hbefore
  · exact absurd hprogress ((h.placed hd ha).not_isInProgress hd hr hk)

/-- A module with a chain of definitions, of which the last one comes first in the document. -/
def chain : TsModule Unit where
  document := .obj [("definitions", .obj [("Use", Declaration.Expansion.pointingTo "List"),
    ("List", Declaration.Expansion.pointingTo "Item"), ("Item", .obj [("type", .str "string")])])]

/-- The declarations of that module. -/
def chainDeclared : List (String × String) :=
  [("Item", "export type Item = string"),
    ("List", "export interface List \x7b\n  next?: Item;\n\x7d"),
    ("Use", "export interface Use \x7b\n  next?: List;\n\x7d")]

/-- How far a definition is from the end of the chain. -/
def chainRank (name : String) : Nat :=
  if name = "Use" then 2 else if name = "List" then 1 else 0

/-- The definitions of the chain are declared from its end. -/
theorem declarations_dependencies_first_chain :
    chain.settings.includeReferenced.truthy = true ∧
      (∀ names, chain.selectedNames = .ok names → chain.Descends names chainRank) ∧
      chain.declarations () = (.ok chainDeclared, ()) ∧
      ∃ names, chain.selectedNames = .ok names ∧
        ∃ a ∈ chain.attempts names [] (), a.name = "Use" ∧
          a.result = .ok "export interface Use \x7b\n  next?: List;\n\x7d" ∧
          ∀ r ∈ a.met, ∃ k ∈ ["Item", "List"], displayNameOf r = .ok k := by
  have hnames : chain.selectedNames = .ok ["Use", "List", "Item"] := by rfl
  have huse : chain.namedSchema "Use" = .ok (Declaration.Expansion.pointingTo "List") := by rfl
  have hlist : chain.namedSchema "List" = .ok (Declaration.Expansion.pointingTo "Item") := by rfl
  have hitem : chain.namedSchema "Item" = .ok (.obj [("type", .str "string")]) := by rfl
  have hrank : ∀ names, chain.selectedNames = .ok names → chain.Descends names chainRank := by
    intro names hselected
    obtain rfl := Except.ok.inj (hnames.symm.trans hselected)
    have hpointing : ∀ name, Schema.RefersToAll (Declaration.Expansion.pointingTo name)
        ["#/definitions/" ++ name] := fun name path => rfl
    have hstring : Schema.RefersToAll (.obj [("type", .str "string")]) [] := fun path => rfl
    refine .of_known ["#/definitions/List", "#/definitions/Item"] (fun name hname => ?_)
      fun r hr => ?_
    · simp only [List.mem_cons, List.not_mem_nil, or_false] at hname
      rcases hname with rfl | rfl | rfl
      · exact ⟨_, huse, _, by simp, hpointing "List", by decide⟩
      · exact ⟨_, hlist, _, by simp, hpointing "Item", by decide⟩
      · exact ⟨_, hitem, _, by simp, hstring, by simp⟩
    · simp only [List.mem_cons, List.not_mem_nil, or_false] at hr
      rcases hr with rfl | rfl
      · exact ⟨_, rfl, _, by simp, hpointing "Item", by decide⟩
      · exact ⟨_, rfl, _, by simp, hstring, by simp⟩
  have hsetting : chain.settings.toFormat = .ok (.options {}) := by rfl
  have hfirst : chain.addDeclaration [] "Use" () = (.ok chainDeclared, ()) := by
    rw [addDeclaration_of_not_mem chain (by decide), huse, hsetting]
    rfl
  have hrun : chain.declarations () = (.ok chainDeclared, ()) := by
    have hknown : ∀ name ∈ ["List", "Item"],
        chain.addDeclaration chainDeclared name () = (.ok chainDeclared, ()) := by
      intro name hname
      refine addDeclaration_of_mem chain ?_ ()
      revert name
      decide
    simp only [declarations, hnames, addDeclarations, Step.andThen, hfirst,
      hknown "List" (by simp), hknown "Item" (by simp), Step.ofExcept]
  obtain ⟨names, hselected, -, hkept⟩ :=
    declarations_dependencies_first chain rfl chainRank hrank () () chainDeclared hrun
  obtain ⟨before, a, after, hmade, hname, hresult, -, hmet⟩ :=
    hkept (chainDeclared.take 2) "Use" _ [] rfl
  exact ⟨rfl, hrank, hrun, names, hselected, a, by simp [hmade], hname, hresult, hmet⟩

end TsModule

end SchemaTypes

import SchemaTypes.Proofs.Grafting
import SchemaTypes.Proofs.Inlining

/-!
# Deep type expressions are substitution

In deep mode a reference is written as its target, and what is written around it looks through it.
If all references that can be reached lead to schemas, and their display names do not run in
circles, then each reference can be replaced by the tree it leads to, with the references in that
tree replaced in the same way, until none is left. `Resolves` says that a function gives every
reference that tree. The schema is then written as the tree that is left.

That names do not run in circles is said by a rank that goes down along every reference. It is what
keeps inlining from stopping at a name, and following from stopping at a link.
-/

namespace SchemaTypes.Expression

open Schema (Node)
open Reference (displayName)

/-! ## References that are reached -/

/-- The references in a tree, and those in the targets of references that are reached. -/
inductive Reached (document : Json) (root : Node) : Json → Prop where
  | here {target : Json} (h : target ∈ root.targets) : Reached document root target
  | next {target target' : Json} {node : Node} (h : Reached document root target)
      (hnode : targetNode document target = .ok node) (h' : target' ∈ node.targets) :
      Reached document root target'

/-- Every reference that is reached leads to a schema, and a rank of display names goes down from it
to the references in its target. -/
structure Descends (document : Json) (root : Node) (rank : String → Nat) : Prop where
  leads : ∀ target, Reached document root target → ∃ node, targetNode document target = .ok node
  rank_lt : ∀ r node r', Reached document root (.str r) →
    targetNode document (.str r) = .ok node → .str r' ∈ node.targets →
      rank (displayName r') < rank (displayName r)

/-- A function gives every reference that is reached the tree of its target, with the references in
it replaced by what the function gives them. -/
def Resolves (document : Json) (root : Node) (f : Json → Node) : Prop :=
  ∀ target, Reached document root target →
    ∃ node, targetNode document target = .ok node ∧ f target = node.graft f

variable {document schema : Json} {root : Node} {rank : String → Nat} {f : Json → Node}

theorem exists_text_of_targetNode {target : Json} {node : Node}
    (h : targetNode document target = .ok node) : ∃ r, target = .str r := by
  unfold targetNode at h
  obtain ⟨r, hr, -⟩ := bind_eq_ok.mp h
  cases target with
  | str s => exact ⟨s, rfl⟩
  | _ => cases hr

namespace Descends

variable {target : Json}

/-- A reference that is reached is a text that leads to a schema. -/
theorem exists_text (hd : Descends document root rank) (h : Reached document root target) :
    ∃ r node, target = .str r ∧ targetNode document (.str r) = .ok node := by
  obtain ⟨node, hnode⟩ := hd.leads target h
  obtain ⟨r, rfl⟩ := exists_text_of_targetNode hnode
  exact ⟨r, node, rfl, hnode⟩

/-- What holds of a reference that is reached whenever it holds of the references in its target,
holds of all of them. -/
@[elab_as_elim]
theorem induct (hd : Descends document root rank) {motive : Json → Prop}
    (h : Reached document root target)
    (step : ∀ r node, Reached document root (.str r) → targetNode document (.str r) = .ok node →
      (∀ target ∈ node.targets, motive target) → motive (.str r)) : motive target := by
  obtain ⟨r, node, rfl, hnode⟩ := hd.exists_text h
  induction hn : rank (displayName r) using Nat.strongRecOn generalizing r node with
  | ind n ih =>
    refine step r node h hnode fun target htarget => ?_
    have hreached := h.next hnode htarget
    obtain ⟨r', node', rfl, hnode'⟩ := hd.exists_text hreached
    exact ih _ (hn ▸ hd.rank_lt r node r' h hnode htarget) r' node' hnode' hreached rfl

/-- Ranks go down from every tree that refers only to known references, if these lead to schemas
that refer only to known references of lower ranks. -/
theorem of_known (known : List String) (hroot : ∃ rs ⊆ known, root.targets = rs.map .str)
    (hknown : ∀ r ∈ known, ∃ rs ⊆ known,
      Node.targets <$> targetNode document (.str r) = .ok (rs.map .str) ∧
        ∀ r' ∈ rs, rank (displayName r') < rank (displayName r)) :
    Descends document root rank := by
  have hnext : ∀ r ∈ known, ∀ node, targetNode document (.str r) = .ok node →
      ∀ target ∈ node.targets, ∃ r' ∈ known, target = .str r' ∧
        rank (displayName r') < rank (displayName r) := by
    intro r hr node hnode target htarget
    obtain ⟨rs, hsub, htargets, hlt⟩ := hknown r hr
    rw [hnode] at htargets
    rw [Except.ok.inj htargets] at htarget
    obtain ⟨r', hr', rfl⟩ := List.mem_map.mp htarget
    exact ⟨r', hsub hr', rfl, hlt r' hr'⟩
  -- Known references lead to known ones only, so no other reference is ever reached.
  have hreached : ∀ target, Reached document root target → ∃ r ∈ known, target = .str r := by
    intro target h
    induction h with
    | here h =>
      obtain ⟨rs, hsub, htargets⟩ := hroot
      rw [htargets] at h
      obtain ⟨r, hr, rfl⟩ := List.mem_map.mp h
      exact ⟨r, hsub hr, rfl⟩
    | next h hnode h' ih =>
      obtain ⟨r, hr, rfl⟩ := ih
      obtain ⟨r', hr', rfl, -⟩ := hnext r hr _ hnode _ h'
      exact ⟨r', hr', rfl⟩
  refine ⟨fun target h => ?_, fun r node r' h hnode h' => ?_⟩
  · obtain ⟨r, hr, rfl⟩ := hreached target h
    obtain ⟨rs, -, htargets, -⟩ := hknown r hr
    obtain ⟨node, hnode, -⟩ := map_eq_ok.mp htargets
    exact ⟨node, hnode⟩
  · obtain ⟨_, hr, heq⟩ := hreached _ h
    obtain rfl := Json.str.inj heq
    obtain ⟨_, -, heq', hlt⟩ := hnext r hr node hnode _ h'
    obtain rfl := Json.str.inj heq'
    exact hlt

end Descends

/-! ## Resolving references -/

/-- The tree of the target of a reference, with references replaced up to a depth. -/
def unfolded (document : Json) : Nat → Json → Node
  | 0, _ => .unknown ⟨"", {}⟩ .null
  | depth + 1, target =>
    match targetNode document target with
    | .ok node => node.graft (unfolded document depth)
    | .error _ => .unknown ⟨"", {}⟩ .null

/-- How deep the tree of a reference is unfolded: as deep as the rank of its name asks for. -/
def depthOf (rank : String → Nat) : Json → Nat
  | .str r => rank (displayName r) + 1
  | _ => 0

/-- The references in the target of a reference ask for less depth. -/
theorem Descends.depthOf_lt (hd : Descends document root rank) {r : String} {node : Node}
    {target : Json} (h : Reached document root (.str r))
    (hnode : targetNode document (.str r) = .ok node) (htarget : target ∈ node.targets) :
    depthOf rank target < depthOf rank (.str r) := by
  obtain ⟨r', node', rfl, -⟩ := hd.exists_text (h.next hnode htarget)
  exact Nat.succ_lt_succ (hd.rank_lt r node r' h hnode htarget)

/-- Beyond the rank of a reference the depth makes no difference. -/
theorem Descends.unfolded_stable (hd : Descends document root rank) {target : Json}
    (h : Reached document root target) :
    ∀ m n, depthOf rank target ≤ m → depthOf rank target ≤ n →
      unfolded document m target = unfolded document n target := by
  refine hd.induct h fun r node hr hnode ih => ?_
  intro m n hm hn
  obtain ⟨m, rfl⟩ := Nat.exists_eq_add_of_lt (Nat.lt_of_lt_of_le (Nat.succ_pos _) hm)
  obtain ⟨n, rfl⟩ := Nat.exists_eq_add_of_lt (Nat.lt_of_lt_of_le (Nat.succ_pos _) hn)
  rw [unfolded, unfolded, hnode]
  refine Node.graft_congr fun target htarget => ?_
  have hlt := hd.depthOf_lt hr hnode htarget
  refine ih target htarget _ _ ?_ ?_
  · omega
  · omega

/-- References whose names do not run in circles can be resolved. -/
theorem Descends.exists_resolves (hd : Descends document root rank) :
    ∃ f, Resolves document root f := by
  refine ⟨fun target => unfolded document (depthOf rank target) target, fun target h => ?_⟩
  obtain ⟨r, node, rfl, hnode⟩ := hd.exists_text h
  refine ⟨node, hnode, ?_⟩
  change unfolded document (rank (displayName r) + 1) (.str r) = _
  rw [unfolded, hnode]
  refine Node.graft_congr fun target htarget => ?_
  refine hd.unfolded_stable (h.next hnode htarget) _ _ ?_ (Nat.le_refl _)
  exact Nat.le_of_lt_succ (hd.depthOf_lt h hnode htarget)

/-- What resolves references leaves none. -/
theorem Resolves.targets_eq_nil (hf : Resolves document root f)
    (hd : Descends document root rank) {target : Json} (h : Reached document root target) :
    (f target).targets = [] := by
  refine hd.induct h fun r node hr hnode ih => ?_
  obtain ⟨node', hnode', hgraft⟩ := hf (.str r) hr
  obtain rfl : node = node' := Except.ok.inj (hnode.symm.trans hnode')
  rw [List.eq_nil_iff_forall_not_mem]
  intro t ht
  rw [hgraft] at ht
  obtain ⟨target, htarget, ht⟩ := Node.exists_of_mem_targets_graft ht
  rw [ih target htarget] at ht
  cases ht

/-! ## Following references -/

/-- Following a reference that is reached leads to a node that is no reference and has the same
graft, unless the bound is exhausted: ranks go down, so no link comes up twice. -/
theorem Resolves.follow (hf : Resolves document root f) (hd : Descends document root rank)
    {r : String} (h : Reached document root (.str r)) {seen : List String}
    (hseen : ∀ q ∈ seen, rank (displayName r) < rank (displayName q)) (info : Schema.Info)
    (bound : Nat) :
    follow document bound seen (.reference info (.str r)) = .error .boundExceeded ∨
      ∃ d, follow document bound seen (.reference info (.str r)) = .ok d ∧
        d.isReference = false ∧ f (.str r) = d.graft f := by
  have hnew : r ∉ seen := fun hr => Nat.lt_irrefl _ (hseen r hr)
  induction bound generalizing r seen info with
  | zero => exact Or.inl (follow_zero_of_not_mem hnew info)
  | succ bound ih =>
    obtain ⟨node, hnode, hgraft⟩ := hf (.str r) h
    rw [follow_of_not_mem hnew, hnode]
    change Expression.follow document bound (r :: seen) node = _ ∨
      ∃ d, Expression.follow document bound (r :: seen) node = _ ∧ _
    cases hkind : node.isReference with
    | false =>
      rw [follow_of_not_isReference hkind]
      exact Or.inr ⟨node, rfl, hkind, hgraft⟩
    | true =>
      obtain ⟨info', target, rfl⟩ := Schema.Node.exists_of_isReference hkind
      have htarget : target ∈ (Node.reference info' target).targets := by simp [Node.targets]
      have hreached := h.next hnode htarget
      obtain ⟨r', node', rfl, -⟩ := hd.exists_text hreached
      have hlt := hd.rank_lt r _ r' h hnode htarget
      have hseen' : ∀ q ∈ r :: seen, rank (displayName r') < rank (displayName q) := by
        intro q hq
        rcases List.mem_cons.mp hq with rfl | hq
        · exact hlt
        · exact Nat.lt_trans hlt (hseen q hq)
      rw [hgraft, Node.graft]
      exact ih hreached hseen' info' fun hr => Nat.lt_irrefl _ (hseen' r' hr)

/-- A reference that is reached describes a node with the same graft. -/
theorem Resolves.describesGraft (hf : Resolves document root f) (hd : Descends document root rank)
    {target : Json} (h : Reached document root target) (info : Schema.Info) :
    DescribesGraft document f (.reference info target) := by
  obtain ⟨r, node, rfl, -⟩ := hd.exists_text h
  have hfollow := hf.follow hd h (List.forall_mem_nil _) info (linkBound document)
  rcases hfollow with herror | ⟨d, hdescribed, hnot, hgraft⟩
  · exact absurd herror (described_settles document (.reference info (.str r))).2
  · refine ⟨d, hdescribed, hnot, ?_⟩
    rw [Node.graft, hgraft]

/-! ## Inlining references -/

/-- In deep mode a reference whose name is neither being inlined nor under way is written as its
target. -/
theorem outcome_ofReference (s : Scope) {inlined : List String → Node → Rendering String}
    {inlining : List String} {target : Json} {name : String} {node : Node}
    (underWay : String → Bool) (hdeep : s.settings.deep = true)
    (hname : Reference.displayNameOf target = .ok name) (hnew : name ∉ inlining)
    (hunderWay : underWay name = false) (hnode : targetNode s.document target = .ok node) :
    (ofReference s inlined inlining target).outcome underWay =
      (inlined (name :: inlining) node).outcome underWay := by
  rw [ofReference_of_ok hname, if_neg (by simp [hdeep, hnew]), hnode]
  simp only [Rendering.outcome_bind, Rendering.outcome_meet, Rendering.outcome_ask]
  change (if underWay name = true then _ else _ : Rendering String).outcome underWay = _
  rw [hunderWay]
  rfl

/-- With no name under way, a tree is written in deep mode like its graft, as long as the names that
are being inlined around it have higher ranks than those of its references. -/
theorem Resolves.outcome_ofTree (hf : Resolves document root f)
    (hd : Descends document root rank) {settings : Settings} (hdeep : settings.deep = true)
    (document' : Json) (onReference : Json → Rendering String) {bound : Nat}
    {inlining : List String} {node : Node} (hinlining : Nests document schema inlining)
    (hnode : IsLocal document schema node)
    (hbound : nestingBound document schema ≤ bound + inlining.length)
    (hreached : ∀ target ∈ node.targets, Reached document root target)
    (hrank : ∀ r, .str r ∈ node.targets → ∀ name ∈ inlining, rank (displayName r) < rank name) :
    (ofTree ⟨document, settings⟩ bound inlining node).outcome (fun _ => false) =
      (ofNode ⟨document', settings⟩ onReference (node.graft f)).outcome fun _ => false := by
  induction bound generalizing inlining node with
  | zero =>
    exact absurd rfl (hinlining.bound_ne_zero hbound)
  | succ bound ih =>
    have hdescribed : ∀ target ∈ node.targets, ∀ info,
        DescribesGraft document f (.reference info target) :=
      fun target htarget info => hf.describesGraft hd (hreached target htarget) info
    rw [ofTree]
    refine outcome_ofNode_graft ⟨document, settings⟩ ⟨document', settings⟩ rfl hdeep
      (fun target htarget => ?_) hdescribed
    obtain ⟨next, hnext, hgraft⟩ := hf target (hreached target htarget)
    obtain ⟨r, rfl⟩ := exists_text_of_targetNode hnext
    have hname : Reference.displayNameOf (.str r) = .ok (displayName r) :=
      displayNameOf_eq_ok.mpr ⟨r, rfl, rfl⟩
    have hnew : displayName r ∉ inlining :=
      fun hmem => Nat.lt_irrefl _ (hrank r htarget _ hmem)
    rw [outcome_ofReference ⟨document, settings⟩ (fun _ => false) hdeep hname hnew rfl hnext,
      hgraft]
    refine ih (hinlining.cons hnode htarget hname hnew) (isLocal_of_targetNode hnext) ?_
      (fun target htarget' => (hreached _ htarget).next hnext htarget') fun r' hr' name hmem => ?_
    · rw [List.length_cons]
      omega
    · have hlt := hd.rank_lt r next r' (hreached _ htarget) hnext hr'
      rcases List.mem_cons.mp hmem with rfl | hmem
      · exact hlt
      · exact Nat.lt_trans hlt (hrank r htarget name hmem)

/-- In deep mode, if every reference that can be reached from a schema leads to a schema, and some
rank of display names goes down along all of these references, each of them can be replaced by the
tree it finally leads to, with the references in it replaced likewise; no reference is left; and
the schema is written, or fails to be written, as the tree that is left, whatever would be written
for references and whatever document they would lead into. -/
theorem ofSchema_deep_eq_graft (document : Json) (settings : Settings) (schema : Json)
    (root : Node) (rank : String → Nat) (hdeep : settings.deep = true)
    (hroot : Node.ofJson schema "#" = .ok root) (hd : Descends document root rank) :
    (∃ f, Resolves document root f) ∧
    ∀ f, Resolves document root f →
      (root.graft f).targets = [] ∧
      ∀ document' onReference,
        (ofSchema document settings schema).outcome (fun _ => false) =
          (ofNode ⟨document', settings⟩ onReference (root.graft f)).outcome fun _ => false := by
  refine ⟨hd.exists_resolves, fun f hf => ⟨?_, fun document' onReference => ?_⟩⟩
  · rw [List.eq_nil_iff_forall_not_mem]
    intro t ht
    obtain ⟨target, htarget, ht⟩ := Node.exists_of_mem_targets_graft ht
    rw [hf.targets_eq_nil hd (.here htarget)] at ht
    cases ht
  · unfold ofSchema
    cases htruthy : schema.truthy with
    | false =>
      obtain ⟨info, declared, hunknown⟩ := Schema.exists_unknown_of_not_truthy htruthy "#"
      obtain rfl : root = .unknown info declared := Except.ok.inj (hroot.symm.trans hunknown)
      rw [Node.graft, ofNode]
      rfl
    | true =>
      rw [if_pos rfl, hroot]
      exact hf.outcome_ofTree hd hdeep document' onReference nests_nil (isLocal_of_ofJson hroot)
        (Nat.le_add_right _ _) (fun target htarget => .here htarget)
        fun r hr name hmem => absurd hmem List.not_mem_nil

/-- A reference to a definition. -/
def toDefinition (name : String) : Json :=
  .obj [("$ref", .str ("#/definitions/" ++ name))]

/-- A list of items. -/
def listOf (item : Json) : Json :=
  .obj [("type", .str "array"), ("items", item)]

/-- A choice, another name for it, and a record that uses the other name. -/
def shapes : Json :=
  .obj [("definitions", .obj [
    ("Choice", .obj [("enum", .arr [.str "a", .str "b"]), ("description", .str "One of two.")]),
    ("Alias", toDefinition "Choice"),
    ("Point", .obj [("properties", .obj [
      ("many", listOf (toDefinition "Alias")), ("one", toDefinition "Alias")])])])]

/-- A schema that reaches the choice as a part, as items and as a property, under its other name. -/
def shapesInUse : Json :=
  .obj [("allOf", .arr [toDefinition "Alias", listOf (toDefinition "Point")])]

/-- Records come before other names for choices, and these before choices. -/
def rankOfShape (name : String) : Nat :=
  if name = "Point" then 2 else if name = "Alias" then 1 else 0

/-- The choice is substituted wherever it is reached under its other name. -/
theorem ofSchema_deep_eq_graft_aliases :
    ∃ root f, Node.ofJson shapesInUse "#" = .ok root ∧ Descends shapes root rankOfShape ∧
      Resolves shapes root f ∧ (root.graft f).targets = [] ∧
      (ofNode ⟨.null, {}⟩ (fun _ => pure "") (root.graft f)).outcome (fun _ => false) =
        .ok ("(\"a\" | \"b\") & Array<\x7b\n  many?: (\"a\" | \"b\")[];\n" ++
          "  // One of two.\n  one?: \"a\" | \"b\";\n\x7d>") := by
  obtain ⟨root, hroot⟩ : ∃ root, Node.ofJson shapesInUse "#" = .ok root := ⟨_, rfl⟩
  have htargets : Node.targets <$> Node.ofJson shapesInUse "#" =
      .ok (["#/definitions/Alias", "#/definitions/Point"].map .str) := rfl
  rw [hroot] at htargets
  have hd : Descends shapes root rankOfShape := by
    refine .of_known ["#/definitions/Choice", "#/definitions/Alias", "#/definitions/Point"]
      ⟨_, by decide, Except.ok.inj htargets⟩ fun r hr => ?_
    simp only [List.mem_cons, List.not_mem_nil, or_false] at hr
    rcases hr with rfl | rfl | rfl
    · exact ⟨[], by decide, rfl, by decide⟩
    · exact ⟨["#/definitions/Choice"], by decide, rfl, by decide⟩
    · exact ⟨["#/definitions/Alias", "#/definitions/Alias"], by decide, rfl, by decide⟩
  obtain ⟨⟨f, hf⟩, hall⟩ :=
    ofSchema_deep_eq_graft shapes {} shapesInUse root rankOfShape rfl hroot hd
  obtain ⟨hnil, heq⟩ := hall f hf
  refine ⟨root, f, hroot, hd, hf, hnil, ?_⟩
  rw [← heq .null fun _ => pure ""]
  rfl

end SchemaTypes.Expression

import SchemaTypes.Proofs.Expressions

/-!
# How deep inlining goes

While targets are inlined into each other, their names are different, since no name is inlined
inside itself, and they are display names of the schema and the document. So no more targets are
nested than there are such names, and `nestingBound` leaves room for them all.

`ofTreeGuarded` writes a tree under a watch: before it writes a target it looks at the names that
are being inlined, and where these are not allowed, or where the bound is exhausted, it does
something else instead. It writes what `ofTree` writes, whatever is done instead, if all lists of
different display names are allowed; so nothing else ever comes up.
-/

namespace SchemaTypes.Expression

open Schema (Node)

/-- Writes a tree inside targets of the names `inlining` like `ofTree`, but does something else
instead where these names are not allowed or the bound is exhausted. -/
def ofTreeGuarded (s : Scope) (allowed : List String → Prop) [DecidablePred allowed]
    (instead : List String → Node → Rendering String) :
    Nat → List String → Node → Rendering String
  | 0, inlining, node => instead inlining node
  | bound + 1, inlining, node =>
    if allowed inlining then
      ofNode s (ofReference s (ofTreeGuarded s allowed instead bound) inlining) node
    else
      instead inlining node

/-- The names that can be nested: different display names of a schema and a document. -/
def Nests (document schema : Json) (inlining : List String) : Prop :=
  inlining.Nodup ∧ inlining ⊆ displayNames document schema

instance (document schema : Json) : DecidablePred (Nests document schema) :=
  fun inlining => inferInstanceAs (Decidable (inlining.Nodup ∧ inlining ⊆ _))

variable {document schema : Json}

theorem nests_nil : Nests document schema [] :=
  ⟨List.nodup_nil, List.nil_subset _⟩

/-- No more different display names are nested than there are. -/
theorem Nests.length_le {inlining : List String} (h : Nests document schema inlining) :
    inlining.length ≤ (displayNames document schema).length :=
  (List.subperm_of_subset h.1 h.2).length_le

/-- A bound that leaves room for all display names is not exhausted inside different ones. -/
theorem Nests.bound_ne_zero {bound : Nat} {inlining : List String}
    (h : Nests document schema inlining)
    (hbound : nestingBound document schema ≤ bound + inlining.length) : bound ≠ 0 := by
  have hlen := h.length_le
  rw [nestingBound] at hbound
  omega

theorem mem_displayNames {name : String} :
    name ∈ displayNames document schema ↔
      ∃ r, (r ∈ schema.references ∨ r ∈ document.references) ∧ Reference.displayName r = name := by
  simp only [displayNames, List.mem_eraseDups, List.mem_map, List.mem_append]

/-- The references of a tree are among those of the schema and the document. -/
abbrev IsLocal (document schema : Json) (node : Node) : Prop :=
  node.RefersTo (schema.references ++ document.references)

theorem displayNameOf_eq_ok {target : Json} {name : String} :
    Reference.displayNameOf target = .ok name ↔
      ∃ r, target = .str r ∧ Reference.displayName r = name := by
  cases target <;> simp [Reference.displayNameOf, Json.asText, Except.map]

theorem displayNameOf_settles (target : Json) :
    Settles (Reference.displayNameOf target) fun _ => True :=
  (Json.asText_settles target).map fun _ _ => trivial

theorem mem_displayNames_of_mem_targets {node : Node} {target : Json} {name : String}
    (hnode : IsLocal document schema node) (htarget : target ∈ node.targets)
    (hname : Reference.displayNameOf target = .ok name) : name ∈ displayNames document schema := by
  obtain ⟨r, rfl, hr⟩ := displayNameOf_eq_ok.mp hname
  exact mem_displayNames.mpr ⟨r, List.mem_append.mp (hnode r htarget), hr⟩

theorem isLocal_of_ofJson {root : Node} {path : String} (h : Node.ofJson schema path = .ok root) :
    IsLocal document schema root :=
  fun r hr => List.mem_append_left _ ((Schema.Node.ofJson_settles schema path).1 root h r hr)

theorem isLocal_of_targetNode {target : Json} {node : Node}
    (h : targetNode document target = .ok node) : IsLocal document schema node :=
  fun r hr => List.mem_append_right _ ((targetNode_settles document target).1 node h r hr)

/-! ## Writing references -/

section References

variable {s : Scope} {inlined inlined' : List String → Node → Rendering String}
  {inlining : List String} {target : Json}

/-- A reference without a display name is met before it fails. -/
theorem ofReference_of_error {e : Failure} (h : Reference.displayNameOf target = .error e) :
    ofReference s inlined inlining target = Rendering.meet target >>= fun _ => .failed e := by
  unfold ofReference
  rw [h]
  rfl

/-- A reference is named in shallow mode, and where its name is being inlined or is under way;
everywhere else its target is inlined. -/
theorem ofReference_of_ok {name : String} (h : Reference.displayNameOf target = .ok name) :
    ofReference s inlined inlining target = Rendering.meet target >>= fun _ =>
      if s.settings.deep = false ∨ name ∈ inlining then pure name
      else Rendering.ask name >>= fun underWay =>
        if underWay = true then pure name
        else liftM (targetNode s.document target) >>= inlined (name :: inlining) := by
  unfold ofReference
  rw [h]
  refine congrArg (Rendering.meet target >>= ·) (funext fun _ => ?_)
  change (if _ then _ else _ : Rendering String) = _
  simp only [Bool.or_eq_true, Bool.not_eq_true', List.contains_iff_mem]

/-- A reference that was written is the first one met. If it was named, no other is met, and
otherwise its target was inlined, and the others are met there. -/
theorem observe_ofReference_eq_ok {underWay : String → Bool} {met : List Json} {text : String} :
    (ofReference s inlined inlining target).observe underWay = (met, .ok text) ↔
      ∃ name, Reference.displayNameOf target = .ok name ∧
        if s.settings.deep = false ∨ name ∈ inlining ∨ underWay name = true then
          met = [target] ∧ text = name
        else
          ∃ node others, targetNode s.document target = .ok node ∧
            (inlined (name :: inlining) node).observe underWay = (others, .ok text) ∧
              met = target :: others := by
  cases hname : Reference.displayNameOf target with
  | error e =>
    rw [ofReference_of_error hname, Rendering.observe_meet_bind_eq_ok]
    simp [Rendering.observe_failed]
  | ok name =>
    rw [ofReference_of_ok hname, Rendering.observe_meet_bind_eq_ok]
    simp only [Except.ok.injEq, exists_eq_left']
    have hnaming : (∃ others, (pure name : Rendering String).observe underWay = (others, .ok text) ∧
        met = target :: others) ↔ met = [target] ∧ text = name := by
      simp [and_comm, eq_comm]
    by_cases hnamed : s.settings.deep = false ∨ name ∈ inlining
    · rw [if_pos hnamed, if_pos (hnamed.imp_right Or.inl), hnaming]
    · rw [if_neg hnamed, Rendering.observe_ask_bind]
      by_cases hunderWay : underWay name = true
      · rw [if_pos hunderWay, if_pos (Or.inr (Or.inr hunderWay)), hnaming]
      · have hinlined : ¬ (s.settings.deep = false ∨ name ∈ inlining ∨ underWay name = true) := by
          rw [← or_assoc]
          exact not_or.mpr ⟨hnamed, hunderWay⟩
        rw [if_neg hunderWay, if_neg hinlined]
        simp only [Rendering.observe_lift_bind_eq_ok]
        constructor
        · rintro ⟨others, ⟨node, hnode, hinside⟩, hmet⟩
          exact ⟨node, others, hnode, hinside, hmet⟩
        · rintro ⟨node, others, hnode, hinside, hmet⟩
          exact ⟨others, ⟨node, hnode, hinside⟩, hmet⟩

/-- How a reference is written depends on the writer of targets only where the name is new and the
target is there. -/
theorem ofReference_congr
    (h : ∀ name node, Reference.displayNameOf target = .ok name → name ∉ inlining →
      targetNode s.document target = .ok node →
        inlined (name :: inlining) node = inlined' (name :: inlining) node) :
    ofReference s inlined inlining target = ofReference s inlined' inlining target := by
  cases hname : Reference.displayNameOf target with
  | error e => rw [ofReference_of_error hname, ofReference_of_error hname]
  | ok name =>
    rw [ofReference_of_ok hname, ofReference_of_ok hname]
    refine congrArg (Rendering.meet target >>= ·) (funext fun _ => ?_)
    split
    · rfl
    · next hnew =>
      refine congrArg (Rendering.ask name >>= ·) (funext fun underWay => ?_)
      split
      · rfl
      · cases hnode : targetNode s.document target with
        | error e => rfl
        | ok node => exact h name node hname (not_or.mp hnew).2 hnode

/-- A reference may do what the writer of targets may do where the name is new and the target is
there; besides, it is met, in deep mode its name may be asked for, and it may fail. -/
theorem ofReference_within {leave : Rendering.Leave} (hmeet : leave.meeting target)
    (hask : s.settings.deep = true → leave.asking)
    (hfail : ∀ e, e ≠ .boundExceeded → leave.failing e)
    (h : ∀ name node, Reference.displayNameOf target = .ok name → name ∉ inlining →
      targetNode s.document target = .ok node →
        (inlined (name :: inlining) node).Within leave) :
    (ofReference s inlined inlining target).Within leave := by
  cases hname : Reference.displayNameOf target with
  | error e =>
    rw [ofReference_of_error hname]
    refine Rendering.within_bind (Rendering.within_meet hmeet) fun _ => ?_
    exact hfail e fun hbound => (displayNameOf_settles target).2 (by rw [hname, hbound])
  | ok name =>
    rw [ofReference_of_ok hname]
    refine Rendering.within_bind (Rendering.within_meet hmeet) fun _ => ?_
    split
    · exact Rendering.within_pure name
    · next hnew =>
      have hdeep : s.settings.deep = true := by simpa using (not_or.mp hnew).1
      refine Rendering.within_bind (Rendering.within_ask (hask hdeep) name) fun underWay => ?_
      split
      · exact Rendering.within_pure name
      · refine Rendering.within_lift_bind (fun e he => hfail e fun hbound => ?_)
          fun node hnode => ?_
        · exact (targetNode_settles s.document target).2 (by rw [he, hbound])
        · exact h name node hname (not_or.mp hnew).2 hnode

end References

/-! ## Writing trees -/

variable {settings : Settings} {inlining : List String} {bound : Nat} {node : Node}
  {formatting : Prop}

/-- The names that are nested when one target more is inlined. -/
theorem Nests.cons {target : Json} {name : String} (h : Nests document schema inlining)
    (hnode : IsLocal document schema node) (htarget : target ∈ node.targets)
    (hname : Reference.displayNameOf target = .ok name) (hnew : name ∉ inlining) :
    Nests document schema (name :: inlining) :=
  ⟨List.nodup_cons.mpr ⟨hnew, h.1⟩,
    List.cons_subset.mpr ⟨mem_displayNames_of_mem_targets hnode htarget hname, h.2⟩⟩

/-- Inside different display names a watch that allows such names sees nothing else, and with room
for all of them the bound is not exhausted. -/
theorem ofTreeGuarded_eq_ofTree (instead : List String → Node → Rendering String)
    (hinlining : Nests document schema inlining) (hnode : IsLocal document schema node)
    (hbound : nestingBound document schema ≤ bound + inlining.length) :
    ofTreeGuarded ⟨document, settings⟩ (Nests document schema) instead bound inlining node =
      ofTree ⟨document, settings⟩ bound inlining node := by
  induction bound generalizing inlining node with
  | zero =>
    exact absurd rfl (hinlining.bound_ne_zero hbound)
  | succ bound ih =>
    rw [ofTreeGuarded, ofTree, if_pos hinlining]
    refine ofNode_congr fun target htarget => ofReference_congr fun name next hname hnew hnext => ?_
    refine ih (hinlining.cons hnode htarget hname hnew) (isLocal_of_targetNode hnext) ?_
    rw [List.length_cons]
    omega

/-- What writing a schema may do: meet references with display names of the schema and the document,
ask for names in deep mode, and fail, but not for want of a bound. -/
def leave (document schema : Json) (deep formatting : Prop) : Rendering.Leave where
  meeting := fun target => ∀ name, Reference.displayNameOf target = .ok name →
    name ∈ displayNames document schema
  asking := deep
  failing := (· ≠ .boundExceeded)
  formatting := formatting

theorem ofTree_within (hinlining : Nests document schema inlining)
    (hnode : IsLocal document schema node)
    (hbound : nestingBound document schema ≤ bound + inlining.length) :
    (ofTree ⟨document, settings⟩ bound inlining node).Within
      (leave document schema (settings.deep = true) formatting) := by
  induction bound generalizing inlining node with
  | zero =>
    exact absurd rfl (hinlining.bound_ne_zero hbound)
  | succ bound ih =>
    rw [ofTree]
    refine ofNode_within (fun e he => he) fun target htarget => ?_
    refine ofReference_within
      (fun name hname => mem_displayNames_of_mem_targets hnode htarget hname)
      (fun hdeep => hdeep) (fun e he => he) fun name next hname hnew hnext => ?_
    refine ih (hinlining.cons hnode htarget hname hnew) (isLocal_of_targetNode hnext) ?_
    rw [List.length_cons]
    omega

/-- A schema is written as its tree. If it counts as false, then its tree is the default type. -/
theorem ofSchema_eq_ofTree (document : Json) (settings : Settings) (schema : Json) :
    ofSchema document settings schema =
      liftM (Node.ofJson schema "#") >>=
        ofTree ⟨document, settings⟩ (nestingBound document schema) [] := by
  unfold ofSchema
  cases htruthy : schema.truthy with
  | true => rfl
  | false =>
    obtain ⟨info, declared, hunknown⟩ := Schema.exists_unknown_of_not_truthy htruthy "#"
    rw [hunknown]
    rfl

/-- Writing a schema as a type expression never ends for want of a bound, and has nothing
formatted. -/
theorem ofSchema_within (document : Json) (settings : Settings) (schema : Json) :
    (ofSchema document settings schema).Within
      (leave document schema (settings.deep = true) formatting) := by
  rw [ofSchema_eq_ofTree]
  refine Rendering.within_lift_bind (fun e he hbound => ?_) fun root hroot => ?_
  · exact (Schema.Node.ofJson_settles schema "#").2 (by rw [he, hbound])
  · exact ofTree_within nests_nil (isLocal_of_ofJson hroot) (by simp)

end SchemaTypes.Expression

import Mathlib.Data.List.Perm.Subperm
import SchemaTypes.Proofs.SchemaTrees

/-!
# Chains of references

Following a chain of references comes to an end: the links that were followed are different, all but
the first one are references of the document, and so there are no more of them than `linkBound`
allows for. `Expression.described` therefore never ends for want of a bound.
-/

namespace SchemaTypes

namespace Schema.Node

/-- Whether a node is a reference. -/
def isReference : Node → Bool
  | reference _ _ => true
  | _ => false

theorem exists_of_isReference {node : Node} (h : node.isReference = true) :
    ∃ info target, node = reference info target := by
  cases node with
  | reference info target => exact ⟨info, target, rfl⟩
  | _ => cases h

end Schema.Node

namespace Expression

open Schema (Node)
open Schema.Node (exists_of_isReference)

variable {document : Json}

theorem follow_of_not_isReference {node : Node} (h : node.isReference = false) (bound : Nat)
    (seen : List String) : follow document bound seen node = .ok node := by
  cases node with
  | reference info target => cases h
  | _ => rw [follow]; simp

/-- What a node describes is at the end of the chain that starts at the node. -/
theorem described_eq_follow (document : Json) (node : Node) :
    described document node = follow document (linkBound document) [] node := by
  cases hnode : node.isReference with
  | false => rw [follow_of_not_isReference hnode]; cases node <;> first | rfl | cases hnode
  | true =>
    obtain ⟨info, target, rfl⟩ := exists_of_isReference hnode
    rfl

/-- A link that was followed before ends a chain. -/
theorem follow_of_mem {r : String} {seen : List String} (h : r ∈ seen) (info : Schema.Info)
    (bound : Nat) :
    follow document bound seen (.reference info (.str r)) = .ok (.reference info (.str r)) := by
  rw [follow]
  simp [Json.isContainer, Json.asText, h, bind, Except.bind, pure, Except.pure]

/-- A link that was not followed before leads to its target, unless the bound is exhausted. -/
theorem follow_of_not_mem {r : String} {seen : List String} (h : r ∉ seen) (info : Schema.Info)
    (bound : Nat) :
    follow document (bound + 1) seen (.reference info (.str r)) =
      targetNode document (.str r) >>= follow document bound (r :: seen) := by
  rw [follow]
  simp [Json.isContainer, Json.asText, h, bind, Except.bind]

/-- Without room for one link, a link that was not followed before exhausts the bound. -/
theorem follow_zero_of_not_mem {r : String} {seen : List String} (h : r ∉ seen)
    (info : Schema.Info) :
    follow document 0 seen (.reference info (.str r)) = .error .boundExceeded := by
  rw [follow]
  simp [Json.isContainer, Json.asText, h, bind, Except.bind]

/-- A reference that is no text ends a chain with a failure. -/
theorem follow_not_text {target : Json} (h : ∀ r, target ≠ .str r) (info : Schema.Info)
    (bound : Nat) (seen : List String) :
    Settles (follow document bound seen (.reference info target)) fun _ => True := by
  rw [follow]
  cases target with
  | str r => exact absurd rfl (h r)
  | arr _ | obj _ => exact settles_error (by simp)
  | null | bool _ | int _ | float _ => exact settles_error (by simp)

/-- What can be said of following a chain, by induction: the chain is at its end, or at a reference
that is no text, or at a link that was followed before, or the bound is exhausted, or one more link
is followed. -/
@[elab_as_elim]
theorem follow_induct {motive : Nat → List String → Node → Prop}
    (ends : ∀ bound seen node, node.isReference = false → motive bound seen node)
    (notText : ∀ bound seen info target, (∀ r, target ≠ .str r) →
      motive bound seen (.reference info target))
    (returns : ∀ bound seen info r, r ∈ seen → motive bound seen (.reference info (.str r)))
    (stops : ∀ seen info r, r ∉ seen → motive 0 seen (.reference info (.str r)))
    (goes : ∀ bound seen info r, r ∉ seen → (∀ next, motive bound (r :: seen) next) →
      motive (bound + 1) seen (.reference info (.str r)))
    (bound : Nat) (seen : List String) (node : Node) : motive bound seen node := by
  induction bound generalizing seen node with
  | zero =>
    cases href : node.isReference with
    | false => exact ends 0 seen node href
    | true =>
      obtain ⟨info, target, rfl⟩ := exists_of_isReference href
      by_cases htext : ∃ r, target = .str r
      · obtain ⟨r, rfl⟩ := htext
        by_cases hmem : r ∈ seen
        · exact returns 0 seen info r hmem
        · exact stops seen info r hmem
      · exact notText 0 seen info target (not_exists.mp htext)
  | succ bound ih =>
    cases href : node.isReference with
    | false => exact ends (bound + 1) seen node href
    | true =>
      obtain ⟨info, target, rfl⟩ := exists_of_isReference href
      by_cases htext : ∃ r, target = .str r
      · obtain ⟨r, rfl⟩ := htext
        by_cases hmem : r ∈ seen
        · exact returns (bound + 1) seen info r hmem
        · exact goes bound seen info r hmem (ih (r :: seen))
      · exact notText (bound + 1) seen info target (not_exists.mp htext)

/-- The links of a chain that starts at `first` are different, so a bound that leaves room for all
references of the document and for `first` is enough. -/
theorem follow_settles (first : String) {bound : Nat} {seen : List String} {node : Node}
    (hseen : seen.Nodup) (hknown : seen ⊆ first :: document.references.eraseDups)
    (hnode : node.RefersTo (first :: document.references.eraseDups))
    (hbound : linkBound document ≤ bound + seen.length) :
    Settles (follow document bound seen node) fun _ => True := by
  induction bound, seen, node using follow_induct with
  | ends bound seen node hends =>
    rw [follow_of_not_isReference hends]
    exact settles_ok trivial
  | notText bound seen info target hnot => exact follow_not_text hnot info bound seen
  | returns bound seen info r hmem =>
    rw [follow_of_mem hmem]
    exact settles_ok trivial
  | stops seen info r hnew =>
    -- the links and this one are too many to be different
    have hsub : r :: seen ⊆ first :: document.references.eraseDups :=
      List.cons_subset.mpr ⟨hnode r (by simp [Node.targets]), hknown⟩
    have hlen := (List.subperm_of_subset (List.nodup_cons.mpr ⟨hnew, hseen⟩) hsub).length_le
    simp only [List.length_cons, linkBound] at hlen hbound
    omega
  | goes bound seen info r hnew ih =>
    rw [follow_of_not_mem hnew]
    refine (targetNode_settles document (.str r)).bind fun next hnext => ?_
    refine ih next (List.nodup_cons.mpr ⟨hnew, hseen⟩)
      (List.cons_subset.mpr ⟨hnode r (by simp [Node.targets]), hknown⟩)
      (fun r' hr' => List.mem_cons_of_mem _ (List.mem_eraseDups.mpr (hnext r' hr'))) ?_
    rw [List.length_cons]
    omega

/-- What a node describes is found, or it is missing for another reason than the bound. -/
theorem described_settles (document : Json) (node : Node) :
    Settles (described document node) fun _ => True := by
  unfold described
  split
  · next info target =>
    by_cases htext : ∃ r, target = .str r
    · obtain ⟨r, rfl⟩ := htext
      refine follow_settles r List.nodup_nil (List.nil_subset _) (fun r' hr' => ?_) (by simp)
      obtain rfl : r' = r := by simpa [Node.targets] using hr'
      exact List.mem_cons_self
    · exact follow_not_text (not_exists.mp htext) info (linkBound document) []
  · exact settles_ok trivial

end Expression

end SchemaTypes

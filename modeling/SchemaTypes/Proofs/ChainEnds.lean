import Mathlib.Data.List.Induction
import SchemaTypes.Expression.Library
import SchemaTypes.Proofs.Chains

/-!
# Where chains of references end

A chain of references is followed link by link, up to a node that is no reference, or up to a
reference that was followed before. `Expression.Pursues` says this without any bound, and
`Expression.Connected.exists_pursues` that the bound of `Expression.follow` limits the number of
links and does nothing else. So if every reference along a chain leads to a node, what is found is
the node that is no reference, if the chain comes to one, and a reference that was followed already
if it does not (`Expression.described_chain_end`).

The targets of references and their trees may be kept once they were looked up: a `Library` holds
them. Following a chain finds the same with any library as without one, since a library holds
nothing but what its document says (`Library.Faithful`).
-/

namespace SchemaTypes

namespace Expression

open Schema (Node Info)
open Schema.Node (exists_of_isReference)

/-! ## Chains without a bound -/

section Chains

variable (document : Json)

/-- A chain is followed through some links to a node, apart from links that were `seen` before. -/
inductive Pursues : List String → Node → List String → Node → Prop where
  | ends {seen : List String} {node : Node} (h : node.isReference = false) :
    Pursues seen node [] node
  | returns {seen : List String} {info : Info} {r : String} (h : r ∈ seen) :
    Pursues seen (.reference info (.str r)) [] (.reference info (.str r))
  | goes {seen links : List String} {info : Info} {r : String} {next last : Node} (hnew : r ∉ seen)
      (hnext : targetNode document (.str r) = .ok next)
      (hrest : Pursues (r :: seen) next links last) :
    Pursues seen (.reference info (.str r)) (r :: links) last

/-- A chain leads through some links, which need not be different, to a node. -/
inductive Leads : Node → List String → Node → Prop where
  | here (node : Node) : Leads node [] node
  | link {info : Info} {r : String} {next last : Node} {links : List String}
      (hnext : targetNode document (.str r) = .ok next) (hrest : Leads next links last) :
    Leads (.reference info (.str r)) (r :: links) last

/-- All references along a chain lead to nodes. -/
def Connected (node : Node) : Prop :=
  ∀ links info target, Leads document node links (.reference info target) →
    ∃ r next, target = .str r ∧ targetNode document (.str r) = .ok next

end Chains

variable {document : Json}

theorem Pursues.leads {seen links : List String} {node last : Node}
    (h : Pursues document seen node links last) : Leads document node links last := by
  induction h with
  | ends h => exact .here _
  | returns h => exact .here _
  | goes hnew hnext _ ih => exact .link hnext ih

/-- The node at which following stops is no reference, or one that was followed before. -/
theorem Pursues.last_cases {seen links : List String} {node last : Node}
    (h : Pursues document seen node links last) :
    last.isReference = false ∨
      ∃ info r, last = .reference info (.str r) ∧ (r ∈ links ∨ r ∈ seen) := by
  induction h with
  | ends h => exact .inl h
  | returns h => exact .inr ⟨_, _, rfl, .inr h⟩
  | @goes seen links info r next last hnew hnext _ ih =>
    rcases ih with h | ⟨info', r', rfl, h⟩
    · exact .inl h
    · refine .inr ⟨info', r', rfl, ?_⟩
      rcases h with h | h
      · exact .inl (List.mem_cons_of_mem _ h)
      · rcases List.mem_cons.mp h with rfl | h
        · exact .inl List.mem_cons_self
        · exact .inr h

/-- A chain is followed in one way only. -/
theorem Pursues.unique {seen links links' : List String} {node last last' : Node}
    (h : Pursues document seen node links last) (h' : Pursues document seen node links' last') :
    links = links' ∧ last = last' := by
  induction h generalizing links' with
  | ends h =>
    cases h' with
    | ends => exact ⟨rfl, rfl⟩
    | returns | goes => cases h
  | returns h =>
    cases h' with
    | ends h' => cases h'
    | returns => exact ⟨rfl, rfl⟩
    | goes hnew => exact absurd h hnew
  | goes hnew hnext _ ih =>
    cases h' with
    | ends h' => cases h'
    | returns h' => exact absurd h' hnew
    | goes _ hnext' hrest' =>
      obtain rfl := Except.ok.inj (hnext.symm.trans hnext')
      obtain ⟨rfl, rfl⟩ := ih hrest'
      exact ⟨rfl, rfl⟩

/-! ### Chains that come to a node that is no reference -/

/-- There is one way at most to such a node, since it leads nowhere itself. -/
theorem Leads.unique {node last last' : Node} {links links' : List String}
    (h : Leads document node links last) (hlast : last.isReference = false)
    (h' : Leads document node links' last') (hlast' : last'.isReference = false) :
    links = links' ∧ last = last' := by
  induction h generalizing links' with
  | here node =>
    cases h' with
    | here => exact ⟨rfl, rfl⟩
    | link => cases hlast
  | link hnext _ ih =>
    cases h' with
    | here => cases hlast'
    | link hnext' hrest' =>
      obtain rfl := Except.ok.inj (hnext.symm.trans hnext')
      obtain ⟨rfl, rfl⟩ := ih hlast hrest'
      exact ⟨rfl, rfl⟩

/-- A chain goes on in the same way from each of its links. -/
theorem Leads.exists_of_mem {node last : Node} {links : List String} {r : String}
    (h : Leads document node links last) (hmem : r ∈ links) :
    ∃ next back, targetNode document (.str r) = .ok next ∧ Leads document next back last ∧
      back.length < links.length := by
  induction h with
  | here => cases hmem
  | @link info q next last links hnext hrest ih =>
    rcases List.mem_cons.mp hmem with rfl | hmem
    · exact ⟨next, links, hnext, hrest, Nat.lt_succ_self _⟩
    · obtain ⟨next', back, hnext', hback, hlength⟩ := ih hmem
      exact ⟨next', back, hnext', hback, Nat.lt_succ_of_lt hlength⟩

/-- On the way to such a node no link occurs twice: both times the way from there would be the same,
but it is shorter the second time. -/
theorem Leads.not_mem {next last : Node} {links : List String} {r : String}
    (hnext : targetNode document (.str r) = .ok next) (h : Leads document next links last)
    (hlast : last.isReference = false) : r ∉ links := by
  intro hmem
  obtain ⟨next', back, hnext', hback, hlength⟩ := h.exists_of_mem hmem
  obtain rfl := Except.ok.inj (hnext.symm.trans hnext')
  obtain ⟨rfl, -⟩ := h.unique hlast hback hlast
  exact Nat.lt_irrefl _ hlength

/-- A chain that comes to such a node is followed to it. -/
theorem Leads.pursues {node last : Node} {links : List String} (h : Leads document node links last)
    (hlast : last.isReference = false) {seen : List String} (hnew : ∀ r ∈ links, r ∉ seen) :
    Pursues document seen node links last := by
  induction h generalizing seen with
  | here => exact .ends hlast
  | @link info r next last links hnext hrest ih =>
    refine .goes (hnew r List.mem_cons_self) hnext (ih hlast fun q hq hmem => ?_)
    rcases List.mem_cons.mp hmem with rfl | hmem
    · exact Leads.not_mem hnext hrest hlast hq
    · exact hnew q (List.mem_cons_of_mem _ hq) hmem

/-! ### Chains without a break -/

theorem Connected.next {info : Info} {r : String} {next : Node}
    (h : Connected document (.reference info (.str r)))
    (hnext : targetNode document (.str r) = .ok next) : Connected document next :=
  fun links info' target hlinks => h (r :: links) info' target (.link hnext hlinks)

/-- A chain is connected if it stays among some nodes whose references all lead to nodes. -/
theorem connected_of_closed {nodes : List Node} {node : Node} (hnode : node ∈ nodes)
    (hclosed : ∀ info target, .reference info target ∈ nodes → ∃ r next, target = .str r ∧
      targetNode document (.str r) = .ok next ∧ next ∈ nodes) : Connected document node := by
  have hstays : ∀ {start last : Node} {links : List String}, Leads document start links last →
      start ∈ nodes → last ∈ nodes := by
    intro start last links h
    induction h with
    | here => exact id
    | link hnext _ ih =>
      intro hmem
      obtain ⟨r', next', htext, hnext', hmem'⟩ := hclosed _ _ hmem
      obtain rfl := Json.str.inj htext
      obtain rfl := Except.ok.inj (hnext.symm.trans hnext')
      exact ih hmem'
  intro links info target hlinks
  obtain ⟨r, next, htext, hnext, -⟩ := hclosed info target (hstays hlinks hnode)
  exact ⟨r, next, htext, hnext⟩

/-! ## The bound -/

/-- A chain that is connected is followed to the end, through no more links than the bound allows,
unless the bound is exhausted. -/
theorem Connected.exists_pursues {bound : Nat} {seen : List String} {node : Node}
    (h : Connected document node)
    (hbound : follow document bound seen node ≠ .error .boundExceeded) :
    ∃ links last, follow document bound seen node = .ok last ∧
      Pursues document seen node links last ∧ links.length ≤ bound := by
  induction bound, seen, node using follow_induct with
  | ends bound seen node hends =>
    exact ⟨[], node, follow_of_not_isReference hends bound seen, .ends hends, Nat.zero_le _⟩
  | notText bound seen info target hnot =>
    obtain ⟨r, -, htext, -⟩ := h [] info target (.here _)
    exact absurd htext (hnot r)
  | returns bound seen info r hmem =>
    exact ⟨[], _, follow_of_mem hmem info bound, .returns hmem, Nat.zero_le _⟩
  | stops seen info r hnew => exact absurd (follow_zero_of_not_mem hnew info) hbound
  | goes bound seen info r hnew ih =>
    obtain ⟨r', next, htext, hnext⟩ := h [] info (.str r) (.here _)
    obtain rfl := Json.str.inj htext
    have hstep : follow document (bound + 1) seen (.reference info (.str r)) =
        follow document bound (r :: seen) next := by
      rw [follow_of_not_mem hnew, hnext]
      rfl
    rw [hstep] at hbound ⊢
    obtain ⟨links, last, hlast, hpursues, hlength⟩ := ih next (h.next hnext) hbound
    exact ⟨r :: links, last, hlast, .goes hnew hnext hpursues, Nat.succ_le_succ hlength⟩

/-! ## Looking up with a library -/

namespace Library

/-- All that a library holds is what its document says. -/
structure Faithful (document : Json) (l : Library) : Prop where
  current : l.targets.document = document
  targets : ∀ e ∈ l.targets.taken, Reference.target document e.1 = .ok e.2
  nodes : ∀ e ∈ l.nodes, targetNode document (.str e.1) = .ok e.2

theorem faithful_ofDocument (document : Json) : (ofDocument document).Faithful document :=
  ⟨rfl, fun _ h => absurd h List.not_mem_nil, fun _ h => absurd h List.not_mem_nil⟩

/-- Resolving a reference gives its target, and what is kept of it is no more than that. -/
theorem Faithful.resolveText {l : Library} (h : l.Faithful document) (r : String) :
    (l.targets.resolveText r).1 = Reference.target document r ∧
      { l with targets := (l.targets.resolveText r).2 }.Faithful document := by
  unfold Reference.Snapshots.resolveText
  cases hlookup : l.targets.taken.lookup r with
  | some v => exact ⟨(h.targets _ (Table.mem_of_lookup hlookup)).symm, h⟩
  | none =>
    rw [h.current]
    cases htarget : Reference.target document r with
    | error e => exact ⟨rfl, h⟩
    | ok v =>
      refine ⟨rfl, ?_⟩
      dsimp only
      split
      · exact h
      · refine ⟨rfl, fun e he => ?_, h.nodes⟩
        rcases List.mem_append.mp he with he | he
        · exact h.targets e he
        · obtain rfl := List.mem_singleton.mp he
          exact htarget

/-- Looking up a reference gives the tree of its target, and the library stays faithful. -/
theorem Faithful.lookUpText {l : Library} (h : l.Faithful document) (r : String) :
    (Library.lookUpText r l).1 = targetNode document (.str r) ∧
      (Library.lookUpText r l).2.Faithful document := by
  unfold Library.lookUpText
  cases hlookup : l.nodes.lookup r with
  | some node => exact ⟨(h.nodes _ (Table.mem_of_lookup hlookup)).symm, h⟩
  | none =>
    obtain ⟨hresult, hkept⟩ := h.resolveText r
    have hnode : ((l.targets.resolveText r).1 >>= fun v => Node.ofJson v r) =
        targetNode document (.str r) := by
      rw [hresult]
      rfl
    dsimp only
    rw [hnode]
    cases htree : targetNode document (.str r) with
    | error e => exact ⟨rfl, hkept⟩
    | ok node =>
      refine ⟨rfl, hkept.current, hkept.targets, fun e he => ?_⟩
      rcases List.mem_append.mp he with he | he
      · exact h.nodes e he
      · obtain rfl := List.mem_singleton.mp he
        exact htree

theorem Faithful.lookUp {l : Library} (h : l.Faithful document) (target : Json) :
    (Library.lookUp target l).2.Faithful document := by
  cases target with
  | str r => exact (h.lookUpText r).2
  | _ => exact h

/-- Whatever was looked up before, a library is faithful. -/
theorem faithful_after (document : Json) (earlier : List Json) :
    (after document earlier).Faithful document := by
  unfold after
  induction earlier using List.reverseRecOn with
  | nil => exact faithful_ofDocument document
  | append_singleton earlier target ih =>
    rw [List.foldl_append]
    exact ih.lookUp target

theorem follow_of_not_isReference {node : Node} (h : node.isReference = false) (bound : Nat)
    (seen : List String) (l : Library) : follow bound seen node l = (.ok node, l) := by
  cases node with
  | reference info target => cases h
  | _ => rw [follow]; rfl; simp

theorem follow_of_mem {r : String} {seen : List String} (h : r ∈ seen) (info : Info) (bound : Nat)
    (l : Library) :
    follow bound seen (.reference info (.str r)) l = (.ok (.reference info (.str r)), l) := by
  rw [follow]
  simp [Json.isContainer, Json.asText, h, Step.ofExcept]

theorem follow_zero_of_not_mem {r : String} {seen : List String} (h : r ∉ seen) (info : Info)
    (l : Library) :
    follow 0 seen (.reference info (.str r)) l = (.error .boundExceeded, l) := by
  rw [follow]
  simp [Json.isContainer, Json.asText, h, Step.ofExcept]

/-- A link that was not followed before is looked up in the library. -/
theorem follow_of_not_mem {r : String} {seen : List String} (h : r ∉ seen) (info : Info)
    (bound : Nat) :
    follow (bound + 1) seen (.reference info (.str r)) =
      (lookUpText r).andThen (follow bound (r :: seen)) := by
  rw [follow]
  simp [Json.isContainer, Json.asText, h]

/-- A reference that is no text is refused, with a library or without one. -/
theorem follow_not_text {target : Json} (h : ∀ r, target ≠ .str r) (info : Info) (bound : Nat)
    (seen : List String) (l : Library) :
    (follow bound seen (.reference info target) l).1 =
      Expression.follow document bound seen (.reference info target) := by
  rw [follow, Expression.follow]
  cases target with
  | str r => exact absurd rfl (h r)
  | _ => rfl

/-- With a faithful library, a chain is followed as without one. -/
theorem Faithful.follow {l : Library} (h : l.Faithful document) (bound : Nat) (seen : List String)
    (node : Node) :
    (Library.follow bound seen node l).1 = Expression.follow document bound seen node := by
  induction bound, seen, node using follow_induct generalizing l with
  | ends bound seen node hends =>
    rw [follow_of_not_isReference hends, Expression.follow_of_not_isReference hends]
  | notText bound seen info target hnot => exact follow_not_text hnot info bound seen l
  | returns bound seen info r hmem =>
    rw [follow_of_mem hmem, Expression.follow_of_mem hmem]
  | stops seen info r hnew =>
    rw [follow_zero_of_not_mem hnew, Expression.follow_zero_of_not_mem hnew]
  | goes bound seen info r hnew ih =>
    obtain ⟨hnext, hkept⟩ := h.lookUpText r
    rw [follow_of_not_mem hnew, Expression.follow_of_not_mem hnew, ← hnext, Step.andThen]
    generalize Library.lookUpText r l = result at hkept ⊢
    obtain ⟨e | next, l'⟩ := result
    · rfl
    · exact ih next hkept

end Library

/-! ## The end of a chain -/

/-- Following a connected chain comes to an end, after one link more at most than the document has
different references. If the chain comes to a node that is no reference, this node is found. If it
does not, a reference is found that was followed before. Whatever was looked up before in a library,
the answer is the same. -/
theorem described_chain_end {document : Json} {node : Node}
    (hconnected : Connected document node) :
    ∃ links last, Pursues document [] node links last ∧ Leads document node links last ∧
      links.length ≤ document.references.eraseDups.length + 1 ∧
      described document node = .ok last ∧
      (∀ earlier, (Library.follow (linkBound document) [] node
        (Library.after document earlier)).1 = .ok last) ∧
      (∀ links' last', Leads document node links' last' → last'.isReference = false →
        last = last') ∧
      ((∀ links' last', Leads document node links' last' → last'.isReference = true) →
        ∃ info r, last = .reference info (.str r) ∧ r ∈ links) := by
  have hbound : follow document (linkBound document) [] node ≠ .error .boundExceeded := by
    rw [← described_eq_follow]
    exact (described_settles document node).2
  obtain ⟨links, last, hlast, hpursues, hlength⟩ := hconnected.exists_pursues hbound
  refine ⟨links, last, hpursues, hpursues.leads, hlength, ?_, fun earlier => ?_, ?_, ?_⟩
  · rw [described_eq_follow, hlast]
  · rw [(Library.faithful_after document earlier).follow, hlast]
  · intro links' last' hleads hnone
    have hpursues' : Pursues document [] node links' last' :=
      hleads.pursues hnone fun _ _ => List.not_mem_nil
    exact (hpursues.unique hpursues').2
  · intro hall
    rcases hpursues.last_cases with hnone | ⟨info, r, rfl, hmem | hmem⟩
    · exact absurd (hall links last hpursues.leads) (by rw [hnone]; exact Bool.false_ne_true)
    · exact ⟨info, r, rfl, hmem⟩
    · cases hmem

/-- An alias of an alias, and a tail that leads into a circle. One link of the circle is spelled in
two ways. -/
def lasso : Json :=
  .obj [("a", .obj [("$ref", .str "#/b")]), ("b", .obj [("$ref", .str "#/c")]),
    ("c", .obj [("$ref", .str "#/%62")]), ("d", .obj [("$ref", .str "#/e")]),
    ("e", .obj [("type", .str "string")])]

/-- A node that stands at one place and refers to another. -/
def aliasAt (path target : String) : Node :=
  .reference ⟨path, {}⟩ (.str target)

/-- The schema at the end of the alias. -/
def lassoEnd : Node := .primitive ⟨"#/e", {}⟩ .string

theorem connected_lasso : Connected lasso (aliasAt "#" "#/a") := by
  have hnodes : aliasAt "#" "#/a" ∈ [aliasAt "#" "#/a", aliasAt "#/a" "#/b", aliasAt "#/b" "#/c",
      aliasAt "#/c" "#/%62", aliasAt "#/%62" "#/c"] := List.mem_cons_self
  refine connected_of_closed hnodes fun info target h => ?_
  simp only [List.mem_cons, List.not_mem_nil, or_false] at h
  rcases h with h | h | h | h | h <;> obtain ⟨rfl, rfl⟩ := Node.reference.inj h
  · exact ⟨_, aliasAt "#/a" "#/b", rfl, rfl, by simp⟩
  · exact ⟨_, aliasAt "#/b" "#/c", rfl, rfl, by simp⟩
  · exact ⟨_, aliasAt "#/c" "#/%62", rfl, rfl, by simp⟩
  · exact ⟨_, aliasAt "#/%62" "#/c", rfl, rfl, by simp⟩
  · exact ⟨_, aliasAt "#/c" "#/%62", rfl, rfl, by simp⟩

theorem connected_alias : Connected lasso (aliasAt "#" "#/d") := by
  have hnodes : aliasAt "#" "#/d" ∈ [aliasAt "#" "#/d", aliasAt "#/d" "#/e", lassoEnd] :=
    List.mem_cons_self
  refine connected_of_closed hnodes fun info target h => ?_
  simp only [List.mem_cons, List.not_mem_nil, or_false] at h
  rcases h with h | h | h
  · obtain ⟨rfl, rfl⟩ := Node.reference.inj h
    exact ⟨_, aliasAt "#/d" "#/e", rfl, rfl, by simp⟩
  · obtain ⟨rfl, rfl⟩ := Node.reference.inj h
    exact ⟨_, lassoEnd, rfl, rfl, by simp⟩
  · cases h

/-- The tail is followed into the circle and once around it, the alias to its schema. -/
theorem described_chain_end_lasso :
    (∀ earlier, (Library.follow (linkBound lasso) [] (aliasAt "#" "#/a")
        (Library.after lasso earlier)).1 = .ok (aliasAt "#/%62" "#/c")) ∧
      ∀ earlier, (Library.follow (linkBound lasso) [] (aliasAt "#" "#/d")
        (Library.after lasso earlier)).1 = .ok lassoEnd := by
  have hcircle : described lasso (aliasAt "#" "#/a") = .ok (aliasAt "#/%62" "#/c") := rfl
  constructor
  · obtain ⟨-, last, -, -, -, hlast, hsame, -⟩ := described_chain_end connected_lasso
    obtain rfl := Except.ok.inj (hcircle.symm.trans hlast)
    exact hsame
  · obtain ⟨-, last, -, -, -, -, hsame, hfirst, -⟩ :=
      described_chain_end connected_alias
    have hsecond : targetNode lasso (.str "#/d") = .ok (aliasAt "#/d" "#/e") := rfl
    have hleads : Leads lasso (aliasAt "#" "#/d") ["#/d", "#/e"] lassoEnd :=
      .link hsecond (.link rfl (.here lassoEnd))
    obtain rfl := hfirst _ _ hleads rfl
    exact hsame

end Expression

end SchemaTypes

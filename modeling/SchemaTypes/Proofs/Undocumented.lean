import Mathlib.Data.List.Forall2
import SchemaTypes.Proofs.Couples
import SchemaTypes.Proofs.SchemaTrees

/-!
# Values that differ in documentation

`Json.undocumented` takes the words out of a value: the texts of the members `title` and
`description`, at any depth, except in the values that an enumeration lists. Two values are
`Json.Alike` if they are the same without these words. Along one path both of them lead to values
that are alike again, or to two texts, and no schema is a text.

What is said of values that are alike is said together with a property of all the documentation in
them, which the parts of a value have if the value has it.
-/

namespace SchemaTypes

namespace Json

/-! ## Taking out the words -/

/-- The keys of members that document a schema in words. -/
def isRemark (key : String) : Bool :=
  key = "title" || key = "description"

/-- A member without words: `inner` is its value without the words inside. -/
def memberUndocumented (key : String) (v inner : Json) : Json :=
  match v with
  | .str _ => if isRemark key then .str "" else v
  | .arr _ => if key = "enum" then v else inner
  | _ => inner

mutual

/-- A value without the texts of titles and descriptions, apart from those in the values of
enumerations. -/
def undocumented : Json → Json
  | .arr items => .arr (itemsUndocumented items)
  | .obj members => .obj (membersUndocumented members)
  | v => v

/-- Values without the texts of titles and descriptions. -/
def itemsUndocumented : List Json → List Json
  | [] => []
  | v :: rest => v.undocumented :: itemsUndocumented rest

/-- Members without the texts of titles and descriptions. -/
def membersUndocumented : List (String × Json) → List (String × Json)
  | [] => []
  | (key, v) :: rest =>
    (key, memberUndocumented key v v.undocumented) :: membersUndocumented rest

end

theorem itemsUndocumented_eq_map (items : List Json) :
    itemsUndocumented items = items.map undocumented := by
  induction items with
  | nil => rw [itemsUndocumented, List.map_nil]
  | cons v rest ih => rw [itemsUndocumented, ih, List.map_cons]

theorem membersUndocumented_eq_map (members : List (String × Json)) :
    membersUndocumented members =
      members.map fun m => (m.1, memberUndocumented m.1 m.2 m.2.undocumented) := by
  induction members with
  | nil => rw [membersUndocumented, List.map_nil]
  | cons m rest ih => rw [membersUndocumented, ih, List.map_cons]

/-! ## The documentation in a value -/

mutual

/-- The documentation of all objects in a value. -/
def documentations : Json → List Documentation
  | .arr items => itemDocumentations items
  | .obj members => .ofSchema (.obj members) :: memberDocumentations members
  | _ => []

/-- The documentation of all objects in some values. -/
def itemDocumentations : List Json → List Documentation
  | [] => []
  | v :: rest => v.documentations ++ itemDocumentations rest

/-- The documentation of all objects in some members. -/
def memberDocumentations : List (String × Json) → List Documentation
  | [] => []
  | (_, v) :: rest => v.documentations ++ memberDocumentations rest

end

theorem mem_documentations_arr {items : List Json} {d : Documentation} :
    d ∈ (arr items).documentations ↔ ∃ v ∈ items, d ∈ v.documentations := by
  rw [documentations]
  induction items with
  | nil => simp [itemDocumentations]
  | cons v rest ih => simp [itemDocumentations, ih]

theorem mem_documentations_obj {members : List (String × Json)} {d : Documentation} :
    d ∈ (obj members).documentations ↔
      d = .ofSchema (obj members) ∨ ∃ m ∈ members, d ∈ m.2.documentations := by
  have hmembers : ∀ ms : List (String × Json),
      d ∈ memberDocumentations ms ↔ ∃ m ∈ ms, d ∈ m.2.documentations := by
    intro ms
    induction ms with
    | nil => simp [memberDocumentations]
    | cons m rest ih => simp [memberDocumentations, ih]
  rw [documentations, List.mem_cons, hmembers]

/-! ## Likeness -/

/-- Two values are the same without their words, and all documentation in them is of one kind. -/
structure Alike (P : Documentation → Prop) (v v' : Json) : Prop where
  same : v.undocumented = v'.undocumented
  left : ∀ d ∈ v.documentations, P d
  right : ∀ d ∈ v'.documentations, P d

/-- The values of two members with one key are the same without their words. -/
structure AlikeUnder (P : Documentation → Prop) (key : String) (v v' : Json) : Prop where
  same : memberUndocumented key v v.undocumented = memberUndocumented key v' v'.undocumented
  left : ∀ d ∈ v.documentations, P d
  right : ∀ d ∈ v'.documentations, P d

variable {P : Documentation → Prop} {v v' : Json}

/-- Lists that are alike hold values that are alike. -/
theorem Alike.items {items : List Json} (h : Alike P (.arr items) v') :
    ∃ items', v' = .arr items' ∧ List.Forall₂ (Alike P) items items' := by
  obtain ⟨hsame, hleft, hright⟩ := h
  cases v' with
  | arr items' =>
    rw [undocumented, undocumented, itemsUndocumented_eq_map, itemsUndocumented_eq_map] at hsame
    have hmap : List.Forall₂ (fun a b => undocumented a = undocumented b) items items' := by
      rw [← List.forall₂_map_right_iff, ← List.forall₂_map_left_iff, List.forall₂_eq_eq_eq]
      exact Json.arr.inj hsame
    refine ⟨items', rfl, ?_⟩
    rw [List.forall₂_iff_zip] at hmap ⊢
    refine ⟨hmap.1, fun {a b} hab => ⟨hmap.2 hab, fun d hd => ?_, fun d hd => ?_⟩⟩
    · exact hleft d (mem_documentations_arr.mpr ⟨a, (List.of_mem_zip hab).1, hd⟩)
    · exact hright d (mem_documentations_arr.mpr ⟨b, (List.of_mem_zip hab).2, hd⟩)
  | _ => simp [undocumented] at hsame

/-- Objects that are alike have the same keys, with members that are alike. -/
theorem Alike.members {members : List (String × Json)} (h : Alike P (.obj members) v') :
    ∃ members', v' = .obj members' ∧ P (.ofSchema (.obj members)) ∧
      P (.ofSchema (.obj members')) ∧
      List.Forall₂ (fun m m' => m.1 = m'.1 ∧ AlikeUnder P m.1 m.2 m'.2) members members' := by
  obtain ⟨hsame, hleft, hright⟩ := h
  cases v' with
  | obj members' =>
    rw [undocumented, undocumented, membersUndocumented_eq_map, membersUndocumented_eq_map] at hsame
    have hmap : List.Forall₂ (fun m m' : String × Json =>
        (m.1, memberUndocumented m.1 m.2 m.2.undocumented) =
          (m'.1, memberUndocumented m'.1 m'.2 m'.2.undocumented)) members members' := by
      rw [← List.forall₂_map_right_iff (f := fun m' : String × Json =>
          (m'.1, memberUndocumented m'.1 m'.2 m'.2.undocumented)),
        ← List.forall₂_map_left_iff (f := fun m : String × Json =>
          (m.1, memberUndocumented m.1 m.2 m.2.undocumented)), List.forall₂_eq_eq_eq]
      exact Json.obj.inj hsame
    refine ⟨members', rfl, hleft _ (mem_documentations_obj.mpr (.inl rfl)),
      hright _ (mem_documentations_obj.mpr (.inl rfl)), ?_⟩
    rw [List.forall₂_iff_zip] at hmap ⊢
    refine ⟨hmap.1, fun {m m'} hm => ?_⟩
    obtain ⟨hkey, hvalue⟩ := Prod.ext_iff.mp (hmap.2 hm)
    dsimp only at hkey hvalue
    refine ⟨hkey, ?_, fun d hd => ?_, fun d hd => ?_⟩
    · rw [hvalue, hkey]
    · exact hleft d (mem_documentations_obj.mpr (.inr ⟨m, (List.of_mem_zip hm).1, hd⟩))
    · exact hright d (mem_documentations_obj.mpr (.inr ⟨m', (List.of_mem_zip hm).2, hd⟩))
  | _ => simp [undocumented] at hsame

/-- Values that are neither lists nor objects are alike only if they are the same. -/
theorem Alike.eq_of_not_isContainer (h : Alike P v v') (hv : v.isContainer = false) : v = v' := by
  have hsame := h.same
  cases v <;> cases v' <;> simp_all [undocumented, isContainer]

theorem Alike.isContainer (h : Alike P v v') : v.isContainer = v'.isContainer := by
  have hsame := h.same
  cases v <;> cases v' <;> simp_all [undocumented, Json.isContainer]

theorem alike_of_not_isContainer (hv : v.isContainer = false) : Alike P v v := by
  have hnone : v.documentations = [] := by
    cases v <;> first | cases hv; done | rw [documentations] <;> simp
  have hall : ∀ d ∈ v.documentations, P d := by simp [hnone]
  exact ⟨rfl, hall, hall⟩

/-- Values that are alike count the same. -/
theorem Alike.truthy (h : Alike P v v') : v.truthy = v'.truthy := by
  cases hv : v.isContainer with
  | false => rw [h.eq_of_not_isContainer hv]
  | true =>
    cases v with
    | arr items =>
      obtain ⟨items', rfl, hitems⟩ := h.items
      cases hitems <;> rfl
    | obj members =>
      obtain ⟨members', rfl, -, -, hmembers⟩ := h.members
      cases hmembers <;> rfl
    | _ => cases hv

/-! ### Members -/

namespace AlikeUnder

variable {key : String}

/-- Under other keys than those of remarks, values are alike. -/
theorem alike (h : AlikeUnder P key v v') (hkey : isRemark key = false) : Alike P v v' := by
  obtain ⟨hsame, hleft, hright⟩ := h
  refine ⟨?_, hleft, hright⟩
  cases v <;> cases v' <;> simp only [memberUndocumented, hkey] at hsame <;>
    grind [undocumented]

/-- Values under one key are alike, or they are two texts. -/
theorem alike_or_texts (h : AlikeUnder P key v v') :
    Alike P v v' ∨ ∃ s s', v = .str s ∧ v' = .str s' := by
  cases hkey : isRemark key with
  | false => exact .inl (h.alike hkey)
  | true =>
    obtain ⟨hsame, hleft, hright⟩ := h
    have henum : key ≠ "enum" := by
      rintro rfl
      revert hkey
      decide
    cases v <;> cases v' <;> simp only [memberUndocumented, hkey, henum, if_true, if_false] at hsame
      <;> first
        | exact .inr ⟨_, _, rfl, rfl⟩
        | exact .inl ⟨by grind [undocumented], hleft, hright⟩

end AlikeUnder

/-- In objects that are alike, a key has two members that are alike, or none. -/
theorem lookup_rel {members members' : List (String × Json)}
    (h : List.Forall₂ (fun m m' => m.1 = m'.1 ∧ AlikeUnder P m.1 m.2 m'.2) members members')
    (key : String) :
    Option.Rel (AlikeUnder P key) (members.lookup key) (members'.lookup key) := by
  induction h with
  | nil => exact .none
  | @cons m m' rest rest' hm _ ih =>
    obtain ⟨k, v⟩ := m
    obtain ⟨k', v'⟩ := m'
    obtain ⟨rfl : k = k', hv⟩ := hm
    rw [List.lookup_cons, List.lookup_cons]
    by_cases hkey : key = k
    · subst hkey
      simpa using Option.Rel.some hv
    · have hne : (key == k) = false := by simpa using hkey
      rw [hne]
      exact ih

theorem Alike.member?_rel (h : Alike P v v') (key : String) :
    Option.Rel (AlikeUnder P key) (v.member? key) (v'.member? key) := by
  cases v with
  | obj members =>
    obtain ⟨members', rfl, -, -, hmembers⟩ := h.members
    exact lookup_rel hmembers key
  | arr items =>
    obtain ⟨items', rfl, -⟩ := h.items
    exact .none
  | _ =>
    obtain rfl := h.eq_of_not_isContainer rfl
    exact .none

/-- Members with other keys than those of remarks are alike, also where there are none. -/
theorem Alike.memberD (h : Alike P v v') (key : String) (hkey : isRemark key = false) :
    Alike P (v.memberD key) (v'.memberD key) := by
  have hmember := h.member?_rel key
  unfold Json.memberD
  cases hv : v.member? key <;> cases hv' : v'.member? key <;> rw [hv, hv'] at hmember <;>
    cases hmember
  · exact alike_of_not_isContainer rfl
  · next h => exact h.alike hkey

/-- The sequences that two values stand for, if they are alike. -/
theorem Alike.entries (h : Alike P v v') :
    Coupled (List.Forall₂ (Alike P)) v.entries v'.entries := by
  have htext : ∀ s : String, Alike P (.str s) (.str s) := fun s => alike_of_not_isContainer rfl
  cases v with
  | arr items =>
    obtain ⟨items', rfl, hitems⟩ := h.items
    exact coupled_ok hitems
  | obj members =>
    obtain ⟨members', rfl, -, -, hmembers⟩ := h.members
    refine coupled_ok ?_
    rw [List.forall₂_map_left_iff, List.forall₂_map_right_iff]
    refine hmembers.imp fun m m' hm => ?_
    rw [hm.1]
    exact htext m'.1
  | str s =>
    obtain rfl := h.eq_of_not_isContainer rfl
    refine coupled_ok (List.forall₂_same.mpr fun v hv => ?_)
    obtain ⟨c, -, rfl⟩ := List.mem_map.mp hv
    exact htext _
  | _ => exact coupled_error _ _

/-- The values that enumerations list are the same. -/
theorem AlikeUnder.entries_eq (h : AlikeUnder P "enum" v v') : v.entries? = v'.entries? := by
  have halike := h.alike rfl
  cases v with
  | arr items =>
    obtain ⟨items', rfl, -⟩ := halike.items
    have hsame : Json.arr items = Json.arr items' := h.same
    rw [hsame]
  | obj members =>
    obtain ⟨members', rfl, -, -, hmembers⟩ := halike.members
    refine congrArg some ?_
    rw [← List.forall₂_eq_eq_eq, List.forall₂_map_left_iff, List.forall₂_map_right_iff]
    exact hmembers.imp fun m m' hm => congrArg Json.str hm.1
  | _ => rw [halike.eq_of_not_isContainer rfl]

/-! ### References -/

/-- The references among some members: that of the first one, if it is one, those inside of it, and
those among the others. -/
theorem memberReferences_cons (key : String) (v : Json) (rest : List (String × Json)) :
    memberReferences ((key, v) :: rest) =
      (if key = "$ref" then v.asText.toOption.toList else []) ++ v.references ++
        memberReferences rest := by
  rw [memberReferences.eq_def]
  dsimp only
  split
  · rfl
  · next hnone =>
    split
    · next hkey =>
      cases v with
      | str r => exact absurd rfl (hnone r hkey)
      | _ => rfl
    · rfl

/-- Without its words a value has the same references. -/
theorem references_undocumented (v : Json) : v.undocumented.references = v.references := by
  induction v with
  | null | bool _ | int _ | float _ | str _ => rw [undocumented] <;> simp
  | arr items ih =>
    rw [undocumented, references, references, itemsUndocumented_eq_map]
    induction items with
    | nil => rfl
    | cons v rest ihrest =>
      rw [List.map_cons, itemReferences, itemReferences, ih v List.mem_cons_self,
        ihrest fun u hu => ih u (List.mem_cons_of_mem v hu)]
  | obj members ih =>
    rw [undocumented, references, references, membersUndocumented_eq_map]
    induction members with
    | nil => rfl
    | cons m rest ihrest =>
      obtain ⟨key, v⟩ := m
      have hv : v.undocumented.references = v.references := ih (key, v) List.mem_cons_self
      have hinside : (memberUndocumented key v v.undocumented).references = v.references := by
        unfold memberUndocumented
        grind [references]
      have hown : key = "$ref" →
          (memberUndocumented key v v.undocumented).asText.toOption = v.asText.toOption := by
        rintro rfl
        cases v <;> rfl
      rw [List.map_cons, memberReferences_cons, memberReferences_cons, hinside,
        ihrest fun u hu => ih u (List.mem_cons_of_mem _ hu)]
      split
      · next hkey => rw [hown hkey]
      · rfl

/-- Values that are alike have the same references. -/
theorem Alike.references (h : Alike P v v') : v.references = v'.references := by
  rw [← references_undocumented v, h.same, references_undocumented]

end Json

/-! ## Pointers into values that are alike -/

namespace Pointer

/-- Two places are alike if the values there are, or if there is a text at either. -/
inductive Place.Alike (P : Documentation → Prop) : Place → Place → Prop
  | value {v v' : Json} (h : Json.Alike P v v') : Place.Alike P (.value v) (.value v')
  | texts (s s' : String) : Place.Alike P (.value (.str s)) (.value (.str s'))
  | pastEnd : Place.Alike P .pastEnd .pastEnd

variable {P : Documentation → Prop}

theorem step_coupled {place place' : Place} (h : place.Alike P place') (token : String) :
    Coupled (Place.Alike P) (step token place) (step token place') := by
  cases h with
  -- No token leads on from a text, so two different remarks do not matter.
  | texts s s' => exact coupled_error _ _
  | pastEnd => exact coupled_error _ _
  | @value v v' h =>
    cases v with
    | obj members =>
      obtain ⟨members', rfl, -, -, hmembers⟩ := h.members
      have hrel := Json.lookup_rel hmembers token
      rw [step, step]
      cases hv : members.lookup token <;> cases hv' : members'.lookup token <;>
        rw [hv, hv'] at hrel <;> cases hrel
      · exact coupled_error _ _
      · next hv =>
        rcases hv.alike_or_texts with hv | ⟨s, s', rfl, rfl⟩
        · exact coupled_ok (.value hv)
        · exact coupled_ok (.texts s s')
    | arr items =>
      obtain ⟨items', rfl, hitems⟩ := h.items
      rw [step, step]
      split
      · exact coupled_ok .pastEnd
      · split
        · exact coupled_error _ _
        · next i _ =>
          rcases hitem : items[i]? with _ | v <;> rcases hitem' : items'[i]? with _ | v'
          · exact coupled_error _ _
          · exact coupled_error _ _
          · exact fun _ _ _ hb => nomatch hb
          · obtain ⟨hi, rfl⟩ := List.getElem?_eq_some_iff.mp hitem
            obtain ⟨hi', rfl⟩ := List.getElem?_eq_some_iff.mp hitem'
            exact coupled_ok (.value ((List.forall₂_iff_get.mp hitems).2 i hi hi'))
    | _ => exact coupled_error _ _

/-- The same walk leads to places that are alike. -/
theorem walk_coupled (tokens : List String) {place place' : Place} (h : place.Alike P place') :
    Coupled (Place.Alike P) (walk tokens place) (walk tokens place') := by
  induction tokens generalizing place place' with
  | nil => exact coupled_ok h
  | cons token rest ih => exact (step_coupled h token).bind fun _ _ hnext => ih hnext

theorem resolve_coupled {document document' : Json} (h : Json.Alike P document document')
    (pointer : String) :
    Coupled (Place.Alike P) (resolve document pointer) (resolve document' pointer) := by
  unfold resolve
  split
  · exact coupled_error _ _
  · split
    · exact walk_coupled _ (.value h)
    · exact coupled_error _ _

end Pointer

/-- A reference leads to objects that are alike, if it leads to an object in both documents. -/
theorem Reference.target_coupled {P : Documentation → Prop} {document document' : Json}
    (h : Json.Alike P document document') (reference : String) :
    Coupled (Json.Alike P) (target document reference) (target document' reference) := by
  unfold target
  split
  · exact coupled_error _ _
  · next encoded _ =>
    have hplaces := Pointer.resolve_coupled h (Text.percentDecode encoded)
    intro v v' hv hv'
    split at hv
    · cases hv
    · next members hmembers =>
      obtain rfl := Except.ok.inj hv
      split at hv'
      · cases hv'
      · next members' hmembers' =>
        obtain rfl := Except.ok.inj hv'
        cases hplaces _ _ hmembers hmembers' with
        | value halike => exact halike
      · cases hv'
    · cases hv

end SchemaTypes

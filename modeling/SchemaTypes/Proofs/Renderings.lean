import SchemaTypes.Expression.Rendering

/-!
# Laws of renderings

A rendering is a tree of requests, so a statement about it is an induction on that tree, done here
once for each way of looking at it:

* `Rendering.observe` of two works in a row joins the references met and goes on with the result of
  the first one;
* `Rendering.outcome`, the result alone, turns a rendering into a computation in `Except Failure`;
* `Rendering.Within` bounds what a rendering may do whatever it is answered, and a run keeps what
  every answer of its host keeps, as long as the rendering asks for nothing else.
-/

namespace SchemaTypes

/-! ## Results in a row -/

section Results

variable {ε α β : Type}

/-- Two results in a row succeed exactly if the first one does, and the second one on its value. -/
theorem bind_eq_ok {x : Except ε α} {f : α → Except ε β} {b : β} :
    (x >>= f) = .ok b ↔ ∃ a, x = .ok a ∧ f a = .ok b := by
  cases x <;> simp [bind, Except.bind]

/-- A mapped result succeeds exactly if the result does. -/
theorem map_eq_ok {x : Except ε α} {f : α → β} {b : β} :
    (f <$> x) = .ok b ↔ ∃ a, x = .ok a ∧ f a = b := by
  cases x <;> simp [Functor.map, Except.map]

/-! ### Results that are settled -/

/-- A result is a value with a certain property, or else a failure other than an exhausted
bound. -/
def Settles (x : Except Failure α) (I : α → Prop) : Prop :=
  (∀ a, x = .ok a → I a) ∧ x ≠ .error .boundExceeded

theorem settles_ok {I : α → Prop} {a : α} (h : I a) : Settles (.ok a) I :=
  ⟨by rintro b ⟨⟩; exact h, by simp⟩

theorem settles_error {I : α → Prop} {e : Failure} (h : e ≠ .boundExceeded) :
    Settles (.error e : Except Failure α) I :=
  ⟨by rintro b ⟨⟩, by simpa using h⟩

theorem Settles.mono {x : Except Failure α} {I J : α → Prop} (h : Settles x I)
    (hIJ : ∀ a, I a → J a) : Settles x J :=
  ⟨fun a ha => hIJ a (h.1 a ha), h.2⟩

theorem Settles.bind {x : Except Failure α} {f : α → Except Failure β} {I : α → Prop}
    {J : β → Prop} (hx : Settles x I) (hf : ∀ a, I a → Settles (f a) J) :
    Settles (x >>= f) J := by
  cases x with
  | error e => exact settles_error fun h => hx.2 (by rw [h])
  | ok a => exact hf a (hx.1 a rfl)

theorem Settles.map {x : Except Failure α} {f : α → β} {I : α → Prop} {J : β → Prop}
    (hx : Settles x I) (hf : ∀ a, I a → J (f a)) : Settles (f <$> x) J := by
  cases x with
  | error e => exact settles_error fun h => hx.2 (by rw [h])
  | ok a => exact settles_ok (hf a (hx.1 a rfl))

end Results

/-! ## What a step keeps -/

namespace Step

variable {σ τ α β : Type}

/-- A step has ended in a state of `I`, or else with a failure in a state that `E` describes. -/
def Ends (result : Except Failure α × σ) (I : σ → Prop) (E : Failure → σ → Prop) : Prop :=
  match result with
  | (.ok _, t) => I t
  | (.error e, t) => E e t

theorem Ends.mono {result : Except Failure α × σ} {I J : σ → Prop} {E F : Failure → σ → Prop}
    (h : Ends result I E) (hIJ : ∀ t, I t → J t) (hEF : ∀ e t, E e t → F e t) :
    Ends result J F := by
  rcases result with ⟨e | a, t⟩
  · exact hEF e t h
  · exact hIJ t h

/-- What holds whether a step fails or not holds of the state that it leaves. -/
theorem ends_both {result : Except Failure α × σ} {I : σ → Prop} :
    Ends result I (fun _ => I) ↔ I result.2 := by
  rcases result with ⟨e | a, t⟩ <;> exact Iff.rfl

/-- A step leads from states of `I` to states of `I`, or else it fails in a way that `E`
describes. -/
def Keeps (step : Step σ α) (I : σ → Prop) (E : Failure → σ → Prop) : Prop :=
  ∀ s, I s → Ends (step s) I E

/-- A step that never fails in a certain way does so from all states. -/
theorem keeps_of_ne {step : Step σ α} {e : Failure} (h : ∀ s, (step s).1 ≠ .error e) :
    step.Keeps (fun _ => True) fun e' _ => e' ≠ e := by
  intro s _
  have hs := h s
  rcases hrun : step s with ⟨e' | a, t⟩
  · rw [hrun] at hs
    exact fun he => hs (by rw [he])
  · exact trivial

/-- A step that fails only otherwise, from all states, never fails in a certain way. -/
theorem Keeps.ne {step : Step σ α} {e : Failure}
    (h : step.Keeps (fun _ => True) fun e' _ => e' ≠ e) (s : σ) : (step s).1 ≠ .error e := by
  have hs := h s trivial
  rcases hrun : step s with ⟨e' | a, t⟩
  · rw [hrun] at hs
    exact fun he => hs (by simpa using he)
  · simp

/-- One step after another ends with a value if both do, the second one where the first one
ends. -/
theorem andThen_eq_ok {first : Step σ α} {next : α → Step σ β} {s t : σ} {b : β} :
    first.andThen next s = (.ok b, t) ↔
      ∃ a u, first s = (.ok a, u) ∧ next a u = (.ok b, t) := by
  unfold Step.andThen
  rcases first s with ⟨e | a, u⟩
  · simp
  · constructor
    · exact fun h => ⟨a, u, rfl, h⟩
    · rintro ⟨a', u', hfirst, hnext⟩
      cases hfirst
      exact hnext

/-- One step after another keeps what both of them keep. -/
theorem Keeps.andThen {first : Step σ α} {next : α → Step σ β} {I : σ → Prop}
    {E : Failure → σ → Prop} (hf : first.Keeps I E) (hn : ∀ a, (next a).Keeps I E) :
    (first.andThen next).Keeps I E := by
  intro s hs
  have hfirst := hf s hs
  unfold Step.andThen
  rcases h : first s with ⟨e | a, t⟩
  · rw [h] at hfirst
    exact hfirst
  · rw [h] at hfirst
    exact hn a t hfirst

/-- A step on a richer state does what a step does on the part of the state that `view` shows. -/
def Shadows (view : τ → σ) (rich : Step τ α) (step : Step σ α) : Prop :=
  ∀ t, step (view t) = ((rich t).1, view (rich t).2)

end Step

namespace Rendering

variable {α β σ τ : Type}

/-! ## Observing -/

@[simp] theorem observe_pure (underWay : String → Bool) (a : α) :
    (pure a : Rendering α).observe underWay = ([], .ok a) := rfl

@[simp] theorem observe_failed (underWay : String → Bool) (e : Failure) :
    (failed e : Rendering α).observe underWay = ([], .error e) := rfl

@[simp] theorem observe_meet (underWay : String → Bool) (r : Json) :
    (meet r).observe underWay = ([r], .ok ()) := rfl

@[simp] theorem observe_ask (underWay : String → Bool) (n : String) :
    (ask n).observe underWay = ([], .ok (underWay n)) := rfl

@[simp] theorem observe_lift (underWay : String → Bool) (x : Except Failure α) :
    (liftM x : Rendering α).observe underWay = ([], x) := by
  cases x <;> rfl

/-- A value that needs no work is observed at once. -/
theorem observe_pure_eq_ok {underWay : String → Bool} {a b : α} {met : List Json} :
    (pure a : Rendering α).observe underWay = (met, .ok b) ↔ met = [] ∧ a = b := by
  simp [eq_comm]

/-- A lifted result is observed if it is a value. -/
theorem observe_lift_eq_ok {underWay : String → Bool} {x : Except Failure α} {a : α}
    {met : List Json} :
    (liftM x : Rendering α).observe underWay = (met, .ok a) ↔ met = [] ∧ x = .ok a := by
  simp [eq_comm]

/-- Two works in a row meet the references of the first one, and if that succeeds those of the
second one on its value. -/
theorem observe_bind (underWay : String → Bool) (x : Rendering α) (f : α → Rendering β) :
    (x >>= f).observe underWay =
      match x.observe underWay with
      | (met, .ok a) => (met ++ ((f a).observe underWay).1, ((f a).observe underWay).2)
      | (met, .error e) => (met, .error e) := by
  change (x.bind f).observe underWay = _
  induction x with
  | done a => rfl
  | failed e => rfl
  | meets r rest ih =>
    simp only [Rendering.bind, observe, ih]
    rcases rest.observe underWay with ⟨met, a | e⟩ <;> rfl
  | asks n rest ih => exact ih (underWay n)
  | formats c o rest ih => exact ih c

/-- The observations of two works in a row that end with a value. -/
theorem observe_bind_eq_ok {underWay : String → Bool} {x : Rendering α} {f : α → Rendering β}
    {met : List Json} {b : β} :
    (x >>= f).observe underWay = (met, .ok b) ↔
      ∃ m₁ a m₂, x.observe underWay = (m₁, .ok a) ∧ (f a).observe underWay = (m₂, .ok b) ∧
        met = m₁ ++ m₂ := by
  rw [observe_bind]
  rcases x.observe underWay with ⟨m, e | a⟩
  · simp
  · constructor
    · intro h
      refine ⟨m, a, ((f a).observe underWay).1, rfl, ?_, ?_⟩
      · exact Prod.ext rfl (Prod.ext_iff.mp h).2
      · exact (Prod.ext_iff.mp h).1.symm
    · rintro ⟨m₁, a', m₂, h₁, h₂, rfl⟩
      obtain ⟨rfl, rfl⟩ : m = m₁ ∧ a = a' := by simpa using h₁
      simp [h₂]

/-- The observation of a mapped work that ends with a value. -/
theorem observe_map_eq_ok {underWay : String → Bool} {x : Rendering α} {f : α → β}
    {met : List Json} {b : β} :
    (f <$> x).observe underWay = (met, .ok b) ↔
      ∃ a, x.observe underWay = (met, .ok a) ∧ f a = b := by
  rw [map_eq_pure_bind, observe_bind_eq_ok]
  simp only [observe_pure, Prod.mk.injEq, Except.ok.injEq]
  constructor
  · rintro ⟨m₁, a, m₂, h, ⟨rfl, rfl⟩, rfl⟩
    exact ⟨a, by simpa using h, rfl⟩
  · rintro ⟨a, h, rfl⟩
    exact ⟨met, a, [], h, ⟨rfl, rfl⟩, by simp⟩

/-- A lifted result adds nothing to what the work after it meets. -/
theorem observe_lift_bind_eq_ok {underWay : String → Bool} {x : Except Failure α}
    {f : α → Rendering β} {met : List Json} {b : β} :
    (liftM x >>= f : Rendering β).observe underWay = (met, .ok b) ↔
      ∃ a, x = .ok a ∧ (f a).observe underWay = (met, .ok b) := by
  simp only [observe_bind_eq_ok, observe_lift_eq_ok]
  constructor
  · rintro ⟨_, a, m, ⟨rfl, hx⟩, hf, rfl⟩
    exact ⟨a, hx, hf⟩
  · rintro ⟨a, hx, hf⟩
    exact ⟨[], a, met, ⟨rfl, hx⟩, hf, rfl⟩

/-- Lifted results that depend on the value of a work add nothing to what this meets. -/
theorem observe_bind_lift_eq_ok {underWay : String → Bool} {x : Rendering α}
    {f : α → Except Failure β} {met : List Json} {b : β} :
    (x >>= fun a => liftM (f a)).observe underWay = (met, .ok b) ↔
      ∃ a, x.observe underWay = (met, .ok a) ∧ f a = .ok b := by
  simp only [observe_bind_eq_ok, observe_lift_eq_ok]
  constructor
  · rintro ⟨m, a, _, hx, ⟨rfl, ha⟩, rfl⟩
    exact ⟨a, by rwa [List.append_nil], ha⟩
  · rintro ⟨a, hx, ha⟩
    exact ⟨met, a, [], hx, ⟨rfl, ha⟩, (List.append_nil met).symm⟩

/-- A reference that is met is the first one, and the work after it goes on to meet the others. -/
theorem observe_meet_bind_eq_ok {underWay : String → Bool} {r : Json} {f : Unit → Rendering α}
    {met : List Json} {a : α} :
    (meet r >>= f).observe underWay = (met, .ok a) ↔
      ∃ others, (f ()).observe underWay = (others, .ok a) ∧ met = r :: others := by
  rw [observe_bind_eq_ok]
  constructor
  · rintro ⟨m, _, others, hmeet, hf, rfl⟩
    obtain rfl : [r] = m := congrArg Prod.fst hmeet
    exact ⟨others, hf, rfl⟩
  · rintro ⟨others, hf, rfl⟩
    exact ⟨[r], (), others, rfl, hf, rfl⟩

/-- A work that asks for a name meets what the work on the answer meets. -/
theorem observe_ask_bind (underWay : String → Bool) (n : String) (f : Bool → Rendering α) :
    (ask n >>= f).observe underWay = (f (underWay n)).observe underWay := by
  rw [observe_bind, observe_ask]
  rfl

/-! ## Outcomes -/

/-- How a rendering ends, if the names under way are fixed and formatting leaves code as it is. -/
def outcome (underWay : String → Bool) (x : Rendering α) : Except Failure α :=
  (x.observe underWay).2

@[simp] theorem outcome_pure (underWay : String → Bool) (a : α) :
    (pure a : Rendering α).outcome underWay = .ok a := rfl

@[simp] theorem outcome_meet (underWay : String → Bool) (r : Json) :
    (meet r).outcome underWay = .ok () := rfl

@[simp] theorem outcome_ask (underWay : String → Bool) (n : String) :
    (ask n).outcome underWay = .ok (underWay n) := rfl

@[simp] theorem outcome_lift (underWay : String → Bool) (x : Except Failure α) :
    (liftM x : Rendering α).outcome underWay = x := by
  simp [outcome]

@[simp] theorem outcome_bind (underWay : String → Bool) (x : Rendering α) (f : α → Rendering β) :
    (x >>= f).outcome underWay = x.outcome underWay >>= fun a => (f a).outcome underWay := by
  unfold outcome
  rw [observe_bind]
  rcases x.observe underWay with ⟨m, e | a⟩ <;> rfl

@[simp] theorem outcome_map (underWay : String → Bool) (x : Rendering α) (f : α → β) :
    (f <$> x).outcome underWay = f <$> x.outcome underWay := by
  rw [map_eq_pure_bind, outcome_bind]
  cases x.outcome underWay <;> rfl

/-! ## What a rendering may do -/

/-- What a rendering may do: the references that it may meet, whether it may ask for names, the
failures that it may end with, and whether it may hand code to a formatter. -/
structure Leave where
  meeting : Json → Prop
  asking : Prop
  failing : Failure → Prop
  formatting : Prop

/-- A rendering stays within its leave, whatever it is answered. -/
def Within (l : Leave) : Rendering α → Prop
  | done _ => True
  | failed e => l.failing e
  | meets r rest => l.meeting r ∧ rest.Within l
  | asks _ rest => l.asking ∧ ∀ b, (rest b).Within l
  | formats _ _ rest => l.formatting ∧ ∀ t, (rest t).Within l

variable {l : Leave}

theorem within_pure (a : α) : (pure a : Rendering α).Within l := trivial

theorem within_lift {x : Except Failure α} (h : ∀ e, x = .error e → l.failing e) :
    (liftM x : Rendering α).Within l := by
  cases x with
  | ok a => exact trivial
  | error e => exact h e rfl

theorem within_meet {r : Json} (h : l.meeting r) : (meet r).Within l := ⟨h, trivial⟩

theorem within_ask (h : l.asking) (n : String) : (ask n).Within l := ⟨h, fun _ => trivial⟩

theorem within_bind {x : Rendering α} {f : α → Rendering β} (hx : x.Within l)
    (hf : ∀ a, (f a).Within l) : (x >>= f).Within l := by
  change (x.bind f).Within l
  induction x with
  | done a => exact hf a
  | failed e => exact hx
  | meets r rest ih => exact ⟨hx.1, ih hx.2⟩
  | asks n rest ih => exact ⟨hx.1, fun b => ih b (hx.2 b)⟩
  | formats c o rest ih => exact ⟨hx.1, fun t => ih t (hx.2 t)⟩

/-- A result that is lifted hands its value on, and so what follows may rely on it. -/
theorem within_lift_bind {x : Except Failure α} {f : α → Rendering β}
    (hx : ∀ e, x = .error e → l.failing e) (hf : ∀ a, x = .ok a → (f a).Within l) :
    ((liftM x : Rendering α) >>= f).Within l := by
  cases x with
  | ok a => exact hf a rfl
  | error e => exact hx e rfl

theorem within_map {x : Rendering α} {f : α → β} (hx : x.Within l) : (f <$> x).Within l := by
  rw [map_eq_pure_bind]
  exact within_bind hx fun a => within_pure (f a)

/-! ## Running -/

theorem run_meets (host : Host σ) (r : Json) (rest : Rendering α) :
    (meets r rest).run host = (host.meet r).andThen fun _ => rest.run host := by
  funext s
  rw [run, Step.andThen]
  rcases host.meet r s with ⟨e | u, t⟩ <;> rfl

theorem run_formats (host : Host σ) (c : String) (o : Formatter.Options)
    (rest : String → Rendering α) :
    (formats c o rest).run host = (host.format c o).andThen fun t => (rest t).run host := by
  funext s
  rw [run, Step.andThen]
  rcases host.format c o s with ⟨e | u, t⟩ <;> rfl

theorem run_bind (host : Host σ) (x : Rendering α) (f : α → Rendering β) :
    (x >>= f).run host = (x.run host).andThen fun a => (f a).run host := by
  change (x.bind f).run host = _
  induction x with
  | done a => rfl
  | failed e => rfl
  | meets r rest ih =>
    funext s
    rw [Rendering.bind, run_meets, run_meets, ih]
    simp only [Step.andThen]
    rcases host.meet r s with ⟨e | u, t⟩ <;> rfl
  | asks n rest ih =>
    funext s
    exact congrFun (ih (host.underWay n s)) s
  | formats c o rest ih =>
    funext s
    simp only [Rendering.bind, run_formats, Step.andThen]
    rcases host.format c o s with ⟨e | text, t⟩
    · rfl
    · exact congrFun (ih text) t

/-- Two works in a row end with a value if the first one does, and the second one on its value. -/
theorem run_bind_eq_ok {x : Rendering α} {f : α → Rendering β} {s u : σ} {b : β} :
    (x >>= f).run host s = (.ok b, u) ↔
      ∃ a t, x.run host s = (.ok a, t) ∧ (f a).run host t = (.ok b, u) := by
  rw [run_bind, Step.andThen_eq_ok]

/-- A reference that is met is answered if the run goes on to a value. -/
theorem run_meets_eq_ok {r : Json} {rest : Rendering α} {s u : σ} {a : α} :
    (meets r rest).run host s = (.ok a, u) ↔
      ∃ t, host.meet r s = (.ok (), t) ∧ rest.run host t = (.ok a, u) := by
  rw [run_meets, Step.andThen_eq_ok]
  exact ⟨fun ⟨(), t, hmeet, hrest⟩ => ⟨t, hmeet, hrest⟩,
    fun ⟨t, hmeet, hrest⟩ => ⟨(), t, hmeet, hrest⟩⟩

/-- Code that is handed over comes back if the run goes on to a value. -/
theorem run_formats_eq_ok {c : String} {o : Formatter.Options} {rest : String → Rendering α}
    {s u : σ} {a : α} :
    (formats c o rest).run host s = (.ok a, u) ↔
      ∃ text t, host.format c o s = (.ok text, t) ∧ (rest text).run host t = (.ok a, u) := by
  rw [run_formats, Step.andThen_eq_ok]

/-- A lifted result leaves the state as it is. -/
theorem run_lift_eq_ok {x : Except Failure α} {s t : σ} {a : α} :
    (liftM x : Rendering α).run host s = (.ok a, t) ↔ x = .ok a ∧ s = t := by
  cases x with
  | ok b =>
    change ((.ok b, s) : Except Failure α × σ) = (.ok a, t) ↔ _
    simp
  | error e =>
    change ((.error e, s) : Except Failure α × σ) = (.ok a, t) ↔ _
    simp

/-- A run keeps what every allowed answer of the host keeps: if the host leads from states of `I` to
states of `I`, or fails in a way that `E` describes, then so does the run. -/
theorem run_keeps {host : Host σ} {I : σ → Prop} {E : Failure → σ → Prop}
    (hfail : ∀ e s, I s → l.failing e → E e s)
    (hmeet : ∀ r, l.meeting r → (host.meet r).Keeps I E)
    (hformat : l.formatting → ∀ c o, (host.format c o).Keeps I E) {x : Rendering α}
    (hx : x.Within l) : (x.run host).Keeps I E := by
  induction x with
  | done a => exact fun s hs => hs
  | failed e => exact fun s hs => hfail e s hs hx
  | meets r rest ih =>
    rw [run_meets]
    exact (hmeet r hx.1).andThen fun _ => ih hx.2
  | asks n rest ih => exact fun s hs => ih _ (hx.2 _) s hs
  | formats c o rest ih =>
    rw [run_formats]
    exact (hformat hx.1 c o).andThen fun t => ih t (hx.2 t)

/-- A run with a richer host does what a run does, if all answers of the host do. -/
theorem run_shadows {view : τ → σ} {rich : Host τ} {host : Host σ}
    (hmeet : ∀ r, Step.Shadows view (rich.meet r) (host.meet r))
    (hunderWay : ∀ n t, host.underWay n (view t) = rich.underWay n t)
    (hformat : ∀ c o, Step.Shadows view (rich.format c o) (host.format c o)) (x : Rendering α) :
    Step.Shadows view (x.run rich) (x.run host) := by
  induction x with
  | done a => exact fun t => rfl
  | failed e => exact fun t => rfl
  | meets r rest ih =>
    intro t
    rw [run, run, hmeet r t]
    rcases rich.meet r t with ⟨e | u, t'⟩
    · rfl
    · exact ih t'
  | asks n rest ih =>
    intro t
    rw [run, run, hunderWay]
    exact ih _ t
  | formats c o rest ih =>
    intro t
    rw [run, run, hformat c o t]
    rcases rich.format c o t with ⟨e | text, t'⟩
    · rfl
    · exact ih text t'

end Rendering

end SchemaTypes

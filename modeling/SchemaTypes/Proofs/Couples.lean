import SchemaTypes.Proofs.Renderings

/-!
# Results of two computations

Two computations are coupled by a relation if it holds between their results whenever both have one.
Nothing is said of failures: one of the two may fail where the other one does not. Renderings are
coupled if, in addition, they have met the same references by then.
-/

namespace SchemaTypes

variable {α β γ δ : Type}

/-! ## Computations -/

variable {ε ε' : Type}

/-- If both computations succeed, their results are related. -/
def Coupled (R : α → β → Prop) (x : Except ε α) (y : Except ε' β) : Prop :=
  ∀ a b, x = .ok a → y = .ok b → R a b

variable {R : α → β → Prop} {S : γ → δ → Prop} {x : Except ε α} {y : Except ε' β}

theorem coupled_ok {a : α} {b : β} (h : R a b) :
    Coupled R (.ok a : Except ε α) (.ok b : Except ε' β) := by
  rintro _ _ ⟨⟩ ⟨⟩
  exact h

theorem coupled_error (e : ε) (y : Except ε' β) : Coupled R (.error e) y :=
  nofun

theorem coupled_refl (x : Except ε α) : Coupled Eq x x := by
  rintro a b ha hb
  exact Except.ok.inj (ha.symm.trans hb)

theorem Coupled.bind {f : α → Except ε γ} {g : β → Except ε' δ} (hxy : Coupled R x y)
    (hfg : ∀ a b, R a b → Coupled S (f a) (g b)) : Coupled S (x >>= f) (y >>= g) := by
  intro c d hc hd
  obtain ⟨a, ha, hc⟩ := bind_eq_ok.mp hc
  obtain ⟨b, hb, hd⟩ := bind_eq_ok.mp hd
  exact hfg a b (hxy a b ha hb) c d hc hd

theorem Coupled.map {f : α → γ} {g : β → δ} (hxy : Coupled R x y)
    (hfg : ∀ a b, R a b → S (f a) (g b)) : Coupled S (f <$> x) (g <$> y) := by
  intro c d hc hd
  obtain ⟨a, ha, rfl⟩ := map_eq_ok.mp hc
  obtain ⟨b, hb, rfl⟩ := map_eq_ok.mp hd
  exact hfg a b (hxy a b ha hb)

/-! ## Renderings -/

namespace Rendering

variable {underWay : String → Bool}

/-- If both renderings succeed, they have met the same references, and their results are related. -/
def Coupled (underWay : String → Bool) (R : α → β → Prop) (x : Rendering α) (y : Rendering β) :
    Prop :=
  ∀ met met' a b, x.observe underWay = (met, .ok a) → y.observe underWay = (met', .ok b) →
    met = met' ∧ R a b

theorem coupled_pure {a : α} {b : β} (h : R a b) :
    Coupled underWay R (pure a) (pure b) := by
  intro met met' c d hc hd
  obtain ⟨rfl, rfl⟩ := observe_pure_eq_ok.mp hc
  obtain ⟨rfl, rfl⟩ := observe_pure_eq_ok.mp hd
  exact ⟨rfl, h⟩

theorem coupled_lift {x : Except Failure α} {y : Except Failure β}
    (h : SchemaTypes.Coupled R x y) :
    Coupled underWay R (liftM x : Rendering α) (liftM y : Rendering β) := by
  intro met met' a b ha hb
  obtain ⟨rfl, hx⟩ := observe_lift_eq_ok.mp ha
  obtain ⟨rfl, hy⟩ := observe_lift_eq_ok.mp hb
  exact ⟨rfl, h a b hx hy⟩

/-- A rendering that fails is coupled to any other. -/
theorem coupled_failed (e : Failure) (y : Rendering β) :
    Coupled underWay R (failed e : Rendering α) y := by
  intro met met' a b ha
  rw [observe_failed] at ha
  cases ha

theorem coupled_refl (x : Rendering α) : Coupled underWay Eq x x := by
  intro met met' a b ha hb
  cases ha.symm.trans hb
  exact ⟨rfl, rfl⟩

theorem Coupled.bind {x : Rendering α} {y : Rendering β} {f : α → Rendering γ}
    {g : β → Rendering δ} (hxy : Coupled underWay R x y)
    (hfg : ∀ a b, R a b → Coupled underWay S (f a) (g b)) :
    Coupled underWay S (x >>= f) (y >>= g) := by
  intro met met' c d hc hd
  obtain ⟨m₁, a, m₂, hx, hf, rfl⟩ := observe_bind_eq_ok.mp hc
  obtain ⟨n₁, b, n₂, hy, hg, rfl⟩ := observe_bind_eq_ok.mp hd
  obtain ⟨rfl, hab⟩ := hxy m₁ n₁ a b hx hy
  obtain ⟨rfl, hcd⟩ := hfg a b hab m₂ n₂ c d hf hg
  exact ⟨rfl, hcd⟩

theorem Coupled.map {x : Rendering α} {y : Rendering β} {f : α → γ} {g : β → δ}
    (hxy : Coupled underWay R x y) (hfg : ∀ a b, R a b → S (f a) (g b)) :
    Coupled underWay S (f <$> x) (g <$> y) := by
  intro met met' c d hc hd
  obtain ⟨a, ha, rfl⟩ := observe_map_eq_ok.mp hc
  obtain ⟨b, hb, rfl⟩ := observe_map_eq_ok.mp hd
  obtain ⟨rfl, hab⟩ := hxy met met' a b ha hb
  exact ⟨rfl, hfg a b hab⟩

end Rendering

end SchemaTypes

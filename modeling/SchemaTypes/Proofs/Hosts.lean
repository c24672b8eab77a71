import SchemaTypes.Proofs.Renderings

/-!
# Hosts that answer alike

Two hosts that answer the requests of a rendering alike carry it out with the same value, whatever
else they do with their states. `Host.Follows` says this of single answers, for the requests that
the rendering may make, and `Rendering.run_follows` says it of whole runs.

`Host.still` is the host who does nothing but answer: references leave no trace, and the names under
way are fixed.
-/

namespace SchemaTypes

variable {α σ τ : Type}

namespace Host

/-- The host who takes no note of references. The names under way are fixed, and code is formatted
without a state. -/
def still (underWay : String → Bool)
    (format : String → Formatter.Options → Except Failure String) : Host Unit where
  meet := fun _ => Step.ofExcept (.ok ())
  underWay := fun name _ => underWay name
  format := fun code options => Step.ofExcept (format code options)

/-- From states related by `R`, the other host answers as the first one does, as long as this one
does not fail, and the states are related again. Only the requests that `l` allows count. -/
structure Follows (l : Rendering.Leave) (R : σ → τ → Prop) (host : Host σ) (other : Host τ) :
    Prop where
  meet : ∀ r s t u, l.meeting r → R s t → host.meet r s = (.ok (), u) →
    ∃ v, other.meet r t = (.ok (), v) ∧ R u v
  underWay : l.asking → ∀ name s t, R s t → other.underWay name t = host.underWay name s
  format : l.formatting → ∀ code options s t text u, R s t →
    host.format code options s = (.ok text, u) →
      ∃ v, other.format code options t = (.ok text, v) ∧ R u v

end Host

namespace Rendering

variable {l : Leave} {R : σ → τ → Prop} {host : Host σ} {other : Host τ}

/-- A run that ends with a value ends with the same value if another host follows the host. -/
theorem run_follows (h : host.Follows l R other) {x : Rendering α} (hx : x.Within l) {s u : σ}
    {t : τ} {a : α} (hst : R s t) (hrun : x.run host s = (.ok a, u)) :
    ∃ v, x.run other t = (.ok a, v) ∧ R u v := by
  induction x generalizing s t with
  | done b =>
    obtain ⟨rfl, rfl⟩ : b = a ∧ s = u := by simpa [run] using hrun
    exact ⟨t, rfl, hst⟩
  | failed e => cases hrun
  | meets r rest ih =>
    obtain ⟨s', hmeet, hrest⟩ := run_meets_eq_ok.mp hrun
    obtain ⟨t', hmeet', hst'⟩ := h.meet r s t s' hx.1 hst hmeet
    obtain ⟨v, hv, huv⟩ := ih hx.2 hst' hrest
    exact ⟨v, run_meets_eq_ok.mpr ⟨t', hmeet', hv⟩, huv⟩
  | asks n rest ih =>
    rw [run] at hrun
    obtain ⟨v, hv, huv⟩ := ih _ (hx.2 _) hst hrun
    refine ⟨v, ?_, huv⟩
    rw [run, h.underWay hx.1 n s t hst]
    exact hv
  | formats c o rest ih =>
    obtain ⟨text, s', hformat, hrest⟩ := run_formats_eq_ok.mp hrun
    obtain ⟨t', hformat', hst'⟩ := h.format hx.1 c o s t text s' hst hformat
    obtain ⟨v, hv, huv⟩ := ih text (hx.2 text) hst' hrest
    exact ⟨v, run_formats_eq_ok.mpr ⟨text, t', hformat', hv⟩, huv⟩

/-! ## The states that are consulted -/

/-- The states at which the host of a run is asked for a name, in order. -/
def consulted (host : Host σ) : Rendering α → σ → List σ
  | done _, _ => []
  | failed _, _ => []
  | meets r rest, s =>
    match host.meet r s with
    | (.ok _, s) => rest.consulted host s
    | (.error _, _) => []
  | asks n rest, s => s :: (rest (host.underWay n s)).consulted host s
  | formats c o rest, s =>
    match host.format c o s with
    | (.ok t, s) => (rest t).consulted host s
    | (.error _, _) => []

/-- What all answers of a host keep holds whenever it is asked for a name, also in a run that
fails. -/
theorem consulted_keeps {I : σ → Prop} {E : Failure → σ → Prop}
    (hmeet : ∀ r, (host.meet r).Keeps I E) (hformat : ∀ c o, (host.format c o).Keeps I E)
    (x : Rendering α) {s : σ} (hs : I s) : ∀ u ∈ x.consulted host s, I u := by
  induction x generalizing s with
  | done a => simp [consulted]
  | failed e => simp [consulted]
  | meets r rest ih =>
    have hends := hmeet r s hs
    rw [consulted]
    rcases hrun : host.meet r s with ⟨e | ⟨⟩, t⟩
    · simp
    · rw [hrun] at hends
      exact ih hends
  | asks n rest ih =>
    intro u hu
    rw [consulted] at hu
    rcases List.mem_cons.mp hu with rfl | hu
    · exact hs
    · exact ih _ hs u hu
  | formats c o rest ih =>
    have hends := hformat c o s hs
    rw [consulted]
    rcases hrun : host.format c o s with ⟨e | text, t⟩
    · simp
    · rw [hrun] at hends
      exact ih text hends

end Rendering

end SchemaTypes

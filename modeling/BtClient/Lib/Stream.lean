import Mathlib.Logic.Basic

/-!
# Producers

A producer is a function `σ → Except ε (τ × σ)` that delivers an element and the
state to go on from, or fails. `Yields next s ts s'` says that it delivers `ts`
from `s` on and is in `s'` then. What a consumer does is a matter of the
elements alone, so its properties are stated over lists and brought back to the
producer here.
-/

namespace CLib

variable {ε σ τ : Type} {next : σ → Except ε (τ × σ)}

/-- From `s` on the elements `ts` are delivered, and `s'` is reached. -/
def Yields (next : σ → Except ε (τ × σ)) : σ → List τ → σ → Prop
  | s, [], s' => s' = s
  | s, t :: ts, s' => ∃ s₁, next s = .ok (t, s₁) ∧ Yields next s₁ ts s'

theorem Yields.one {s s' : σ} {t : τ} (h : next s = .ok (t, s')) : Yields next s [t] s' :=
  ⟨s', h, rfl⟩

theorem yields_append {ts us : List τ} : ∀ {s s' : σ},
    Yields next s (ts ++ us) s' ↔ ∃ s₁, Yields next s ts s₁ ∧ Yields next s₁ us s' := by
  induction ts with
  | nil =>
    intro s s'
    constructor
    · intro h
      exact ⟨s, rfl, h⟩
    · rintro ⟨s₁, rfl, h⟩
      exact h
  | cons t ts ih =>
    intro s s'
    constructor
    · rintro ⟨s₁, hnext, h⟩
      obtain ⟨s₂, hts, hus⟩ := ih.mp h
      exact ⟨s₂, ⟨s₁, hnext, hts⟩, hus⟩
    · rintro ⟨s₂, ⟨s₁, hnext, hts⟩, hus⟩
      exact ⟨s₁, hnext, ih.mpr ⟨s₂, hts, hus⟩⟩

/-- What one delivery keeps, all of them keep. -/
theorem Yields.invariant {inv : σ → Prop}
    (hstep : ∀ s t s', inv s → next s = .ok (t, s') → inv s') {ts : List τ} :
    ∀ {s s' : σ}, Yields next s ts s' → inv s → inv s' := by
  induction ts with
  | nil =>
    rintro s s' rfl hs
    exact hs
  | cons t ts ih =>
    rintro s s' ⟨s₁, hnext, h⟩ hs
    exact ih h (hstep s t s₁ hs hnext)

end CLib

import BtClient.Lib.Fault

/-!
# Refinement by calls

An implementation is a call function `σ → α → Except ε σ` on its states, a
specification one `τ → α → τ` that cannot fail, with a precondition. If related
states stay related over every call that meets its precondition, and the
implementation returns from it, the same is true of every sequence of calls.
-/

namespace CLib

variable {ε σ τ α : Type}

/-- Every call of `as` meets its precondition in the state it finds, from `t` on. -/
def Within (spec : τ → α → τ) (pre : τ → α → Prop) (t : τ) (as : List α) : Prop :=
  ∀ before a, before ++ [a] <+: as → pre (before.foldl spec t) a

theorem within_nil (spec : τ → α → τ) (pre : τ → α → Prop) (t : τ) : Within spec pre t [] := by
  intro before a hpre
  simp at hpre

theorem within_cons {spec : τ → α → τ} {pre : τ → α → Prop} {t : τ} {a : α} {as : List α} :
    Within spec pre t (a :: as) ↔ pre t a ∧ Within spec pre (spec t a) as := by
  constructor
  · intro h
    refine ⟨h [] a ⟨as, rfl⟩, fun before b hpre => ?_⟩
    exact h (a :: before) b ((List.prefix_cons_inj a).mpr hpre)
  · rintro ⟨hhead, htail⟩ before b hpre
    cases before with
    | nil =>
      obtain ⟨rest, hrest⟩ := hpre
      cases hrest
      exact hhead
    | cons c before =>
      obtain ⟨rfl, hrest⟩ := List.cons_prefix_cons.mp hpre
      exact htail before b hrest

/-- The implementation returns from every call within the precondition, and
follows the specification. -/
structure Refines (impl : σ → α → Except ε σ) (spec : τ → α → τ) (pre : τ → α → Prop)
    (R : σ → τ → Prop) : Prop where
  call : ∀ {s t a}, R s t → pre t a → ∃ s', impl s a = .ok s' ∧ R s' (spec t a)

/-- **The refinement rule.** A sequence of calls returns, in a state related to
the one the specification reaches. -/
theorem Refines.calls {impl : σ → α → Except ε σ} {spec : τ → α → τ} {pre : τ → α → Prop}
    {R : σ → τ → Prop} (h : Refines impl spec pre R) (as : List α) :
    ∀ {s t}, R s t → Within spec pre t as →
      ∃ s', as.foldlM impl s = .ok s' ∧ R s' (as.foldl spec t) := by
  induction as with
  | nil =>
    intro s t hR _
    exact ⟨s, rfl, hR⟩
  | cons a as ih =>
    intro s t hR hwithin
    obtain ⟨hhead, htail⟩ := within_cons.mp hwithin
    obtain ⟨s₁, hcall, hR₁⟩ := h.call hR hhead
    obtain ⟨s', hcalls, hR'⟩ := ih hR₁ htail
    refine ⟨s', ?_, hR'⟩
    rw [List.foldlM_cons, hcall, ok_bind, hcalls]

end CLib

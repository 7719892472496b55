import Mathlib.Logic.Basic

/-!
# Runs of a transition system

A system is a step function `σ → α → Option σ`: `none` when the action is not
enabled. `Run step guard s as t` says that the actions `as`, in order, lead
from `s` to `t`, and that every one of them met `guard` in the state it was
taken in. The invariant rule is the one induction every safety result uses.
-/

namespace CLib

variable {σ α : Type} {step : σ → α → Option σ} {guard guard' : σ → α → Prop}

/-- The actions `as` lead from `s` to `t`, each of them within the guard. -/
inductive Run (step : σ → α → Option σ) (guard : σ → α → Prop) (s : σ) : List α → σ → Prop where
  | nil : Run step guard s [] s
  | snoc {as : List α} {t u : σ} {a : α} :
    Run step guard s as t → guard t a → step t a = some u → Run step guard s (as ++ [a]) u

/-- The guard that allows everything. -/
def unguarded (_ : σ) (_ : α) : Prop := True

instance (s : σ) (a : α) : Decidable (unguarded s a) := .isTrue trivial

theorem Run.mono {s t : σ} {as : List α} (h : Run step guard s as t)
    (himp : ∀ s a, guard s a → guard' s a) : Run step guard' s as t := by
  induction h with
  | nil => exact .nil
  | snoc _ hg hs ih => exact .snoc ih (himp _ _ hg) hs

/-- **The invariant rule.** What holds initially and is kept by every guarded
step holds in every state reached. -/
theorem Run.invariant {s t : σ} {as : List α} {inv : σ → Prop} (h : Run step guard s as t)
    (hinit : inv s)
    (hstep : ∀ t a u, inv t → guard t a → step t a = some u → inv u) : inv t := by
  induction h with
  | nil => exact hinit
  | snoc _ hg hs ih => exact hstep _ _ _ ih hg hs

theorem Run.cons {s t u : σ} {a : α} {as : List α} (hg : guard s a) (hs : step s a = some t)
    (h : Run step guard t as u) : Run step guard s (a :: as) u := by
  induction h with
  | nil =>
    show Run step guard s ([] ++ [a]) t
    exact .snoc .nil hg hs
  | snoc _ hg' hs' ih => exact .snoc ih hg' hs'

theorem Run.append {s t u : σ} {as bs : List α} (h : Run step guard s as t)
    (h' : Run step guard t bs u) : Run step guard s (as ++ bs) u := by
  induction h' with
  | nil => rwa [List.append_nil]
  | snoc _ hg hs ih =>
    rw [← List.append_assoc]
    exact .snoc ih hg hs

/-- A run is given by its actions. -/
theorem Run.unique {s t t' : σ} {as : List α} (h : Run step guard s as t) :
    Run step guard' s as t' → t = t' := by
  induction h generalizing t' with
  | nil =>
    intro h'
    generalize has : ([] : List α) = as at h'
    cases h' with
    | nil => rfl
    | snoc _ _ _ => simp at has
  | @snoc as t u a _ _ hs ih =>
    intro h'
    generalize has : as ++ [a] = as' at h'
    cases h' with
    | nil => simp at has
    | snoc hrun _ hs' =>
      obtain ⟨rfl, hlast⟩ := List.append_inj' has rfl
      cases hlast
      rw [ih hrun, hs'] at hs
      exact (Option.some.inj hs).symm

/-- The last step of a run, from the state its other actions lead to. -/
theorem Run.last {s t u : σ} {as : List α} {a : α} (h : Run step guard s as t)
    (h' : Run step guard' s (as ++ [a]) u) : step t a = some u := by
  generalize has : as ++ [a] = as' at h'
  cases h' with
  | nil => simp at has
  | snoc hrun _ hs =>
    obtain ⟨rfl, hlast⟩ := List.append_inj' has rfl
    cases hlast
    rwa [h.unique hrun]

/-- A run passes through the states its beginnings reach. -/
theorem Run.beginning {s t : σ} {as as' : List α} (h : Run step guard s as t) :
    as' <+: as → ∃ u, Run step guard s as' u := by
  induction h with
  | nil =>
    intro hpre
    rw [List.prefix_nil.mp hpre]
    exact ⟨s, .nil⟩
  | @snoc as t u a hrun hg hs ih =>
    intro hpre
    rcases List.prefix_concat_iff.mp (by simpa using hpre) with rfl | hpre
    · exact ⟨u, by simpa using hrun.snoc hg hs⟩
    · exact ih hpre

/-- **Exact guards.** Where a property survives a step exactly when the step
meets the guard, it holds all along a run exactly when it holds at the start
and every step of the run meets the guard. -/
theorem Run.exact {s t : σ} {as : List α} {inv : σ → Prop}
    (hstep : ∀ t a u, inv t → step t a = some u → (inv u ↔ guard t a))
    (h : Run step unguarded s as t) :
    (∀ as' u, as' <+: as → Run step unguarded s as' u → inv u) ↔
      inv s ∧ Run step guard s as t := by
  constructor
  · intro hall
    have hnil : [] <+: as := List.nil_prefix
    refine ⟨hall [] s hnil .nil, ?_⟩
    clear hnil
    induction h with
    | nil => exact .nil
    | @snoc as t u a hrun _ hs ih =>
      have ht := hall as t (List.prefix_append _ _) hrun
      have hu := hall (as ++ [a]) u (List.prefix_refl _) (hrun.snoc trivial hs)
      refine .snoc (ih fun as' v hpre hv => ?_) ((hstep t a u ht hs).mp hu) hs
      exact hall as' v (hpre.trans (List.prefix_append _ _)) hv
  · rintro ⟨hinit, hrun⟩ as' u hpre hu
    obtain ⟨v, hv⟩ := hrun.beginning hpre
    rw [hu.unique hv]
    exact hv.invariant hinit fun t a u ht hg hs => (hstep t a u ht hs).mpr hg

/-- Take the actions one after the other, as long as the guard allows. -/
def exec (step : σ → α → Option σ) (guard : σ → α → Prop) [∀ s a, Decidable (guard s a)] :
    σ → List α → Option σ
  | s, [] => some s
  | s, a :: as => if guard s a then (step s a).bind (fun t => exec step guard t as) else none

/-- What `exec` reaches is reached by a run. -/
theorem Run.of_exec [∀ s a, Decidable (guard s a)] (as : List α) :
    ∀ {s t : σ}, exec step guard s as = some t → Run step guard s as t := by
  induction as with
  | nil => intro s t h; cases h; exact .nil
  | cons a as ih =>
    intro s t h
    simp only [exec] at h
    by_cases hg : guard s a
    · rw [if_pos hg] at h
      obtain ⟨u, hu, hrest⟩ := Option.bind_eq_some_iff.mp h
      exact .cons hg hu (ih hrest)
    · rw [if_neg hg] at h
      cases h

end CLib

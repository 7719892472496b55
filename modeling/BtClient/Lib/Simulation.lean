import Mathlib.Data.List.Forall2
import BtClient.Lib.Transition

/-!
# Simulation between runs

Two systems, one of them finer: what is one step there may be any number of
steps here. If every step from related states can be followed by a run to
related states, so can every run.
-/

namespace CLib

variable {σ τ α β : Type} {step : σ → α → Option σ} {guard : σ → α → Prop}
  {fine : τ → β → Option τ} {guard' : τ → β → Prop}

/-- **The simulation rule.** -/
theorem Run.simulates {s t : σ} {s' : τ} {as : List α} {R : σ → τ → Prop}
    (h : Run step guard s as t) (hinit : R s s')
    (hstep : ∀ {t u : σ} {t' : τ} {a : α}, R t t' → guard t a → step t a = some u →
      ∃ bs u', Run fine guard' t' bs u' ∧ R u u') :
    ∃ bs t', Run fine guard' s' bs t' ∧ R t t' := by
  induction h with
  | nil => exact ⟨[], s', .nil, hinit⟩
  | snoc _ hg hs ih =>
    obtain ⟨bs, t', hbs, ht⟩ := ih
    obtain ⟨cs, u', hcs, hu⟩ := hstep ht hg hs
    exact ⟨bs ++ cs, u', hbs.append hcs, hu⟩

/-! ## Threads side by side -/

section Threads

variable {α β : Type} {R : α → β → Prop} {as : List α} {bs : List β}

theorem forall₂_set (h : List.Forall₂ R as bs) {c : Nat} {a : α} {b : β} (hab : R a b) :
    List.Forall₂ R (as.set c a) (bs.set c b) := by
  induction h generalizing c with
  | nil => exact .nil
  | cons hhead htail ih =>
    cases c with
    | zero => exact .cons hab htail
    | succ c => exact .cons hhead ih

/-- Only the one side has changed. -/
theorem forall₂_set_left (h : List.Forall₂ R as bs) {c : Nat} {a : α} {b : β}
    (hb : bs[c]? = some b) (hab : R a b) : List.Forall₂ R (as.set c a) bs := by
  have hset := forall₂_set h hab (c := c)
  obtain ⟨hlt, hget⟩ := List.getElem?_eq_some_iff.mp hb
  rwa [← hget, List.set_getElem_self] at hset

theorem forall₂_set_right (h : List.Forall₂ R as bs) {c : Nat} {a : α} {b : β}
    (ha : as[c]? = some a) (hab : R a b) : List.Forall₂ R as (bs.set c b) := by
  have hset := forall₂_set h hab (c := c)
  obtain ⟨hlt, hget⟩ := List.getElem?_eq_some_iff.mp ha
  rwa [← hget, List.set_getElem_self] at hset

theorem forall₂_getElem? (h : List.Forall₂ R as bs) {c : Nat} {a : α} (ha : as[c]? = some a) :
    ∃ b, bs[c]? = some b ∧ R a b := by
  induction h generalizing c with
  | nil => simp at ha
  | cons hhead htail ih =>
    cases c with
    | zero =>
      cases ha
      exact ⟨_, rfl, hhead⟩
    | succ c => exact ih ha

/-- Where one list has `P` the other has `Q`. -/
theorem countP_le_of_getElem? {P : α → Bool} {Q : β → Bool}
    (h : ∀ (c : Nat) (a : α), as[c]? = some a → P a = true →
      ∃ b, bs[c]? = some b ∧ Q b = true) : as.countP P ≤ bs.countP Q := by
  induction as generalizing bs with
  | nil => exact Nat.zero_le _
  | cons a as ih =>
    cases bs with
    | nil =>
      have hnone : (a :: as).countP P = 0 := by
        rw [List.countP_eq_zero]
        intro b hb hP
        obtain ⟨c, hc⟩ := List.mem_iff_getElem?.mp hb
        obtain ⟨_, hbs, -⟩ := h c b hc hP
        cases hbs
      exact Nat.le_of_eq hnone
    | cons b bs =>
      have htail : as.countP P ≤ bs.countP Q := ih fun c a hc hP => h (c + 1) a hc hP
      have hhead : P a = true → Q b = true := by
        intro hP
        obtain ⟨b', hb', hQ⟩ := h 0 a rfl hP
        cases hb'
        exact hQ
      rw [List.countP_cons, List.countP_cons]
      by_cases hP : P a = true
      · rw [if_pos hP, if_pos (hhead hP)]
        omega
      · rw [if_neg hP]
        omega

end Threads

end CLib

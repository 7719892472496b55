import BtClient.Lib.Transition

/-!
# Counting the steps of a run

`tally step p s as` is how many of the actions `as`, taken one after the other
from `s`, satisfy `p` in the state they are taken in. A potential bounds one
count by another: if every step that counts is paid for by a loss of potential
or by a step of another kind, which brings a credit, the counts of a whole run
are related in the same way.
-/

namespace CLib

variable {σ α : Type} {step : σ → α → Option σ} {guard : σ → α → Prop} {p q : σ → α → Bool}

/-- The actions that satisfy `p` in the state they are taken in. -/
def tally (step : σ → α → Option σ) (p : σ → α → Bool) : σ → List α → Nat
  | _, [] => 0
  | s, a :: as =>
    (p s a).toNat + match step s a with
      | some t => tally step p t as
      | none => 0

theorem tally_cons_of_step {s t : σ} {a : α} (h : step s a = some t) (as : List α) :
    tally step p s (a :: as) = (p s a).toNat + tally step p t as := by
  rw [tally, h]

theorem Run.tally_append {s t : σ} {as : List α} (h : Run step guard s as t) (bs : List α) :
    tally step p s (as ++ bs) = tally step p s as + tally step p t bs := by
  induction h generalizing bs with
  | nil => rw [List.nil_append, tally, Nat.zero_add]
  | @snoc as t u a _ _ hs ih =>
    have hone : tally step p t [a] = (p t a).toNat := by
      rw [tally_cons_of_step hs, tally, Nat.add_zero]
    rw [List.append_assoc, List.singleton_append, ih, ih, hone, tally_cons_of_step hs,
      Nat.add_assoc]

/-- One more action at the end of a run. -/
theorem Run.tally_snoc {s t u : σ} {as : List α} {a : α} (h : Run step guard s as t)
    (hs : step t a = some u) :
    tally step p s (as ++ [a]) = tally step p s as + (p t a).toNat := by
  rw [h.tally_append, tally_cons_of_step hs, tally, Nat.add_zero]

/-- What is counted without a look at the state. -/
theorem Run.tally_eq_countP {s t : σ} {as : List α} {r : α → Bool} (h : Run step guard s as t) :
    tally step (fun _ a => r a) s as = as.countP r := by
  induction h with
  | nil => rfl
  | @snoc as t u a hrun _ hs ih =>
    rw [hrun.tally_snoc hs, ih, List.countP_append, List.countP_singleton]
    cases r a <;> rfl

/-- **The credit rule.** Every step pays for what it counts with potential, or
with the credit `c` that a step satisfying `q` brings. -/
theorem Run.tally_le {s t : σ} {as : List α} {inv : σ → Prop} {potential : σ → Nat} {c : Nat}
    (h : Run step guard s as t) (hinit : inv s)
    (hkeep : ∀ t a u, inv t → guard t a → step t a = some u → inv u)
    (hpay : ∀ t a u, inv t → guard t a → step t a = some u →
      (p t a).toNat + potential u ≤ potential t + c * (q t a).toNat) :
    tally step p s as + potential t ≤ potential s + c * tally step q s as := by
  induction h with
  | nil => simp [tally]
  | @snoc as t u a hrun hg hs ih =>
    have hone := hpay t a u (hrun.invariant hinit hkeep) hg hs
    rw [hrun.tally_snoc hs, hrun.tally_snoc hs, Nat.mul_add]
    omega

end CLib

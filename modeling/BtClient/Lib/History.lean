import Mathlib.Logic.Basic
import Mathlib.Tactic.Common

/-!
# Histories

A history lists what has happened so far, the latest event last. `Since p q l`
says that a `p` has happened after which no `q` has: the state of a switch
that `p` turns on and `q` turns off.
-/

namespace CLib

variable {α : Type} {p q : α → Prop}

/-- Some `p` of the history has no `q` after it. -/
def Since (p q : α → Prop) (history : List α) : Prop :=
  ∃ before a after, history = before ++ a :: after ∧ p a ∧ ∀ b ∈ after, ¬ q b

@[simp] theorem not_since_nil : ¬ Since p q ([] : List α) := by
  rintro ⟨before, a, after, h, -⟩
  cases before <;> cases h

/-- **One more event**: it turns the switch on, or leaves it on. -/
theorem since_snoc (history : List α) (a : α) :
    Since p q (history ++ [a]) ↔ p a ∨ (Since p q history ∧ ¬ q a) := by
  constructor
  · rintro ⟨before, b, after, heq, hb, hafter⟩
    rcases List.eq_nil_or_concat after with rfl | ⟨after, c, rfl⟩
    · obtain ⟨-, hab⟩ := List.append_inj' heq rfl
      cases hab
      exact .inl hb
    · rw [List.concat_eq_append] at heq hafter
      have hsplit : history ++ [a] = (before ++ b :: after) ++ [c] := by
        rw [heq, List.append_assoc, List.cons_append]
      obtain ⟨hhist, hac⟩ := List.append_inj' hsplit rfl
      cases hac
      refine .inr ⟨⟨before, b, after, hhist, hb, ?_⟩, hafter a (by simp)⟩
      exact fun d hd => hafter d (by simp [hd])
  · rintro (hpa | ⟨⟨before, b, after, rfl, hb, hafter⟩, hqa⟩)
    · exact ⟨history, a, [], rfl, hpa, by simp⟩
    · refine ⟨before, b, after ++ [a], by simp, hb, ?_⟩
      intro c hc
      rcases List.mem_append.mp hc with hc | hc
      · exact hafter c hc
      · rw [List.mem_singleton.mp hc]
        exact hqa

/-- An event of neither kind. -/
theorem since_snoc_of_neither (history : List α) {a : α} (hp : ¬ p a) (hq : ¬ q a) :
    Since p q (history ++ [a]) ↔ Since p q history := by
  rw [since_snoc]
  simp [hp, hq]

end CLib

import BtClient.Lib.Fault

/-!
# Outcomes of faulting stateful computations

A function that works on a state and may fault is an `EStateM Fault σ`
program: the state it had reached is kept when it faults, so that a property
of "everything done so far" can be stated of runs that do not return.

`Outcome fine r post fail` is the judgement used to reason about them. `post`
holds when `r` returned and `fail` when it faulted, and it only faulted
because `fine` is false. One derivation gives both the property of every run
and, when `fine` holds, that the run returns.
-/

namespace CLib

variable {σ α β : Type} {fine fine' : Prop} {post post' : α → σ → Prop} {fail fail' : σ → Prop}

/-- A computation without a state, inside one that has a state. -/
def lift (m : Except Fault α) : EStateM Fault σ α := fun s =>
  match m with
  | .ok a => .ok a s
  | .error e => .error e s

/-- The result `r` satisfies `post`, or it is a fault in a state that satisfies
`fail`, and then `fine` is false. -/
def Outcome (fine : Prop) (r : EStateM.Result Fault σ α) (post : α → σ → Prop)
    (fail : σ → Prop) : Prop :=
  match r with
  | .ok a s => post a s
  | .error _ s => ¬ fine ∧ fail s

theorem Outcome.mono {r : EStateM.Result Fault σ α} (h : Outcome fine r post fail)
    (hfine : fine' → fine) (hpost : ∀ a s, post a s → post' a s)
    (hfail : ∀ s, fail s → fail' s) : Outcome fine' r post' fail' := by
  cases r with
  | ok a s => exact hpost a s h
  | error e s => exact ⟨fun hf => h.1 (hfine hf), hfail s h.2⟩

/-- **The sequence rule.** -/
theorem Outcome.bind {x : EStateM Fault σ α} {f : α → EStateM Fault σ β} {s : σ}
    {mid : α → σ → Prop} {post : β → σ → Prop} (hx : Outcome fine (x s) mid fail)
    (hf : ∀ a s', mid a s' → Outcome fine (f a s') post fail) :
    Outcome fine ((x >>= f) s) post fail := by
  show Outcome fine (EStateM.bind x f s) post fail
  unfold EStateM.bind
  cases hr : x s with
  | ok a s' =>
    rw [hr] at hx
    exact hf a s' hx
  | error e s' =>
    rw [hr] at hx
    exact hx

/-- A sequence returns exactly when both of its halves return. -/
theorem bind_returns_iff {x : EStateM Fault σ α} {f : α → EStateM Fault σ β} {s s' : σ} {b : β} :
    (x >>= f) s = .ok b s' ↔ ∃ a s₁, x s = .ok a s₁ ∧ f a s₁ = .ok b s' := by
  show EStateM.bind x f s = .ok b s' ↔ _
  unfold EStateM.bind
  cases x s with
  | ok a s₁ =>
    constructor
    · intro h
      exact ⟨a, s₁, rfl, h⟩
    · rintro ⟨a', s', hx, h⟩
      cases hx
      exact h
  | error e s₁ => simp

theorem lift_returns_iff {m : Except Fault α} {s s' : σ} {a : α} :
    lift m s = .ok a s' ↔ m = .ok a ∧ s' = s := by
  cases m with
  | ok b => simp [lift, eq_comm]
  | error e => simp [lift]

/-- A run that nothing stands in the way of returns. -/
theorem Outcome.returns {r : EStateM.Result Fault σ α} (h : Outcome fine r post fail)
    (hfine : fine) : ∃ a s, r = .ok a s ∧ post a s := by
  cases r with
  | ok a s => exact ⟨a, s, rfl, h⟩
  | error e s => exact absurd hfine h.1

theorem Outcome.of_ok {r : EStateM.Result Fault σ α} {a : α} {s : σ}
    (h : Outcome fine r post fail) (hr : r = .ok a s) : post a s := by
  rw [hr] at h
  exact h

/-- The state a computation stopped in, whether it returned or faulted. -/
def stateOf {ε : Type} : EStateM.Result ε σ α → σ
  | .ok _ s => s
  | .error _ s => s

end CLib

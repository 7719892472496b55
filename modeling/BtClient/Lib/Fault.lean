import Mathlib.Logic.Basic

/-!
# Faulting computations

A C function that does not return normally (a failed `assert`, a call of
`exit`, a read or write outside an object, a `NULL` dereference, a union read
through another member than the one written) is modelled by the error side of
`Except Fault`. A loop whose termination is not structural runs on fuel, and
running dry is the last fault, so that "the call returns" is always a
statement about `.ok`.

The peeling lemmas below let a proof take a `do` block apart one bind at a
time instead of unfolding the monad.
-/

namespace CLib

/-- Why a modelled C function did not return. -/
inductive Fault where
  | assertFailed
  | exited
  | outOfBounds
  | nullDeref
  | wrongMember
  | outOfFuel
  deriving DecidableEq, Repr

/-- `assert(cond)`: abort when the condition is false. -/
def check (cond : Bool) : Except Fault Unit :=
  if cond then .ok () else .error .assertFailed

variable {ε α β : Type}

@[simp] theorem ok_bind (a : α) (f : α → Except ε β) :
    ((Except.ok a : Except ε α) >>= f) = f a := rfl

@[simp] theorem error_bind (e : ε) (f : α → Except ε β) :
    ((Except.error e : Except ε α) >>= f) = .error e := rfl

@[simp] theorem pure_is_ok (a : α) : (pure a : Except ε α) = .ok a := rfl

/-- A sequence returns exactly when both of its halves return. -/
theorem seq_returns_iff (m : Except ε α) (k : α → Except ε β) (r : β) :
    (m >>= k) = .ok r ↔ ∃ v, m = .ok v ∧ k v = .ok r := by
  rcases m with e | v
  · simp
  · simp

/-- What only returns another value faults as before. -/
theorem then_ok_faults_iff (m : Except ε α) (g : α → β) (e : ε) :
    (m >>= fun v => .ok (g v)) = .error e ↔ m = .error e := by
  rcases m with e' | v
  · simp
  · simp

/-- A run whose result was observed through `g` has returned. -/
theorem returns_of_observed {m : Except ε α} {g : α → β} {b : β}
    (h : m.toOption.map g = some b) : ∃ r, m = .ok r ∧ g r = b := by
  cases m with
  | error e => cases h
  | ok r => exact ⟨r, rfl, Option.some.inj h⟩

/-- A loop over a list that returns has a result for each of its items. -/
theorem mapM_length {f : α → Except ε β} {xs : List α} :
    ∀ {ys : List β}, xs.mapM f = .ok ys → ys.length = xs.length := by
  induction xs with
  | nil =>
    intro ys h
    cases h
    rfl
  | cons x xs ih =>
    intro ys h
    rw [List.mapM_cons, seq_returns_iff] at h
    obtain ⟨y, -, h⟩ := h
    obtain ⟨ys', hys, hres⟩ := (seq_returns_iff _ _ _).mp h
    cases hres
    rw [List.length_cons, List.length_cons, ih hys]

/-- What holds of every result of one round holds of the results of the loop. -/
theorem mapM_forall {f : α → Except ε β} {p : β → Prop} {xs : List α} :
    (∀ x ∈ xs, ∀ y, f x = .ok y → p y) → ∀ {ys : List β}, xs.mapM f = .ok ys → ∀ y ∈ ys, p y := by
  induction xs with
  | nil =>
    intro _ ys h
    cases h
    exact fun y hy => absurd hy List.not_mem_nil
  | cons x xs ih =>
    intro hp ys h
    rw [List.mapM_cons, seq_returns_iff] at h
    obtain ⟨y, hy, h⟩ := h
    obtain ⟨ys', hys, hres⟩ := (seq_returns_iff _ _ _).mp h
    cases hres
    have htail := ih (fun x' hx' => hp x' (List.mem_cons_of_mem x hx')) hys
    exact List.forall_mem_cons.mpr ⟨hp x List.mem_cons_self y hy, htail⟩

@[simp] theorem check_true : check true = .ok () := rfl

theorem check_of {cond : Bool} (h : cond = true) : check cond = .ok () := by
  rw [h, check_true]

theorem check_eq_ok {cond : Bool} : check cond = .ok () ↔ cond = true := by
  cases cond <;> simp [check]

end CLib

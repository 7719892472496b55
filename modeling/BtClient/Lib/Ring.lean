import Mathlib.Data.Nat.ModEq

/-!
# Circular storage

`RingHolds cap head slot xs` says that `cap` slots, read round from `head`,
hold the elements of `xs` oldest first. The slots are any function of the
slot number, so that the same laws serve an array of values and a byte buffer
cut into entries. Nothing is said of the slots past the last element.
-/

namespace CLib

variable {α : Type}

/-- Slots `head, head + 1, …` (round `cap`) hold `xs`. -/
structure RingHolds (cap head : Nat) (slot : Nat → α) (xs : List α) : Prop where
  headLt : head < cap
  fits : xs.length ≤ cap
  get : ∀ k (h : k < xs.length), slot ((head + k) % cap) = xs[k]

theorem RingHolds.empty {cap : Nat} (h : 0 < cap) (slot : Nat → α) :
    RingHolds cap 0 slot [] :=
  ⟨h, by simp, by simp⟩

/-- Two offsets below the capacity reach the same slot only if they are equal. -/
theorem ring_index_inj {cap head a b : Nat} (ha : a < cap) (hb : b < cap)
    (h : (head + a) % cap = (head + b) % cap) : a = b := by
  have h1 : a % cap = b % cap := Nat.ModEq.add_left_cancel' head h
  rwa [Nat.mod_eq_of_lt ha, Nat.mod_eq_of_lt hb] at h1

/-- Writing the slot after the last element appends, if there is a free slot. -/
theorem RingHolds.push {cap head : Nat} {slot slot' : Nat → α} {xs : List α}
    (h : RingHolds cap head slot xs) (hroom : xs.length < cap) (x : α)
    (hnew : slot' ((head + xs.length) % cap) = x)
    (hold : ∀ i, i < cap → i ≠ (head + xs.length) % cap → slot' i = slot i) :
    RingHolds cap head slot' (xs ++ [x]) := by
  have hcap : 0 < cap := Nat.lt_of_le_of_lt (Nat.zero_le _) h.headLt
  refine ⟨h.headLt, by rw [List.length_append]; exact hroom, ?_⟩
  intro k hk
  rcases Nat.lt_or_ge k xs.length with hlt | hge
  · have hne : (head + k) % cap ≠ (head + xs.length) % cap := by
      intro he
      exact absurd (ring_index_inj (by omega) hroom he) (by omega)
    rw [hold _ (Nat.mod_lt _ hcap) hne, h.get k hlt, List.getElem_append_left hlt]
  · have hkeq : k = xs.length := by
      simp only [List.length_append, List.length_singleton] at hk
      omega
    subst hkeq
    rw [hnew]
    simp

/-- The oldest element stands at the head, and the rest one slot further. -/
theorem RingHolds.pop {cap head : Nat} {slot : Nat → α} {x : α} {xs : List α}
    (h : RingHolds cap head slot (x :: xs)) :
    slot head = x ∧ RingHolds cap ((head + 1) % cap) slot xs := by
  have hcap : 0 < cap := Nat.lt_of_le_of_lt (Nat.zero_le _) h.headLt
  constructor
  · have h0 := h.get 0 (by simp)
    rwa [Nat.add_zero, Nat.mod_eq_of_lt h.headLt] at h0
  · refine ⟨Nat.mod_lt _ hcap, ?_, ?_⟩
    · have := h.fits
      simp only [List.length_cons] at this
      omega
    · intro k hk
      have hs := h.get (k + 1) (by simpa using hk)
      rw [Nat.mod_add_mod, show head + 1 + k = head + (k + 1) from by omega, hs]
      simp

/-- Elements that start at slot `0` stay where they are in a larger ring. -/
theorem RingHolds.grow {cap cap' : Nat} {slot slot' : Nat → α} {xs : List α}
    (h : RingHolds cap 0 slot xs) (hle : cap ≤ cap') (hsame : ∀ i < cap, slot' i = slot i) :
    RingHolds cap' 0 slot' xs := by
  have hcap := h.headLt
  have hfits := h.fits
  refine ⟨by omega, by omega, ?_⟩
  intro k hk
  have hget := h.get k hk
  rw [Nat.zero_add, Nat.mod_eq_of_lt (by omega)] at hget ⊢
  rw [hsame k (by omega)]
  exact hget

end CLib

import Mathlib.Data.List.ReduceOption
import Mathlib.Data.List.Perm.Basic
import Mathlib.Data.Nat.ModEq
import Mathlib.Data.Finset.Card
import Mathlib.Data.Finset.Range
import Mathlib.Algebra.Order.Ring.Nat
import Mathlib.Tactic.Common

/-!
# Slot arrays and probe sequences

The general part of open addressing. A table is a list of slots, `none` for a
free one; what it holds is `List.reduceOption` of it, and filling or emptying
one slot changes that by one element, up to order. A probe sequence of a table
of `n` slots must reach every slot within `n` probes (`Covers`): steps of one
do, and so do steps of any stride coprime to `n`.
-/

namespace CLib

variable {α : Type}

/-! ## Filling and emptying a slot -/

theorem reduceOption_fill {slots : List (Option α)} {i : Nat} (a : α)
    (h : slots[i]? = some none) :
    (slots.set i (some a)).reduceOption.Perm (a :: slots.reduceOption) := by
  induction slots generalizing i with
  | nil => simp at h
  | cons slot slots ih =>
    cases i with
    | zero =>
      have hs : slot = none := by simpa using h
      subst hs
      exact .refl _
    | succ i =>
      have hrec := ih (by simpa using h)
      rw [List.set_cons_succ]
      cases slot with
      | none => simpa [List.reduceOption_cons_of_none] using hrec
      | some b =>
        simp only [List.reduceOption_cons_of_some]
        exact (hrec.cons b).trans (.swap a b _)

theorem reduceOption_empty {slots : List (Option α)} {i : Nat} {a : α}
    (h : slots[i]? = some (some a)) :
    slots.reduceOption.Perm (a :: (slots.set i none).reduceOption) := by
  induction slots generalizing i with
  | nil => simp at h
  | cons slot slots ih =>
    cases i with
    | zero =>
      have hs : slot = some a := by simpa using h
      subst hs
      exact .refl _
    | succ i =>
      have hrec := ih (by simpa using h)
      rw [List.set_cons_succ]
      cases slot with
      | none => simpa [List.reduceOption_cons_of_none] using hrec
      | some b =>
        simp only [List.reduceOption_cons_of_some]
        exact (hrec.cons b).trans (.swap a b _)

/-- A table that holds fewer elements than it has slots has a free slot. -/
theorem exists_free {slots : List (Option α)} (h : slots.reduceOption.length < slots.length) :
    ∃ i < slots.length, slots[i]? = some none := by
  have hmem := List.reduceOption_length_lt_iff.mp h
  obtain ⟨i, hi, hget⟩ := List.mem_iff_getElem.mp hmem
  exact ⟨i, hi, by rw [List.getElem?_eq_getElem hi, hget]⟩

theorem mem_reduceOption_iff {slots : List (Option α)} {a : α} :
    a ∈ slots.reduceOption ↔ ∃ i < slots.length, slots[i]? = some (some a) := by
  rw [List.reduceOption_mem_iff]
  constructor
  · intro hmem
    obtain ⟨i, hi, hget⟩ := List.mem_iff_getElem.mp hmem
    exact ⟨i, hi, by rw [List.getElem?_eq_getElem hi, hget]⟩
  · rintro ⟨i, -, hget⟩
    exact List.mem_of_getElem? hget

/-- The first element with a property is that of the lowest slot with it. -/
theorem find?_reduceOption_eq_some {slots : List (Option α)} {p : α → Bool} {a : α} :
    slots.reduceOption.find? p = some a ↔
      ∃ i : Nat, slots[i]? = some (some a) ∧ p a = true ∧
        ∀ j < i, ∀ b, slots[j]? = some (some b) → p b = false := by
  induction slots with
  | nil => simp
  | cons slot slots ih =>
    -- the lowest slot is the first one, or it is the lowest of the rest
    have hrest : (∀ b, slot = some b → p b = false) →
        ((∃ i : Nat, slots[i]? = some (some a) ∧ p a = true ∧
          ∀ j < i, ∀ b, slots[j]? = some (some b) → p b = false) ↔
        ∃ i : Nat, (slot :: slots)[i]? = some (some a) ∧ p a = true ∧
          ∀ j < i, ∀ b, (slot :: slots)[j]? = some (some b) → p b = false) := by
      intro hslot
      constructor
      · rintro ⟨i, hget, ha, hbefore⟩
        refine ⟨i + 1, hget, ha, fun j hj b hb => ?_⟩
        cases j with
        | zero => exact hslot b (by simpa using hb)
        | succ j => exact hbefore j (by omega) b hb
      · rintro ⟨i, hget, ha, hbefore⟩
        cases i with
        | zero =>
          have := hslot a (by simpa using hget)
          simp [ha] at this
        | succ i => exact ⟨i, hget, ha, fun j hj b hb => hbefore (j + 1) (by omega) b hb⟩
    cases slot with
    | none =>
      rw [List.reduceOption_cons_of_none, ih]
      exact hrest fun b hb => by cases hb
    | some b =>
      rw [List.reduceOption_cons_of_some, List.find?_cons]
      cases hb : p b with
      | false =>
        rw [← hrest fun c hc => by cases hc; exact hb]
        exact ih
      | true =>
        constructor
        · rintro h
          cases h
          exact ⟨0, rfl, hb, fun j hj => absurd hj (Nat.not_lt_zero j)⟩
        · rintro ⟨i, hget, -, hbefore⟩
          cases i with
          | zero => simpa using hget
          | succ i =>
            have := hbefore 0 (Nat.zero_lt_succ i) b rfl
            simp [hb] at this

/-! ## Probe sequences -/

/-- The first `n` probes stay inside a table of `n` slots and reach all of
them. -/
structure Covers (probe : Nat → Nat) (n : Nat) : Prop where
  inside : ∀ i < n, probe i < n
  reaches : ∀ s < n, ∃ i < n, probe i = s

/-- Probing with any stride coprime to the table's size. -/
theorem covers_stride (start : Nat) {stride n : Nat} (hn : 0 < n) (hc : Nat.Coprime stride n) :
    Covers (fun i => (start + i * stride) % n) n := by
  refine ⟨fun i _ => Nat.mod_lt _ hn, fun s hs => ?_⟩
  -- a map of a finite set into itself that is injective is onto
  have hmaps : Set.MapsTo (fun i => (start + i * stride) % n)
      (Finset.range n : Finset Nat) (Finset.range n : Finset Nat) := by
    intro i _
    simpa using Nat.mod_lt _ hn
  have hinj : Set.InjOn (fun i => (start + i * stride) % n) (Finset.range n : Finset Nat) := by
    intro i hi j hj hij
    have hmod : i * stride ≡ j * stride [MOD n] := Nat.ModEq.add_left_cancel' start hij
    have hmod : i ≡ j [MOD n] := Nat.ModEq.cancel_right_of_coprime (Nat.coprime_comm.mp hc) hmod
    rw [Finset.coe_range, Set.mem_Iio] at hi hj
    rwa [Nat.ModEq, Nat.mod_eq_of_lt hi, Nat.mod_eq_of_lt hj] at hmod
  have hsurj := Finset.surjOn_of_injOn_of_card_le _ hmaps hinj le_rfl
  obtain ⟨i, hi, his⟩ :=
    hsurj (show s ∈ ((Finset.range n : Finset Nat) : Set Nat) by simpa using hs)
  exact ⟨i, by simpa using hi, his⟩

/-- Linear probing. -/
theorem covers_linear (start : Nat) {n : Nat} (hn : 0 < n) :
    Covers (fun i => (start + i) % n) n := by
  simpa using covers_stride start hn (Nat.coprime_one_left n)

end CLib

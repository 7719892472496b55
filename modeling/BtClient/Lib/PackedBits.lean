import Mathlib.Data.Nat.Bitwise
import Mathlib.Tactic.Common

/-!
# Sets of small numbers packed into bytes

A byte list read as a set: number `i` is bit `i % 8` of byte `i / 8`, counted
from the most significant bit. Reading is total, a bit outside the list is not
set. Storing is not: `i` must lie inside the list.
-/

namespace CLib

/-- Bit `i`, most significant bit of a byte first. -/
def packedBit (buf : List UInt8) (i : Nat) : Bool :=
  (buf.getD (i / 8) 0).toNat.testBit (8 - i % 8 - 1)

/-- `buf` with bit `i` set. -/
def packedSet (buf : List UInt8) (i : Nat) : List UInt8 :=
  buf.set (i / 8) (buf.getD (i / 8) 0 ||| UInt8.ofNat (1 <<< (8 - i % 8 - 1)))

@[simp] theorem length_packedSet (buf : List UInt8) (i : Nat) :
    (packedSet buf i).length = buf.length := by
  simp [packedSet]

@[simp] theorem packedBit_replicate_zero (n i : Nat) :
    packedBit (List.replicate n 0) i = false := by
  unfold packedBit
  rw [List.getD_eq_getElem?_getD, List.getElem?_replicate]
  split <;> exact Nat.zero_testBit _

theorem packedBit_eq_false_of_le {buf : List UInt8} {i : Nat} (h : buf.length ≤ i / 8) :
    packedBit buf i = false := by
  unfold packedBit
  rw [List.getD_eq_getElem?_getD, List.getElem?_eq_none h]
  exact Nat.zero_testBit _

/-- The mask of one bit is a byte. -/
theorem toNat_mask (i : Nat) :
    (UInt8.ofNat (1 <<< (8 - i % 8 - 1))).toNat = 2 ^ (8 - i % 8 - 1) := by
  have hlt : 2 ^ (8 - i % 8 - 1) < 2 ^ 8 := Nat.pow_lt_pow_right (by decide) (by omega)
  rw [UInt8.toNat_ofNat', Nat.one_shiftLeft, Nat.mod_eq_of_lt hlt]

/-- **Storing a bit** changes that bit and no other. -/
theorem packedBit_packedSet {buf : List UInt8} {i : Nat} (h : i / 8 < buf.length) (j : Nat) :
    packedBit (packedSet buf i) j = (packedBit buf j || decide (i = j)) := by
  unfold packedBit packedSet
  by_cases hbyte : i / 8 = j / 8
  · have hpos : 8 - i % 8 - 1 = 8 - j % 8 - 1 ↔ i = j := by omega
    rw [← hbyte]
    simp only [List.getD_eq_getElem?_getD, List.getElem?_set_self h, Option.getD_some,
      UInt8.toNat_or, toNat_mask, Nat.testBit_or, Nat.testBit_two_pow, hpos]
  · have hne : i ≠ j := fun hij => hbyte (by rw [hij])
    simp only [List.getD_eq_getElem?_getD, List.getElem?_set_ne hbyte, hne, decide_false,
      Bool.or_false]

end CLib

import Mathlib.Algebra.Order.Ring.Nat
import Mathlib.Tactic.Common

/-!
# Fixed-width arithmetic and network byte order

`sizeSub` is subtraction at type `size_t`. The `UInt32` codec is the pair
`htonl`/`ntohl` read through memory: four bytes, most significant first.
-/

namespace CLib

/-- `a - b` at type `size_t` (64 bits, wrapping). -/
def sizeSub (a b : Nat) : Nat := (a + (2 ^ 64 - b % 2 ^ 64)) % 2 ^ 64

theorem sizeSub_of_le {a b : Nat} (h : b ≤ a) (ha : a < 2 ^ 64) : sizeSub a b = a - b := by
  unfold sizeSub
  omega

/-- Wrapping subtractions compose: only the difference modulo `2^64` counts. -/
theorem sizeSub_sizeSub_self (a b : Nat) : sizeSub a (sizeSub a b) = b % 2 ^ 64 := by
  unfold sizeSub
  omega

theorem sizeSub_add (a b c : Nat) : sizeSub (sizeSub a b) c = sizeSub a (b + c) := by
  unfold sizeSub
  omega

/-- `a - b` at type `uint32_t` (wrapping). -/
def wordSub (a b : Nat) : Nat := (a + (2 ^ 32 - b % 2 ^ 32)) % 2 ^ 32

theorem wordSub_of_le {a b : Nat} (h : b ≤ a) (ha : a < 2 ^ 32) : wordSub a b = a - b := by
  unfold wordSub
  omega

/-- The bytes of `htonl(x)` in memory. -/
def be32 (x : UInt32) : List UInt8 :=
  [(x >>> 24).toUInt8, (x >>> 16).toUInt8, (x >>> 8).toUInt8, x.toUInt8]

/-- `ntohl` of four bytes in memory. -/
def ofBe32 : List UInt8 → UInt32
  | [a, b, c, d] =>
    UInt32.ofNat (a.toNat * 2 ^ 24 + b.toNat * 2 ^ 16 + c.toNat * 2 ^ 8 + d.toNat)
  | _ => 0

@[simp] theorem length_be32 (x : UInt32) : (be32 x).length = 4 := rfl

@[simp] theorem ofBe32_be32 (x : UInt32) : ofBe32 (be32 x) = x := by
  have hx := x.toNat_lt
  apply UInt32.toNat_inj.mp
  simp only [be32, ofBe32, UInt32.toNat_ofNat', UInt32.toNat_toUInt8, UInt32.toNat_shiftRight,
    Nat.shiftRight_eq_div_pow, UInt32.toNat_ofNat, Nat.reduceMod, Nat.reducePow]
  omega

end CLib

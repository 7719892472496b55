import Mathlib.Algebra.Order.Ring.Nat
import Mathlib.Tactic.Common

/-!
# Integers in memory

`leBytes w x` is what a store of `x` to an unsigned integer of `w` bytes leaves
in memory on a little-endian host, `ofLe` what a load reads; both directions
of network byte order are the reversals. Stores keep the low `w` bytes only.
-/

namespace CLib

/-- The `w` low bytes of `x`, least significant first. -/
def leBytes : Nat → Nat → List UInt8
  | 0, _ => []
  | w + 1, x => UInt8.ofNat x :: leBytes w (x / 256)

/-- The number stored least significant byte first. -/
def ofLe : List UInt8 → Nat
  | [] => 0
  | b :: bs => b.toNat + 256 * ofLe bs

/-- The `w` low bytes of `x`, most significant first. -/
def beBytes (w x : Nat) : List UInt8 := (leBytes w x).reverse

/-- The number stored most significant byte first. -/
def ofBe (bs : List UInt8) : Nat := ofLe bs.reverse

@[simp] theorem length_leBytes (w x : Nat) : (leBytes w x).length = w := by
  induction w generalizing x with
  | zero => rfl
  | succ w ih =>
    rw [leBytes, List.length_cons, ih]

/-- **Store and load**: the value modulo the width. -/
theorem ofLe_leBytes (w x : Nat) : ofLe (leBytes w x) = x % 256 ^ w := by
  induction w generalizing x with
  | zero => rw [leBytes, ofLe, Nat.pow_zero, Nat.mod_one]
  | succ w ih =>
    show (UInt8.ofNat x).toNat + 256 * ofLe (leBytes w (x / 256)) = x % 256 ^ (w + 1)
    have hpow : 256 ^ (w + 1) = 256 * 256 ^ w := Nat.pow_succ'
    rw [ih, UInt8.toNat_ofNat', hpow, Nat.mod_mul]

theorem ofBe_beBytes (w x : Nat) : ofBe (beBytes w x) = x % 256 ^ w := by
  rw [ofBe, beBytes, List.reverse_reverse, ofLe_leBytes]

theorem ofLe_lt (bs : List UInt8) : ofLe bs < 256 ^ bs.length := by
  induction bs with
  | nil => exact Nat.one_pos
  | cons b bs ih =>
    have hb := b.toNat_lt
    show b.toNat + 256 * ofLe bs < 256 ^ (bs.length + 1)
    rw [Nat.pow_succ']
    omega

/-- Load and store. -/
theorem leBytes_ofLe (bs : List UInt8) : leBytes bs.length (ofLe bs) = bs := by
  induction bs with
  | nil => rfl
  | cons b bs ih =>
    have hlow : UInt8.ofNat (b.toNat + 256 * ofLe bs) = b := by
      apply UInt8.toNat_inj.mp
      have hb := b.toNat_lt
      rw [UInt8.toNat_ofNat']
      omega
    have hhigh : (b.toNat + 256 * ofLe bs) / 256 = ofLe bs := by
      have hb := b.toNat_lt
      omega
    show UInt8.ofNat (b.toNat + 256 * ofLe bs) ::
      leBytes bs.length ((b.toNat + 256 * ofLe bs) / 256) = b :: bs
    rw [hlow, hhigh, ih]

theorem ofLe_append (as bs : List UInt8) :
    ofLe (as ++ bs) = ofLe as + 256 ^ as.length * ofLe bs := by
  induction as with
  | nil => simp [ofLe]
  | cons a as ih =>
    show a.toNat + 256 * ofLe (as ++ bs) =
      (a.toNat + 256 * ofLe as) + 256 ^ (as.length + 1) * ofLe bs
    rw [ih, Nat.pow_succ', Nat.mul_add, Nat.mul_assoc, Nat.add_assoc]

theorem leBytes_add (v w x : Nat) : leBytes (v + w) x = leBytes v x ++ leBytes w (x / 256 ^ v) := by
  induction v generalizing x with
  | zero => simp [leBytes]
  | succ v ih =>
    rw [Nat.succ_add, leBytes, leBytes, ih, List.cons_append, Nat.div_div_eq_div_mul,
      ← Nat.pow_succ']

theorem leBytes_zero (w : Nat) : leBytes w 0 = List.replicate w 0 := by
  induction w with
  | zero => rfl
  | succ w ih => rw [leBytes, Nat.zero_div, ih, List.replicate_succ]; rfl

theorem ofLe_replicate_zero (w : Nat) : ofLe (List.replicate w 0) = 0 := by
  rw [← leBytes_zero, ofLe_leBytes, Nat.zero_mod]

/-! ## Byte swaps -/

/-- The value with its `w` bytes in the other order: `htonl` and its like on a
little-endian host. -/
def byteSwap (w x : Nat) : Nat := ofBe (leBytes w x)

/-- A swapped value in memory is the value in network byte order. -/
theorem leBytes_byteSwap (w x : Nat) : leBytes w (byteSwap w x) = beBytes w x := by
  have hlen : (leBytes w x).reverse.length = w := by simp
  have hload := leBytes_ofLe (leBytes w x).reverse
  rw [hlen] at hload
  exact hload

theorem byteSwap_lt (w x : Nat) : byteSwap w x < 256 ^ w := by
  have hlt := ofLe_lt (leBytes w x).reverse
  rwa [List.length_reverse, length_leBytes] at hlt

/-- Swapping twice. -/
theorem byteSwap_byteSwap (w x : Nat) : byteSwap w (byteSwap w x) = x % 256 ^ w := by
  rw [byteSwap, leBytes_byteSwap, ofBe_beBytes]

/-- A swap at a width larger than the value's leaves its low bytes clear: the
value sits in the high bytes. -/
theorem byteSwap_of_lt {v w x : Nat} (hx : x < 256 ^ v) :
    byteSwap (v + w) x = 256 ^ w * byteSwap v x := by
  have hhigh : x / 256 ^ v = 0 := Nat.div_eq_of_lt hx
  rw [byteSwap, leBytes_add, hhigh, leBytes_zero, ofBe, List.reverse_append, ofLe_append,
    List.reverse_replicate, ofLe_replicate_zero, List.length_replicate, Nat.zero_add]
  rfl

end CLib

import Mathlib.Data.Int.Order.Basic
import Mathlib.Tactic.Common

/-!
# String comparison of C

`strncmp` compares at most `n` bytes and stops early where both strings end,
that is at a zero byte they have in common. On binary data that is not
equality; `strncmp_eq_zero_iff` says what it is.
-/

namespace CLib

/-- `strncmp(a, b, n)`; behind its end a string reads as zero bytes. -/
def strncmp : Nat → List UInt8 → List UInt8 → Int
  | 0, _, _ => 0
  | n + 1, a, b =>
    if a.headD 0 ≠ b.headD 0 then (a.headD 0).toNat - (b.headD 0).toNat
    else if a.headD 0 = 0 then 0
    else strncmp n a.tail b.tail

theorem strncmp_cons (n : Nat) (x y : UInt8) (a b : List UInt8) :
    strncmp (n + 1) (x :: a) (y :: b) =
      if x ≠ y then (x.toNat : Int) - y.toNat else if x = 0 then 0 else strncmp n a b := rfl

/-- Both strings have a zero byte at `k` and the same bytes before it. -/
def CommonEnd (a b : List UInt8) (k : Nat) : Prop :=
  a.take k = b.take k ∧ a[k]? = some 0 ∧ b[k]? = some 0

theorem commonEnd_cons_zero {a b : List UInt8} {x y : UInt8} :
    CommonEnd (x :: a) (y :: b) 0 ↔ x = 0 ∧ y = 0 := by
  simp [CommonEnd]

theorem commonEnd_cons_succ {a b : List UInt8} {x y : UInt8} {k : Nat} :
    CommonEnd (x :: a) (y :: b) (k + 1) ↔ x = y ∧ CommonEnd a b k := by
  simp [CommonEnd, and_assoc]

/-- **When `strncmp` is zero**: the bytes are equal, or they are equal up to a
zero byte. -/
theorem strncmp_eq_zero_iff (n : Nat) :
    ∀ {a b : List UInt8}, a.length = n → b.length = n →
      (strncmp n a b = 0 ↔ a = b ∨ ∃ k, CommonEnd a b k) := by
  induction n with
  | zero =>
    intro a b ha hb
    rw [List.eq_nil_of_length_eq_zero ha, List.eq_nil_of_length_eq_zero hb]
    simp [strncmp]
  | succ n ih =>
    intro a b ha hb
    obtain ⟨x, a, rfl⟩ := List.exists_cons_of_length_eq_add_one ha
    obtain ⟨y, b, rfl⟩ := List.exists_cons_of_length_eq_add_one hb
    have htail := ih (by simpa using ha) (by simpa using hb)
    -- the common zero is here or further on
    have hend : (∃ k, CommonEnd (x :: a) (y :: b) k) ↔
        (x = 0 ∧ y = 0) ∨ (x = y ∧ ∃ k, CommonEnd a b k) := by
      rw [← commonEnd_cons_zero (a := a) (b := b)]
      constructor
      · rintro ⟨k, hk⟩
        cases k with
        | zero => exact .inl hk
        | succ k => exact .inr ⟨(commonEnd_cons_succ.mp hk).1, k, (commonEnd_cons_succ.mp hk).2⟩
      · rintro (h | ⟨hxy, k, hk⟩)
        · exact ⟨0, h⟩
        · exact ⟨k + 1, commonEnd_cons_succ.mpr ⟨hxy, hk⟩⟩
    rw [strncmp_cons, hend, List.cons.injEq]
    by_cases hxy : x = y
    · subst hxy
      by_cases hx : x = 0
      · simp [hx]
      · simp [hx, htail]
    · have hne : x.toNat ≠ y.toNat := fun h => hxy (UInt8.toNat_inj.mp h)
      have hnot : ¬ (x = 0 ∧ y = 0) := fun h => hxy (h.1.trans h.2.symm)
      rw [if_pos hxy]
      simp only [hxy, hnot, false_and, or_self, iff_false]
      omega

/-- Without a zero byte in one of them it is equality. -/
theorem strncmp_eq_zero_of_nonzero {n : Nat} {a b : List UInt8} (ha : a.length = n)
    (hb : b.length = n) (h : ∀ k, k + 1 < n → b[k]? ≠ some 0) :
    strncmp n a b = 0 ↔ a = b := by
  rw [strncmp_eq_zero_iff n ha hb]
  refine ⟨?_, .inl⟩
  rintro (heq | ⟨k, hbefore, hak, hbk⟩)
  · exact heq
  · -- the zero can only be the last byte, so everything was compared
    have hlt : k < n := by
      rw [← hb]
      exact (List.getElem?_eq_some_iff.mp hbk).1
    have hlast : k + 1 = n := by
      by_contra hne
      exact h k (by omega) hbk
    have hsplit : ∀ {l : List UInt8}, l.length = n → l[k]? = some 0 → l = l.take k ++ [0] := by
      intro l hl hlk
      obtain ⟨hkl, hget⟩ := List.getElem?_eq_some_iff.mp hlk
      conv_lhs => rw [← List.take_of_length_le (l := l) (i := k + 1) (by omega)]
      rw [List.take_succ_eq_append_getElem hkl, hget]
    rw [hsplit ha hak, hsplit hb hbk, hbefore]

/-- Against a literal it is a test for a prefix. -/
theorem strncmp_literal {lit : List UInt8} (h : 0 ∉ lit) :
    ∀ {mem : List UInt8}, strncmp lit.length mem lit = 0 ↔ lit <+: mem := by
  induction lit with
  | nil => intro mem; simp [strncmp]
  | cons x lit ih =>
    intro mem
    have hx : x ≠ 0 := fun hzero => h (by simp [hzero])
    have hlit : 0 ∉ lit := fun hmem => h (by simp [hmem])
    cases mem with
    | nil =>
      have hne : (0 : UInt8).toNat ≠ x.toNat := fun heq => hx (UInt8.toNat_inj.mp heq).symm
      have hzero : (0 : UInt8) ≠ x := hx.symm
      simp only [List.length_cons, strncmp, List.headD_nil, List.headD_cons, if_pos hzero,
        List.prefix_nil, List.cons_ne_nil, iff_false]
      omega
    | cons y mem =>
      rw [List.length_cons, strncmp_cons, List.cons_prefix_cons]
      by_cases hxy : y = x
      · subst hxy
        simp [hx, ih hlit]
      · have hne : y.toNat ≠ x.toNat := fun heq => hxy (UInt8.toNat_inj.mp heq)
        have hne' : x ≠ y := fun heq => hxy heq.symm
        rw [if_pos hxy]
        simp only [hne', false_and, iff_false]
        omega

end CLib

import BtClient.Lib.Fault
import Mathlib.Data.List.Basic

/-!
# Slices and splices of byte buffers

A buffer is a list. `slice l off n` is what a read of `n` cells at offset
`off` returns; `splice l off bs` is the buffer after `bs` was written over
the cells from `off` on. The laws are the ones a memory argument needs: a
write is seen by the read of its own range, is not seen by a read of a range
it does not meet, keeps the length, and two adjacent writes are one.
`copyOut` is the loop that reads cell by cell, and faults behind the end.
-/

namespace CLib

variable {α : Type}

/-- The `n` cells from `off` on. -/
def slice (l : List α) (off n : Nat) : List α := (l.drop off).take n

/-- The buffer after writing `bs` at `off`. -/
def splice (l : List α) (off : Nat) (bs : List α) : List α :=
  l.take off ++ bs ++ l.drop (off + bs.length)

@[simp] theorem slice_zero (l : List α) (off : Nat) : slice l off 0 = [] := by
  simp [slice]

theorem slice_all (l : List α) : slice l 0 l.length = l := by
  simp [slice]

theorem getElem?_slice (l : List α) (off n k : Nat) :
    (slice l off n)[k]? = if k < n then l[off + k]? else none := by
  simp only [slice, List.getElem?_take, List.getElem?_drop]

/-- A read of `m + n` cells is a read of `m` followed by one of `n`. -/
theorem slice_length_add (l : List α) (off m n : Nat) :
    slice l off (m + n) = slice l off m ++ slice l (off + m) n := by
  simp only [slice, List.take_add, List.drop_drop]

theorem length_slice (l : List α) (off n : Nat) :
    (slice l off n).length = min n (l.length - off) := by
  rw [slice, List.length_take, List.length_drop]

theorem slice_append_left {l r : List α} {off n : Nat} (h : off + n ≤ l.length) :
    slice (l ++ r) off n = slice l off n := by
  apply List.ext_getElem?
  intro k
  simp only [getElem?_slice]
  by_cases hk : k < n
  · rw [if_pos hk, if_pos hk, List.getElem?_append_left (by omega)]
  · simp [hk]

theorem slice_append_right {l r : List α} {off n : Nat} :
    slice (l ++ r) (l.length + off) n = slice r off n := by
  apply List.ext_getElem?
  intro k
  simp only [getElem?_slice]
  by_cases hk : k < n
  · rw [if_pos hk, if_pos hk, List.getElem?_append_right (by omega)]
    congr 1
    omega
  · simp [hk]

theorem slice_take {l : List α} {m off n : Nat} (h : off + n ≤ m) :
    slice (l.take m) off n = slice l off n := by
  apply List.ext_getElem?
  intro k
  simp only [getElem?_slice]
  by_cases hk : k < n
  · rw [if_pos hk, if_pos hk, List.getElem?_take_of_lt (by omega)]
  · simp [hk]

/-- A read behind the first part of a buffer. -/
theorem slice_behind {l r : List α} {k : Nat} (h : l.length = k) (n : Nat) :
    slice (l ++ r) k n = slice r 0 n := by
  rw [← h]
  show slice (l ++ r) (l.length + 0) n = slice r 0 n
  exact slice_append_right

/-- The part of an append that stands at a known offset. -/
theorem slice_middle {a b c l : List α} {off n : Nat} (h : l = a ++ (b ++ c))
    (ha : a.length = off) (hb : b.length = n) : slice l off n = b := by
  subst h ha hb
  have hright : slice (a ++ (b ++ c)) (a.length + 0) b.length = slice (b ++ c) 0 b.length :=
    slice_append_right
  rw [Nat.add_zero] at hright
  rw [hright, slice_append_left (by omega), slice_all]

/-- The loop that copies `n` cells out of a buffer, from index `i` on. -/
def copyOut (l : List α) : (n i : Nat) → Except Fault (List α)
  | 0, _ => .ok []
  | n + 1, i =>
    match l[i]? with
    | none => .error .outOfBounds
    | some a => do return a :: (← copyOut l n (i + 1))

theorem copyOut_eq_slice (l : List α) (n : Nat) : ∀ i, i + n ≤ l.length →
    copyOut l n i = .ok (slice l i n) := by
  induction n with
  | zero =>
    intro i _
    rw [slice_zero]
    rfl
  | succ n ih =>
    intro i hi
    have hlt : i < l.length := by omega
    rw [copyOut, List.getElem?_eq_getElem hlt, ih (i + 1) (by omega)]
    simp only [slice, List.drop_eq_getElem_cons hlt, List.take_succ_cons, ok_bind, pure_is_ok]

@[simp] theorem splice_nil (l : List α) (off : Nat) : splice l off [] = l := by
  simp [splice]

theorem length_splice {l : List α} {off : Nat} {bs : List α}
    (h : off + bs.length ≤ l.length) : (splice l off bs).length = l.length := by
  simp only [splice, List.length_append, List.length_take, List.length_drop]
  omega

theorem getElem?_splice {l : List α} {off : Nat} {bs : List α}
    (h : off + bs.length ≤ l.length) (k : Nat) :
    (splice l off bs)[k]? =
      if k < off then l[k]?
      else if k < off + bs.length then bs[k - off]? else l[k]? := by
  have htake : (l.take off).length = off := by
    rw [List.length_take]; omega
  rw [splice, List.append_assoc]
  by_cases h1 : k < off
  · rw [if_pos h1, List.getElem?_append_left (by omega), List.getElem?_take, if_pos h1]
  · rw [if_neg h1, List.getElem?_append_right (by omega), htake]
    by_cases h2 : k < off + bs.length
    · rw [if_pos h2, List.getElem?_append_left (by omega)]
    · rw [if_neg h2, List.getElem?_append_right (by omega), List.getElem?_drop]
      congr 1
      omega

/-- A read of the range just written returns what was written. -/
theorem slice_splice_self {l : List α} {off : Nat} {bs : List α}
    (h : off + bs.length ≤ l.length) : slice (splice l off bs) off bs.length = bs := by
  apply List.ext_getElem?
  intro k
  rw [getElem?_slice]
  by_cases hk : k < bs.length
  · rw [if_pos hk, getElem?_splice h, if_neg (by omega), if_pos (by omega)]
    congr 1
    omega
  · rw [if_neg hk, List.getElem?_eq_none (by omega)]

/-- A read that does not meet the range just written is unchanged. -/
theorem slice_splice_disjoint {l : List α} {off : Nat} {bs : List α} {a n : Nat}
    (h : off + bs.length ≤ l.length) (hd : a + n ≤ off ∨ off + bs.length ≤ a) :
    slice (splice l off bs) a n = slice l a n := by
  apply List.ext_getElem?
  intro k
  rw [getElem?_slice, getElem?_slice]
  by_cases hk : k < n
  · rw [if_pos hk, if_pos hk, getElem?_splice h]
    by_cases h1 : a + k < off
    · rw [if_pos h1]
    · rw [if_neg h1, if_neg (by omega)]
  · rw [if_neg hk, if_neg hk]

/-- A range copied from a buffer of the same size reads the same, also where it
is cut by the end. -/
theorem slice_splice_slice {l src : List α} {off : Nat} (n : Nat) (hlen : l.length = src.length)
    (h : off ≤ l.length) : slice (splice l off (slice src off n)) off n = slice src off n := by
  have hm := length_slice src off n
  have hin : off + (slice src off n).length ≤ l.length := by omega
  have hsize := length_splice hin
  have hself := slice_splice_self hin
  generalize slice src off n = bs at *
  conv_rhs => rw [← hself]
  unfold slice
  rw [List.take_eq_take_iff, List.length_drop, hsize]
  omega

/-- Two adjacent writes are one write of the concatenation. -/
theorem splice_splice_adjacent {l : List α} {off : Nat} {as bs : List α}
    (h : off + (as.length + bs.length) ≤ l.length) :
    splice (splice l off as) (off + as.length) bs = splice l off (as ++ bs) := by
  have h1 : off + as.length ≤ l.length := by omega
  apply List.ext_getElem?
  intro k
  rw [getElem?_splice (by rw [length_splice h1]; omega), getElem?_splice h1,
    getElem?_splice (by rw [List.length_append]; omega)]
  simp only [List.length_append]
  by_cases ha : k < off
  · rw [if_pos (by omega), if_pos ha, if_pos ha]
  · rw [if_neg ha, if_neg ha]
    by_cases hb : k < off + as.length
    · rw [if_pos hb, if_pos hb, if_pos (by omega), List.getElem?_append_left (by omega)]
    · rw [if_neg hb, if_neg hb]
      by_cases hc : k < off + as.length + bs.length
      · rw [if_pos hc, if_pos (by omega), List.getElem?_append_right (by omega)]
        congr 1
        omega
      · rw [if_neg hc, if_neg (by omega)]

theorem splice_append_left {l r : List α} {off : Nat} {bs : List α}
    (h : off + bs.length ≤ l.length) :
    splice (l ++ r) off bs = splice l off bs ++ r := by
  rw [splice, splice, List.take_append_of_le_length (by omega),
    List.drop_append_of_le_length (by omega)]
  simp only [List.append_assoc]

theorem splice_append_right {l r : List α} {off : Nat} {bs : List α} :
    splice (l ++ r) (l.length + off) bs = l ++ splice r off bs := by
  rw [splice, splice, List.take_length_add_append,
    show l.length + off + bs.length = l.length + (off + bs.length) from by omega,
    List.drop_length_add_append]
  simp only [List.append_assoc]

/-! ## Records -/

/-- Buffers of the same size that agree on every record of `n` cells. -/
theorem ext_slices {l r : List α} {n : Nat} (hn : 0 < n) (hlen : l.length = r.length)
    (h : ∀ k, n * k < l.length → slice l (n * k) n = slice r (n * k) n) : l = r := by
  apply List.ext_getElem?
  intro i
  by_cases hi : i < l.length
  · -- cell `i % n` of record `i / n`
    have hdiv := Nat.div_add_mod i n
    have hmod := Nat.mod_lt i hn
    have hcell := congrArg (fun part => part[i % n]?) (h (i / n) (by omega))
    simp only [getElem?_slice, if_pos hmod, hdiv] at hcell
    exact hcell
  · rw [List.getElem?_eq_none (by omega), List.getElem?_eq_none (by omega)]

/-- Record `j` of parts that all have the size of a record. -/
theorem slice_flatten {n : Nat} (parts : List (List α)) :
    ∀ {j : Nat} {part : List α}, (∀ part ∈ parts, part.length = n) → parts[j]? = some part →
      slice parts.flatten (j * n) n = part := by
  induction parts with
  | nil =>
    intro j part _ hj
    cases hj
  | cons first parts ih =>
    intro j part hall hj
    have hfirst := hall first List.mem_cons_self
    rw [List.flatten_cons]
    cases j with
    | zero =>
      cases hj
      rw [Nat.zero_mul, slice_append_left (by omega), ← hfirst, slice_all]
    | succ j =>
      have hrest := ih (fun other hother => hall other (List.mem_cons_of_mem first hother)) hj
      rw [Nat.succ_mul, Nat.add_comm, ← hrest, ← hfirst, slice_append_right]

/-- A buffer cut into pieces of the given lengths. -/
def cut : List Nat → List α → List (List α)
  | [], _ => []
  | n :: ns, l => l.take n :: cut ns (l.drop n)

/-- Parts laid end to end are cut apart again. -/
theorem cut_flatten (parts : List (List α)) :
    cut (parts.map List.length) parts.flatten = parts := by
  induction parts with
  | nil => rfl
  | cons part parts ih =>
    show (part ++ parts.flatten).take part.length ::
      cut (parts.map List.length) ((part ++ parts.flatten).drop part.length) = part :: parts
    rw [List.take_left, List.drop_left, ih]

end CLib

import BtClient.Lib.Splice
import Mathlib.Data.List.Forall2
import Mathlib.Tactic.Linarith

/-!
# Scattered reads and writes over a list of buffers

Several buffers laid end to end form one flat buffer. A `Seg` names a range
of one of them, and a list of segments `Tiles` a range of the flat buffer
when, read in order, it covers that range with no gap and no overlap. The
laws turn every access through segments into an access to the flat buffer:
gathering a tiling reads a `slice`, filling a segment is a `splice`.
-/

namespace CLib

variable {α : Type}

/-- `size` cells of buffer `buf`, from `off` on. -/
structure Seg where
  buf : Nat
  off : Nat
  size : Nat
  deriving DecidableEq, Repr

/-- Where buffer `k` starts in the flat buffer. -/
def bufBase (sizes : List Nat) (k : Nat) : Nat := (sizes.take k).sum

/-- Where the segment starts in the flat buffer. -/
def Seg.start (sizes : List Nat) (s : Seg) : Nat := bufBase sizes s.buf + s.off

/-- The segment lies inside its buffer. -/
def Seg.Inside (sizes : List Nat) (s : Seg) : Prop :=
  ∃ n, sizes[s.buf]? = some n ∧ s.off + s.size ≤ n

/-- The segments, in order, are exactly the flat range from `a` to `b`. -/
def Tiles (sizes : List Nat) : Nat → List Seg → Nat → Prop
  | a, [], b => a = b
  | a, s :: ss, b => s.start sizes = a ∧ s.Inside sizes ∧ Tiles sizes (a + s.size) ss b

/-- The cells a segment names. -/
def readSeg (bufs : List (List α)) (s : Seg) : List α :=
  slice (bufs.getD s.buf []) s.off s.size

/-- Write `bs` from the start of the segment on. -/
def writeSeg (bufs : List (List α)) (s : Seg) (bs : List α) : List (List α) :=
  bufs.modify s.buf (fun b => splice b s.off bs)

/-! ## Sizes and positions -/

theorem bufBase_succ {sizes : List Nat} {k n : Nat} (h : sizes[k]? = some n) :
    bufBase sizes (k + 1) = bufBase sizes k + n := by
  rw [bufBase, bufBase, List.take_add_one, h, List.sum_append]
  simp

theorem bufBase_le_sum (sizes : List Nat) (k : Nat) : bufBase sizes k ≤ sizes.sum := by
  have h : (sizes.take k).sum + (sizes.drop k).sum = sizes.sum := by
    rw [← List.sum_append, List.take_append_drop]
  rw [bufBase]
  omega

theorem bufBase_length (sizes : List Nat) : bufBase sizes sizes.length = sizes.sum := by
  rw [bufBase, List.take_length]

/-- A segment inside its buffer ends inside the flat buffer. -/
theorem Seg.Inside.end_le {sizes : List Nat} {s : Seg} (h : s.Inside sizes) :
    s.start sizes + s.size ≤ sizes.sum := by
  obtain ⟨n, hn, hle⟩ := h
  have h1 := bufBase_succ hn
  have h2 := bufBase_le_sum sizes (s.buf + 1)
  rw [Seg.start]
  omega

theorem Tiles.append {sizes : List Nat} {ss ts : List Seg} :
    ∀ {a b c : Nat}, Tiles sizes a ss b → Tiles sizes b ts c → Tiles sizes a (ss ++ ts) c := by
  induction ss with
  | nil => intro a b c h ht; cases h; exact ht
  | cons s ss ih => intro a b c h ht; exact ⟨h.1, h.2.1, ih h.2.2 ht⟩

theorem Tiles.le {sizes : List Nat} {ss : List Seg} :
    ∀ {a b : Nat}, Tiles sizes a ss b → a ≤ b := by
  induction ss with
  | nil => intro a b h; exact Nat.le_of_eq h
  | cons s ss ih => intro a b h; have := ih h.2.2; omega

theorem Tiles.inside {sizes : List Nat} {ss : List Seg} :
    ∀ {a b : Nat}, Tiles sizes a ss b → ∀ s ∈ ss, s.Inside sizes := by
  induction ss with
  | nil => intro a b _ s hs; cases hs
  | cons t ss ih =>
    intro a b h s hs
    rcases List.mem_cons.mp hs with rfl | hs
    · exact h.2.1
    · exact ih h.2.2 s hs

theorem Tiles.end_le_sum {sizes : List Nat} {ss : List Seg} :
    ∀ {a b : Nat}, Tiles sizes a ss b → a ≤ sizes.sum → b ≤ sizes.sum := by
  induction ss with
  | nil => intro a b h ha; cases h; exact ha
  | cons s ss ih =>
    intro a b h _
    have hend := h.2.1.end_le
    rw [h.1] at hend
    exact ih h.2.2 hend

theorem Tiles.sum_size {sizes : List Nat} {ss : List Seg} :
    ∀ {a b : Nat}, Tiles sizes a ss b → (ss.map Seg.size).sum = b - a := by
  induction ss with
  | nil => intro a b h; cases h; simp
  | cons s ss ih =>
    intro a b h
    have hle := h.2.2.le
    rw [List.map_cons, List.sum_cons, ih h.2.2]
    omega

/-! ## The flat view -/

/-- The buffers have the given sizes. -/
def Sized (bufs : List (List α)) (sizes : List Nat) : Prop := bufs.map List.length = sizes

theorem Sized.get {bufs : List (List α)} {sizes : List Nat} (h : Sized bufs sizes) {k n : Nat}
    (hk : sizes[k]? = some n) : ∃ b, bufs[k]? = some b ∧ b.length = n := by
  rw [← h, List.getElem?_map] at hk
  cases hb : bufs[k]? with
  | none => simp [hb] at hk
  | some b => exact ⟨b, rfl, by simpa [hb] using hk⟩

theorem Sized.length_flatten {bufs : List (List α)} {sizes : List Nat} (h : Sized bufs sizes) :
    bufs.flatten.length = sizes.sum := by
  rw [List.length_flatten, h]

/-- The flat buffer around buffer `k`. -/
theorem flatten_at {bufs : List (List α)} {sizes : List Nat} (h : Sized bufs sizes) {k : Nat}
    {b : List α} (hb : bufs[k]? = some b) :
    bufs.flatten = (bufs.take k).flatten ++ (b ++ (bufs.drop (k + 1)).flatten) ∧
      ((bufs.take k).flatten).length = bufBase sizes k := by
  obtain ⟨hk, hbk⟩ := List.getElem?_eq_some_iff.mp hb
  constructor
  · conv_lhs => rw [← List.take_append_drop k bufs, List.drop_eq_getElem_cons hk, hbk]
    rw [List.flatten_append, List.flatten_cons]
  · rw [List.length_flatten, bufBase, ← h, List.map_take]

/-- Reading a segment is reading its flat range. -/
theorem readSeg_eq_slice {bufs : List (List α)} {sizes : List Nat} (h : Sized bufs sizes) {s : Seg}
    (hs : s.Inside sizes) : readSeg bufs s = slice bufs.flatten (s.start sizes) s.size := by
  obtain ⟨n, hn, hle⟩ := hs
  obtain ⟨b, hb, hlen⟩ := h.get hn
  obtain ⟨hflat, hbase⟩ := flatten_at h hb
  rw [hflat, Seg.start, ← hbase, slice_append_right, slice_append_left (by omega), readSeg,
    List.getD_eq_getElem?_getD, hb]
  rfl

/-- Filling a segment is splicing its flat range. -/
theorem flatten_writeSeg {bufs : List (List α)} {sizes : List Nat} (h : Sized bufs sizes) {s : Seg}
    (hs : s.Inside sizes) {bs : List α} (hbs : bs.length ≤ s.size) :
    (writeSeg bufs s bs).flatten = splice bufs.flatten (s.start sizes) bs := by
  obtain ⟨n, hn, hle⟩ := hs
  obtain ⟨b, hb, hlen⟩ := h.get hn
  obtain ⟨hk, hbk⟩ := List.getElem?_eq_some_iff.mp hb
  obtain ⟨hflat, hbase⟩ := flatten_at h hb
  rw [hflat, Seg.start, ← hbase, splice_append_right, splice_append_left (by omega), writeSeg]
  rw [List.modify_eq_take_cons_drop hk, hbk, List.flatten_append, List.flatten_cons]

theorem writeSeg_nil (bufs : List (List α)) (s : Seg) : writeSeg bufs s [] = bufs := by
  simp only [writeSeg, splice_nil]
  exact List.modify_id s.buf bufs

theorem writeSeg_sized {bufs : List (List α)} {sizes : List Nat} (h : Sized bufs sizes) {s : Seg}
    (hs : s.Inside sizes) {bs : List α} (hbs : bs.length ≤ s.size) :
    Sized (writeSeg bufs s bs) sizes := by
  obtain ⟨n, hn, hle⟩ := hs
  obtain ⟨b, hb, hlen⟩ := h.get hn
  rw [Sized, writeSeg, ← h]
  apply List.ext_getElem?
  intro k
  rw [List.getElem?_map, List.getElem?_map, List.getElem?_modify]
  by_cases hk : s.buf = k
  · subst hk
    simp only [if_true, hb, Option.map_some, Option.map_eq_map]
    rw [length_splice (by omega)]
  · simp [hk]

/-- The first `n` cells of `s` have no cell in common with `t`. -/
def Seg.Apart (s : Seg) (n : Nat) (t : Seg) : Prop :=
  s.buf ≠ t.buf ∨ n = 0 ∨ t.size = 0 ∨ t.off + t.size ≤ s.off ∨ s.off + n ≤ t.off

/-- A write is not seen by a read that is apart from it. -/
theorem readSeg_writeSeg_apart {bufs : List (List α)} {sizes : List Nat} (h : Sized bufs sizes)
    {s t : Seg} (hs : s.Inside sizes) {bs : List α} (hbs : bs.length ≤ s.size)
    (hapart : s.Apart bs.length t) : readSeg (writeSeg bufs s bs) t = readSeg bufs t := by
  obtain ⟨n, hn, hle⟩ := hs
  obtain ⟨b, hb, hlen⟩ := h.get hn
  rw [readSeg, readSeg, writeSeg, List.getD_eq_getElem?_getD, List.getD_eq_getElem?_getD,
    List.getElem?_modify]
  by_cases hbuf : s.buf = t.buf
  · rw [← hbuf, hb]
    simp only [if_true, Option.map_eq_map, Option.map_some, Option.getD_some]
    rcases hapart with hne | hzero | hzero | hdisj
    · exact absurd hbuf hne
    · rw [List.eq_nil_of_length_eq_zero hzero, splice_nil]
    · rw [hzero, slice_zero, slice_zero]
    · exact slice_splice_disjoint (by omega) hdisj
  · simp [hbuf]

/-- **Gathering a tiling** reads its flat range. -/
theorem gather_tiles {bufs : List (List α)} {sizes : List Nat} (h : Sized bufs sizes)
    {ss : List Seg} : ∀ {a b : Nat}, Tiles sizes a ss b →
      ss.flatMap (readSeg bufs) = slice bufs.flatten a (b - a) := by
  induction ss with
  | nil => intro a b ht; cases ht; simp
  | cons s ss ih =>
    intro a b ht
    obtain ⟨hstart, hin, hrest⟩ := ht
    have hle := hrest.le
    rw [List.flatMap_cons, ih hrest, readSeg_eq_slice h hin, hstart,
      show b - a = s.size + (b - (a + s.size)) from by omega, slice_length_add]

end CLib

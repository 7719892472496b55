import BtClient.Queue.Model
import BtClient.Lib.Ring
import Mathlib.Tactic.Ring
import Mathlib.Tactic.Linarith

/-!
# The request queue is a FIFO between resizes

The specification side is a list: `enqueue` appends, `dequeue` takes the
first. The representation `Rep` cuts the byte buffer into entry-sized slots
and says that they hold the list round from `head`. The one subtle field is
`tail`: it points at the slot BEFORE the next one to write, and right after
`queue_init` that is a slot which does not exist. `Rep` counts it one up, so
that the initial pointer (`next = 0`) and a pointer at the last slot
(`next = capacity`) are the same state of the ring.
-/

namespace BtClient.RequestQueue

open CLib

/-! ## The specification -/

/-- One call on the list of outstanding entries. -/
def fifoCall : List (List UInt8) → Op → Reply × List (List UInt8)
  | xs, .enqueue entry => (.enqueued true, xs ++ [entry])
  | [], .dequeue => (.dequeued none, [])
  | x :: xs, .dequeue => (.dequeued (some x), xs)

/-- A sequence of calls on the list of outstanding entries. -/
def fifoCalls : List (List UInt8) → List Op → List Reply × List (List UInt8)
  | xs, [] => ([], xs)
  | xs, op :: ops =>
    let (reply, xs') := fifoCall xs op
    let (replies, xs'') := fifoCalls xs' ops
    (reply :: replies, xs'')

/-! ## The representation -/

/-- Slot `i` of a buffer cut into entries of `e` bytes. -/
def slot (mem : List UInt8) (e i : Nat) : List UInt8 := slice mem (i * e) e

/-- The queue `q` holds `xs`, the oldest entry in slot `h` and the next entry
going to slot `next % capacity`. -/
structure Rep (q : Queue) (h next : Nat) (xs : List (List UInt8)) : Prop where
  entryPos : 0 < q.entrySize
  bytes : q.mem.length = q.capacity * q.entrySize
  size : q.size = xs.length
  head : q.head = h * q.entrySize
  ring : RingHolds q.capacity h (slot q.mem q.entrySize) xs
  tail : q.tail + q.entrySize = next * q.entrySize
  nextLe : next ≤ q.capacity
  nextMod : next % q.capacity = (h + xs.length) % q.capacity

theorem rep_init {e c : Nat} (he : 1 ≤ e) (hc : 1 ≤ c) :
    Rep (queueInit e c) 0 0 [] where
  entryPos := he
  bytes := by simp [queueInit]
  size := rfl
  head := by simp [queueInit]
  ring := RingHolds.empty hc _
  tail := by simp [queueInit]
  nextLe := Nat.zero_le _
  nextMod := by simp

theorem queueBytes_eq (q : Queue) : queueBytes q = q.capacity * q.entrySize :=
  Nat.mul_comm _ _

/-- An in-range slot ends inside the buffer. -/
theorem slot_end_le {s cap e : Nat} (h : s < cap) : s * e + e ≤ cap * e := by
  have := Nat.mul_le_mul_right e (Nat.succ_le_of_lt h)
  rwa [Nat.succ_mul] at this

/-- Different slots do not overlap. -/
theorem slot_disjoint {i s : Nat} (e : Nat) (h : i ≠ s) :
    i * e + e ≤ s * e ∨ s * e + e ≤ i * e := by
  rcases Nat.lt_or_gt_of_ne h with hlt | hgt
  · exact .inl (slot_end_le hlt)
  · exact .inr (slot_end_le hgt)

/-- Advancing `tail` and wrapping it lands on the slot `next % capacity`. -/
theorem tail_wraps {next cap e : Nat} (he : 0 < e) (hcap : 0 < cap) (hle : next ≤ cap) :
    (if ((next * e : Nat) : Int) ≥ ((cap * e : Nat) : Int) then 0
      else ((next * e : Nat) : Int)) = ((next % cap * e : Nat) : Int) := by
  rcases Nat.lt_or_ge next cap with hlt | hge
  · have hmul : next * e < cap * e := Nat.mul_lt_mul_of_pos_right hlt he
    rw [if_neg (by omega), Nat.mod_eq_of_lt hlt]
  · have hnext : next = cap := by omega
    subst hnext
    rw [if_pos (le_refl _), Nat.mod_self]
    simp

theorem memWrite_slot {mem : List UInt8} {cap e s : Nat} {bs : List UInt8}
    (hmem : mem.length = cap * e) (hs : s < cap) (hbs : bs.length = e) :
    memWrite mem ((s * e : Nat) : Int) bs = .ok (splice mem (s * e) bs) := by
  have hend := slot_end_le (e := e) hs
  rw [memWrite, if_pos ⟨by omega, by rw [Int.toNat_natCast]; omega⟩, Int.toNat_natCast]

theorem memRead_slot {mem : List UInt8} {cap e s : Nat}
    (hmem : mem.length = cap * e) (hs : s < cap) :
    memRead mem ((s * e : Nat) : Int) e = .ok (slot mem e s) := by
  have hend := slot_end_le (e := e) hs
  rw [memRead, if_pos ⟨by omega, by rw [Int.toNat_natCast]; omega⟩, Int.toNat_natCast, slot]

/-- A slot starts inside the buffer, as the two assertions ask. -/
theorem check_slot {cap e s : Nat} (he : 0 < e) (hs : s < cap) :
    check (0 ≤ ((s * e : Nat) : Int) ∧ ((s * e : Nat) : Int) < ((cap * e : Nat) : Int))
      = .ok () := by
  have hend := slot_end_le (e := e) hs
  apply check_of
  simp only [decide_eq_true_eq]
  omega

/-- **One `enqueue` with room**: it returns `0`, and the entry stands last. -/
theorem enqueue_rep {q : Queue} {h next : Nat} {xs : List (List UInt8)} {entry : List UInt8}
    (hr : Rep q h next xs) (realloc : Realloc) (hroom : q.size ≠ q.capacity)
    (hlen : entry.length = q.entrySize) :
    ∃ q' next', enqueue realloc q entry = .ok (some q') ∧
      q'.entrySize = q.entrySize ∧ q'.capacity = q.capacity ∧
      Rep q' h next' (xs ++ [entry]) := by
  have hcap : 0 < q.capacity := Nat.lt_of_le_of_lt (Nat.zero_le _) hr.ring.headLt
  have hlt : xs.length < q.capacity := by
    have := hr.ring.fits
    have := hr.size
    omega
  let s := next % q.capacity
  have hs : s < q.capacity := Nat.mod_lt _ hcap
  let q' : Queue := { q with
    tail := ((s * q.entrySize : Nat) : Int)
    mem := splice q.mem (s * q.entrySize) entry
    size := q.size + 1 }
  have htail : enqueueTail q entry = .ok q' := by
    have hnew : q.tail + q.entrySize = ((next * q.entrySize : Nat) : Int) := by
      rw [hr.tail]; push_cast; rfl
    unfold enqueueTail
    simp only [hnew, queueBytes_eq, tail_wraps hr.entryPos hcap hr.nextLe]
    rw [check_slot hr.entryPos hs, ← hlen, List.take_length, hlen,
      memWrite_slot hr.bytes hs hlen]
    rfl
  refine ⟨q', s + 1, ?_, rfl, rfl, ?_⟩
  · simp [enqueue, hroom, htail]
  · have hend := slot_end_le (e := q.entrySize) hs
    have hfit : s * q.entrySize + entry.length ≤ q.mem.length := by
      rw [hlen, hr.bytes]; exact hend
    refine ⟨hr.entryPos, ?_, ?_, hr.head, ?_, ?_, hs, ?_⟩
    · exact (length_splice hfit).trans hr.bytes
    · simp [q', hr.size]
    · -- the slot written is the first free one, and no other slot is touched
      refine hr.ring.push hlt entry ?_ ?_
      · rw [← hr.nextMod]
        show slice (splice q.mem (s * q.entrySize) entry) (s * q.entrySize) q.entrySize = entry
        rw [← hlen]
        exact slice_splice_self (hlen ▸ hfit)
      · intro i hi hne
        rw [← hr.nextMod] at hne
        have hd := slot_disjoint q.entrySize hne
        exact slice_splice_disjoint hfit (by rw [hlen]; exact hd)
    · show ((s * q.entrySize : Nat) : Int) + q.entrySize = ((s + 1 : Nat) : Int) * q.entrySize
      push_cast
      ring
    · show (s + 1) % q.capacity = _
      rw [List.length_append, List.length_singleton, ← Nat.add_assoc, Nat.add_mod,
        Nat.mod_mod, hr.nextMod, ← Nat.add_mod]

/-- **`dequeue` on an empty queue** returns `-1`. -/
theorem dequeue_empty {q : Queue} {h next : Nat} (hr : Rep q h next []) :
    dequeue q = .ok none := by
  have : q.size = 0 := hr.size
  simp [dequeue, this]

/-- **`dequeue` on a non-empty queue** delivers the oldest entry. -/
theorem dequeue_rep {q : Queue} {h next : Nat} {x : List UInt8} {xs : List (List UInt8)}
    (hr : Rep q h next (x :: xs)) :
    ∃ q' h' next', dequeue q = .ok (some (x, q')) ∧
      q'.entrySize = q.entrySize ∧ q'.capacity = q.capacity ∧ Rep q' h' next' xs := by
  have hcap : 0 < q.capacity := Nat.lt_of_le_of_lt (Nat.zero_le _) hr.ring.headLt
  have hsize : q.size = xs.length + 1 := hr.size
  obtain ⟨hx, hring⟩ := hr.ring.pop
  let q' : Queue := { q with
    head := (((h + 1) % q.capacity * q.entrySize : Nat) : Int)
    size := q.size - 1 }
  refine ⟨q', (h + 1) % q.capacity, next, ?_, rfl, rfl, ?_⟩
  · have hhead : q.head = ((h * q.entrySize : Nat) : Int) := by
      rw [hr.head]; push_cast; rfl
    have hadv : ((h * q.entrySize : Nat) : Int) + q.entrySize
        = (((h + 1) * q.entrySize : Nat) : Int) := by
      push_cast; ring
    have hne : ¬ q.size = 0 := by omega
    unfold dequeue
    simp only [if_neg hne, hhead, queueBytes_eq, hadv,
      tail_wraps hr.entryPos hcap (Nat.succ_le_of_lt hr.ring.headLt)]
    rw [check_slot hr.entryPos hr.ring.headLt, memRead_slot hr.bytes hr.ring.headLt, hx]
    rfl
  · refine ⟨hr.entryPos, hr.bytes, ?_, ?_, hring, hr.tail, hr.nextLe, ?_⟩
    · show q.size - 1 = xs.length
      omega
    · show (((h + 1) % q.capacity * q.entrySize : Nat) : Int) = _
      push_cast
      rfl
    · show next % q.capacity = _
      rw [hr.nextMod, Nat.mod_add_mod, List.length_cons]
      congr 1
      omega

/-- The entries read back from the buffer are the ones the list holds. -/
theorem queuedEntries_rep {q : Queue} {h next : Nat} {xs : List (List UInt8)}
    (hr : Rep q h next xs) : queuedEntries q = xs := by
  apply List.ext_getElem
  · simp [queuedEntries, hr.size]
  · intro k hk hk'
    have hslot : q.head.toNat / q.entrySize = h := by
      rw [hr.head, show (h : Int) * q.entrySize = ((h * q.entrySize : Nat) : Int) by push_cast; rfl,
        Int.toNat_natCast, Nat.mul_div_cancel _ hr.entryPos]
    have hget := hr.ring.get k hk'
    simpa [queuedEntries, entryAt, hslot, slot] using hget

/-! ## Runs -/

/-- One call with room keeps the representation and answers as the list does. -/
theorem call_rep {q : Queue} {h next : Nat} {xs : List (List UInt8)} {op : Op}
    (hr : Rep q h next xs) (realloc : Realloc) (hroom : op ≠ .dequeue → q.size ≠ q.capacity)
    (hlen : ∀ entry, op = .enqueue entry → entry.length = q.entrySize) :
    ∃ q' h' next', call realloc q op = .ok ((fifoCall xs op).1, q') ∧
      q'.entrySize = q.entrySize ∧ Rep q' h' next' (fifoCall xs op).2 := by
  cases op with
  | enqueue entry =>
    obtain ⟨q', next', hq, he, _, hr'⟩ :=
      enqueue_rep hr realloc (hroom (by simp)) (hlen entry rfl)
    exact ⟨q', h, next', by simp [call, hq, fifoCall], he, hr'⟩
  | dequeue =>
    cases xs with
    | nil => exact ⟨q, h, next, by simp [call, dequeue_empty hr, fifoCall], rfl, hr⟩
    | cons x xs =>
      obtain ⟨q', h', next', hq, he, _, hr'⟩ := dequeue_rep hr
      exact ⟨q', h', next', by simp [call, hq, fifoCall], he, hr'⟩

/-- A whole run, by induction on the calls. -/
theorem calls_rep (realloc : Realloc) (ops : List Op) :
    ∀ {q : Queue} {h next : Nat} {xs : List (List UInt8)}, Rep q h next xs →
      enqueuesHaveRoom realloc q ops = true →
      (∀ entry, .enqueue entry ∈ ops → entry.length = q.entrySize) →
      ∃ q' h' next', calls realloc q ops = .ok ((fifoCalls xs ops).1, q') ∧
        Rep q' h' next' (fifoCalls xs ops).2 := by
  induction ops with
  | nil => intro q h next xs hr _ _; exact ⟨q, h, next, rfl, hr⟩
  | cons op ops ih =>
    intro q h next xs hr hroom hlen
    simp only [enqueuesHaveRoom, Bool.and_eq_true, Bool.or_eq_true, beq_iff_eq, bne_iff_ne] at hroom
    obtain ⟨hnow, hlater⟩ := hroom
    obtain ⟨q', h', next', hc, he, hr'⟩ := call_rep hr realloc hnow.resolve_left
      (fun entry h => hlen entry (by simp [h]))
    rw [hc] at hlater
    obtain ⟨q'', h'', next'', hcs, hr''⟩ := ih hr' hlater
      (fun entry h => by rw [he]; exact hlen entry (by simp [h]))
    exact ⟨q'', h'', next'', by simp [calls, hc, hcs, fifoCalls], hr''⟩

/-- **Between resizes the request queue is a FIFO.** Every run from
`queue_init` in which no `enqueue` meets a full queue returns normally (the
in-range assertions hold and no copy leaves the buffer), answers every call
as the list of outstanding entries does, counts them in `size`, and holds
exactly them in its buffer. -/
theorem queue_fifo {e c : Nat} (he : 1 ≤ e) (hc : 1 ≤ c) (realloc : Realloc) (ops : List Op)
    (hlen : ∀ entry, .enqueue entry ∈ ops → entry.length = e)
    (hroom : enqueuesHaveRoom realloc (queueInit e c) ops = true) :
    ∃ q, calls realloc (queueInit e c) ops = .ok ((fifoCalls [] ops).1, q) ∧
      q.size = (fifoCalls [] ops).2.length ∧ queuedEntries q = (fifoCalls [] ops).2 := by
  obtain ⟨q, h, next, hq, hr⟩ := calls_rep realloc ops (rep_init he hc) hroom hlen
  exact ⟨q, hq, hr.size, queuedEntries_rep hr⟩

/-- Two slots of two bytes, filled, half drained and filled again across the
end of the buffer. -/
theorem queue_fifo_wrapped :
    ∃ q, calls none (queueInit 2 2)
        [.enqueue [1, 1], .enqueue [2, 2], .dequeue, .enqueue [3, 3], .dequeue]
        = .ok ([.enqueued true, .enqueued true, .dequeued (some [1, 1]), .enqueued true,
            .dequeued (some [2, 2])], q) ∧
      q.size = 1 ∧ queuedEntries q = [[3, 3]] :=
  queue_fifo (e := 2) (c := 2) (by decide) (by decide) none
    [.enqueue [1, 1], .enqueue [2, 2], .dequeue, .enqueue [3, 3], .dequeue]
    (by simp) (by decide)

end BtClient.RequestQueue

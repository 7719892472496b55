import BtClient.Queue.Fifo
import BtClient.Lib.Transition

/-!
# Growing the request queue

`enqueue` into a full queue calls `queue_resize` with twice the capacity. The
entries stay where they are when the oldest one is in the first slot. In any
other position of the ring they have to be moved, and the copy that should
move the part up to the OLD end of the buffer is given the size of the new
one: it starts at `head` and leaves the buffer by as many bytes. From a
capacity of `2^31` on the new one does not fit the parameter, and the buffer
shrinks.
-/

namespace BtClient.RequestQueue

open CLib

/-! ## Runs with any allocator -/

/-- One call, with the answer `realloc` gives if it is asked. -/
def step (q : Queue) (a : Realloc × Op) : Option Queue :=
  (call a.1 q a.2).toOption.map Prod.snd

/-- Entries have the size of the queue's slots. -/
def entriesOf (e : Nat) (_ : Queue) (a : Realloc × Op) : Prop :=
  ∀ entry, a.2 = .enqueue entry → entry.length = e

/-- Every growth that the calls attempt, from `queue_init` on, meets `P`: an
`enqueue` into a full queue for which `realloc` succeeds. -/
def Growths (e c : Nat) (attempts : List (Realloc × Op))
    (P : Queue → (Nat → UInt8) → Prop) : Prop :=
  ∀ before fill entry q, before ++ [(some fill, .enqueue entry)] <+: attempts →
    Run step (entriesOf e) (queueInit e c) before q → q.size = q.capacity → P q fill

/-- The growth returns without a copy outside the buffer, the queue then holds
the same entries in the same order, and the calls that follow go on as a FIFO
from these. -/
def GrowthKeeps (q : Queue) (fill : Nat → UInt8) : Prop :=
  ∃ q', queueResize (some fill) q (q.capacity * 2) = .ok (some q') ∧
    queuedEntries q' = queuedEntries q ∧
    ∀ realloc ops, (∀ entry, .enqueue entry ∈ ops → entry.length = q.entrySize) →
      enqueuesHaveRoom realloc q' ops = true →
      ∃ q'', calls realloc q' ops = .ok ((fifoCalls (queuedEntries q) ops).1, q'')

/-- The oldest entry is in the first slot, and twice the capacity is a
`uint32_t`. -/
def Unwrapped (q : Queue) : Prop := q.head = 0 ∧ 2 * q.capacity < 2 ^ 32

/-! ## One growth -/

/-- A full queue, with `tail` inside the buffer. -/
structure Full (q : Queue) (h next : Nat) (xs : List (List UInt8)) : Prop where
  rep : Rep q h next xs
  full : q.size = q.capacity
  tailNonneg : 0 ≤ q.tail

theorem Full.capacity_pos {q : Queue} {h next : Nat} {xs : List (List UInt8)}
    (hf : Full q h next xs) : 0 < q.capacity :=
  Nat.lt_of_le_of_lt (Nat.zero_le _) hf.rep.ring.headLt

/-- In a full ring the next slot is the one of the oldest entry. -/
theorem Full.next_eq {q : Queue} {h next : Nat} {xs : List (List UInt8)}
    (hf : Full q h next xs) : next = if h = 0 then q.capacity else h := by
  have hr := hf.rep
  have hlt := hr.ring.headLt
  have hle := hr.nextLe
  have hmod := hr.nextMod
  have hpos : 0 < next := by
    rcases Nat.eq_zero_or_pos next with hzero | hpos
    · have htail := hr.tail
      have hent := hr.entryPos
      have hnn := hf.tailNonneg
      rw [hzero] at htail
      simp only [Nat.cast_zero, Int.zero_mul] at htail
      omega
    · exact hpos
  rw [← hr.size, hf.full, Nat.add_mod_right, Nat.mod_eq_of_lt hlt] at hmod
  rcases Nat.lt_or_ge next q.capacity with hsmall | hbig
  · rw [Nat.mod_eq_of_lt hsmall] at hmod
    rw [if_neg (by omega)]
    exact hmod
  · rw [show next = q.capacity from by omega, Nat.mod_self] at hmod
    rw [if_pos hmod.symm]
    omega

/-- `head` is behind `tail` exactly when the oldest entry is not in the first
slot. -/
theorem Full.wrapped_iff {q : Queue} {h next : Nat} {xs : List (List UInt8)}
    (hf : Full q h next xs) : q.head > q.tail ↔ h ≠ 0 := by
  have hr := hf.rep
  have hent := hr.entryPos
  have htail := hr.tail
  have hcap := hf.capacity_pos
  rw [hr.head]
  rw [hf.next_eq] at htail
  by_cases hzero : h = 0
  · have hnn := hf.tailNonneg
    subst hzero
    simp only [Nat.cast_zero, Int.zero_mul, ne_eq, not_true, iff_false]
    omega
  · rw [if_neg hzero] at htail
    exact ⟨fun _ => hzero, fun _ => by omega⟩

theorem length_reallocated {mem : List UInt8} {bytes : Nat} (fill : Nat → UInt8) :
    (reallocated mem bytes fill).length = bytes := by
  rw [reallocated, List.length_append, List.length_take, List.length_map, List.length_range']
  omega

/-- What was in the part of the buffer that is kept is still there. -/
theorem slot_reallocated {mem : List UInt8} {e i bytes : Nat} (fill : Nat → UInt8)
    (hold : i * e + e ≤ mem.length) (hnew : i * e + e ≤ bytes) :
    slot (reallocated mem bytes fill) e i = slot mem e i := by
  rw [slot, slot, reallocated, slice_append_left (by rw [List.length_take]; omega),
    slice_take hnew]

/-- A read that is longer than what is left of the buffer. -/
theorem memRead_past {mem : List UInt8} {off : Int} {n : Nat} (h : mem.length < off.toNat + n) :
    memRead mem off n = .error .outOfBounds := by
  rw [memRead, if_neg (by omega)]

/-- Reading is a fault only where it leaves the buffer. -/
theorem memRead_cases (mem : List UInt8) (off : Int) (n : Nat) :
    memRead mem off n = .error .outOfBounds ∨ ∃ bs, memRead mem off n = .ok bs := by
  rw [memRead]
  split
  · exact .inr ⟨_, rfl⟩
  · exact .inl rfl

/-- **The wrapped case**: the copy leaves the buffer. -/
theorem Full.resize_wrapped {q : Queue} {h next : Nat} {xs : List (List UInt8)}
    (hf : Full q h next xs) (hne : h ≠ 0) (fill : Nat → UInt8) :
    queueResize (some fill) q (q.capacity * 2) = .error .outOfBounds := by
  have hhead : 0 < q.head.toNat := by
    have hmul : 0 < h * q.entrySize := Nat.mul_pos (by omega) hf.rep.entryPos
    rw [hf.rep.head, ← Int.natCast_mul, Int.toNat_natCast]
    exact hmul
  rw [queueResize]
  simp only [if_pos (hf.wrapped_iff.mpr hne)]
  rcases memRead_cases (reallocated q.mem (q.entrySize * (q.capacity * 2 % 2 ^ 32)) fill) 0
    (q.tail + q.entrySize).toNat with herr | ⟨tmp, htmp⟩
  · rw [herr]
    rfl
  · rw [htmp, ok_bind, memRead_past]
    · rfl
    · rw [length_reallocated, queueBytes]
      dsimp only
      omega

/-- The other case leaves everything where it is. -/
theorem Full.resize_unwrapped {q : Queue} {next : Nat} {xs : List (List UInt8)}
    (hf : Full q 0 next xs) (fill : Nat → UInt8) :
    queueResize (some fill) q (q.capacity * 2) = .ok (some { q with
      mem := reallocated q.mem (q.entrySize * (q.capacity * 2 % 2 ^ 32)) fill
      capacity := q.capacity * 2 % 2 ^ 32 }) := by
  have hnot : ¬ q.head > q.tail := fun h => hf.wrapped_iff.mp h rfl
  rw [queueResize]
  simp only [if_neg hnot]

/-- **The growth of an unwrapped queue** holds the same list. -/
theorem Full.grow {q : Queue} {next : Nat} {xs : List (List UInt8)} (hf : Full q 0 next xs)
    (hsmall : 2 * q.capacity < 2 ^ 32) (fill : Nat → UInt8) :
    ∃ q', queueResize (some fill) q (q.capacity * 2) = .ok (some q') ∧
      q'.entrySize = q.entrySize ∧ q'.size ≠ q'.capacity ∧ q'.tail = q.tail ∧ q'.size = q.size ∧
      Rep q' 0 q.capacity xs := by
  have hr := hf.rep
  have hcap := hf.capacity_pos
  have hfull := hf.full
  have hnew : q.capacity * 2 % 2 ^ 32 = q.capacity * 2 := Nat.mod_eq_of_lt (by omega)
  have hnext : next = q.capacity := by
    rw [hf.next_eq]
    rfl
  refine ⟨_, hf.resize_unwrapped fill, rfl, ?_, rfl, rfl, ?_⟩
  · show q.size ≠ q.capacity * 2 % 2 ^ 32
    omega
  · rw [hnew]
    refine ⟨hr.entryPos, ?_, hr.size, hr.head, ?_, ?_, ?_, ?_⟩
    · show (reallocated q.mem _ fill).length = _
      rw [length_reallocated, Nat.mul_comm]
    · apply hr.ring.grow (by show q.capacity ≤ q.capacity * 2; omega)
      intro i hi
      have hend := slot_end_le (e := q.entrySize) hi
      apply slot_reallocated
      · rw [hr.bytes]
        exact hend
      · show i * q.entrySize + q.entrySize ≤ q.entrySize * (q.capacity * 2)
        have : q.capacity * q.entrySize ≤ q.entrySize * (q.capacity * 2) := by
          rw [Nat.mul_comm q.entrySize]
          exact Nat.mul_le_mul_right _ (by omega)
        omega
    · rw [← hnext]
      exact hr.tail
    · show q.capacity ≤ q.capacity * 2
      omega
    · show q.capacity % (q.capacity * 2) = (0 + xs.length) % (q.capacity * 2)
      rw [← hr.size, hfull, Nat.zero_add]

/-- Another entry of the same size. -/
def otherEntry (x : List UInt8) : List UInt8 := x.map (· + 1)

theorem length_otherEntry (x : List UInt8) : (otherEntry x).length = x.length :=
  List.length_map _

theorem otherEntry_ne {x : List UInt8} (h : x ≠ []) : otherEntry x ≠ x := by
  cases x with
  | nil => exact absurd rfl h
  | cons b bs =>
    intro heq
    have hb : b + 1 = b := (List.cons.inj heq).1
    simp at hb

/-- An entry stored while `tail` is at or behind the end of the buffer goes to
the first slot. -/
theorem enqueueTail_first {q : Queue} {entry : List UInt8}
    (hmem : q.mem.length = queueBytes q) (htail : (queueBytes q : Int) ≤ q.tail + q.entrySize)
    (hlen : entry.length = q.entrySize) {q' : Queue} (h : enqueueTail q entry = .ok q') :
    q' = { q with tail := 0, mem := splice q.mem 0 entry, size := q.size + 1 } ∧
      q.entrySize ≤ q.mem.length := by
  rw [enqueueTail] at h
  simp only [if_pos htail] at h
  obtain ⟨_, hcheck, h⟩ := (seq_returns_iff _ _ _).mp h
  have hbytes : 0 < queueBytes q := by simpa using check_eq_ok.mp hcheck
  have hcap : 0 < q.capacity := by
    rcases Nat.eq_zero_or_pos q.capacity with hzero | hcap
    · rw [queueBytes, hzero, Nat.mul_zero] at hbytes
      omega
    · exact hcap
  have hfit : q.entrySize ≤ q.mem.length := by
    rw [hmem, queueBytes]
    exact Nat.le_mul_of_pos_right _ hcap
  have htake : entry.take q.entrySize = entry := by rw [← hlen, List.take_length]
  rw [htake, memWrite, if_pos ⟨le_refl _, by simpa [hlen] using hfit⟩] at h
  cases h
  exact ⟨rfl, hfit⟩

/-- What `dequeue` delivers stands at `head`. -/
theorem dequeue_out {q q' : Queue} {out : List UInt8} (h : dequeue q = .ok (some (out, q'))) :
    memRead q.mem q.head q.entrySize = .ok out := by
  rw [dequeue] at h
  split at h
  · cases h
  · obtain ⟨_, -, h⟩ := (seq_returns_iff _ _ _).mp h
    obtain ⟨bs, hread, h⟩ := (seq_returns_iff _ _ _).mp h
    cases h
    exact hread

/-- The first entry of a list that a full queue represents. -/
theorem Full.oldest {q : Queue} {h next : Nat} {xs : List (List UInt8)} (hf : Full q h next xs) :
    ∃ x rest, xs = x :: rest ∧ x.length = q.entrySize := by
  have hr := hf.rep
  have hcap := hf.capacity_pos
  have hlen : 0 < xs.length := by
    rw [← hr.size, hf.full]
    exact hcap
  obtain ⟨x, rest, rfl⟩ := List.exists_cons_of_length_pos hlen
  refine ⟨x, rest, rfl, ?_⟩
  have hend := slot_end_le (e := q.entrySize) hr.ring.headLt
  rw [← (hr.ring.pop).1, slot, slice, List.length_take, List.length_drop, hr.bytes]
  omega

/-- A buffer that became smaller than the queue: the next entry goes over the
oldest one, or nowhere. -/
theorem Full.shrunk_differs {q : Queue} {next : Nat} {x : List UInt8} {rest : List (List UInt8)}
    (hf : Full q 0 next (x :: rest)) {cap : Nat} (hcap : cap < q.capacity) {mem : List UInt8}
    (hmem : mem.length = q.entrySize * cap) (hx : x.length = q.entrySize) {q'' : Queue}
    (hcalls : calls none { q with mem := mem, capacity := cap } [.enqueue (otherEntry x), .dequeue]
      = .ok ([.enqueued true, .dequeued (some x)], q'')) : False := by
  have hpos := hf.rep.entryPos
  have hlen : (otherEntry x).length = q.entrySize := (length_otherEntry x).trans hx
  have hsize : ¬ q.size = cap := by
    have := hf.full
    omega
  rw [calls] at hcalls
  obtain ⟨⟨reply, q₁⟩, hcall, hcalls⟩ := (seq_returns_iff _ _ _).mp hcalls
  -- the queue does not look full, and the slot behind the end is the first one
  rw [call, enqueue, if_neg hsize] at hcall
  obtain ⟨out, hout, hcall⟩ := (seq_returns_iff _ _ _).mp hcall
  obtain ⟨q₂, htail, hout⟩ := (seq_returns_iff _ _ _).mp hout
  cases hout
  cases hcall
  obtain ⟨rfl, hfit⟩ := enqueueTail_first (q := { q with mem := mem, capacity := cap }) hmem
    (by
      have hle : q.entrySize * cap ≤ q.entrySize * q.capacity := Nat.mul_le_mul_left _ (by omega)
      have := hf.rep.tail
      rw [hf.next_eq, if_pos rfl, ← Int.natCast_mul, Nat.mul_comm] at this
      show ((q.entrySize * cap : Nat) : Int) ≤ q.tail + q.entrySize
      omega) hlen htail
  -- the dequeue reads it back
  obtain ⟨⟨replies, q₃⟩, hrest, hret⟩ := (seq_returns_iff _ _ _).mp hcalls
  cases hret
  obtain ⟨⟨reply, q₄⟩, hcall, hrest⟩ := (seq_returns_iff _ _ _).mp hrest
  cases hrest
  obtain ⟨taken, hdequeue, hcall⟩ := (seq_returns_iff _ _ _).mp hcall
  cases taken with
  | none => cases hcall
  | some taken =>
    obtain ⟨out, q₅⟩ := taken
    cases hcall
    have hread := dequeue_out hdequeue
    have hhead : q.head = 0 := by
      rw [hf.rep.head]
      simp
    have hfit' : (splice mem 0 (otherEntry x)).length = mem.length :=
      length_splice (by rw [hlen]; simpa using hfit)
    dsimp only at hread
    rw [hhead, memRead, if_pos ⟨le_refl _, by rw [hfit']; simpa using hfit⟩] at hread
    have hsame : slice (splice mem 0 (otherEntry x)) 0 q.entrySize = x := Except.ok.inj hread
    rw [← hlen, slice_splice_self (by rw [hlen]; simpa using hfit)] at hsame
    exact otherEntry_ne (List.ne_nil_of_length_pos (by omega)) hsame

/-- There is room for one entry. -/
theorem enqueuesHaveRoom_one {q : Queue} (hsize : q.size ≠ q.capacity) (entry : List UInt8) :
    enqueuesHaveRoom none q [.enqueue entry, .dequeue] = true := by
  rw [enqueuesHaveRoom, Bool.and_eq_true, Bool.or_eq_true, bne_iff_ne]
  refine ⟨.inr hsize, ?_⟩
  split
  · rw [enqueuesHaveRoom, beq_self_eq_true, Bool.true_or, Bool.true_and]
    split
    · rfl
    · rfl
  · rfl

/-- A growth to a capacity that `uint32_t` has cut down is no growth. -/
theorem Full.small_of_keeps {q : Queue} {next : Nat} {xs : List (List UInt8)}
    (hf : Full q 0 next xs) (fill : Nat → UInt8) (hkeeps : GrowthKeeps q fill) :
    2 * q.capacity < 2 ^ 32 := by
  obtain ⟨q', hresize, -, hcont⟩ := hkeeps
  by_contra hbig
  obtain ⟨x, rest, rfl, hx⟩ := hf.oldest
  have hfull := hf.full
  have hcap : q.capacity * 2 % 2 ^ 32 < q.capacity := by
    have := Nat.mod_lt (q.capacity * 2) (show 0 < 2 ^ 32 by decide)
    omega
  rw [hf.resize_unwrapped fill] at hresize
  cases hresize
  have hlen : ∀ entry, Op.enqueue entry ∈ [.enqueue (otherEntry x), .dequeue] →
      entry.length = q.entrySize := by
    intro entry hentry
    simp only [List.mem_cons, List.not_mem_nil, or_false, Op.enqueue.injEq, reduceCtorEq] at hentry
    rw [hentry, length_otherEntry, hx]
  have hroom : q.size ≠ q.capacity * 2 % 2 ^ 32 := by omega
  obtain ⟨q'', hcalls⟩ := hcont none [.enqueue (otherEntry x), .dequeue] hlen
    (enqueuesHaveRoom_one hroom _)
  rw [queuedEntries_rep hf.rep] at hcalls
  exact hf.shrunk_differs hcap (length_reallocated fill) hx hcalls

theorem Full.keeps_of_small {q : Queue} {next : Nat} {xs : List (List UInt8)}
    (hf : Full q 0 next xs) (fill : Nat → UInt8) (hsmall : 2 * q.capacity < 2 ^ 32) :
    GrowthKeeps q fill := by
  obtain ⟨q', hresize, hent, -, -, -, hrep⟩ := hf.grow hsmall fill
  rw [GrowthKeeps, queuedEntries_rep hf.rep]
  refine ⟨q', hresize, queuedEntries_rep hrep, ?_⟩
  intro realloc ops hlen hroom
  obtain ⟨q'', h', next', hcalls, -⟩ := calls_rep realloc ops hrep hroom
    (fun entry hentry => by rw [hent]; exact hlen entry hentry)
  exact ⟨q'', hcalls⟩

/-- **When a growth keeps the queue.** -/
theorem Full.keeps_iff {q : Queue} {h next : Nat} {xs : List (List UInt8)} (hf : Full q h next xs)
    (fill : Nat → UInt8) : GrowthKeeps q fill ↔ Unwrapped q := by
  have hzero : q.head = 0 ↔ h = 0 := by
    have := hf.rep.entryPos
    rw [hf.rep.head, Int.mul_eq_zero]
    omega
  rw [Unwrapped, hzero]
  constructor
  · intro hkeeps
    have hh : h = 0 := by
      by_contra hne
      obtain ⟨q', hresize, -⟩ := hkeeps
      rw [hf.resize_wrapped hne fill] at hresize
      cases hresize
    subst hh
    exact ⟨rfl, hf.small_of_keeps fill hkeeps⟩
  · rintro ⟨rfl, hsmall⟩
    exact hf.keeps_of_small fill hsmall

/-! ## Runs -/

/-- The queue holds some list; once it has held an entry, `tail` is inside the
buffer. -/
def Holds (e : Nat) (q : Queue) : Prop :=
  ∃ h next xs, Rep q h next xs ∧ q.entrySize = e ∧ (0 < q.size → 0 ≤ q.tail)

theorem Holds.full {e : Nat} {q : Queue} (hq : Holds e q) (hfull : q.size = q.capacity) :
    ∃ h next xs, Full q h next xs := by
  obtain ⟨h, next, xs, hr, -, htail⟩ := hq
  have hlt := hr.ring.headLt
  exact ⟨h, next, xs, hr, hfull, htail (by omega)⟩

/-- The second half of `enqueue`, on a queue with room. -/
theorem enqueueTail_holds {q : Queue} {h next : Nat} {xs : List (List UInt8)} {entry : List UInt8}
    (hr : Rep q h next xs) (hroom : q.size ≠ q.capacity) (hlen : entry.length = q.entrySize) :
    ∃ q', enqueueTail q entry = .ok q' ∧ Holds q.entrySize q' := by
  obtain ⟨q', next', hrun, hent, -, hr'⟩ := enqueue_rep hr none hroom hlen
  rw [enqueue, if_neg hroom] at hrun
  obtain ⟨q₁, htail, hret⟩ := (seq_returns_iff _ _ _).mp hrun
  cases hret
  refine ⟨_, htail, h, next', _, hr', hent, fun _ => ?_⟩
  obtain ⟨_, hcheck, hwrite⟩ := (seq_returns_iff _ _ _).mp htail
  obtain ⟨mem, -, hret⟩ := (seq_returns_iff _ _ _).mp hwrite
  cases hret
  have hin := check_eq_ok.mp hcheck
  rw [decide_eq_true_eq] at hin
  exact hin.1

theorem dequeue_holds {e : Nat} {q q' : Queue} {out : List UInt8} (hq : Holds e q)
    (h : dequeue q = .ok (some (out, q'))) : Holds e q' := by
  obtain ⟨hd, next, xs, hr, hent, htail⟩ := hq
  cases xs with
  | nil =>
    rw [dequeue_empty hr] at h
    cases h
  | cons x xs =>
    obtain ⟨q₁, h', next', hrun, hent', -, hr'⟩ := dequeue_rep hr
    rw [hrun] at h
    cases h
    refine ⟨h', next', xs, hr', hent'.trans hent, fun _ => ?_⟩
    have hkeep : q'.tail = q.tail := by
      rw [dequeue] at hrun
      split at hrun
      · cases hrun
      · obtain ⟨_, -, hrun⟩ := (seq_returns_iff _ _ _).mp hrun
        obtain ⟨_, -, hrun⟩ := (seq_returns_iff _ _ _).mp hrun
        cases hrun
        rfl
    rw [hkeep]
    apply htail
    rw [hr.size, List.length_cons]
    omega

/-- An `enqueue` whose growth, if there is one, finds the queue unwrapped. -/
theorem enqueue_holds {e : Nat} {q q' : Queue} {realloc : Realloc} {entry : List UInt8}
    (hq : Holds e q) (hlen : entry.length = e)
    (hgrow : ∀ fill, realloc = some fill → q.size = q.capacity → Unwrapped q)
    (h : enqueue realloc q entry = .ok (some q')) : Holds e q' := by
  rw [enqueue] at h
  by_cases hfull : q.size = q.capacity
  · rw [if_pos hfull] at h
    cases realloc with
    | none => cases h
    | some fill =>
      obtain ⟨hd, next, xs, hf⟩ := hq.full hfull
      obtain ⟨-, -, -, -, hent, -⟩ := hq
      obtain ⟨hhead, hsmall⟩ := hgrow fill rfl hfull
      have hzero : hd = 0 := by
        have hpos := hf.rep.entryPos
        rw [hf.rep.head, Int.mul_eq_zero] at hhead
        omega
      subst hzero
      obtain ⟨q₁, hresize, hent₁, hroom, -, -, hr₁⟩ := hf.grow hsmall fill
      rw [hresize, ok_bind] at h
      obtain ⟨q₂, htail, hq₂⟩ := enqueueTail_holds hr₁ hroom (by rw [hent₁, hent, hlen])
      simp only [htail, ok_bind, pure_is_ok, Except.ok.injEq, Option.some.injEq] at h
      rw [hent₁, hent] at hq₂
      rwa [← h]
  · rw [if_neg hfull] at h
    obtain ⟨hd, next, xs, hr, hent, -⟩ := hq
    obtain ⟨q₂, htail, hq₂⟩ := enqueueTail_holds hr hfull (by rw [hent, hlen])
    simp only [htail, ok_bind, pure_is_ok, Except.ok.injEq, Option.some.injEq] at h
    rw [hent] at hq₂
    rwa [← h]

/-- One call keeps the queue, if its growth does. -/
theorem step_holds {e : Nat} {q q' : Queue} {a : Realloc × Op} (hq : Holds e q)
    (hlen : entriesOf e q a)
    (hgrow : ∀ fill entry, a = (some fill, .enqueue entry) → q.size = q.capacity → Unwrapped q)
    (h : step q a = some q') : Holds e q' := by
  obtain ⟨realloc, op⟩ := a
  obtain ⟨⟨reply, q₁⟩, hrun, rfl⟩ := returns_of_observed h
  cases op with
  | enqueue entry =>
    obtain ⟨out, hout, hrun⟩ := (seq_returns_iff _ _ _).mp hrun
    cases out with
    | none =>
      cases hrun
      exact hq
    | some q₂ =>
      cases hrun
      apply enqueue_holds hq (hlen entry rfl) _ hout
      rintro fill rfl hfull
      exact hgrow fill entry rfl hfull
  | dequeue =>
    obtain ⟨out, hout, hrun⟩ := (seq_returns_iff _ _ _).mp hrun
    cases out with
    | none =>
      cases hrun
      exact hq
    | some taken =>
      obtain ⟨out, q₂⟩ := taken
      cases hrun
      exact dequeue_holds hq hout

/-- A run whose growths all found the queue unwrapped. The induction is on the
run; its growths before the last call are growths of the run. -/
theorem run_holds {e c : Nat} (he : 1 ≤ e) (hc : 1 ≤ c) {before : List (Realloc × Op)} {q : Queue}
    (hrun : Run step (entriesOf e) (queueInit e c) before q) :
    Growths e c before (fun q _ => Unwrapped q) → Holds e q := by
  induction hrun with
  | nil =>
    intro _
    refine ⟨0, 0, [], rep_init he hc, rfl, fun h => ?_⟩
    cases h
  | @snoc as t u a hprev hg hs ih =>
    intro hgrow
    have ht : Holds e t := by
      apply ih
      intro before fill entry q hpre
      exact hgrow before fill entry q (hpre.trans (List.prefix_append _ _))
    apply step_holds ht hg _ hs
    rintro fill entry rfl hfull
    exact hgrow as fill entry t (List.prefix_refl _) hprev hfull

/-- **Growing the queue.** In every sequence of calls from `queue_init`, every
growth keeps the queue exactly when every growth finds it unwrapped. -/
theorem growth_keeps_iff {e c : Nat} (he : 1 ≤ e) (hc : 1 ≤ c) (attempts : List (Realloc × Op)) :
    Growths e c attempts GrowthKeeps ↔ Growths e c attempts (fun q _ => Unwrapped q) := by
  constructor
  · intro hkeeps
    -- by the length of what comes before the growth: earlier growths are unwrapped already
    have hall : ∀ n before fill entry q, before.length = n →
        before ++ [(some fill, .enqueue entry)] <+: attempts →
        Run step (entriesOf e) (queueInit e c) before q → q.size = q.capacity → Unwrapped q := by
      intro n
      induction n using Nat.strong_induction_on with
      | _ n ih =>
        intro before fill entry q hn hpre hrun hfull
        have hgrow : Growths e c before (fun q _ => Unwrapped q) := by
          intro before' fill' entry' q' hpre' hrun' hfull'
          have hlen := hpre'.length_le
          rw [List.length_append, List.length_singleton] at hlen
          apply ih before'.length (by omega) before' fill' entry' q' rfl _ hrun' hfull'
          exact hpre'.trans ((List.prefix_append _ _).trans hpre)
        obtain ⟨h, next, xs, hf⟩ := (run_holds he hc hrun hgrow).full hfull
        exact (hf.keeps_iff fill).mp (hkeeps before fill entry q hpre hrun hfull)
    intro before fill entry q hpre hrun hfull
    exact hall before.length before fill entry q rfl hpre hrun hfull
  · intro hunwrapped before fill entry q hpre hrun hfull
    have hgrow : Growths e c before (fun q _ => Unwrapped q) := by
      intro before' fill' entry' q' hpre'
      exact hunwrapped before' fill' entry' q' (hpre'.trans ((List.prefix_append _ _).trans hpre))
    obtain ⟨h, next, xs, hf⟩ := (run_holds he hc hrun hgrow).full hfull
    exact (hf.keeps_iff fill).mpr (hunwrapped before fill entry q hpre hrun hfull)

instance (e : Nat) (q : Queue) (a : Realloc × Op) : Decidable (entriesOf e q a) :=
  match a with
  | (_, .enqueue entry) =>
    decidable_of_iff (entry.length = e) ⟨fun h _ heq => by cases heq; exact h, fun h => h _ rfl⟩
  | (_, .dequeue) => .isTrue fun _ h => by cases h

/-- A queue of one slot, filled and grown. -/
theorem growth_keeps_full :
    Growths 1 1 [(none, .enqueue [7]), (some fun _ => 0, .enqueue [8])] GrowthKeeps ∧
      ∃ q, Run step (entriesOf 1) (queueInit 1 1) [(none, .enqueue [7])] q ∧
        q.size = q.capacity := by
  have hrun : Run step (entriesOf 1) (queueInit 1 1) [(none, .enqueue [7])]
      ⟨1, 1, 1, 0, 0, [7]⟩ := Run.of_exec _ rfl
  refine ⟨(growth_keeps_iff (by decide) (by decide) _).mpr ?_, _, hrun, rfl⟩
  intro before fill entry q hpre hq _
  rcases before with _ | ⟨a, _ | ⟨b, before⟩⟩
  · simp at hpre
  · rw [List.cons_append, List.nil_append, List.cons_prefix_cons] at hpre
    obtain ⟨rfl, -⟩ := hpre
    rw [← hrun.unique hq]
    exact ⟨rfl, by decide⟩
  · have hlen := hpre.length_le
    simp at hlen

/-- A request, its answer, and seventeen requests before the next answer: the
oldest of these is in the second of sixteen slots. -/
def burst : List (Realloc × Op) :=
  (none, .enqueue (List.replicate 12 0)) :: (none, .dequeue) ::
    List.replicate 16 (none, .enqueue (List.replicate 12 1))

/-- The seventeenth one makes the queue grow, and the copy leaves the buffer. -/
theorem growth_keeps_wrapped :
    ¬ Growths 12 16 (burst ++ [(some fun _ => 0, .enqueue (List.replicate 12 2))]) GrowthKeeps := by
  intro h
  have hrun : (exec step (entriesOf 12) (queueInit 12 16) burst).map (fun q =>
      q.size == q.capacity && (queueResize (some fun _ => 0) q (q.capacity * 2)).toOption.isNone)
      = some true := by decide +kernel
  obtain ⟨q, hq, hfacts⟩ := Option.map_eq_some_iff.mp hrun
  rw [Bool.and_eq_true, beq_iff_eq] at hfacts
  obtain ⟨q', hresize, -⟩ := h burst (fun _ => 0) (List.replicate 12 2) q (List.prefix_refl _)
    (Run.of_exec _ hq) hfacts.1
  rw [hresize] at hfacts
  cases hfacts.2

end BtClient.RequestQueue

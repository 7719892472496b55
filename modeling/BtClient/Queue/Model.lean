import BtClient.Lib.Fault
import BtClient.Lib.Splice
import Mathlib.Algebra.Order.Ring.Nat

/-!
# The request queue (`queue/queue.c`)

`queue_t` keeps a byte buffer `mem` of `entry_size * capacity` bytes and two
pointers into it. A pointer is modelled by its byte offset from `mem`; the
offsets are integers because `queue_init` puts `tail` one entry BEFORE the
buffer. `calloc` and `malloc` are taken to succeed; `realloc` may fail, and
when it succeeds the bytes it adds are indeterminate, so both are an argument
of `queueResize`.

Every copy checks its two ranges: a `memcpy` that leaves the buffer is the
fault `outOfBounds`, never a silent no-op.
-/

namespace BtClient.RequestQueue

open CLib

/-- `queue_t`, with `head` and `tail` as byte offsets from `mem`. -/
structure Queue where
  entrySize : Nat
  capacity : Nat
  size : Nat
  head : Int
  tail : Int
  mem : List UInt8
  deriving DecidableEq, Repr

/-- `QUEUE_BYTES(q)`. -/
def queueBytes (q : Queue) : Nat := q.entrySize * q.capacity

/-- `memcpy(dst, src, n)` with `dst` inside `mem`. -/
def memWrite (mem : List UInt8) (off : Int) (bs : List UInt8) :
    Except Fault (List UInt8) :=
  if 0 ≤ off ∧ off.toNat + bs.length ≤ mem.length then
    .ok (splice mem off.toNat bs)
  else .error .outOfBounds

/-- `memcpy(dst, src, n)` with `src` inside `mem`. -/
def memRead (mem : List UInt8) (off : Int) (n : Nat) : Except Fault (List UInt8) :=
  if 0 ≤ off ∧ off.toNat + n ≤ mem.length then
    .ok (slice mem off.toNat n)
  else .error .outOfBounds

/-- What `realloc` answers: `none` is `NULL`, `some fill` a block whose byte at
a new offset `k` reads `fill k`. -/
abbrev Realloc := Option (Nat → UInt8)

/-- The buffer `realloc` returns: the old bytes up to the smaller size, then
whatever the allocator left there. -/
def reallocated (mem : List UInt8) (bytes : Nat) (fill : Nat → UInt8) : List UInt8 :=
  mem.take bytes ++ (List.range' mem.length (bytes - mem.length)).map fill

/-- `queue_resize(queue, new_cap)`; `none` is the return value `-1`. The
`uint32_t` parameter truncates what the caller passes. -/
def queueResize (realloc : Realloc) (q : Queue) (newCap : Nat) :
    Except Fault (Option Queue) :=
  let newCap := newCap % 2 ^ 32
  match realloc with
  | none => .ok none
  | some fill =>
    let mem := reallocated q.mem (q.entrySize * newCap) fill
    let q := { q with mem := mem, capacity := newCap }
    if q.head > q.tail then do
      let top : Int := q.tail + q.entrySize
      -- `mem + QUEUE_BYTES(queue) - mem`, taken after `capacity` was updated
      let bot := queueBytes q
      let tmp ← memRead q.mem 0 top.toNat
      let moved ← memRead q.mem q.head bot
      let mem ← memWrite q.mem 0 moved
      let mem ← memWrite mem bot tmp
      return some { q with mem := mem, head := 0, tail := bot }
    else
      .ok (some q)

/-- `queue_init(entry_size, init_capacity)`. -/
def queueInit (entrySize initCapacity : Nat) : Queue where
  entrySize := entrySize
  capacity := initCapacity
  size := 0
  head := 0
  tail := -entrySize
  mem := List.replicate (initCapacity * entrySize) 0

/-- The part of `enqueue` after the capacity test: advance `tail`, wrap it,
check it, store the entry. -/
def enqueueTail (q : Queue) (entry : List UInt8) : Except Fault Queue := do
  let tail : Int := q.tail + q.entrySize
  let tail := if tail ≥ queueBytes q then 0 else tail
  check (0 ≤ tail ∧ tail < queueBytes q)
  let mem ← memWrite q.mem tail (entry.take q.entrySize)
  return { q with tail := tail, mem := mem, size := q.size + 1 }

/-- `enqueue(q, entry)`; `none` is the return value `-1`. -/
def enqueue (realloc : Realloc) (q : Queue) (entry : List UInt8) :
    Except Fault (Option Queue) := do
  if q.size = q.capacity then
    match ← queueResize realloc q (q.capacity * 2) with
    | none => return none
    | some q => return some (← enqueueTail q entry)
  else
    return some (← enqueueTail q entry)

/-- `dequeue(queue, out)`: the entry copied to `out` and the queue after it;
`none` is the return value `-1`. -/
def dequeue (q : Queue) : Except Fault (Option (List UInt8 × Queue)) := do
  if q.size = 0 then return none
  check (0 ≤ q.head ∧ q.head < queueBytes q)
  let out ← memRead q.mem q.head q.entrySize
  let head : Int := q.head + q.entrySize
  let head := if head ≥ queueBytes q then 0 else head
  return some (out, { q with head := head, size := q.size - 1 })

/-! ## Sequences of calls -/

/-- One call on the queue. -/
inductive Op where
  | enqueue (entry : List UInt8)
  | dequeue
  deriving DecidableEq, Repr

/-- What a call reported: the return value of `enqueue` (`true` is `0`), or
the entry `dequeue` delivered (`none` is `-1`). -/
inductive Reply where
  | enqueued (ok : Bool)
  | dequeued (out : Option (List UInt8))
  deriving DecidableEq, Repr

/-- One call; a call that returns `-1` leaves the queue as it was. -/
def call (realloc : Realloc) (q : Queue) : Op → Except Fault (Reply × Queue)
  | .enqueue entry => do
    match ← enqueue realloc q entry with
    | none => return (.enqueued false, q)
    | some q' => return (.enqueued true, q')
  | .dequeue => do
    match ← dequeue q with
    | none => return (.dequeued none, q)
    | some (out, q') => return (.dequeued (some out), q')

/-- A sequence of calls, with the replies in order. -/
def calls (realloc : Realloc) : Queue → List Op → Except Fault (List Reply × Queue)
  | q, [] => .ok ([], q)
  | q, op :: ops => do
    let (reply, q') ← call realloc q op
    let (replies, q'') ← calls realloc q' ops
    return (reply :: replies, q'')

/-- No `enqueue` of the sequence is made while `size = capacity`. -/
def enqueuesHaveRoom (realloc : Realloc) : Queue → List Op → Bool
  | _, [] => true
  | q, op :: ops =>
    (op == .dequeue || q.size != q.capacity) &&
      match call realloc q op with
      | .ok (_, q') => enqueuesHaveRoom realloc q' ops
      | .error _ => true

/-- The entry at distance `k` from the oldest one, read from the buffer. -/
def entryAt (q : Queue) (k : Nat) : List UInt8 :=
  slice q.mem ((q.head.toNat / q.entrySize + k) % q.capacity * q.entrySize) q.entrySize

/-- The entries the buffer holds, oldest first. -/
def queuedEntries (q : Queue) : List (List UInt8) :=
  (List.range q.size).map (entryAt q)

end BtClient.RequestQueue

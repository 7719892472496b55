import BtClient.Lib.Fault
import BtClient.Lib.Slots
import BtClient.Lib.Words

/-!
# The hash table (`deps/stb_hashtable.h`)

`hash_table_t` with its options as fields. Keys are byte lists (a pointer and
a length in the source) and the value type is a parameter (`void *`). A slot
that is not `in_use` is `none`.

`hash_table_init` leaves `used` as it finds it and draws `p` from `rand()`:
both are inputs of the model (`TableSeed`).

Sizes and counts are `Nat`. The sums the probes reduce modulo `size` wrap at
`2^64` in the source; a table's size is a power of two, so the remainder is
the same. The load test is read as the exact comparison of `used / size` with
the constant `0.65f`, which is `10905190 / 2^24`.
-/

namespace BtClient

open CLib

/-- `probe_strategy`. -/
inductive ProbeStrategy where
  | probeLinear
  | probeQuadratic
  | probeDoubleHash
  deriving DecidableEq, Repr

/-- `hasher_t`: of the table it is passed, a hash reads `p` and `size`. -/
abbrev Hasher := (p size : Nat) → List UInt8 → Nat

/-- `comparer_t`. -/
abbrev Comparer := List UInt8 → List UInt8 → Bool

/-- `hash_position_t` of a slot in use. -/
structure HashPosition (β : Type) where
  key : List UInt8
  value : β

/-- `hash_options_t`. -/
structure HashOptions where
  hasher : Option Hasher
  doubleHasher : Option Hasher
  comparer : Comparer
  strategy : ProbeStrategy
  size : Nat

/-- `hash_table_t`. -/
structure HashTable (β : Type) where
  strategy : ProbeStrategy
  hasher : Hasher
  comparer : Comparer
  doubleHasher : Option Hasher
  size : Nat
  p : Nat
  values : List (Option (HashPosition β))
  used : Nat

/-- What `hash_table_init` does not determine: the old contents of `used`, and
`rand() % 32`. -/
structure TableSeed where
  used : UInt64
  p : Fin 32

/-- The conversion of a `size_t` to `int`, and of that `int` back to `size_t`:
the low 32 bits, sign-extended. -/
def intAsSize (x : Nat) : Nat :=
  if x % 2 ^ 32 < 2 ^ 31 then x % 2 ^ 32 else x % 2 ^ 32 + (2 ^ 64 - 2 ^ 32)

/-! ## Hash functions -/

/-- The loop of `buf_as_int` from index `i` on; `acc` keeps the low 32 bits. -/
def bufAsIntLoop : List UInt8 → Nat → Nat → Nat
  | [], _, acc => acc
  | c :: key, i, acc => bufAsIntLoop key (i + 1) (acc * (c.toNat + i) % 2 ^ 32)

/-- `buf_as_int(key, size)`, converted to `size_t`. -/
def bufAsInt (key : List UInt8) : Nat := intAsSize (bufAsIntLoop key 0 1)

/-- `knuth_hash`. -/
def knuthHash : Hasher := fun p size key =>
  (bufAsInt key * 2654435769 % 2 ^ 64) / 2 ^ (32 - p) % size

/-- `fnv_hash`. -/
def fnvHash : Hasher := fun _ size key =>
  key.foldl (fun hash c => (hash * 1099511628211 % 2 ^ 64) ^^^ c.toNat) 14695981039346656037 % size

/-- `memcmp_comparer`. -/
def memcmpComparer : Comparer := fun a b => a == b

/-! ## The operations -/

variable {β : Type}

/-- `hash_table_init_ex(table, options)`. `double_hasher` is only written for
double hashing; nothing reads it otherwise. -/
def hashTableInitEx (seed : TableSeed) (options : HashOptions) : HashTable β where
  hasher := options.hasher.getD knuthHash
  doubleHasher :=
    if options.strategy = .probeDoubleHash then some (options.doubleHasher.getD fnvHash) else none
  strategy := options.strategy
  p := seed.p
  size := options.size
  values := List.replicate options.size none
  comparer := options.comparer
  used := seed.used.toNat

/-- `hash_table_init(table)`. -/
def hashTableInit (seed : TableSeed) : HashTable β :=
  hashTableInitEx seed
    { hasher := some knuthHash
      doubleHasher := none
      comparer := memcmpComparer
      strategy := .probeLinear
      size := 1024 }

/-- `linear_probe(table, hash, i)`. -/
def linearProbe (t : HashTable β) (hash i : Nat) : Nat := (hash + i) % t.size

/-- `double_hash(table, hash, key, key_len, i)`. -/
def doubleHash (t : HashTable β) (hash : Nat) (key : List UInt8) (i : Nat) : Except Fault Nat :=
  match t.doubleHasher with
  | none => .error .assertFailed
  | some doubleHasher =>
    .ok ((hash + i * intAsSize (doubleHasher t.p t.size key ||| 1)) % t.size)

/-- `probe(table, hash, key, key_len, i)`. -/
def probe (t : HashTable β) (hash : Nat) (key : List UInt8) (i : Nat) : Except Fault Nat :=
  match t.strategy with
  | .probeLinear => .ok (linearProbe t hash i)
  | .probeDoubleHash => doubleHash t hash key i
  | .probeQuadratic => .error .assertFailed

/-- `load_factor(table) > HASH_TABLE_LOAD_FACTOR_THRESHOLD`. -/
def overloaded (t : HashTable β) : Bool := 10905190 * t.size < t.used * 2 ^ 24

/-- The hash an operation starts probing from: an `int`. -/
def startHash (t : HashTable β) (key : List UInt8) : Nat :=
  intAsSize (t.hasher t.p t.size key)

/-- The loop of `hash_table_insert` from probe `i` on, with `left` probes to
go. When all slots probed are in use the table stays as it is. -/
def insertLoop (t : HashTable β) (hash : Nat) (pos : HashPosition β) :
    (left i : Nat) → Except Fault (HashTable β)
  | 0, _ => .ok t
  | left + 1, i => do
    let idx ← probe t hash pos.key i
    match t.values[idx]? with
    | none => .error .outOfBounds
    | some none => .ok { t with values := t.values.set idx (some pos), used := t.used + 1 }
    | some (some _) => insertLoop t hash pos left (i + 1)

/-- The loop of `rehash` over the old slots, with the `hash_table_insert` it
calls for each one in use. -/
def rehashLoop (insert : HashTable β → List UInt8 → β → Except Fault (HashTable β)) :
    List (Option (HashPosition β)) → HashTable β → Except Fault (HashTable β)
  | [], t => .ok t
  | none :: oldValues, t => rehashLoop insert oldValues t
  | some pos :: oldValues, t => do
    let t ← insert t pos.key pos.value
    rehashLoop insert oldValues t

/-- The empty table of twice the size that `rehash` starts from. -/
def HashTable.grown (t : HashTable β) : HashTable β :=
  { t with size := t.size * 2, used := 0, values := List.replicate (t.size * 2) none }

/-- `rehash(t)`. -/
def rehash (insert : HashTable β → List UInt8 → β → Except Fault (HashTable β))
    (t : HashTable β) : Except Fault (HashTable β) :=
  rehashLoop insert t.values t.grown

/-- `hash_table_insert`, with a bound on the depth of the recursion through
`rehash`. -/
def insertWithin : Nat → HashTable β → List UInt8 → β → Except Fault (HashTable β)
  | 0, _, _, _ => .error .outOfFuel
  | depth + 1, t, key, value => do
    let t ← if overloaded t then rehash (insertWithin depth) t else .ok t
    insertLoop t (startHash t key) ⟨key, value⟩ t.size 0

/-- `hash_table_insert(table, key, key_len, value)`. The inserts of a `rehash`
never rehash again (`insert_fresh`), so a depth of two is all there is. -/
def hashTableInsert (t : HashTable β) (key : List UInt8) (value : β) :
    Except Fault (HashTable β) :=
  insertWithin 2 t key value

/-- The loop of `hash_table_lookup_internal` from probe `i` on: the slot found
and its contents. -/
def lookupLoop (t : HashTable β) (hash : Nat) (key : List UInt8) :
    (left i : Nat) → Except Fault (Option (Nat × HashPosition β))
  | 0, _ => .ok none
  | left + 1, i => do
    let idx ← probe t hash key i
    match t.values[idx]? with
    | none => .error .outOfBounds
    | some none => lookupLoop t hash key left (i + 1)
    | some (some current) =>
      if t.comparer current.key key then .ok (some (idx, current))
      else lookupLoop t hash key left (i + 1)

/-- `hash_table_lookup_internal(table, key, key_len)`. -/
def hashTableLookupInternal (t : HashTable β) (key : List UInt8) :
    Except Fault (Option (Nat × HashPosition β)) :=
  lookupLoop t (startHash t key) key t.size 0

/-- `hash_table_lookup(table, key, key_len)`: `none` for `NULL`. -/
def hashTableLookup (t : HashTable β) (key : List UInt8) : Except Fault (Option β) := do
  match ← hashTableLookupInternal t key with
  | some (_, pos) => return some pos.value
  | none => return none

/-- `hash_table_delete(table, key, key_len)`. -/
def hashTableDelete (t : HashTable β) (key : List UInt8) : Except Fault (HashTable β) := do
  match ← hashTableLookupInternal t key with
  | none => return t
  | some (idx, _) =>
    return { t with
      values := t.values.set idx none
      used := if t.used = 0 then 2 ^ 64 - 1 else t.used - 1 }

end BtClient

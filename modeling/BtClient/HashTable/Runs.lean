import BtClient.HashTable.FiniteMap
import BtClient.Lib.Refinement
import Mathlib.Logic.Function.Basic

/-!
# Runs of the hash table

What a table is for: a map from keys to values. `TableHolds` relates a table to the
map it stands for, every call keeps the two related as long as a key is not
inserted over itself, and so does every sequence of calls.
-/

namespace BtClient

open CLib

variable {β : Type}

/-- A call of the table's interface. -/
inductive TableCall (β : Type) where
  | insert (key : List UInt8) (value : β)
  | delete (key : List UInt8)
  | lookup (key : List UInt8)

/-- The table after a call. -/
def tableCall (t : HashTable β) : TableCall β → Except Fault (HashTable β)
  | .insert key value => hashTableInsert t key value
  | .delete key => hashTableDelete t key
  | .lookup key => do
    let _ ← hashTableLookup t key
    return t

/-! ## The specification -/

/-- A map after a call. -/
def mapCall (m : List UInt8 → Option β) : TableCall β → (List UInt8 → Option β)
  | .insert key value => Function.update m key (some value)
  | .delete key => Function.update m key none
  | .lookup _ => m

/-- What the calls leave at a key: the value of its last insert, unless it was
deleted since. -/
def stored (calls : List (TableCall β)) : List UInt8 → Option β :=
  calls.foldl mapCall fun _ => none

/-- A key is inserted only where there is none. -/
def FreshCall (m : List UInt8 → Option β) : TableCall β → Prop
  | .insert key _ => m key = none
  | _ => True

/-- Every insert of the calls is of a key that is not present at that moment. -/
def FreshCalls (calls : List (TableCall β)) : Prop :=
  Within mapCall FreshCall (fun _ => none) calls

/-! ## One call -/

/-- The table stands for the map. -/
structure TableHolds (t : HashTable β) (m : List UInt8 → Option β) : Prop where
  wf : t.Wf
  iff : ∀ key value, m key = some value ↔ ⟨key, value⟩ ∈ t.entries

theorem TableHolds.absent {t : HashTable β} {m : List UInt8 → Option β} (h : TableHolds t m)
    {key : List UInt8} : m key = none ↔ key ∉ t.keys := by
  rw [Option.eq_none_iff_forall_not_mem]
  constructor
  · intro hnone hmem
    obtain ⟨pos, hpos, rfl⟩ := List.mem_map.mp hmem
    exact hnone pos.value ((h.iff _ _).mpr hpos)
  · intro habsent value hvalue
    exact habsent (List.mem_map.mpr ⟨_, (h.iff key value).mp hvalue, rfl⟩)

/-- A lookup reads the map. -/
theorem TableHolds.lookup {t : HashTable β} {m : List UInt8 → Option β} (h : TableHolds t m)
    (key : List UInt8) : hashTableLookup t key = .ok (m key) := by
  cases hm : m key with
  | none => exact lookup_absent h.wf (h.absent.mp hm)
  | some value => exact lookup_present h.wf ((h.iff key value).mp hm)

theorem TableHolds.insert {t t' : HashTable β} {m : List UInt8 → Option β} {key : List UInt8}
    {value : β} (h : TableHolds t m) (hkey : m key = none) (hwf : t'.Wf)
    (hperm : t'.entries.Perm (⟨key, value⟩ :: t.entries)) :
    TableHolds t' (Function.update m key (some value)) := by
  refine ⟨hwf, fun key' value' => ?_⟩
  rw [hperm.mem_iff, List.mem_cons, ← h.iff]
  by_cases hk : key' = key
  · subst hk
    simp [hkey, eq_comm]
  · simp [hk]

theorem TableHolds.delete {t t' : HashTable β} {m : List UInt8 → Option β} {key : List UInt8}
    {value : β} (h : TableHolds t m) (hwf : t'.Wf)
    (hperm : t.entries.Perm (⟨key, value⟩ :: t'.entries)) :
    TableHolds t' (Function.update m key none) := by
  -- the keys were distinct, so the deleted entry was the only one of its key
  have hnodup := (hperm.map HashPosition.key).nodup_iff.mp h.wf.distinct
  have hgone : key ∉ t'.keys := (List.nodup_cons.mp hnodup).1
  refine ⟨hwf, fun key' value' => ?_⟩
  by_cases hk : key' = key
  · subst hk
    have hnot : ⟨key', value'⟩ ∉ t'.entries := by
      intro hmem
      exact hgone (List.mem_map.mpr ⟨_, hmem, rfl⟩)
    simp [hnot]
  · rw [Function.update_of_ne hk, h.iff, hperm.mem_iff, List.mem_cons]
    simp [hk]

/-- Every call returns, and does to the table what it does to the map. -/
theorem table_refines : Refines tableCall mapCall FreshCall
    (TableHolds : HashTable β → (List UInt8 → Option β) → Prop) where
  call := by
    intro t m call h hfresh
    cases call with
    | insert key value =>
      obtain ⟨t', hinsert, hwf, hperm⟩ := insert_fresh h.wf value (h.absent.mp hfresh)
      exact ⟨t', hinsert, h.insert hfresh hwf hperm⟩
    | delete key =>
      cases hm : m key with
      | none =>
        refine ⟨t, delete_absent h.wf (h.absent.mp hm), ?_⟩
        show TableHolds t (Function.update m key none)
        rwa [← hm, Function.update_eq_self]
      | some value =>
        obtain ⟨t', hdelete, hwf, hperm⟩ := delete_present h.wf ((h.iff key value).mp hm)
        exact ⟨t', hdelete, h.delete hwf hperm⟩
    | lookup key =>
      refine ⟨t, ?_, h⟩
      show (do let _ ← hashTableLookup t key; return t) = .ok t
      rw [h.lookup key, ok_bind, pure_is_ok]

/-! ## The depth of an insert -/

/-- A `rehash` depends on its insert only at the tables that insert finds. -/
theorem rehashLoop_congr
    {insert insert' : HashTable β → List UInt8 → β → Except Fault (HashTable β)}
    (old : List (Option (HashPosition β))) : ∀ {t : HashTable β},
      (∀ u ∈ rehashTables insert old t, insert u = insert' u) →
      rehashLoop insert old t = rehashLoop insert' old t := by
  induction old with
  | nil =>
    intro t _
    rfl
  | cons slot old ih =>
    intro t hsame
    cases slot with
    | none => exact ih hsame
    | some pos =>
      rw [rehashTables, List.forall_mem_cons] at hsame
      rw [rehashLoop, rehashLoop, ← hsame.1]
      cases hinsert : insert t pos.key pos.value with
      | error e => rfl
      | ok t₁ =>
        rw [ok_bind, ok_bind]
        refine ih fun u hu => hsame.2 u ?_
        rw [hinsert]
        exact hu

/-- A deeper bound on the recursion changes nothing. -/
theorem insertWithin_eq {t : HashTable β} (h : t.Wf) (depth : Nat) (key : List UInt8) (value : β) :
    insertWithin (depth + 2) t key value = hashTableInsert t key value := by
  have hsame : rehash (insertWithin (depth + 1)) t = rehash (insertWithin 1) t := by
    refine rehashLoop_congr t.values fun u hu => ?_
    have hlight := (rehash_keeps depth h).2 u hu
    funext key value
    rw [insertWithin_of_light depth key value hlight, insertWithin_of_light 0 key value hlight]
  rw [hashTableInsert, insertWithin, insertWithin, hsame]

/-! ## Every sequence of calls -/

/-- A table as `hash_table_init` or `hash_table_init_ex` leave it. -/
def Initialised (t : HashTable β) : Prop :=
  ∃ seed, t = hashTableInit seed ∨ ∃ options, options.Supported ∧ t = hashTableInitEx seed options

theorem Initialised.holds {t : HashTable β} (h : Initialised t) :
    TableHolds t fun _ => none := by
  obtain ⟨seed, rfl | ⟨options, hsupported, rfl⟩⟩ := h
  · refine ⟨hashTableInit_wf seed, fun key value => ?_⟩
    rw [entries_hashTableInit]
    simp
  · refine ⟨hashTableInitEx_wf seed hsupported, fun key value => ?_⟩
    rw [entries_hashTableInitEx]
    simp

/-- **The table is a finite map.** From a table just initialised, with whatever
`used` that has left there, calls that insert no key over itself all return.
After them a lookup finds what is stored, an insert of a fresh key takes a free
slot, and the inserts of a `rehash` do not rehash again, so that no bound on the
depth of an insert matters. -/
theorem table_is_map {t₀ : HashTable β} (hinit : Initialised t₀) {calls : List (TableCall β)}
    (hfresh : FreshCalls calls) :
    ∃ t, calls.foldlM tableCall t₀ = .ok t ∧
      (∀ key, hashTableLookup t key = .ok (stored calls key)) ∧
      (∀ key value, stored calls key = none → ∃ t', hashTableInsert t key value = .ok t' ∧
        t'.entries.Perm (⟨key, value⟩ :: t.entries)) ∧
      ∀ depth, (∀ u ∈ rehashTables (insertWithin (depth + 1)) t.values t.grown,
          overloaded u = false) ∧
        ∀ key value, insertWithin (depth + 2) t key value = hashTableInsert t key value := by
  obtain ⟨t, hcalls, h⟩ := table_refines.calls calls hinit.holds hfresh
  refine ⟨t, hcalls, h.lookup, fun key value hnone => ?_, fun depth => ⟨?_, ?_⟩⟩
  · obtain ⟨t', hinsert, -, hperm⟩ := insert_fresh h.wf value (h.absent.mp hnone)
    exact ⟨t', hinsert, hperm⟩
  · exact (rehash_keeps depth h.wf).2
  · exact insertWithin_eq h.wf depth

/-- Double hashing with a constant second hash, and a table of two slots. -/
def smallOptions : HashOptions where
  hasher := none
  doubleHasher := some fun _ _ _ => 1
  comparer := memcmpComparer
  strategy := .probeDoubleHash
  size := 2

/-- Three keys, one of them deleted, go into two slots and a count of garbage. -/
theorem table_is_map_three :
    let calls : List (TableCall Nat) := [.insert [97] 1, .insert [98] 2, .delete [97],
      .insert [99] 3, .lookup [98], .insert [97] 4]
    ∃ t, calls.foldlM tableCall (hashTableInitEx ⟨0xFFFFFFFFFFFFFFFF, 3⟩ smallOptions) = .ok t ∧
      hashTableLookup t [97] = .ok (some 4) ∧ hashTableLookup t [98] = .ok (some 2) ∧
      hashTableLookup t [100] = .ok none := by
  intro calls
  have hinit : Initialised (hashTableInitEx ⟨0xFFFFFFFFFFFFFFFF, 3⟩ smallOptions : HashTable Nat) :=
    ⟨_, .inr ⟨smallOptions, ⟨⟨1, rfl⟩, rfl, .inr rfl⟩, rfl⟩⟩
  have hfresh : FreshCalls calls := by
    simp [FreshCalls, calls, within_cons, within_nil, FreshCall, mapCall]
  obtain ⟨t, hcalls, hlookup, -⟩ := table_is_map hinit hfresh
  refine ⟨t, hcalls, ?_, ?_, ?_⟩
  · rw [hlookup]
    rfl
  · rw [hlookup]
    rfl
  · rw [hlookup]
    rfl

end BtClient

import BtClient.HashTable.Model
import Mathlib.Data.Nat.Prime.Basic

/-!
# The hash table is a finite map

`HashTable.Sound` is what every table reached by inserting and deleting
satisfies, from whatever `used` its initialisation found; while no key is
inserted over itself its keys are also distinct (`HashTable.Wf`). The table
is known by its `entries`, up to order: an insert adds one, a delete removes
one, and a lookup finds one of its key, the first that is probed. As long as
keys are distinct, the probe sequence never matters beyond reaching every slot.
-/

namespace BtClient

open CLib

variable {β : Type}

/-- The contents of the slots in use, in slot order. -/
def HashTable.entries (t : HashTable β) : List (HashPosition β) := t.values.reduceOption

/-- The keys present. -/
def HashTable.keys (t : HashTable β) : List (List UInt8) := t.entries.map HashPosition.key

/-- A table whose every slot can be reached, and whose `used` is no smaller than
the number of slots in use. -/
structure HashTable.Sound (t : HashTable β) : Prop where
  pow : ∃ k, t.size = 2 ^ k
  length : t.values.length = t.size
  compare : t.comparer = memcmpComparer
  strategy : t.strategy = .probeLinear ∨
    t.strategy = .probeDoubleHash ∧ ∃ doubleHasher, t.doubleHasher = some doubleHasher
  counted : t.entries.length ≤ t.used

/-- A table with pairwise distinct keys whose every slot can be reached, and
whose `used` is no smaller than the number of slots in use. -/
structure HashTable.Wf (t : HashTable β) : Prop where
  pow : ∃ k, t.size = 2 ^ k
  length : t.values.length = t.size
  compare : t.comparer = memcmpComparer
  strategy : t.strategy = .probeLinear ∨
    t.strategy = .probeDoubleHash ∧ ∃ doubleHasher, t.doubleHasher = some doubleHasher
  counted : t.entries.length ≤ t.used
  distinct : t.keys.Nodup

theorem HashTable.Wf.sound {t : HashTable β} (h : t.Wf) : t.Sound :=
  ⟨h.pow, h.length, h.compare, h.strategy, h.counted⟩

theorem HashTable.Sound.wf {t : HashTable β} (h : t.Sound) (hdistinct : t.keys.Nodup) : t.Wf :=
  ⟨h.pow, h.length, h.compare, h.strategy, h.counted, hdistinct⟩

theorem HashTable.Sound.size_pos {t : HashTable β} (h : t.Sound) : 0 < t.size := by
  obtain ⟨k, hk⟩ := h.pow
  rw [hk]
  exact Nat.two_pow_pos k

theorem HashTable.Sound.entries_le {t : HashTable β} (h : t.Sound) : t.entries.length ≤ t.size := by
  rw [← h.length]
  exact List.reduceOption_length_le _

/-- The options a table can be used with: the probes of any key reach every slot. -/
structure HashOptions.Supported (options : HashOptions) : Prop where
  pow : ∃ k, options.size = 2 ^ k
  compare : options.comparer = memcmpComparer
  strategy : options.strategy = .probeLinear ∨ options.strategy = .probeDoubleHash

theorem entries_hashTableInitEx (seed : TableSeed) (options : HashOptions) :
    (hashTableInitEx seed options : HashTable β).entries = [] :=
  List.reduceOption_replicate_none

theorem hashTableInitEx_sound (seed : TableSeed) {options : HashOptions} (h : options.Supported) :
    (hashTableInitEx seed options : HashTable β).Sound where
  pow := h.pow
  length := List.length_replicate
  compare := h.compare
  strategy := by
    rcases h.strategy with hs | hs
    · exact .inl hs
    · exact .inr ⟨hs, options.doubleHasher.getD fnvHash, if_pos hs⟩
  counted := by
    rw [entries_hashTableInitEx]
    exact Nat.zero_le _

theorem hashTableInitEx_wf (seed : TableSeed) {options : HashOptions} (h : options.Supported) :
    (hashTableInitEx seed options : HashTable β).Wf := by
  refine (hashTableInitEx_sound seed h).wf ?_
  rw [HashTable.keys, entries_hashTableInitEx]
  exact List.nodup_nil

theorem hashTableInit_wf (seed : TableSeed) : (hashTableInit seed : HashTable β).Wf :=
  hashTableInitEx_wf seed ⟨⟨10, rfl⟩, rfl, .inl rfl⟩

theorem entries_hashTableInit (seed : TableSeed) :
    (hashTableInit seed : HashTable β).entries = [] :=
  entries_hashTableInitEx seed _

/-! ## Probing -/

theorem intAsSize_or_one_odd (x : Nat) : intAsSize (x ||| 1) % 2 = 1 := by
  have hodd : (x ||| 1) % 2 = 1 := by
    rw [Nat.or_mod_two_eq_one]
    exact .inr rfl
  unfold intAsSize
  split <;> omega

/-- The probes of any key reach every slot, whatever the hashes are. -/
theorem HashTable.Sound.covers {t : HashTable β} (h : t.Sound) (hash : Nat) (key : List UInt8) :
    ∃ f, (∀ i, probe t hash key i = .ok (f i)) ∧ Covers f t.size := by
  rcases h.strategy with hs | ⟨hs, doubleHasher, hd⟩
  · refine ⟨fun i => linearProbe t hash i, fun i => ?_, covers_linear hash h.size_pos⟩
    simp only [probe, hs]
  · -- the stride is odd and the size a power of two, so the probes meet no slot twice
    obtain ⟨k, hk⟩ := h.pow
    have hcoprime : Nat.Coprime (intAsSize (doubleHasher t.p t.size key ||| 1)) t.size := by
      have hodd := Nat.odd_iff.mpr (intAsSize_or_one_odd (doubleHasher t.p t.size key))
      generalize intAsSize (doubleHasher t.p t.size key ||| 1) = stride at hodd
      rw [hk]
      exact Nat.Coprime.pow_right k (Nat.coprime_two_right.mpr hodd)
    refine ⟨_, fun i => ?_, covers_stride hash h.size_pos hcoprime⟩
    simp only [probe, hs, doubleHash, hd]

/-! ## Lookup -/

/-- The scan of a lookup stops at the first slot it probes that has the key, or
there is none. -/
theorem lookupLoop_cases {t : HashTable β} (h : t.Sound) {hash : Nat} {key : List UInt8}
    {f : Nat → Nat} (hprobe : ∀ i, probe t hash key i = .ok (f i)) (hf : ∀ i < t.size, f i < t.size)
    (left : Nat) : ∀ i, i + left = t.size →
      (∃ k pos, lookupLoop t hash key left i = .ok (some (f k, pos)) ∧ i ≤ k ∧ k < t.size ∧
        t.values[f k]? = some (some pos) ∧ pos.key = key ∧
        ∀ j, i ≤ j → j < k → ∀ q, t.values[f j]? = some (some q) → q.key ≠ key) ∨
      (lookupLoop t hash key left i = .ok none ∧
        ∀ j, i ≤ j → j < t.size → ∀ pos, t.values[f j]? = some (some pos) → pos.key ≠ key) := by
  induction left with
  | zero =>
    intro i hi
    exact .inr ⟨rfl, fun j hij hj => absurd hj (by omega)⟩
  | succ left ih =>
    intro i hi
    have hlt : f i < t.values.length := by
      rw [h.length]
      exact hf i (by omega)
    have hget := List.getElem?_eq_getElem hlt
    simp only [lookupLoop, hprobe, ok_bind, hget]
    -- a slot without the key is passed over, and the scan goes on from `i + 1`
    have hskip : (∀ pos, t.values[f i]? = some (some pos) → pos.key ≠ key) →
        ((∃ k pos, lookupLoop t hash key left (i + 1) = .ok (some (f k, pos)) ∧ i ≤ k ∧ k < t.size ∧
          t.values[f k]? = some (some pos) ∧ pos.key = key ∧
          ∀ j, i ≤ j → j < k → ∀ q, t.values[f j]? = some (some q) → q.key ≠ key) ∨
        (lookupLoop t hash key left (i + 1) = .ok none ∧
          ∀ j, i ≤ j → j < t.size → ∀ pos, t.values[f j]? = some (some pos) → pos.key ≠ key)) := by
      intro hne
      have hfrom : ∀ n,
          (∀ j, i + 1 ≤ j → j < n → ∀ q, t.values[f j]? = some (some q) → q.key ≠ key) →
          ∀ j, i ≤ j → j < n → ∀ q, t.values[f j]? = some (some q) → q.key ≠ key := by
        intro n hrest j hij hj
        rcases Nat.eq_or_lt_of_le hij with rfl | hij
        · exact hne
        · exact hrest j hij hj
      rcases ih (i + 1) (by omega) with
        ⟨k, pos, hrun, hik, hk, hslot, hkey, hbefore⟩ | ⟨hnone, hrest⟩
      · exact .inl ⟨k, pos, hrun, by omega, hk, hslot, hkey, hfrom k hbefore⟩
      · exact .inr ⟨hnone, hfrom t.size hrest⟩
    rw [hget] at hskip
    cases hslot : t.values[f i] with
    | none => exact hskip (by simp [hslot])
    | some current =>
      simp only [h.compare, memcmpComparer]
      by_cases hkey : current.key = key
      · refine .inl ⟨i, current, by simp [hkey], le_refl i, by omega, by rw [hget, hslot], hkey, ?_⟩
        intro j hij hji
        omega
      · rw [if_neg (by simpa using hkey)]
        exact hskip (by simpa [hslot] using hkey)

/-- The entry that the probes of `key` meet first among those with the key. -/
structure FirstProbed (t : HashTable β) (key : List UInt8) (pos : HashPosition β) : Prop where
  keyed : pos.key = key
  met : ∃ i < t.size, ∃ s, probe t (startHash t key) key i = .ok s ∧
    t.values[s]? = some (some pos) ∧ ∀ j < i, ∀ r q, probe t (startHash t key) key j = .ok r →
      t.values[r]? = some (some q) → q.key ≠ key

/-- **The spec of `hash_table_lookup_internal`.** -/
theorem lookupInternal_cases {t : HashTable β} (h : t.Sound) (key : List UInt8) :
    (∃ idx pos, hashTableLookupInternal t key = .ok (some (idx, pos)) ∧
      t.values[idx]? = some (some pos) ∧ FirstProbed t key pos) ∨
    (hashTableLookupInternal t key = .ok none ∧ key ∉ t.keys) := by
  obtain ⟨f, hprobe, hcovers⟩ := h.covers (startHash t key) key
  rcases lookupLoop_cases h hprobe hcovers.inside t.size 0 (Nat.zero_add _) with
    ⟨k, pos, hrun, -, hk, hslot, hkey, hbefore⟩ | ⟨hnone, hall⟩
  · refine .inl ⟨f k, pos, hrun, hslot, hkey, k, hk, f k, hprobe k, hslot, ?_⟩
    intro j hj r q hr
    rw [hprobe] at hr
    cases hr
    exact hbefore j (Nat.zero_le j) hj q
  · refine .inr ⟨hnone, fun hmem => ?_⟩
    obtain ⟨pos, hpos, hkey⟩ := List.mem_map.mp hmem
    obtain ⟨s, hs, hslot⟩ := mem_reduceOption_iff.mp hpos
    rw [h.length] at hs
    obtain ⟨j, hj, rfl⟩ := hcovers.reaches s hs
    exact hall j (Nat.zero_le j) hj pos hslot hkey

/-- An entry that was probed is there. -/
theorem FirstProbed.mem {t : HashTable β} {key : List UInt8} {pos : HashPosition β}
    (h : FirstProbed t key pos) : pos ∈ t.entries := by
  obtain ⟨i, -, s, -, hslot, -⟩ := h.met
  exact List.reduceOption_mem_iff.mpr (List.mem_of_getElem? hslot)

/-- Entries of one key are one entry. -/
theorem HashTable.Wf.entry_unique {t : HashTable β} (h : t.Wf) {a b : HashPosition β}
    (ha : a ∈ t.entries) (hb : b ∈ t.entries) (hkey : a.key = b.key) : a = b :=
  List.inj_on_of_nodup_map h.distinct ha hb hkey

theorem lookupInternal_present {t : HashTable β} (h : t.Wf) {key : List UInt8} {value : β}
    (hmem : ⟨key, value⟩ ∈ t.entries) :
    ∃ idx, hashTableLookupInternal t key = .ok (some (idx, ⟨key, value⟩)) ∧
      t.values[idx]? = some (some ⟨key, value⟩) := by
  rcases lookupInternal_cases h.sound key with ⟨idx, pos, hlookup, hslot, hfirst⟩ | ⟨-, habsent⟩
  · have := h.entry_unique hfirst.mem hmem hfirst.keyed
    subst this
    exact ⟨idx, hlookup, hslot⟩
  · exact absurd (List.mem_map.mpr ⟨_, hmem, rfl⟩) habsent

theorem lookupInternal_absent {t : HashTable β} (h : t.Sound) {key : List UInt8}
    (hkey : key ∉ t.keys) : hashTableLookupInternal t key = .ok none := by
  rcases lookupInternal_cases h key with ⟨idx, pos, -, -, hfirst⟩ | ⟨hlookup, -⟩
  · exact absurd (List.mem_map.mpr ⟨pos, hfirst.mem, hfirst.keyed⟩) hkey
  · exact hlookup

theorem lookup_present {t : HashTable β} (h : t.Wf) {key : List UInt8} {value : β}
    (hmem : ⟨key, value⟩ ∈ t.entries) : hashTableLookup t key = .ok (some value) := by
  obtain ⟨idx, hlookup, -⟩ := lookupInternal_present h hmem
  simp only [hashTableLookup, hlookup, ok_bind, pure_is_ok]

theorem lookup_absent {t : HashTable β} (h : t.Wf) {key : List UInt8} (hkey : key ∉ t.keys) :
    hashTableLookup t key = .ok none := by
  simp only [hashTableLookup, lookupInternal_absent h.sound hkey, ok_bind, pure_is_ok]

/-! ## Delete -/

/-- Changing the slots and the count of a table. -/
theorem HashTable.Sound.update {t : HashTable β} (h : t.Sound)
    {values : List (Option (HashPosition β))} {used : Nat} (hlength : values.length = t.size)
    (hcounted : values.reduceOption.length ≤ used) :
    HashTable.Sound { t with values := values, used := used } :=
  ⟨h.pow, hlength, h.compare, h.strategy, hcounted⟩

/-- Deleting removes the entry that the lookup finds, if there is one. -/
theorem delete_cases {t : HashTable β} (h : t.Sound) (key : List UInt8) :
    (∃ pos t', FirstProbed t key pos ∧ hashTableDelete t key = .ok t' ∧ t'.Sound ∧
      t.entries.Perm (pos :: t'.entries)) ∨
    (key ∉ t.keys ∧ hashTableDelete t key = .ok t) := by
  rcases lookupInternal_cases h key with ⟨idx, pos, hlookup, hslot, hfirst⟩ | ⟨hlookup, habsent⟩
  · have hperm := reduceOption_empty hslot
    refine .inl ⟨pos, { t with values := t.values.set idx none
                               used := if t.used = 0 then 2 ^ 64 - 1 else t.used - 1 }, hfirst,
      by simp only [hashTableDelete, hlookup, ok_bind, pure_is_ok], ?_, hperm⟩
    have hcounted := h.counted
    have hlength := hperm.length_eq
    rw [List.length_cons, ← HashTable.entries] at hlength
    refine h.update (by rw [List.length_set, h.length]) ?_
    -- the deleted entry was counted, so `used` does not wrap
    split <;> omega
  · exact .inr ⟨habsent, by simp only [hashTableDelete, hlookup, ok_bind, pure_is_ok]⟩

/-- Deleting a present key removes its entry and nothing else. -/
theorem delete_present {t : HashTable β} (h : t.Wf) {key : List UInt8} {value : β}
    (hmem : ⟨key, value⟩ ∈ t.entries) :
    ∃ t', hashTableDelete t key = .ok t' ∧ t'.Wf ∧ t.entries.Perm (⟨key, value⟩ :: t'.entries) := by
  rcases delete_cases h.sound key with ⟨pos, t', hfirst, hdelete, hsound, hperm⟩ | ⟨habsent, -⟩
  · have := h.entry_unique hfirst.mem hmem hfirst.keyed
    subst this
    have hnodup := (hperm.map HashPosition.key).nodup_iff.mp h.distinct
    exact ⟨t', hdelete, hsound.wf (List.nodup_cons.mp hnodup).2, hperm⟩
  · exact absurd (List.mem_map.mpr ⟨_, hmem, rfl⟩) habsent

theorem delete_absent {t : HashTable β} (h : t.Wf) {key : List UInt8} (hkey : key ∉ t.keys) :
    hashTableDelete t key = .ok t := by
  simp only [hashTableDelete, lookupInternal_absent h.sound hkey, ok_bind, pure_is_ok]

/-! ## Insert -/

/-- The scan of an insert fills the first free slot it probes. -/
theorem insertLoop_fills {t : HashTable β} (h : t.Sound) {hash : Nat} (pos : HashPosition β)
    {f : Nat → Nat} (hprobe : ∀ i, probe t hash pos.key i = .ok (f i))
    (hf : ∀ i < t.size, f i < t.size) (left : Nat) : ∀ i, i + left = t.size →
      (∃ j, i ≤ j ∧ j < t.size ∧ t.values[f j]? = some none) →
      ∃ k, i ≤ k ∧ k < t.size ∧ t.values[f k]? = some none ∧
        (∀ j, i ≤ j → j < k → t.values[f j]? ≠ some none) ∧
        insertLoop t hash pos left i =
          .ok { t with values := t.values.set (f k) (some pos), used := t.used + 1 } := by
  induction left with
  | zero =>
    rintro i hi ⟨j, hij, hj, -⟩
    omega
  | succ left ih =>
    rintro i hi ⟨j, hij, hj, hfree⟩
    have hlt : f i < t.values.length := by
      rw [h.length]
      exact hf i (by omega)
    have hget := List.getElem?_eq_getElem hlt
    simp only [insertLoop, hprobe, ok_bind, hget]
    cases hslot : t.values[f i] with
    | none =>
      refine ⟨i, le_refl i, by omega, by rw [hget, hslot], ?_, rfl⟩
      intro m him hmi
      omega
    | some current =>
      have htaken : t.values[f i]? ≠ some none := by
        rw [hget, hslot]
        simp
      have hnext : i + 1 ≤ j := by
        rcases Nat.eq_or_lt_of_le hij with rfl | hij
        · exact absurd hfree htaken
        · exact hij
      obtain ⟨k, hik, hk, hfree', hbefore, hrun⟩ := ih (i + 1) (by omega) ⟨j, hnext, hj, hfree⟩
      refine ⟨k, by omega, hk, hfree', ?_, hrun⟩
      intro m him hmk
      rcases Nat.eq_or_lt_of_le him with rfl | him
      · exact htaken
      · exact hbefore m him hmk

/-- `t'` is `t` with `pos` in the first free slot that the probes of its key
meet. -/
def FillsFirst (t : HashTable β) (pos : HashPosition β) (t' : HashTable β) : Prop :=
  ∃ i < t.size, ∃ s, probe t (startHash t pos.key) pos.key i = .ok s ∧
    t.values[s]? = some none ∧
    (∀ j < i, ∀ r, probe t (startHash t pos.key) pos.key j = .ok r → t.values[r]? ≠ some none) ∧
    t' = { t with values := t.values.set s (some pos), used := t.used + 1 }

theorem FillsFirst.perm {t t' : HashTable β} {pos : HashPosition β} (h : FillsFirst t pos t') :
    t'.entries.Perm (pos :: t.entries) := by
  obtain ⟨i, -, s, -, hfree, -, rfl⟩ := h
  exact reduceOption_fill pos hfree

theorem FillsFirst.size {t t' : HashTable β} {pos : HashPosition β} (h : FillsFirst t pos t') :
    t'.size = t.size ∧ t'.used = t.used + 1 := by
  obtain ⟨i, -, s, -, -, -, rfl⟩ := h
  exact ⟨rfl, rfl⟩

theorem FillsFirst.sound {t t' : HashTable β} {pos : HashPosition β} (h : FillsFirst t pos t')
    (hsound : t.Sound) : t'.Sound := by
  have hlength := h.perm.length_eq
  have hcounted := hsound.counted
  obtain ⟨i, -, s, -, hfree, -, rfl⟩ := h
  refine hsound.update (by rw [List.length_set, hsound.length]) ?_
  rw [List.length_cons] at hlength
  exact hlength.trans_le (Nat.add_le_add_right hcounted 1)

/-- An insert into a table with room. -/
theorem insertLoop_room {t : HashTable β} (h : t.Sound) (pos : HashPosition β)
    (hroom : t.entries.length < t.size) :
    ∃ t', insertLoop t (startHash t pos.key) pos t.size 0 = .ok t' ∧ FillsFirst t pos t' := by
  obtain ⟨f, hprobe, hcovers⟩ := h.covers (startHash t pos.key) pos.key
  have hslots : t.values.reduceOption.length < t.values.length := by
    rw [h.length]
    exact hroom
  obtain ⟨s, hs, hfree⟩ := exists_free hslots
  rw [h.length] at hs
  obtain ⟨j, hj, rfl⟩ := hcovers.reaches s hs
  obtain ⟨k, -, hk, hidx, hbefore, hinsert⟩ := insertLoop_fills h pos hprobe hcovers.inside
    t.size 0 (Nat.zero_add _) ⟨j, Nat.zero_le j, hj, hfree⟩
  refine ⟨_, hinsert, k, hk, f k, hprobe k, hidx, ?_, rfl⟩
  intro m hm r hr
  rw [hprobe] at hr
  cases hr
  exact hbefore m (Nat.zero_le m) hm

/-- While at most half the slots are counted, an insert does not rehash. -/
theorem not_overloaded {t : HashTable β} (h : 2 * t.used ≤ t.size) : overloaded t = false := by
  simp only [overloaded, decide_eq_false_iff_not]
  omega

theorem insertWithin_of_light (depth : Nat) {t : HashTable β} (key : List UInt8) (value : β)
    (h : overloaded t = false) :
    insertWithin (depth + 1) t key value
      = insertLoop t (startHash t key) ⟨key, value⟩ t.size 0 := by
  simp [insertWithin, h]

/-! ## Rehash -/

/-- The tables that the inserts of a `rehash` find. -/
def rehashTables (insert : HashTable β → List UInt8 → β → Except Fault (HashTable β)) :
    List (Option (HashPosition β)) → HashTable β → List (HashTable β)
  | [], _ => []
  | none :: oldValues, t => rehashTables insert oldValues t
  | some pos :: oldValues, t =>
    t :: match insert t pos.key pos.value with
      | .ok t => rehashTables insert oldValues t
      | .error _ => []

/-- **The rule for the inserts of a `rehash`.** None of them rehashes again, all of
them find room, and what one insert into a free slot keeps, all of them keep. -/
theorem rehashLoop_rule (depth : Nat) {inv : List (HashPosition β) → HashTable β → Prop}
    (hstep : ∀ done t pos t', t.Sound → inv done t → FillsFirst t pos t' → inv (done ++ [pos]) t')
    (old : List (Option (HashPosition β))) :
    ∀ {done : List (HashPosition β)} {t : HashTable β}, t.Sound → t.used = t.entries.length →
      2 * (t.entries.length + old.reduceOption.length) ≤ t.size → inv done t →
      ∃ t', rehashLoop (insertWithin (depth + 1)) old t = .ok t' ∧ t'.Sound ∧
        t'.size = t.size ∧ inv (done ++ old.reduceOption) t' ∧
        ∀ u ∈ rehashTables (insertWithin (depth + 1)) old t, overloaded u = false := by
  induction old with
  | nil =>
    intro done t h hused _ hinv
    rw [List.reduceOption_nil, List.append_nil]
    exact ⟨t, rfl, h, rfl, hinv, fun u hu => by cases hu⟩
  | cons slot old ih =>
    intro done t h hused hroom hinv
    cases slot with
    | none =>
      rw [List.reduceOption_cons_of_none] at hroom ⊢
      exact ih h hused hroom hinv
    | some pos =>
      rw [List.reduceOption_cons_of_some] at hroom ⊢
      rw [List.length_cons] at hroom
      have hlight : overloaded t = false := not_overloaded (by omega)
      obtain ⟨t₁, hinsert, hfilled⟩ := insertLoop_room h pos (by omega)
      rw [← insertWithin_of_light depth pos.key pos.value hlight] at hinsert
      have hlen₁ := hfilled.perm.length_eq
      rw [List.length_cons] at hlen₁
      obtain ⟨hsize₁, hused₁⟩ := hfilled.size
      -- an entry moved from the old slots to the new ones: their sum is the same
      obtain ⟨t', hrehash, h', hsize', hinv', hlight'⟩ := ih (hfilled.sound h) (by omega) (by omega)
        (hstep done t pos t₁ h hinv hfilled)
      refine ⟨t', ?_, h', hsize'.trans hsize₁, ?_, ?_⟩
      · rw [rehashLoop, hinsert, ok_bind, hrehash]
      · rwa [List.append_assoc] at hinv'
      · rw [rehashTables, hinsert, List.forall_mem_cons]
        exact ⟨hlight, hlight'⟩

theorem entries_grown (t : HashTable β) : t.grown.entries = [] :=
  List.reduceOption_replicate_none

theorem HashTable.Sound.grown {t : HashTable β} (h : t.Sound) : t.grown.Sound where
  pow := by
    obtain ⟨k, hk⟩ := h.pow
    exact ⟨k + 1, by rw [HashTable.grown, hk, Nat.pow_succ]⟩
  length := List.length_replicate
  compare := h.compare
  strategy := h.strategy
  counted := by
    rw [entries_grown]
    exact Nat.zero_le _

/-- What the inserts of a `rehash` keep holds of the new table and the entries,
in slot order. -/
theorem rehash_rule (depth : Nat) {inv : List (HashPosition β) → HashTable β → Prop}
    (hstep : ∀ done t pos t', t.Sound → inv done t → FillsFirst t pos t' → inv (done ++ [pos]) t')
    {t : HashTable β} (h : t.Sound) (hinv : inv [] t.grown) :
    ∃ t', rehash (insertWithin (depth + 1)) t = .ok t' ∧ t'.Sound ∧ t'.size = t.size * 2 ∧
      inv t.entries t' ∧
      ∀ u ∈ rehashTables (insertWithin (depth + 1)) t.values t.grown, overloaded u = false := by
  have hle := h.entries_le
  refine rehashLoop_rule depth hstep t.values h.grown ?_ ?_ hinv
  · rw [entries_grown]
    rfl
  · rw [entries_grown, ← HashTable.entries, List.length_nil]
    show 2 * (0 + t.entries.length) ≤ t.size * 2
    omega

/-- **The spec of `rehash`**: twice the slots, the same entries, and no `rehash`
inside. -/
theorem rehash_sound (depth : Nat) {t : HashTable β} (h : t.Sound) :
    ∃ t', rehash (insertWithin (depth + 1)) t = .ok t' ∧ t'.Sound ∧ t'.size = t.size * 2 ∧
      t'.entries.Perm t.entries ∧
      ∀ u ∈ rehashTables (insertWithin (depth + 1)) t.values t.grown, overloaded u = false := by
  let inv := fun (done : List (HashPosition β)) (t : HashTable β) => t.entries.Perm done
  have hstep : ∀ done t pos t', t.Sound → inv done t → FillsFirst t pos t' →
      inv (done ++ [pos]) t' := by
    intro done t pos t' _ hperm hfilled
    exact hfilled.perm.trans ((hperm.cons pos).trans (List.perm_append_singleton pos done).symm)
  refine rehash_rule depth hstep h ?_
  show t.grown.entries.Perm []
  rw [entries_grown]

theorem rehash_keeps (depth : Nat) {t : HashTable β} (h : t.Wf) :
    (∃ t', rehash (insertWithin (depth + 1)) t = .ok t' ∧ t'.Wf ∧
      t'.entries.Perm t.entries ∧ t'.size = t.size * 2) ∧
    ∀ u ∈ rehashTables (insertWithin (depth + 1)) t.values t.grown, overloaded u = false := by
  obtain ⟨t', hrehash, hsound, hsize, hperm, hlight⟩ := rehash_sound depth h.sound
  refine ⟨⟨t', hrehash, hsound.wf ?_, hperm, hsize⟩, hlight⟩
  rw [HashTable.keys, (hperm.map HashPosition.key).nodup_iff]
  exact h.distinct

/-! ## The whole insert -/

/-- **The spec of `hash_table_insert`.** The entry is stored, whatever the load,
also beside others of its key. -/
theorem insert_sound {t : HashTable β} (h : t.Sound) (key : List UInt8) (value : β) :
    ∃ t', hashTableInsert t key value = .ok t' ∧ t'.Sound ∧
      t'.entries.Perm (⟨key, value⟩ :: t.entries) := by
  have hpos := h.size_pos
  have hcounted := h.counted
  rw [hashTableInsert]
  cases hover : overloaded t with
  | true =>
    -- after `rehash` at most half the slots are taken, so there is room
    obtain ⟨t₁, hrehash, h₁, hsize₁, hperm₁, -⟩ := rehash_sound 0 h
    have hle := h.entries_le
    have hlen₁ := hperm₁.length_eq
    obtain ⟨t', hinsert, hfilled⟩ := insertLoop_room h₁ ⟨key, value⟩ (by omega)
    refine ⟨t', ?_, hfilled.sound h₁, hfilled.perm.trans (hperm₁.cons _)⟩
    rw [insertWithin, if_pos hover, hrehash, ok_bind]
    exact hinsert
  | false =>
    -- `used` counts at least the entries, so a light load leaves a free slot
    rw [insertWithin_of_light 1 key value hover]
    simp only [overloaded, decide_eq_false_iff_not] at hover
    obtain ⟨t', hinsert, hfilled⟩ := insertLoop_room h ⟨key, value⟩ (by omega)
    exact ⟨t', hinsert, hfilled.sound h, hfilled.perm⟩

/-- A fresh key keeps the table well formed. -/
theorem insert_fresh {t : HashTable β} (h : t.Wf) {key : List UInt8} (value : β)
    (hkey : key ∉ t.keys) :
    ∃ t', hashTableInsert t key value = .ok t' ∧ t'.Wf ∧
      t'.entries.Perm (⟨key, value⟩ :: t.entries) := by
  obtain ⟨t', hinsert, hsound, hperm⟩ := insert_sound h.sound key value
  refine ⟨t', hinsert, hsound.wf ?_, hperm⟩
  rw [HashTable.keys, (hperm.map HashPosition.key).nodup_iff, List.map_cons]
  exact List.nodup_cons.mpr ⟨hkey, h.distinct⟩

end BtClient

import BtClient.HashTable.Runs

/-!
# Keys inserted more than once

An insert never looks for its key, so a document with a repeated key leaves
several entries of it. A lookup then returns the one its probes meet first.
`rehash` moves the entries in slot order, so afterwards the probes meet first
the one that came from the lowest slot: the answer stays the same exactly when
these two entries have the same value.
-/

namespace BtClient

open CLib

variable {β : Type}

/-- Every sequence of calls returns, also with inserts of keys that are present. -/
theorem tableCalls_sound {t₀ : HashTable β} (h : t₀.Sound) (calls : List (TableCall β)) :
    ∃ t, calls.foldlM tableCall t₀ = .ok t ∧ t.Sound := by
  have hcall : Refines tableCall (fun _ _ => ()) (fun _ _ => True)
      fun (t : HashTable β) () => t.Sound := by
    refine ⟨?_⟩
    intro t _ call h _
    cases call with
    | insert key value =>
      obtain ⟨t', hinsert, hsound, -⟩ := insert_sound h key value
      exact ⟨t', hinsert, hsound⟩
    | delete key =>
      rcases delete_cases h key with ⟨-, t', -, hdelete, hsound, -⟩ | ⟨-, hdelete⟩
      · exact ⟨t', hdelete, hsound⟩
      · exact ⟨t, hdelete, h⟩
    | lookup key =>
      refine ⟨t, ?_, h⟩
      show (do let _ ← hashTableLookup t key; return t) = .ok t
      rcases lookupInternal_cases h key with ⟨idx, pos, hlookup, -⟩ | ⟨hlookup, -⟩ <;>
        simp only [hashTableLookup, hlookup, ok_bind, pure_is_ok]
  exact hcall.calls (t := ()) calls h fun _ _ _ => trivial

theorem Initialised.sound {t : HashTable β} (h : Initialised t) : t.Sound :=
  h.holds.wf.sound

/-! ## What a lookup returns -/

theorem FirstProbed.unique {t : HashTable β} {key : List UInt8} {pos pos' : HashPosition β}
    (h : FirstProbed t key pos) (h' : FirstProbed t key pos') : pos = pos' := by
  obtain ⟨hkey, i, -, s, hs, hslot, hbefore⟩ := h
  obtain ⟨hkey', i', -, s', hs', hslot', hbefore'⟩ := h'
  rcases Nat.lt_trichotomy i i' with hlt | rfl | hlt
  · exact absurd hkey (hbefore' i hlt s pos hs hslot)
  · rw [hs] at hs'
    cases hs'
    rw [hslot] at hslot'
    cases hslot'
    rfl
  · exact absurd hkey' (hbefore i' hlt s' pos' hs' hslot')

/-- A lookup returns the value that is probed first. -/
theorem FirstProbed.lookup {t : HashTable β} {key : List UInt8} {pos : HashPosition β}
    (h : FirstProbed t key pos) (hsound : t.Sound) :
    hashTableLookup t key = .ok (some pos.value) := by
  rcases lookupInternal_cases hsound key with ⟨idx, pos', hlookup, -, hfirst⟩ | ⟨-, habsent⟩
  · simp only [hashTableLookup, hlookup, ok_bind, pure_is_ok, hfirst.unique h]
  · exact absurd (List.mem_map.mpr ⟨pos, h.mem, h.keyed⟩) habsent

theorem HashTable.Sound.lookup_absent {t : HashTable β} (h : t.Sound) {key : List UInt8}
    (hkey : key ∉ t.keys) : hashTableLookup t key = .ok none := by
  simp only [hashTableLookup, lookupInternal_absent h hkey, ok_bind, pure_is_ok]

theorem HashTable.Sound.firstProbed {t : HashTable β} (h : t.Sound) {key : List UInt8}
    (hkey : key ∈ t.keys) : ∃ pos, FirstProbed t key pos := by
  rcases lookupInternal_cases h key with ⟨-, pos, -, -, hfirst⟩ | ⟨-, habsent⟩
  · exact ⟨pos, hfirst⟩
  · exact absurd hkey habsent

/-! ## What `rehash` makes of it -/

/-- The entry of `key` in the lowest slot. -/
def LowestSlot (t : HashTable β) (key : List UInt8) (pos : HashPosition β) : Prop :=
  ∃ s : Nat, t.values[s]? = some (some pos) ∧ pos.key = key ∧
    ∀ r < s, ∀ q, t.values[r]? = some (some q) → q.key ≠ key

theorem find?_entries {t : HashTable β} {key : List UInt8} {pos : HashPosition β} :
    (t.entries.find? fun q => q.key == key) = some pos ↔ LowestSlot t key pos := by
  rw [HashTable.entries, find?_reduceOption_eq_some]
  simp only [LowestSlot, beq_iff_eq, beq_eq_false_iff_ne]

theorem HashTable.lowestSlot {t : HashTable β} {key : List UInt8} (hkey : key ∈ t.keys) :
    ∃ pos, LowestSlot t key pos := by
  obtain ⟨q, hq, hqkey⟩ := List.mem_map.mp hkey
  have hfound : (t.entries.find? fun q => q.key == key).isSome := by
    rw [List.find?_isSome]
    exact ⟨q, hq, by simpa using hqkey⟩
  obtain ⟨pos, hpos⟩ := Option.isSome_iff_exists.mp hfound
  exact ⟨pos, find?_entries.mp hpos⟩

/-- `pos` is probed first, and no later insert can come before it: the slots
probed before are taken by other keys. -/
structure Settled (t : HashTable β) (key : List UInt8) (pos : HashPosition β) : Prop where
  keyed : pos.key = key
  met : ∃ i < t.size, ∃ s, probe t (startHash t key) key i = .ok s ∧
    t.values[s]? = some (some pos) ∧ ∀ j < i, ∀ r, probe t (startHash t key) key j = .ok r →
      ∃ q, t.values[r]? = some (some q) ∧ q.key ≠ key

theorem Settled.firstProbed {t : HashTable β} {key : List UInt8} {pos : HashPosition β}
    (h : Settled t key pos) : FirstProbed t key pos := by
  obtain ⟨hkey, i, hi, s, hs, hslot, hbefore⟩ := h
  refine ⟨hkey, i, hi, s, hs, hslot, fun j hj r q hr hq => ?_⟩
  obtain ⟨q', hq', hne⟩ := hbefore j hj r hr
  rw [hq] at hq'
  cases hq'
  exact hne

/-- An insert fills a free slot, so it changes none of those in use. -/
theorem FillsFirst.keeps {t t' : HashTable β} {pos q : HashPosition β} (h : FillsFirst t pos t')
    {s : Nat} (hs : t.values[s]? = some (some q)) : t'.values[s]? = some (some q) := by
  obtain ⟨i, -, s', -, hfree, -, rfl⟩ := h
  have hne : s' ≠ s := by
    rintro rfl
    rw [hfree] at hs
    cases hs
  rw [List.getElem?_set_ne hne, hs]

theorem FillsFirst.probe {t t' : HashTable β} {pos : HashPosition β} (h : FillsFirst t pos t')
    (key : List UInt8) (i : Nat) :
    probe t' (startHash t' key) key i = probe t (startHash t key) key i := by
  obtain ⟨-, -, -, -, -, -, rfl⟩ := h
  rfl

theorem Settled.fill {t t' : HashTable β} {key : List UInt8} {pos new : HashPosition β}
    (h : Settled t key pos) (hfill : FillsFirst t new t') : Settled t' key pos := by
  obtain ⟨hkey, i, hi, s, hs, hslot, hbefore⟩ := h
  refine ⟨hkey, i, by rwa [hfill.size.1], s, by rwa [hfill.probe], hfill.keeps hslot, ?_⟩
  intro j hj r hr
  rw [hfill.probe] at hr
  obtain ⟨q, hq, hne⟩ := hbefore j hj r hr
  exact ⟨q, hfill.keeps hq, hne⟩

/-- The first entry of its key is settled where it is put. -/
theorem FillsFirst.settled {t t' : HashTable β} {pos : HashPosition β} (h : t.Sound)
    (hfill : FillsFirst t pos t') (hfresh : pos.key ∉ t.keys) : Settled t' pos.key pos := by
  have hkeeps := fun s q => hfill.keeps (s := s) (q := q)
  have hprobe' := hfill.probe pos.key
  obtain ⟨f, hprobe, hcovers⟩ := h.covers (startHash t pos.key) pos.key
  obtain ⟨i, hi, s, hs, hfree, hbefore, rfl⟩ := hfill
  have hlt : s < t.values.length := (List.getElem?_eq_some_iff.mp hfree).1
  refine ⟨rfl, i, hi, s, hs, List.getElem?_set_self hlt, ?_⟩
  intro j hj r hr
  rw [hprobe'] at hr
  have hin : r < t.values.length := by
    rw [hprobe j] at hr
    cases hr
    rw [h.length]
    exact hcovers.inside j (hj.trans hi)
  -- the slot is in range and not free
  cases hslot : t.values[r] with
  | none =>
    refine absurd ?_ (hbefore j hj r hr)
    rw [List.getElem?_eq_getElem hin, hslot]
  | some q =>
    have hget : t.values[r]? = some (some q) := by rw [List.getElem?_eq_getElem hin, hslot]
    refine ⟨q, hkeeps r q hget, fun hkey => hfresh ?_⟩
    exact List.mem_map.mpr ⟨q, mem_reduceOption_iff.mpr ⟨r, hin, hget⟩, hkey⟩

/-- What the inserts of a `rehash` keep: of each key, the entry moved first is
settled. -/
def FirstMoved (done : List (HashPosition β)) (t : HashTable β) : Prop :=
  ∀ key, match done.find? (fun q => q.key == key) with
    | none => key ∉ t.keys
    | some pos => Settled t key pos

theorem FirstMoved.fill {done : List (HashPosition β)} {t t' : HashTable β} {pos : HashPosition β}
    (h : FirstMoved done t) (hsound : t.Sound) (hfill : FillsFirst t pos t') :
    FirstMoved (done ++ [pos]) t' := by
  intro key
  have hdone := h key
  rw [List.find?_append]
  cases hfind : done.find? (fun q => q.key == key) with
  | some first =>
    rw [hfind] at hdone
    exact hdone.fill hfill
  | none =>
    rw [hfind] at hdone
    rw [Option.none_or, List.find?_cons]
    by_cases hkey : pos.key = key
    · subst hkey
      simpa using hfill.settled hsound hdone
    · have hne : (pos.key == key) = false := by simpa using hkey
      rw [hne, List.find?_nil]
      intro hmem
      rw [HashTable.keys, (hfill.perm.map HashPosition.key).mem_iff, List.map_cons,
        List.mem_cons] at hmem
      rcases hmem with rfl | hmem
      · exact hkey rfl
      · exact hdone hmem

/-- **The lookups after a `rehash`**: of each key, the entry in the lowest slot. -/
theorem rehash_lookup {t : HashTable β} (h : t.Sound) :
    ∃ t', rehash hashTableInsert t = .ok t' ∧
      (∀ key, key ∉ t.keys → hashTableLookup t' key = .ok none) ∧
      ∀ key pos, LowestSlot t key pos → hashTableLookup t' key = .ok (some pos.value) := by
  have hstep : ∀ done t pos t', t.Sound → FirstMoved done t → FillsFirst t pos t' →
      FirstMoved (done ++ [pos]) (t' : HashTable β) := by
    intro done t pos t' hsound hmoved hfill
    exact hmoved.fill hsound hfill
  have hempty : FirstMoved [] t.grown := by
    intro key
    show key ∉ t.grown.keys
    rw [HashTable.keys, entries_grown]
    exact List.not_mem_nil
  obtain ⟨t', hrehash, hsound, -, hmoved, -⟩ := rehash_rule 1 hstep h hempty
  refine ⟨t', hrehash, fun key habsent => ?_, fun key pos hlowest => ?_⟩
  · have hkey := hmoved key
    cases hfind : t.entries.find? (fun q => q.key == key) with
    | some pos =>
      have hmem := List.mem_of_find?_eq_some hfind
      have hpos := List.find?_some hfind
      exact absurd (List.mem_map.mpr ⟨pos, hmem, by simpa using hpos⟩) habsent
    | none =>
      rw [hfind] at hkey
      exact hsound.lookup_absent hkey
  · have hkey := hmoved key
    rw [find?_entries.mpr hlowest] at hkey
    exact hkey.firstProbed.lookup hsound

/-! ## When growth is unobservable -/

/-- Of each key, the entry that is probed first has the value of the entry in
the lowest slot. Keys that are there once meet this, and so do repeated ones
whose probes do not wrap around the end of the array between their entries. -/
def OrderAgrees (t : HashTable β) : Prop :=
  ∀ key pos pos', FirstProbed t key pos → LowestSlot t key pos' → pos.value = pos'.value

/-- Distinct keys have one entry each. -/
theorem HashTable.Wf.orderAgrees {t : HashTable β} (h : t.Wf) : OrderAgrees t := by
  rintro key pos pos' hfirst ⟨s, hslot, hkey, -⟩
  have hmem : pos' ∈ t.entries := List.reduceOption_mem_iff.mpr (List.mem_of_getElem? hslot)
  rw [h.entry_unique hfirst.mem hmem (hfirst.keyed.trans hkey.symm)]

/-- **Growth of a table is unobservable exactly when the two orders agree.** From a
table just initialised every sequence of inserts, deletes and lookups returns,
repeated keys included, and so does a `rehash` after it. -/
theorem rehash_unobservable_iff {t₀ : HashTable β} (hinit : Initialised t₀)
    (calls : List (TableCall β)) :
    ∃ t t', calls.foldlM tableCall t₀ = .ok t ∧ rehash hashTableInsert t = .ok t' ∧
      ((∀ key, hashTableLookup t' key = hashTableLookup t key) ↔ OrderAgrees t) := by
  obtain ⟨t, hcalls, hsound⟩ := tableCalls_sound hinit.sound calls
  obtain ⟨t', hrehash, habsent, hlowest⟩ := rehash_lookup hsound
  refine ⟨t, t', hcalls, hrehash, ?_, ?_⟩
  · intro hsame key pos pos' hfirst hlow
    have hkey := hsame key
    rw [hlowest key pos' hlow, hfirst.lookup hsound] at hkey
    simpa using hkey.symm
  · intro hagrees key
    by_cases hkey : key ∈ t.keys
    · obtain ⟨pos, hfirst⟩ := hsound.firstProbed hkey
      obtain ⟨pos', hlow⟩ := HashTable.lowestSlot hkey
      rw [hlowest key pos' hlow, hfirst.lookup hsound, hagrees key pos pos' hfirst hlow]
    · rw [habsent key hkey, hsound.lookup_absent hkey]

/-- A table of two slots with the default hash. -/
def twoSlots : HashTable Nat :=
  hashTableInitEx ⟨0, 0⟩
    { hasher := none
      doubleHasher := none
      comparer := memcmpComparer
      strategy := .probeLinear
      size := 2 }

theorem initialised_twoSlots : Initialised twoSlots :=
  ⟨_, .inr ⟨_, ⟨⟨1, rfl⟩, rfl, .inl rfl⟩, rfl⟩⟩

theorem rehash_unobservable_iff_twoSlots :
    ∃ t t', [TableCall.insert [98] 1, .insert [97] 2, .insert [98] 3].foldlM tableCall twoSlots
        = .ok t ∧
      rehash hashTableInsert t = .ok t' ∧
      ((∀ key, hashTableLookup t' key = hashTableLookup t key) ↔ OrderAgrees t) :=
  rehash_unobservable_iff initialised_twoSlots _

/-- The key `a` hashes to the last slot, so its second entry goes to slot 0 and is
moved first. -/
theorem rehash_changes_lookup :
    ¬ ∀ (t₀ : HashTable Nat), Initialised t₀ → ∀ (calls : List (TableCall Nat)) t t',
      calls.foldlM tableCall t₀ = .ok t → overloaded t = true →
      rehash hashTableInsert t = .ok t' →
      ∀ key, hashTableLookup t' key = hashTableLookup t key := by
  intro hclaim
  let calls : List (TableCall Nat) := [.insert [97] 1, .insert [97] 2]
  obtain ⟨t, hcalls, hsound⟩ := tableCalls_sound initialised_twoSlots.sound calls
  obtain ⟨t', hrehash, -⟩ := rehash_lookup hsound
  have hrun : (calls.foldlM tableCall twoSlots).toOption.map overloaded = some true := by
    decide +kernel
  have hbefore : (do hashTableLookup (← calls.foldlM tableCall twoSlots) [97]) = .ok (some 1) := by
    decide +kernel
  have hafter : (do hashTableLookup (← rehash hashTableInsert
      (← calls.foldlM tableCall twoSlots)) [97]) = .ok (some 2) := by
    decide +kernel
  have hover : overloaded t = true := by simpa [hcalls, Except.toOption] using hrun
  have hsame := hclaim twoSlots initialised_twoSlots calls t t' hcalls hover hrehash [97]
  simp only [hcalls, hrehash, ok_bind] at hbefore hafter
  rw [hbefore, hafter] at hsame
  cases hsame

end BtClient

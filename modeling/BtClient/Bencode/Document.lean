import BtClient.Bencode.Parsing

/-!
# Whole documents

`parseBuffer_goes` is the outcome of parsing a document, the encoding of one
value followed by a `NUL`, from a zeroed lexer and parser. `Denotes` says what
the tree means to a caller, who knows a dictionary only through
`hash_table_lookup`, and `infoEntries_stand` where the `info` values stand in
the text.
-/

namespace BtClient

open CLib

/-- **Parsing a document.** -/
theorem parseBuffer_goes {getSha1 : List UInt8 → Nat → Nat → Except Fault (List UInt8)}
    {digest : List UInt8 → List UInt8} (hook : HashesRange getSha1 digest) (v : Value) (fuel : Nat)
    (input : Option Bool) (seeds : Nat → TableSeed) (hwf : v.wf = true)
    (hlen : (encode v).length < 2 ^ 63) (after : List UInt8) :
    Goes (v.fits = true ∧ v.longInfos = true ∧ weight v ≤ fuel) (parseBuffer getSha1 fuel)
      (startParser input (encode v ++ 0 :: after) seeds) ((infoEntries 0 v).map infoCall)
      (fun item p' => Tree digest v item ∧ v.longInfos = true ∧ p'.curToken = lastToken 0 v) := by
  obtain ⟨t, ts, htokens, -, hts⟩ := tokens_cons 0 v
  have htslen : 0 < ts.length := List.length_pos_iff.mpr hts
  have hat : (startParser input (encode v ++ 0 :: after) seeds).At (v.fits = true)
      ({} :: {} :: (tokens 0 v ++ [stopToken input])) :=
    ⟨_, rfl, feeds_document v input (Value.reads_of_wf hwf) id hlen after⟩
  rw [parseBuffer]
  -- the two tokens of a zeroed parser are passed over
  refine Goes.next hat (by simp [htokens]) (fun h => h.1) ?_
  intro p₁ hmoved₁ hat₁
  refine Goes.next hat₁ (by simp [htokens]) (fun h => h.1) ?_
  intro p₂ hmoved₂ hat₂
  have hbuf : p₂.l.buf = [] ++ (encode v ++ 0 :: after) := by
    rw [hmoved₂.buf, hmoved₁.buf]
    rfl
  refine Goes.mono (parseItem_goes hook v fuel hwf hlen hbuf hat₂ (by simp)) id ?_
  rintro item p' - ⟨htree, hinfos, hat'⟩
  exact ⟨htree, hinfos, hat'.curToken⟩

/-! ## The meaning of a tree -/

mutual

/-- The tree is the value: the same kinds, integers, bytes and elements, and
the table of a dictionary maps each key to its value and nothing else. -/
def Denotes : Value → BencodeType → Prop
  | .int n, .integer m => m = n
  | .str s, .bytestring len str => len = s.length ∧ str = some s
  | .list vs, .list items => DenotesList vs items
  | .dict es, .dictionary table _ =>
    DenotesEntries es table ∧
      ∀ key, key ∉ es.map Prod.fst → hashTableLookup table key = .ok none
  | _, _ => False

def DenotesList : List Value → List BencodeType → Prop
  | [], [] => True
  | v :: vs, item :: items => Denotes v item ∧ DenotesList vs items
  | _, _ => False

def DenotesEntries : List (List UInt8 × Value) → HashTable BencodeType → Prop
  | [], _ => True
  | (k, v) :: es, table =>
    (∃ item, hashTableLookup table k = .ok (some item) ∧ Denotes v item) ∧ DenotesEntries es table

end

mutual

theorem Tree.denotes {digest : List UInt8 → List UInt8} :
    ∀ {v : Value} {item : BencodeType}, Tree digest v item → v.longInts = true → Denotes v item
  | .int n, .integer m, h, hlong => by
    simp only [Value.longInts, Value.every, longHere, Bool.and_eq_true, decide_eq_true_eq] at hlong
    simp only [Tree] at h
    rw [Denotes, h, clampLong_of_range hlong.1 hlong.2]
  | .str s, .bytestring len str, h, _ => by
    simpa only [Tree, Denotes] using h
  | .list vs, .list items, h, hlong => by
    simp only [Tree] at h
    rw [Denotes]
    exact TreeList.denotes h (every_list.mp hlong).2
  | .dict es, .dictionary table _, h, hlong => by
    simp only [Tree] at h
    obtain ⟨htable, entries, hperm, htrees⟩ := h
    rw [Denotes]
    refine ⟨TreeEntries.denotes htrees htable (fun pos hpos => hperm.mem_iff.mpr hpos)
      (every_dict.mp hlong).2, fun key hkey => lookup_absent htable ?_⟩
    rwa [HashTable.keys, (hperm.map HashPosition.key).mem_iff, htrees.keys]

theorem TreeList.denotes {digest : List UInt8 → List UInt8} :
    ∀ {vs : List Value} {items : List BencodeType}, TreeList digest vs items →
      everyList longHere vs = true → DenotesList vs items
  | [], [], _, _ => trivial
  | v :: vs, item :: items, h, hlong => by
    simp only [TreeList] at h
    rw [everyList_cons] at hlong
    exact ⟨Tree.denotes h.1 hlong.1, TreeList.denotes h.2 hlong.2⟩

theorem TreeEntries.denotes {digest : List UInt8 → List UInt8} :
    ∀ {es : List (List UInt8 × Value)} {entries : List (HashPosition BencodeType)}
      {table : HashTable BencodeType}, TreeEntries digest es entries → table.Wf →
      (∀ pos ∈ entries, pos ∈ table.entries) → everyEntry longHere es = true →
      DenotesEntries es table
  | [], [], _, _, _, _, _ => trivial
  | (k, v) :: es, pos :: entries, table, h, htable, hmem, hlong => by
    simp only [TreeEntries] at h
    obtain ⟨rfl, htree, -, htrees⟩ := h
    rw [everyEntry_cons] at hlong
    refine ⟨⟨pos.value, lookup_present htable (hmem pos (by simp)), Tree.denotes htree hlong.1⟩, ?_⟩
    exact TreeEntries.denotes htrees htable (fun q hq => hmem q (by simp [hq])) hlong.2

end

/-! ## Where the `info` values stand -/

/-- In `doc`, the key `info` and then the entry's value stand at the entry's
offset. -/
def StandsIn (doc : List UInt8) (entry : Nat × Value) : Prop :=
  entry.2.isDict = true ∧ ∃ before after,
    doc = before ++ (encodeStr infoKey ++ (encode entry.2 ++ after)) ∧
    entry.1 = before.length + (encodeStr infoKey).length

mutual

theorem infoEntries_stand : ∀ (v : Value) {before after : List UInt8}, v.wf = true →
    ∀ entry ∈ infoEntries before.length v, StandsIn (before ++ (encode v ++ after)) entry
  | .int n, before, after, _ => by simp [infoEntries]
  | .str s, before, after, _ => by simp [infoEntries]
  | .list vs, before, after, hwf => by
    have hpos : before.length + 1 = (before ++ [108]).length := by simp
    rw [infoEntries, hpos, encode, bracket_inside]
    exact infoEntriesList_stand vs (every_list.mp hwf).2
  | .dict es, before, after, hwf => by
    have hpos : before.length + 1 = (before ++ [100]).length := by simp
    obtain ⟨hhere, hinside⟩ := every_dict.mp hwf
    simp only [wfHere, Bool.and_eq_true] at hhere
    rw [infoEntries, hpos, encode, bracket_inside]
    exact infoEntriesDict_stand es hhere.1 hinside

theorem infoEntriesList_stand : ∀ (vs : List Value) {before after : List UInt8},
    everyList wfHere vs = true →
    ∀ entry ∈ infoEntriesList before.length vs, StandsIn (before ++ (encodeList vs ++ after)) entry
  | [], before, after, _ => by simp [infoEntriesList]
  | v :: vs, before, after, hwf => by
    rw [everyList_cons] at hwf
    rw [infoEntriesList, encodeList, List.append_assoc]
    intro entry hentry
    rcases List.mem_append.mp hentry with hentry | hentry
    · exact infoEntries_stand v hwf.1 entry hentry
    · rw [← List.length_append] at hentry
      rw [← List.append_assoc before]
      exact infoEntriesList_stand vs hwf.2 entry hentry

theorem infoEntriesDict_stand : ∀ (es : List (List UInt8 × Value)) {before after : List UInt8},
    es.all wfEntry = true → everyEntry wfHere es = true →
    ∀ entry ∈ infoEntriesDict before.length es,
      StandsIn (before ++ (encodeEntries es ++ after)) entry
  | [], before, after, _, _ => by simp [infoEntriesDict]
  | (k, v) :: es, before, after, hkeys, hwf => by
    rw [everyEntry_cons] at hwf
    rw [List.all_cons, Bool.and_eq_true] at hkeys
    rw [infoEntriesDict, encodeEntries, List.append_assoc, List.append_assoc]
    intro entry hentry
    rw [List.mem_append, List.mem_append] at hentry
    rcases hentry with hentry | hentry | hentry
    · rw [← List.length_append] at hentry
      rw [← List.append_assoc before]
      exact infoEntries_stand v hwf.1 entry hentry
    · by_cases hk : k = infoKey
      · subst hk
        rw [if_pos rfl, List.mem_singleton] at hentry
        subst hentry
        exact ⟨(wfEntry_iff.mp hkeys.1).2.2 rfl, before, encodeEntries es ++ after, rfl, rfl⟩
      · rw [if_neg hk] at hentry
        cases hentry
    · rw [← List.length_append, ← List.length_append] at hentry
      rw [← List.append_assoc before, ← List.append_assoc (before ++ encodeStr k)]
      exact infoEntriesDict_stand es hkeys.2 hwf.2 entry hentry

end

end BtClient

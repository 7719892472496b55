import BtClient.Bencode.Acceptance
import BtClient.Bencode.Document
import BtClient.Bencode.Spelling
import BtClient.Bencode.TokenText

/-!
# Whether a text that is parsed without errors is bencode

An item that costs no errors has the text of a spelling the lexer takes
(`Raw.spelling`), and the parser returns what that spelling gives. Whether it is
bencode, and the tree its value, is left to the numerals: the lexer takes any
digits and minus signs, and `strtol` stops at the first sign and clamps.
-/

namespace BtClient

open CLib

mutual

/-- What the parser returns for a spelling. -/
def Spelling.Gives : Spelling → BencodeType → Prop
  | .int num, .integer n => n = numeralValue num
  | .str _ s, .bytestring len str => len = s.length ∧ str = some s
  | .list items, .list values => GivesItems items values
  | .dict entries, .dictionary table _ =>
    table.Sound ∧ ∃ ps, table.entries.Perm ps ∧ GivesEntries entries ps
  | _, _ => False

def GivesItems : List Spelling → List BencodeType → Prop
  | [], [] => True
  | w :: items, value :: values => w.Gives value ∧ GivesItems items values
  | _, _ => False

def GivesEntries : List ((List UInt8 × List UInt8) × Spelling) →
    List (HashPosition BencodeType) → Prop
  | [], [] => True
  | ((_, key), w) :: entries, pos :: ps =>
    pos.key = cString key ∧ w.Gives pos.value ∧ GivesEntries entries ps
  | _, _ => False

end

/-! ## From tokens to text -/

/-- The lexer has gone over `text`. -/
structure Passed (before rest text rest' : List UInt8) (l' : Lexer) : Prop where
  split : rest = text ++ rest'
  at_ : l'.At (before ++ text) rest'

section Spelled

variable {hashes : Nat → Nat → Prop} {l l' : Lexer} {before rest : List UInt8}

theorem Passed.append {text text' rest₁ rest' : List UInt8} {l₁ : Lexer}
    (h : Passed before rest text rest₁ l₁) (h' : Passed (before ++ text) rest₁ text' rest' l') :
    Passed before rest (text ++ text') rest' l' :=
  ⟨by rw [h.split, h'.split, List.append_assoc], by rw [← List.append_assoc]; exact h'.at_⟩

theorem passed_byte {t : Token} {c : UInt8} (hat : l.At before rest)
    (hnext : nextToken l = .ok (t, l')) (hc : structural c t.type) :
    ∃ rest', Passed before rest [c] rest' l' := by
  obtain ⟨rest', rfl, hafter⟩ := (nextToken_text hat hnext).of_byte hc
  exact ⟨rest', rfl, hafter.at_⟩

theorem RawString.spelling {s : RawString} (hvalid : s.Valid) (hat : l.At before rest)
    (hyields : Yields nextToken l s.tokens l') :
    ∃ size rest', LexedSize size s.bytes.asString ∧
      Passed before rest (sizedText size s.bytes.asString) rest' l' ∧
      sizeOfLong s.size.asInt = s.bytes.asString.length := by
  obtain ⟨l₁, hsize, l₂, hcolon, l₃, hbytes, rfl⟩ := hyields
  obtain ⟨size, stop, rest₁, hnumber⟩ := (nextToken_text hat hsize).of_number (.inr hvalid.size)
  obtain ⟨rest₂, hrest₁, hafter₂⟩ := (nextToken_text hnumber.after.at_ hcolon).of_byte
    (c := 58) (.inl ⟨rfl, hvalid.colon⟩)
  obtain ⟨s₃, rest₃, hstring⟩ := (nextToken_text hafter₂.at_ hbytes).of_string hvalid.bytes
  -- behind a numeral stands an `e` or a colon, and only the colon becomes this token
  obtain ⟨rfl, rfl⟩ := List.cons.inj hrest₁
  have hvalue : s.size.asInt = numeralValue size := by rw [hnumber.token]
  have hbytes₃ : s.bytes.asString = s₃ := by rw [hstring.token]
  have hprev : l₂.prevprev = s.size := by rw [hafter₂.prevprev, hnumber.after.prev]
  have hlen : s₃.length = sizeOfLong (numeralValue size) := by rw [hstring.length, hprev, hvalue]
  subst hbytes₃
  refine ⟨size, rest₃, ⟨⟨hnumber.nonempty, hnumber.bytes⟩, hlen⟩, ⟨?_, ?_⟩, ?_⟩
  · rw [hnumber.text, hstring.text, sizedText, List.append_assoc, List.cons_append]
  · simpa [sizedText] using hstring.after.at_
  · rw [hvalue, hlen]

theorem Raw.spelling_int {start num stop : Token} {after : TokenType}
    (hvalid : (Raw.int start num stop).Valid hashes after)
    (hat : l.At before rest) (hyields : Yields nextToken l [start, num, stop] l') :
    ∃ text rest', LexedNumeral text ∧ Passed before rest (105 :: (text ++ [101])) rest' l' ∧
      num.asInt = numeralValue text := by
  obtain ⟨hstart, hnum, hstop⟩ := hvalid
  obtain ⟨l₁, hnext₁, l₂, hnext₂, l₃, hnext₃, rfl⟩ := hyields
  obtain ⟨rest₁, rfl, hafter₁⟩ := (nextToken_text hat hnext₁).of_byte (c := 105)
    (by simp [structural, hstart])
  obtain ⟨text, c, rest₂, hnumber⟩ := (nextToken_text hafter₁.at_ hnext₂).of_number (.inl hnum)
  obtain ⟨rest₃, hrest₂, hafter₃⟩ := (nextToken_text hnumber.after.at_ hnext₃).of_byte
    (c := 101) (by simp [structural, hstop])
  obtain ⟨rfl, rfl⟩ := List.cons.inj hrest₂
  refine ⟨text, rest₂, ⟨hnumber.nonempty, hnumber.bytes⟩, ⟨?_, ?_⟩, by rw [hnumber.token]⟩
  · simp [hnumber.text]
  · simpa using hafter₃.at_

mutual

/-- **An item without errors has the text of a spelling**, and is what it gives. -/
theorem Raw.spelling : ∀ (r : Raw) {after : TokenType} {l l' : Lexer} {before rest : List UInt8},
    r.Valid hashes after → r.errors = 0 → l.At before rest → Yields nextToken l r.tokens l' →
    ∃ (w : Spelling) (rest' : List UInt8), w.Lexed ∧ Passed before rest w.text rest' l' ∧
      ∀ item, r.Builds item → w.Gives item
  | .int start num stop, after, l, l', before, rest, hvalid, _, hat, hyields => by
    obtain ⟨text, rest', hlexed, hpassed, hvalue⟩ := Raw.spelling_int hvalid hat hyields
    refine ⟨.int text, rest', hlexed, by rwa [Spelling.text], fun item hbuilds => ?_⟩
    cases item with
    | integer n =>
      rw [Spelling.Gives, ← hvalue]
      exact hbuilds
    | _ => simp [Raw.Builds] at hbuilds
  | .str s, after, l, l', before, rest, hvalid, _, hat, hyields => by
    obtain ⟨size, rest', hlexed, hpassed, hlen⟩ := RawString.spelling hvalid hat hyields
    refine ⟨.str size s.bytes.asString, rest', hlexed, by rwa [Spelling.text],
      fun item hbuilds => ?_⟩
    cases item with
    | bytestring len str =>
      rw [Spelling.Gives, ← hlen]
      exact hbuilds
    | _ => simp [Raw.Builds] at hbuilds
  | .list start items stop, after, l, l', before, rest, hvalid, herrors, hat, hyields => by
    obtain ⟨hstart, hstop, hitems⟩ := hvalid
    rw [Raw.tokens] at hyields
    obtain ⟨l₁, hnext₁, hbody⟩ := hyields
    obtain ⟨l₂, hbody, l₃, hnext₃, rfl⟩ := yields_append.mp hbody
    obtain ⟨rest₁, hpassed₁⟩ := passed_byte (c := 108) hat hnext₁ (by simp [structural, hstart])
    obtain ⟨ws, rest₂, hlexed, hpassed₂, hgives⟩ :=
      Raw.spelling_items items hitems herrors hpassed₁.at_ hbody
    obtain ⟨rest₃, hpassed₃⟩ := passed_byte (c := 101) hpassed₂.at_ hnext₃
      (by simp [structural, hstop])
    refine ⟨.list ws, rest₃, ⟨trivial, hlexed⟩, ?_, fun item hbuilds => ?_⟩
    · rw [Spelling.text]
      exact hpassed₁.append (hpassed₂.append hpassed₃)
    · cases item with
      | list values => exact hgives values hbuilds
      | _ => simp [Raw.Builds] at hbuilds
  | .dict start entries stop, after, l, l', before, rest, hvalid, herrors, hat, hyields => by
    obtain ⟨hstart, hstop, hentries⟩ := hvalid
    rw [Raw.tokens] at hyields
    obtain ⟨l₁, hnext₁, hbody⟩ := hyields
    obtain ⟨l₂, hbody, l₃, hnext₃, rfl⟩ := yields_append.mp hbody
    obtain ⟨rest₁, hpassed₁⟩ := passed_byte (c := 100) hat hnext₁ (by simp [structural, hstart])
    obtain ⟨ws, rest₂, hkeys, hlexed, hpassed₂, hgives⟩ :=
      Raw.spelling_entries entries hentries herrors hpassed₁.at_ hbody
    obtain ⟨rest₃, hpassed₃⟩ := passed_byte (c := 101) hpassed₂.at_ hnext₃
      (by simp [structural, hstop])
    refine ⟨.dict ws, rest₃, ⟨hkeys, hlexed⟩, ?_, fun item hbuilds => ?_⟩
    · rw [Spelling.text]
      exact hpassed₁.append (hpassed₂.append hpassed₃)
    · cases item with
      | dictionary table digest =>
        obtain ⟨hsound, es, hperm, hbuilds⟩ := hbuilds
        exact ⟨hsound, es, hperm, hgives es hbuilds⟩
      | _ => simp [Raw.Builds] at hbuilds
  -- every other way to return has recorded an error
  | .intUnended _ _, _, _, _, _, _, _, herrors, _, _ => by simp [Raw.errors] at herrors
  | .intEmpty _ _, _, _, _, _, _, _, herrors, _, _ => by simp [Raw.errors] at herrors
  | .intMissing _, _, _, _, _, _, _, herrors, _, _ => by simp [Raw.errors] at herrors
  | .strUnread _ _, _, _, _, _, _, _, herrors, _, _ => by simp [Raw.errors] at herrors
  | .strCut _, _, _, _, _, _, _, herrors, _, _ => by simp [Raw.errors] at herrors
  | .dictCut _ _ _, _, _, _, _, _, _, herrors, _, _ => by simp [Raw.errors] at herrors
  | .stray _, _, _, _, _, _, _, herrors, _, _ => by simp [Raw.errors] at herrors

theorem Raw.spelling_items : ∀ (items : List Raw) {after : TokenType} {l l' : Lexer}
    {before rest : List UInt8}, ValidItems hashes items after → rawErrors items = 0 →
    l.At before rest → Yields nextToken l (rawTokens items) l' →
    ∃ (ws : List Spelling) (rest' : List UInt8), EveryItem lexedHere ws ∧
      Passed before rest (textList ws) rest' l' ∧
      ∀ values, BuildsItems items values → GivesItems ws values
  | [], after, l, l', before, rest, _, _, hat, hyields => by
    cases hyields
    refine ⟨[], rest, trivial, ⟨rfl, by simpa [textList] using hat⟩, fun values hbuilds => ?_⟩
    cases values with
    | nil => trivial
    | cons value values => exact hbuilds.elim
  | r :: items, after, l, l', before, rest, hvalid, herrors, hat, hyields => by
    obtain ⟨-, hr, hitems⟩ := hvalid
    rw [rawErrors, Nat.add_eq_zero_iff] at herrors
    rw [rawTokens, yields_append] at hyields
    obtain ⟨l₁, hyields₁, hyields₂⟩ := hyields
    obtain ⟨w, rest₁, hlexed₁, hpassed₁, hgives₁⟩ := Raw.spelling r hr herrors.1 hat hyields₁
    obtain ⟨ws, rest₂, hlexed₂, hpassed₂, hgives₂⟩ :=
      Raw.spelling_items items hitems herrors.2 hpassed₁.at_ hyields₂
    refine ⟨w :: ws, rest₂, ⟨hlexed₁, hlexed₂⟩, hpassed₁.append hpassed₂, fun values hbuilds => ?_⟩
    cases values with
    | nil => exact hbuilds.elim
    | cons value values => exact ⟨hgives₁ value hbuilds.1, hgives₂ values hbuilds.2⟩

theorem Raw.spelling_entries : ∀ (entries : List (RawString × Raw)) {after : TokenType}
    {l l' : Lexer} {before rest : List UInt8}, ValidEntries hashes entries after →
    rawEntryErrors entries = 0 → l.At before rest →
    Yields nextToken l (rawEntryTokens entries) l' →
    ∃ (ws : List ((List UInt8 × List UInt8) × Spelling)) (rest' : List UInt8),
      (∀ e ∈ ws, LexedSize e.1.1 e.1.2) ∧ EveryEntry lexedHere ws ∧
      Passed before rest (textEntries ws) rest' l' ∧
      ∀ ps, BuildsEntries entries ps → GivesEntries ws ps
  | [], after, l, l', before, rest, _, _, hat, hyields => by
    cases hyields
    refine ⟨[], rest, by simp, trivial, ⟨rfl, by simpa [textEntries] using hat⟩,
      fun ps hbuilds => ?_⟩
    cases ps with
    | nil => trivial
    | cons pos ps => exact hbuilds.elim
  | (k, r) :: entries, after, l, l', before, rest, hvalid, herrors, hat, hyields => by
    obtain ⟨hk, hr, -, hentries⟩ := hvalid
    rw [rawEntryErrors, Nat.add_eq_zero_iff] at herrors
    rw [rawEntryTokens, yields_append] at hyields
    obtain ⟨l₁, hyields₁, hyields₂⟩ := hyields
    obtain ⟨l₂, hyields₂, hyields₃⟩ := yields_append.mp hyields₂
    obtain ⟨size, rest₁, hsize, hpassed₁, -⟩ := RawString.spelling hk hat hyields₁
    obtain ⟨w, rest₂, hlexed₂, hpassed₂, hgives₂⟩ :=
      Raw.spelling r hr herrors.1 hpassed₁.at_ hyields₂
    obtain ⟨ws, rest₃, hkeys₃, hlexed₃, hpassed₃, hgives₃⟩ :=
      Raw.spelling_entries entries hentries herrors.2 hpassed₂.at_ hyields₃
    refine ⟨((size, k.bytes.asString), w) :: ws, rest₃, ?_, ⟨hlexed₂, hlexed₃⟩, ?_,
      fun ps hbuilds => ?_⟩
    · intro e he
      rcases List.mem_cons.mp he with rfl | he
      · exact hsize
      · exact hkeys₃ e he
    · exact hpassed₁.append (hpassed₂.append hpassed₃)
    · cases ps with
      | nil => exact hbuilds.elim
      | cons pos ps =>
        obtain ⟨hkey, hvalue, htail⟩ := hbuilds
        exact ⟨hkey, hgives₂ pos.value hvalue, hgives₃ ps htail⟩

end

end Spelled

/-! ## The value of a spelling -/

theorem valueEntries_keys : ∀ entries : List ((List UInt8 × List UInt8) × Spelling),
    (valueEntries entries).map Prod.fst = entries.map fun e => e.1.2
  | [] => rfl
  | ((_, key), w) :: entries => by
    rw [valueEntries, List.map_cons, List.map_cons, valueEntries_keys entries]

/-- A key without `NUL` is inserted whole. -/
theorem cString_key {size key : List UInt8} {w : Spelling}
    {entries : List ((List UInt8 × List UInt8) × Spelling)}
    (hzero : ∀ c ∈ textEntries (((size, key), w) :: entries), c ≠ 0) : cString key = key := by
  refine cString_eq (List.all_eq_true.mpr fun c hc => ?_)
  simpa using hzero c (by simp [textEntries, sizedText, hc])

theorem GivesEntries.keys : ∀ {entries : List ((List UInt8 × List UInt8) × Spelling)}
    {ps : List (HashPosition BencodeType)}, GivesEntries entries ps →
    (∀ c ∈ textEntries entries, c ≠ 0) →
    ps.map HashPosition.key = entries.map fun e => e.1.2
  | [], [], _, _ => rfl
  | ((size, key), w) :: entries, pos :: ps, h, hzero => by
    obtain ⟨hkey, -, htail⟩ := h
    have hkeep := cString_key hzero
    rw [List.map_cons, List.map_cons, hkey, hkeep,
      GivesEntries.keys htail fun c hc => hzero c (by simp [textEntries, hc])]

mutual

/-- **The tree of a bencode text is its value exactly when the integers are
`long`s.** -/
theorem Spelling.Gives.denotes_iff : ∀ {w : Spelling} {item : BencodeType}, w.Gives item →
    w.WellFormed → (∀ c ∈ w.text, c ≠ 0) → (Denotes w.value item ↔ w.LongValues)
  | .int num, .integer n, h, _, _ => by
    simp only [Spelling.Gives] at h
    rw [Spelling.value, Denotes, h, numeralValue, Spelling.LongValues, Spelling.Every,
      longValueHere]
    unfold clampLong
    omega
  | .str size s, .bytestring len str, h, _, _ => by
    simp only [Spelling.Gives] at h
    rw [Spelling.value, Denotes]
    exact iff_of_true h trivial
  | .list items, .list values, h, hw, hzero => by
    simp only [Spelling.Gives] at h
    rw [Spelling.value, Denotes, GivesItems.denotes_iff h hw.2
      fun c hc => hzero c (by simp [Spelling.text, hc])]
    exact ⟨fun h => ⟨trivial, h⟩, fun h => h.2⟩
  | .dict entries, .dictionary table _, h, hw, hzero => by
    simp only [Spelling.Gives] at h
    obtain ⟨hsound, ps, hperm, hgives⟩ := h
    obtain ⟨⟨-, hdistinct⟩, hinside⟩ := hw
    have hzeros : ∀ c ∈ textEntries entries, c ≠ 0 := fun c hc =>
      hzero c (by simp [Spelling.text, hc])
    have hkeys : table.keys.Perm (entries.map fun e => e.1.2) := by
      rw [← hgives.keys hzeros]
      exact hperm.map HashPosition.key
    have htable : table.Wf := hsound.wf (hkeys.nodup_iff.mpr hdistinct)
    have habsent : ∀ key, key ∉ (valueEntries entries).map Prod.fst →
        hashTableLookup table key = .ok none := by
      intro key hkey
      rw [valueEntries_keys] at hkey
      exact lookup_absent htable (by rwa [hkeys.mem_iff])
    rw [Spelling.value, Denotes, hgives.denotes_iff htable
      (fun pos hpos => hperm.mem_iff.mpr hpos) hinside hzeros]
    exact ⟨fun h => ⟨trivial, h.1⟩, fun h => ⟨h.2, habsent⟩⟩

theorem GivesItems.denotes_iff : ∀ {items : List Spelling} {values : List BencodeType},
    GivesItems items values → EveryItem wellFormedHere items → (∀ c ∈ textList items, c ≠ 0) →
    (DenotesList (valueList items) values ↔ EveryItem longValueHere items)
  | [], [], _, _, _ => Iff.rfl
  | w :: items, value :: values, h, hw, hzero => by
    rw [valueList, DenotesList, EveryItem]
    exact and_congr
      (Spelling.Gives.denotes_iff h.1 hw.1 fun c hc => hzero c (by simp [textList, hc]))
      (GivesItems.denotes_iff h.2 hw.2 fun c hc => hzero c (by simp [textList, hc]))

theorem GivesEntries.denotes_iff : ∀ {entries : List ((List UInt8 × List UInt8) × Spelling)}
    {ps : List (HashPosition BencodeType)} {table : HashTable BencodeType},
    GivesEntries entries ps → table.Wf → (∀ pos ∈ ps, pos ∈ table.entries) →
    EveryEntry wellFormedHere entries → (∀ c ∈ textEntries entries, c ≠ 0) →
    (DenotesEntries (valueEntries entries) table ↔ EveryEntry longValueHere entries)
  | [], [], _, _, _, _, _, _ => Iff.rfl
  | ((size, key), w) :: entries, pos :: ps, table, h, htable, hmem, hw, hzero => by
    obtain ⟨hkey, hvalue, htail⟩ := h
    have hkeep := cString_key hzero
    -- the keys being distinct, a lookup can only find this entry
    have hlookup : hashTableLookup table key = .ok (some pos.value) := by
      rw [← hkeep, ← hkey]
      exact lookup_present htable (hmem pos (by simp))
    rw [valueEntries, DenotesEntries, EveryEntry, hlookup]
    refine and_congr ?_ (htail.denotes_iff htable (fun q hq => hmem q (by simp [hq])) hw.2
      fun c hc => hzero c (by simp [textEntries, hc]))
    refine Iff.trans ?_
      (Spelling.Gives.denotes_iff hvalue hw.1 fun c hc => hzero c (by simp [textEntries, hc]))
    constructor
    · rintro ⟨item, hitem, hdenotes⟩
      cases hitem
      exact hdenotes
    · intro hdenotes
      exact ⟨pos.value, rfl, hdenotes⟩

end

/-! ## Whole texts -/

/-- The bytes from the lexer of `p` on up to and including the current token of
`p'`: behind them the look-ahead was read. -/
def Parser.Consumed (p p' : Parser) (text : List UInt8) : Prop :=
  ∃ ts l rest, Yields nextToken p.l (ts ++ [p'.curToken]) l ∧
    nextToken l = .ok (p'.peekToken, p'.l) ∧ l.At text rest

/-- The bytes consumed are bencode, and the tree is the value they denote. -/
def ParsedBencode (p : Parser) (item : BencodeType) (p' : Parser) : Prop :=
  ∃ w : Spelling, w.WellFormed ∧ p.Consumed p' w.text ∧ Denotes w.value item

section Front

variable {doc rest : List UInt8} {zeros : Nat}

/-- A text that ends with a byte other than `NUL` has none. -/
theorem nonzero_of_last {text : List UInt8} {c : UInt8} (hdoc : ∀ d ∈ doc, d ≠ 0) (hc : c ≠ 0)
    (h : doc ++ List.replicate zeros 0 = text ++ [c] ++ rest) : ∀ d ∈ text ++ [c], d ≠ 0 := by
  intro d hd
  rcases List.append_eq_append_iff.mp h with ⟨inside, htext, hzeros⟩ | ⟨inside, hdoc', -⟩
  · rcases List.eq_nil_or_concat inside with rfl | ⟨front, last, rfl⟩
    · rw [htext, List.append_nil] at hd
      exact hdoc d hd
    · -- the last byte would be one of the `NUL`s
      rw [List.concat_eq_append, ← List.append_assoc] at htext
      obtain ⟨-, hlast⟩ := List.append_inj' htext rfl
      cases hlast
      have hmem : c ∈ List.replicate zeros 0 := by
        rw [hzeros]
        simp
      exact absurd (List.eq_of_mem_replicate hmem) hc
  · exact hdoc d (by rw [hdoc']; exact List.mem_append_left inside hd)

/-- The tree of what a text begins with. -/
theorem Spelling.Gives.denotes_front {w : Spelling} {item : BencodeType} (hdoc : ∀ d ∈ doc, d ≠ 0)
    (hfront : doc ++ List.replicate zeros 0 = w.text ++ rest) (h : w.Gives item)
    (hw : w.WellFormed) : Denotes w.value item ↔ w.LongValues := by
  cases w with
  | str size s =>
    cases item with
    | bytestring len str => exact iff_of_true h trivial
    | _ => exact h.elim
  | int num =>
    refine h.denotes_iff hw ?_
    rw [Spelling.text, ← List.cons_append] at hfront ⊢
    exact nonzero_of_last hdoc (by decide) hfront
  | list items =>
    refine h.denotes_iff hw ?_
    rw [Spelling.text, ← List.cons_append] at hfront ⊢
    exact nonzero_of_last hdoc (by decide) hfront
  | dict entries =>
    refine h.denotes_iff hw ?_
    rw [Spelling.text, ← List.cons_append] at hfront ⊢
    exact nonzero_of_last hdoc (by decide) hfront

theorem Parser.Consumed.front {input : Option Bool} {mem text : List UInt8}
    {seeds : Nat → TableSeed} {p' : Parser}
    (h : (startParser input mem seeds).Consumed p' text) : ∃ rest, mem = text ++ rest := by
  obtain ⟨ts, l, rest, hyields, -, hat⟩ := h
  have hbuf : l.buf = mem := yields_buf hyields
  exact ⟨rest, by rw [← hbuf, hat.buf]⟩

end Front

/-- **No error means bencode, exactly when the text is well spelled.** -/
theorem error_free_bencode_iff {getSha1 : List UInt8 → Nat → Nat → Except Fault (List UInt8)}
    {fuel zeros : Nat} {input : Option Bool} {doc : List UInt8} {seeds : Nat → TableSeed}
    {item : BencodeType} {p' : Parser} (hdoc : ∀ c ∈ doc, c ≠ 0)
    (hrun : parseBuffer getSha1 fuel (startParser input (doc ++ List.replicate zeros 0) seeds)
      = .ok item p') (herrors : p'.errors = []) :
    ParsedBencode (startParser input (doc ++ List.replicate zeros 0) seeds) item p' ↔
      WellSpelled (doc ++ List.replicate zeros 0) := by
  obtain ⟨r, l, hvalid, htaken, hlast, hcount, -, ⟨ts, hts⟩, hbuilds⟩ :=
    parseBuffer_derived rfl hrun
  have hnone : r.errors = 0 := by rw [← hcount, herrors, List.length_nil]
  obtain ⟨w, rest, hlexed, hpassed, hgives⟩ :=
    r.spelling hvalid hnone (startParser_at input _ seeds) htaken
  have hdenotes := (hgives item hbuilds).denotes_front hdoc hpassed.split
  constructor
  · -- the text has one spelling only, so all of these are the one that was parsed
    rintro ⟨w', hw', hconsumed, hvalue⟩ w₁ rest₁ hlexed₁ hfront₁
    obtain ⟨rest', hfront'⟩ := hconsumed.front
    obtain ⟨rfl, -⟩ := text_unambiguous hlexed hw'.lexed (hpassed.split.symm.trans hfront')
    obtain ⟨rfl, -⟩ := text_unambiguous hlexed hlexed₁ (hpassed.split.symm.trans hfront₁)
    exact ⟨hw', (hdenotes hw').mp hvalue⟩
  · intro hspelled
    obtain ⟨hw, hlong⟩ := hspelled w rest hlexed hpassed.split
    rw [hts] at htaken
    exact ⟨w, hw, ⟨ts, l, rest, htaken, hlast, hpassed.at_⟩, (hdenotes hw).mpr hlong⟩

/-- The run returned without an error. -/
def errorFree : EStateM.Result Fault Parser BencodeType → Bool
  | .ok _ p' => p'.errors.isEmpty
  | .error _ _ => false

theorem returns_of_errorFree {r : EStateM.Result Fault Parser BencodeType}
    (h : errorFree r = true) : ∃ item p', r = .ok item p' ∧ p'.errors = [] := by
  cases r with
  | ok item p' => exact ⟨item, p', rfl, List.isEmpty_iff.mp h⟩
  | error e p' => cases h

/-- The text `d1:ai-7ee`. -/
theorem error_free_bencode_entry :
    ∃ item p', parseBuffer (fun _ _ _ => .ok []) 5 (startParser none
        (encode (.dict [([97], .int (-7))]) ++ List.replicate 1 0) fun _ => ⟨0, 0⟩) = .ok item p' ∧
      ParsedBencode (startParser none
        (encode (.dict [([97], .int (-7))]) ++ List.replicate 1 0) fun _ => ⟨0, 0⟩) item p' := by
  have hfree : errorFree (parseBuffer (fun _ _ _ => .ok []) 5 (startParser none
      (encode (.dict [([97], .int (-7))]) ++ List.replicate 1 0) fun _ => ⟨0, 0⟩)) = true := by
    decide +kernel
  have hdoc : (encode (.dict [([97], .int (-7))])).all (· != 0) = true := by decide
  obtain ⟨item, p', hrun, herrors⟩ := returns_of_errorFree hfree
  exact ⟨item, p', hrun, (error_free_bencode_iff (by simpa using hdoc) hrun herrors).mpr
    (wellSpelled_encode (by decide) (by decide) (by decide) _)⟩

/-- The text `i-e` is parsed without an error, as the integer zero. -/
theorem lone_minus_accepted :
    ¬ ∀ (getSha1 : List UInt8 → Nat → Nat → Except Fault (List UInt8)) (fuel : Nat)
      (input : Option Bool) (doc : List UInt8) (seeds : Nat → TableSeed) (item : BencodeType)
      (p' : Parser), (∀ c ∈ doc, c ≠ 0) →
      parseBuffer getSha1 fuel (startParser input (doc ++ [0]) seeds) = .ok item p' →
      p'.errors = [] → ParsedBencode (startParser input (doc ++ [0]) seeds) item p' := by
  intro hclaim
  have hfree : errorFree (parseBuffer (fun _ _ _ => .ok []) 1
      (startParser none ([105, 45, 101] ++ [0]) fun _ => ⟨0, 0⟩)) = true := by
    decide +kernel
  obtain ⟨item, p', hrun, herrors⟩ := returns_of_errorFree hfree
  obtain ⟨w, hw, hconsumed, -⟩ := hclaim _ _ _ _ _ _ _ (by simp) hrun herrors
  obtain ⟨rest, hfront⟩ := hconsumed.front
  have hint : Spelling.Lexed (.int [45]) := ⟨by simp, by simp [numeralByte]⟩
  have htext : (Spelling.int [45]).text ++ [0] = w.text ++ rest := by
    rw [← hfront, Spelling.text]
    rfl
  obtain ⟨rfl, -⟩ := text_unambiguous hint hw.lexed htext
  obtain ⟨m, hm | hm⟩ := hw
  · have hdigit := isdigit_of_mem_decimal (n := m) (c := 45) (by rw [← hm]; simp)
    exact absurd hdigit (by decide)
  · exact absurd (List.cons.inj hm).2.symm (decimal_ne_nil m)

end BtClient

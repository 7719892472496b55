import BtClient.Bencode.Recovery

/-!
# The parser returns what it can take

The converse of `parseItem_derived`: in front of the tokens of a valid `Raw` and
a look-ahead, with room for its errors, `parse_item` returns. Together they say
when it returns at all (`parseBuffer_returns_iff`).
-/

namespace BtClient

open CLib

/-- The parser stands in front of the tokens `ts`, the first two of them read; the
lexer is `l` behind the last. -/
def Parser.Stands (p : Parser) (ts : List Token) (l : Lexer) : Prop :=
  ∃ used, ts = p.curToken :: p.peekToken :: used ∧ Yields nextToken p.l used l

section Stands

variable {p : Parser} {t t' t'' : Token} {ts : List Token} {l : Lexer}

theorem Parser.Stands.curToken (h : p.Stands (t :: ts) l) : p.curToken = t := by
  obtain ⟨used, hts, -⟩ := h
  exact (List.cons.inj hts).1.symm

theorem Parser.Stands.peekToken (h : p.Stands (t :: t' :: ts) l) : p.peekToken = t' := by
  obtain ⟨used, hts, -⟩ := h
  exact (List.cons.inj (List.cons.inj hts).2).1.symm

theorem Parser.Stands.next (h : p.Stands (t :: t' :: t'' :: ts) l) :
    ∃ l₁, nextToken p.l = .ok (t'', l₁) ∧ (p.next t'' l₁).Stands (t' :: t'' :: ts) l := by
  obtain ⟨used, hts, hyields⟩ := h
  simp only [List.cons.injEq] at hts
  obtain ⟨-, rfl, rfl⟩ := hts
  obtain ⟨l₁, hnext, hyields⟩ := hyields
  exact ⟨l₁, hnext, ts, rfl, hyields⟩

/-- In front of two more tokens the parser can go on. -/
theorem Parser.Stands.start (h : p.Stands (t :: ts) l) (hts : 2 ≤ ts.length) :
    ∃ t' l₁, nextToken p.l = .ok (t', l₁) ∧ (p.next t' l₁).Stands ts l := by
  match ts, hts with
  | t' :: t'' :: rest, _ =>
    obtain ⟨l₁, hnext, hat₁⟩ := h.next
    exact ⟨t'', l₁, hnext, hat₁⟩

theorem Parser.Stands.buf (h : p.Stands ts l) : l.buf = p.l.buf := by
  obtain ⟨used, -, hyields⟩ := h
  exact yields_buf hyields

end Stands

/-- `p'` stands in front of `ts`, with so many errors more than `p`. -/
structure Accepted (p : Parser) (errors : Nat) (ts : List Token) (l : Lexer) (p' : Parser) :
    Prop where
  stands : p'.Stands ts l
  errors : p'.errors.length = p.errors.length + errors

mutual

/-- Fuel enough to take an item. -/
def Raw.weight : Raw → Nat
  | .list _ items _ => 2 + rawWeight items
  | .dict _ entries _ => 2 + rawEntryWeight entries
  | .dictCut _ entries key => 2 + rawEntryWeight entries + key.weight
  | _ => 1

def rawWeight : List Raw → Nat
  | [] => 0
  | r :: items => 1 + r.weight + rawWeight items

def rawEntryWeight : List (RawString × Raw) → Nat
  | [] => 0
  | (_, r) :: entries => 1 + r.weight + rawEntryWeight entries

end

theorem Raw.weight_pos (r : Raw) : 0 < r.weight := by
  cases r <;> simp only [Raw.weight] <;> omega

section Leaves

variable {p : Parser} {next : Token} {ts : List Token} {l : Lexer}

theorem integerEnd_accepts (n : Int) {t stop : Token} (hstop : stop.type = .end_)
    (hat : p.Stands (t :: stop :: next :: ts) l) :
    ∃ p', integerEnd n p = .ok (.integer n) p' ∧ Accepted p 0 (stop :: next :: ts) l p' := by
  obtain ⟨l₁, hnext, hat₁⟩ := hat.next
  have hpeek : p.peekToken.type = .end_ := by rw [hat.peekToken, hstop]
  exact ⟨p.next next l₁, (integerEnd_returns_iff_of_eq hpeek).mpr ⟨rfl, next, l₁, hnext, rfl⟩,
    hat₁, rfl⟩

theorem integerEnd_fails (n : Int) {t : Token} (hnext : next.type ≠ .end_)
    (hat : p.Stands (t :: next :: ts) l) (hroom : p.errors.length + 2 ≤ 500) :
    ∃ p', integerEnd n p = .ok (.integer n) p' ∧ Accepted p 2 (t :: next :: ts) l p' := by
  have hpeek : p.peekToken.type ≠ .end_ := by rwa [hat.peekToken]
  refine ⟨_, (integerEnd_returns_iff_of_ne hpeek).mpr ⟨rfl, by omega, rfl⟩, hat, ?_⟩
  simp [Parser.failed]

end Leaves

section Runs

variable {getSha1 : List UInt8 → Nat → Nat → Except Fault (List UInt8)}

/-- `parse_item` takes `r` in front of `next`. -/
def TakesItem (getSha1 : List UInt8 → Nat → Nat → Except Fault (List UInt8)) (fuel : Nat)
    (p : Parser) (r : Raw) (next : Token) (ts : List Token) (l : Lexer) : Prop :=
  ∃ item p', parseItem getSha1 fuel p = .ok item p' ∧
    Accepted p r.errors (r.last :: next :: ts) l p' ∧ r.Builds item

section Leaves

variable {p : Parser} {next : Token} {ts : List Token} {l : Lexer}

theorem takes_int (fuel : Nat) {start num stop : Token}
    (hvalid : start.type = .intStart ∧ num.type = .int ∧ stop.type = .end_)
    (hat : p.Stands (start :: num :: stop :: next :: ts) l) :
    TakesItem getSha1 (fuel + 1) p (.int start num stop) next ts l := by
  obtain ⟨hstart, hnum, hstop⟩ := hvalid
  obtain ⟨l₁, hnext, hat₁⟩ := hat.next
  obtain ⟨p', hend, haccepted⟩ := integerEnd_accepts num.asInt hstop hat₁
  refine ⟨.integer num.asInt, p', ?_, ⟨haccepted.stands, haccepted.errors⟩, rfl⟩
  rw [parseItem_int fuel (by rw [hat.curToken, hstart]),
    parseInteger_returns_iff_of_eq (by rw [hat.peekToken, hnum]), hat.peekToken]
  exact ⟨stop, l₁, hnext, hend⟩

theorem takes_intUnended (fuel : Nat) {start num : Token}
    (hvalid : start.type = .intStart ∧ num.type = .int ∧ next.type ≠ .end_)
    (hat : p.Stands (start :: num :: next :: ts) l) (hroom : p.errors.length + 2 ≤ 500) :
    TakesItem getSha1 (fuel + 1) p (.intUnended start num) next ts l := by
  obtain ⟨hstart, hnum, hafter⟩ := hvalid
  obtain ⟨l₁, hnext, hat₁⟩ := hat.next
  obtain ⟨p', hend, haccepted⟩ := integerEnd_fails num.asInt hafter hat₁ hroom
  refine ⟨.integer num.asInt, p', ?_, ⟨haccepted.stands, haccepted.errors⟩, rfl⟩
  rw [parseItem_int fuel (by rw [hat.curToken, hstart]),
    parseInteger_returns_iff_of_eq (by rw [hat.peekToken, hnum]), hat.peekToken]
  exact ⟨next, l₁, hnext, hend⟩

/-- Without a numeral two errors are recorded before the end is expected. -/
theorem parseInteger_missing {start t : Token} (ht : t.type ≠ .int)
    (hat : p.Stands (start :: t :: ts) l) (hroom : p.errors.length + 2 ≤ 500) :
    ∃ p₁, p₁.Stands (start :: t :: ts) l ∧ p₁.errors.length = p.errors.length + 2 ∧
      ∀ item p', integerEnd start.asInt p₁ = .ok item p' → parseInteger p = .ok item p' := by
  refine ⟨(p.failed (expectMessage .int)).failed
    "Integer initializer is not followed by an integer value", hat, by simp [Parser.failed], ?_⟩
  intro item p' hend
  rw [parseInteger_returns_iff_of_ne (by rwa [hat.peekToken]), hat.curToken]
  exact ⟨by omega, hend⟩

theorem takes_intEmpty (fuel : Nat) {start stop : Token}
    (hvalid : start.type = .intStart ∧ stop.type = .end_)
    (hat : p.Stands (start :: stop :: next :: ts) l) (hroom : p.errors.length + 2 ≤ 500) :
    TakesItem getSha1 (fuel + 1) p (.intEmpty start stop) next ts l := by
  obtain ⟨hstart, hstop⟩ := hvalid
  obtain ⟨p₁, hat₁, herrors, hrun⟩ := parseInteger_missing (by rw [hstop]; simp) hat hroom
  obtain ⟨p', hend, haccepted⟩ := integerEnd_accepts start.asInt hstop hat₁
  refine ⟨.integer start.asInt, p', ?_, ⟨haccepted.stands, ?_⟩, rfl⟩
  · rw [parseItem_int fuel (by rw [hat.curToken, hstart])]
    exact hrun _ _ hend
  · rw [haccepted.errors, herrors]
    rfl

theorem takes_intMissing (fuel : Nat) {start : Token}
    (hvalid : start.type = .intStart ∧ next.type ≠ .int ∧ next.type ≠ .end_)
    (hat : p.Stands (start :: next :: ts) l) (hroom : p.errors.length + 4 ≤ 500) :
    TakesItem getSha1 (fuel + 1) p (.intMissing start) next ts l := by
  obtain ⟨hstart, hint, hend⟩ := hvalid
  obtain ⟨p₁, hat₁, herrors, hrun⟩ := parseInteger_missing hint hat (by omega)
  obtain ⟨p', hend, haccepted⟩ := integerEnd_fails start.asInt hend hat₁ (by omega)
  refine ⟨.integer start.asInt, p', ?_, ⟨haccepted.stands, ?_⟩, rfl⟩
  · rw [parseItem_int fuel (by rw [hat.curToken, hstart])]
    exact hrun _ _ hend
  · rw [haccepted.errors, herrors]
    rfl

theorem takes_str (fuel : Nat) {k : RawString} (hvalid : k.Valid)
    (hat : p.Stands (k.size :: k.colon :: k.bytes :: next :: ts) l) :
    TakesItem getSha1 (fuel + 1) p (.str k) next ts l := by
  obtain ⟨l₁, hnext, hat₁⟩ := hat.next
  obtain ⟨l₂, hnext₂, hat₂⟩ := hat₁.next
  have hcur : p.curToken.type = .stringSize := by rw [hat.curToken, hvalid.size]
  have hpeek : p.peekToken.type = .colon := by rw [hat.peekToken, hvalid.colon]
  refine ⟨.bytestring (sizeOfLong k.size.asInt) (some k.bytes.asString), _, ?_, ⟨hat₂, rfl⟩,
    rfl, rfl⟩
  rw [parseItem_str fuel hcur, parseBytestring_returns_iff hcur hpeek]
  exact ⟨k.bytes, l₁, hnext, .inr ⟨hvalid.bytes, next, l₂, hnext₂, by rw [hat.curToken], rfl⟩⟩

theorem takes_strUnread (fuel : Nat) {size colon : Token}
    (hvalid : size.type = .stringSize ∧ colon.type = .colon ∧ next.type ≠ .string)
    (hat : p.Stands (size :: colon :: next :: ts) l) (hroom : p.errors.length + 2 ≤ 500) :
    TakesItem getSha1 (fuel + 1) p (.strUnread size colon) next ts l := by
  obtain ⟨hsize, hcolon, hafter⟩ := hvalid
  obtain ⟨l₁, hnext, hat₁⟩ := hat.next
  have hcur : p.curToken.type = .stringSize := by rw [hat.curToken, hsize]
  have hpeek : p.peekToken.type = .colon := by rw [hat.peekToken, hcolon]
  refine ⟨.bytestring 0 none, ((p.next next l₁).failed (expectMessage .string)).failed
    "ERROR: A colon should be followed by a string\n", ?_, ⟨hat₁, ?_⟩, rfl, rfl⟩
  · rw [parseItem_str fuel hcur, parseBytestring_returns_iff hcur hpeek]
    exact ⟨next, l₁, hnext, .inl ⟨hafter, rfl, by omega, rfl⟩⟩
  · simp [Parser.failed, Parser.next, Raw.errors]

theorem takes_strCut (fuel : Nat) {size : Token}
    (hvalid : size.type = .stringSize ∧ next.type ≠ .colon)
    (hat : p.Stands (size :: next :: ts) l) (hroom : p.errors.length + 1 ≤ 500) :
    TakesItem getSha1 (fuel + 1) p (.strCut size) next ts l := by
  have hcur : p.curToken.type = .stringSize := by rw [hat.curToken, hvalid.1]
  have hpeek : p.peekToken.type ≠ .colon := by
    rw [hat.peekToken]
    exact hvalid.2
  refine ⟨.bytestring 0 none, p.failed (expectMessage .colon), ?_, ⟨hat, ?_⟩, rfl, rfl⟩
  · rw [parseItem_str fuel hcur, parseBytestring_returns_iff_of_ne hcur hpeek]
    exact ⟨rfl, by omega, rfl⟩
  · simp [Parser.failed, Raw.errors]

theorem takes_stray (fuel : Nat) {t : Token}
    (hvalid : t.type ≠ .intStart ∧ t.type ≠ .listStart ∧ t.type ≠ .dictStart ∧
      t.type ≠ .stringSize)
    (hat : p.Stands (t :: next :: ts) l) (hroom : p.errors.length + 1 ≤ 500) :
    TakesItem getSha1 (fuel + 1) p (.stray t) next ts l := by
  rw [← hat.curToken] at hvalid
  obtain ⟨hint, hlist, hdict, hstr⟩ := hvalid
  refine ⟨.error, p.failed "unexpected token", ?_, ⟨hat, ?_⟩, trivial⟩
  · rw [parseItem_stray fuel hint hlist hdict hstr, bind_returns_iff]
    exact ⟨(), _, parseError_returns_iff.mpr ⟨by omega, rfl⟩, rfl⟩
  · simp [Parser.failed, Raw.errors]

end Leaves

/-- A list of tokens that is followed by another has a first token. -/
theorem exists_head (before : List Token) (t : Token) (after : List Token) :
    ∃ c cs, before ++ t :: after = c :: cs ∧ after.length ≤ cs.length := by
  cases before with
  | nil => exact ⟨t, after, rfl, le_refl _⟩
  | cons b before =>
    refine ⟨b, before ++ t :: after, rfl, ?_⟩
    rw [List.length_append, List.length_cons]
    omega

/-- `parse_dict` around its loop. -/
theorem parseItem_opens {fuel : Nat} {p p' : Parser} {t : Token} {l : Lexer}
    {table : HashTable BencodeType} (hcur : p.curToken.type = .dictStart)
    (hnext : nextToken p.l = .ok (t, l))
    (hloop : parseDictLoop getSha1 fuel (hashTableInit (p.seeds p.tables)) (p.tabled.next t l)
      = .ok table p') : parseItem getSha1 (fuel + 1) p = .ok (.dictionary table none) p' := by
  rw [parseItem_dict fuel hcur]
  simp only [bind_returns_iff]
  exact ⟨(), _, parserNextToken_returns_iff.mpr ⟨t, l, hnext, rfl⟩, table, p', hloop, rfl⟩

/-- The loop of `parse_dict` gives up at a key that is no string. -/
theorem dictLoop_cut {fuel : Nat} (table : HashTable BencodeType) {p : Parser} {key : Raw}
    {next : Token} {ts : List Token} {l : Lexer} (hother : key.isString = false)
    (hopens : key.first.type ≠ .end_) (hat : p.Stands (key.tokens ++ next :: ts) l)
    (hroom : p.errors.length + key.errors < 500)
    (htakes : TakesItem getSha1 fuel p key next ts l) :
    ∃ p', parseDictLoop getSha1 (fuel + 1) table p = .ok table p' ∧
      Accepted p (key.errors + 1) (key.last :: next :: ts) l p' := by
  obtain ⟨item, p₁, hkey, haccepted, hbuilds⟩ := htakes
  have he := haccepted.errors
  have hitem : ∀ len str, item ≠ .bytestring len str := by
    rintro len str rfl
    rw [hbuilds.isString.mpr ⟨len, str, rfl⟩] at hother
    cases hother
  have hcur : p.curToken.type ≠ .end_ := by
    obtain ⟨more, hmore⟩ := key.tokens_first
    rw [hmore] at hat
    rwa [Parser.Stands.curToken hat]
  refine ⟨p₁.failed "Dictionary key is not a string\n", ?_, haccepted.stands, ?_⟩
  · rw [parseDictLoop_cut fuel table hcur hkey hitem, bind_returns_iff]
    exact ⟨(), _, parseError_returns_iff.mpr ⟨by omega, rfl⟩, rfl⟩
  · simp only [Parser.failed, List.length_append, List.length_singleton]
    omega

/-- One round of the loop of `parse_dict`, over an entry whose value is taken. -/
theorem dictRound {fuel : Nat} {table : HashTable BencodeType} {p : Parser} {k : RawString}
    {r : Raw} {c : Token} {cs : List Token} {l : Lexer} (hk : k.Valid)
    (hinfo : cString k.bytes.asString = infoKey → r.first.type = .dictStart ∧
      r.last.type = .end_ ∧ Hashable getSha1 l.buf r.first.pos r.last.pos)
    (hsound : table.Sound) (hat : p.Stands (k.tokens ++ (r.tokens ++ c :: cs)) l)
    (hcs : 0 < cs.length) (hroom : p.errors.length + r.errors ≤ 500)
    (hvalue : ∀ {p₁ : Parser}, p₁.Stands (r.tokens ++ c :: cs) l →
      p₁.errors.length + r.errors ≤ 500 → TakesItem getSha1 (fuel + 1) p₁ r c cs l) :
    ∃ table' p₁ value, table'.Sound ∧
      table'.entries.Perm (⟨cString k.bytes.asString, value⟩ :: table.entries) ∧
      r.Builds value ∧ Accepted p r.errors (c :: cs) l p₁ ∧
      ∀ out p', parseDictLoop getSha1 (fuel + 1) table' p₁ = .ok out p' →
        parseDictLoop getSha1 (fuel + 2) table p = .ok out p' := by
  obtain ⟨more, hmore⟩ := r.tokens_first
  rw [hmore] at hat
  -- the key
  have htaken : TakesItem getSha1 (fuel + 1) p (.str k) r.first (more ++ c :: cs) l :=
    takes_str fuel hk hat
  obtain ⟨key, p₁, hkey, haccepted₁, hbuilds₁⟩ := htaken
  obtain ⟨len, rfl⟩ : ∃ len, key = .bytestring len (some k.bytes.asString) := by
    cases key with
    | bytestring len str => exact ⟨len, by rw [hbuilds₁.2]⟩
    | _ => simp [Raw.Builds] at hbuilds₁
  have he₁ : p₁.errors.length = p.errors.length + 0 := haccepted₁.errors
  have hat₁ : p₁.Stands (k.bytes :: r.first :: (more ++ c :: cs)) l := haccepted₁.stands
  obtain ⟨t, l₁, hnext, hat₂⟩ := hat₁.start
    (by simp only [List.length_cons, List.length_append]; omega)
  -- the value
  rw [← List.cons_append, ← hmore] at hat₂
  have hroom₂ : (p₁.next t l₁).errors.length + r.errors ≤ 500 := by
    show p₁.errors.length + r.errors ≤ 500
    omega
  obtain ⟨item, p₂, hitem, haccepted₂, hbuilds₂⟩ := hvalue hat₂ hroom₂
  have he₂ : p₂.errors.length = p₁.errors.length + r.errors := haccepted₂.errors
  have hashed : InfoHashed getSha1 (cString k.bytes.asString) p₁ p₂ := by
    intro hinfoKey
    rw [hat₁.peekToken, haccepted₂.stands.curToken, ← haccepted₂.stands.buf]
    exact hinfo hinfoKey
  obtain ⟨value, calls, hhashed, hentry⟩ := dictEntry_returns table hnext hitem hashed
  obtain ⟨table', hinsert, hsound', hperm⟩ := insert_sound hsound (cString k.bytes.asString) value
  obtain ⟨t', l₂, hnext', hat₃⟩ := haccepted₂.stands.start (by rw [List.length_cons]; omega)
  have haccepted : Accepted p r.errors (c :: cs) l
      (Parser.next { p₂ with hashed := calls } t' l₂) := by
    refine ⟨hat₃, ?_⟩
    show p₂.errors.length = p.errors.length + r.errors
    omega
  refine ⟨table', _, value, hsound', hperm, hbuilds₂.hashed hhashed, haccepted,
    fun out p' hloop => ?_⟩
  have hcur : p.curToken.type ≠ .end_ := by
    rw [Parser.Stands.curToken hat, hk.size]
    simp
  rw [parseDictLoop_entry (fuel + 1) table hcur hkey]
  exact hentry table' t' l₂ out p' hinsert hnext' hloop

mutual

/-- **`parse_item` returns** in front of the tokens of a valid item and a token
behind it, with room for its errors. -/
theorem parseItem_takes : ∀ (r : Raw) (fuel : Nat) {p : Parser} {next : Token} {ts : List Token}
    {l : Lexer}, r.weight ≤ fuel → r.Valid (Hashable getSha1 l.buf) next.type →
    p.Stands (r.tokens ++ next :: ts) l → p.errors.length + r.errors ≤ 500 →
    TakesItem getSha1 fuel p r next ts l
  | r, 0, p, next, ts, l, hfuel, _, _, _ => absurd hfuel (by have := r.weight_pos; omega)
  | .int start num stop, fuel + 1, p, next, ts, l, _, hvalid, hat, _ => takes_int fuel hvalid hat
  | .intUnended start num, fuel + 1, p, next, ts, l, _, hvalid, hat, hroom =>
    takes_intUnended fuel hvalid hat hroom
  | .intEmpty start stop, fuel + 1, p, next, ts, l, _, hvalid, hat, hroom =>
    takes_intEmpty fuel hvalid hat hroom
  | .intMissing start, fuel + 1, p, next, ts, l, _, hvalid, hat, hroom =>
    takes_intMissing fuel hvalid hat hroom
  | .str k, fuel + 1, p, next, ts, l, _, hvalid, hat, _ => takes_str fuel hvalid hat
  | .strUnread size colon, fuel + 1, p, next, ts, l, _, hvalid, hat, hroom =>
    takes_strUnread fuel hvalid hat hroom
  | .strCut size, fuel + 1, p, next, ts, l, _, hvalid, hat, hroom =>
    takes_strCut fuel hvalid hat hroom
  | .stray t, fuel + 1, p, next, ts, l, _, hvalid, hat, hroom => takes_stray fuel hvalid hat hroom
  | .list start items stop, fuel + 1, p, next, ts, l, hfuel, hvalid, hat, hroom => by
    obtain ⟨hstart, hstop, hitems⟩ := hvalid
    rw [Raw.weight] at hfuel
    rw [Raw.tokens, List.cons_append, List.append_assoc, List.singleton_append] at hat
    obtain ⟨t, l₁, hnext, hat₁⟩ := hat.start
      (by simp only [List.length_append, List.length_cons]; omega)
    obtain ⟨values, p', hloop, haccepted, hbuilds⟩ :=
      parseListLoop_takes items fuel [] (by omega) hstop hitems hat₁ hroom
    refine ⟨.list values, p', ?_, ⟨haccepted.stands, haccepted.errors⟩, hbuilds⟩
    rw [parseItem_list fuel (by rw [hat.curToken, hstart])]
    simp only [bind_returns_iff]
    exact ⟨(), _, parserNextToken_returns_iff.mpr ⟨t, l₁, hnext, rfl⟩, values, p', hloop, rfl⟩
  | .dict start entries stop, fuel + 1, p, next, ts, l, hfuel, hvalid, hat, hroom => by
    obtain ⟨hstart, hstop, hentries⟩ := hvalid
    rw [Raw.weight] at hfuel
    rw [Raw.tokens, List.cons_append, List.append_assoc, List.singleton_append] at hat
    rw [Raw.errors] at hroom
    obtain ⟨t, l₁, hnext, hat₁⟩ := hat.start
      (by simp only [List.length_append, List.length_cons]; omega)
    rw [← hstop] at hentries
    have hat₂ : (p.tabled.next t l₁).Stands (rawEntryTokens entries ++ stop :: next :: ts) l := hat₁
    obtain ⟨fuel', table, p', es, hextra, hsound, hperm, hbuilds, haccepted, hrun⟩ :=
      parseDictLoop_rounds entries fuel 1 (by omega) hentries
        (hashTableInit_wf (p.seeds p.tables)).sound hat₂ (by simp) hroom
    rw [entries_hashTableInit, List.append_nil] at hperm
    obtain ⟨fuel'', rfl⟩ : ∃ fuel'', fuel' = fuel'' + 1 := ⟨fuel' - 1, by omega⟩
    have hend : p'.curToken.type = .end_ := by rw [haccepted.stands.curToken, hstop]
    exact ⟨.dictionary table none, p',
      parseItem_opens (by rw [hat.curToken, hstart]) hnext
        (hrun _ _ (parseDictLoop_end fuel'' table hend)),
      ⟨haccepted.stands, haccepted.errors⟩, hsound, es, hperm, hbuilds⟩
  | .dictCut start entries key, fuel + 1, p, next, ts, l, hfuel, hvalid, hat, hroom => by
    obtain ⟨hstart, hentries, hother, hopens, hkeyValid⟩ := hvalid
    rw [Raw.weight] at hfuel
    rw [Raw.errors] at hroom
    obtain ⟨more, hmore⟩ := key.tokens_first
    rw [Raw.tokens, List.cons_append, List.append_assoc, hmore, List.cons_append] at hat
    obtain ⟨t, l₁, hnext, hat₁⟩ := hat.start
      (by simp only [List.length_append, List.length_cons]; omega)
    have hat₂ : (p.tabled.next t l₁).Stands
        (rawEntryTokens entries ++ key.first :: (more ++ next :: ts)) l := hat₁
    have hroom₂ : (p.tabled.next t l₁).errors.length + rawEntryErrors entries ≤ 500 := by
      show p.errors.length + rawEntryErrors entries ≤ 500
      omega
    obtain ⟨fuel', table, p₂, es, hextra, hsound, hperm, hbuilds, haccepted₂, hrun⟩ :=
      parseDictLoop_rounds entries fuel (1 + key.weight) (by omega) hentries
        (hashTableInit_wf (p.seeds p.tables)).sound hat₂ (by simp) hroom₂
    rw [entries_hashTableInit, List.append_nil] at hperm
    have he₂ : p₂.errors.length = p.errors.length + rawEntryErrors entries := haccepted₂.errors
    have hat₃ := haccepted₂.stands
    rw [← List.cons_append, ← hmore] at hat₃
    obtain ⟨fuel'', rfl⟩ : ∃ fuel'', fuel' = fuel'' + 1 := ⟨fuel' - 1, by omega⟩
    obtain ⟨p', hloop, haccepted⟩ := dictLoop_cut table hother hopens hat₃ (by omega)
      (parseItem_takes key fuel'' (by omega) hkeyValid hat₃ (by omega))
    have he := haccepted.errors
    refine ⟨.dictionary table none, p',
      parseItem_opens (by rw [hat.curToken, hstart]) hnext (hrun _ _ hloop),
      ⟨haccepted.stands, ?_⟩, hsound, es, hperm, hbuilds⟩
    rw [Raw.errors]
    omega

theorem parseListLoop_takes : ∀ (items : List Raw) (fuel : Nat) (values : List BencodeType)
    {p : Parser} {stop next : Token} {ts : List Token} {l : Lexer}, rawWeight items + 1 ≤ fuel →
    stop.type = .end_ → ValidItems (Hashable getSha1 l.buf) items .end_ →
    p.Stands (rawTokens items ++ stop :: next :: ts) l → p.errors.length + rawErrors items ≤ 500 →
    ∃ out p', parseListLoop getSha1 fuel values p = .ok (values ++ out) p' ∧
      Accepted p (rawErrors items) (stop :: next :: ts) l p' ∧ BuildsItems items out
  | items, 0, values, p, stop, next, ts, l, hfuel, _, _, _, _ => absurd hfuel (by omega)
  | [], fuel + 1, values, p, stop, next, ts, l, _, hstop, _, hat, _ => by
    rw [rawTokens, List.nil_append] at hat
    refine ⟨[], p, ?_, ⟨hat, rfl⟩, trivial⟩
    rw [parseListLoop_end fuel values (by rw [hat.curToken, hstop]), List.append_nil]
  | r :: items, fuel + 1, values, p, stop, next, ts, l, hfuel, hstop, hvalid, hat, hroom => by
    obtain ⟨hfirst, hr, hitems⟩ := hvalid
    rw [rawWeight] at hfuel
    rw [rawErrors] at hroom
    rw [rawTokens, List.append_assoc] at hat
    obtain ⟨c, cs, hrest, hcs⟩ := exists_head (rawTokens items) stop (next :: ts)
    have hafter : c.type = nextType .end_ items := by
      rw [← hstop]
      exact nextType_of_head hrest
    rw [hrest] at hat
    rw [← hafter] at hr
    obtain ⟨item, p₁, hitem, haccepted₁, hbuilds₁⟩ :=
      parseItem_takes r fuel (by omega) hr hat (by omega)
    obtain ⟨t, l₁, hnext, hat₁⟩ := haccepted₁.stands.start
      (by rw [List.length_cons] at hcs ⊢; omega)
    rw [← hrest] at hat₁
    have he₁ := haccepted₁.errors
    obtain ⟨out, p', hloop, haccepted, hbuilds⟩ := parseListLoop_takes items fuel (values ++ [item])
      (by omega) hstop hitems hat₁ (by show p₁.errors.length + _ ≤ _; omega)
    refine ⟨item :: out, p', ?_, ⟨haccepted.stands, ?_⟩, hbuilds₁, hbuilds⟩
    · have hcur : p.curToken.type ≠ .end_ := by
        obtain ⟨more, hmore⟩ := r.tokens_first
        rw [hmore] at hat
        rwa [Parser.Stands.curToken hat]
      rw [parseListLoop_item fuel values hcur]
      simp only [bind_returns_iff]
      refine ⟨item, p₁, hitem, (), _, parserNextToken_returns_iff.mpr ⟨t, l₁, hnext, rfl⟩, ?_⟩
      rw [hloop, List.append_assoc]
      rfl
    · have he : p'.errors.length = p₁.errors.length + rawErrors items := haccepted.errors
      rw [rawErrors]
      omega

/-- The rounds of the loop of `parse_dict` over entries. -/
theorem parseDictLoop_rounds : ∀ (entries : List (RawString × Raw)) (fuel extra : Nat)
    {table : HashTable BencodeType} {p : Parser} {after : Token} {rest : List Token} {l : Lexer},
    rawEntryWeight entries + extra ≤ fuel →
    ValidEntries (Hashable getSha1 l.buf) entries after.type → table.Sound →
    p.Stands (rawEntryTokens entries ++ after :: rest) l → rest ≠ [] →
    p.errors.length + rawEntryErrors entries ≤ 500 →
    ∃ fuel' table' p₁ es, extra ≤ fuel' ∧ table'.Sound ∧
      table'.entries.Perm (es ++ table.entries) ∧ BuildsEntries entries es ∧
      Accepted p (rawEntryErrors entries) (after :: rest) l p₁ ∧
      ∀ out p', parseDictLoop getSha1 fuel' table' p₁ = .ok out p' →
        parseDictLoop getSha1 fuel table p = .ok out p'
  | [], fuel, extra, table, p, after, rest, l, hfuel, _, hsound, hat, _, _ => by
    rw [rawEntryTokens, List.nil_append] at hat
    rw [rawEntryWeight] at hfuel
    exact ⟨fuel, table, p, [], by omega, hsound, .refl _, trivial, ⟨hat, rfl⟩, fun _ _ h => h⟩
  | (k, r) :: entries, 0, extra, table, p, after, rest, l, hfuel, _, _, _, _, _ => by
    rw [rawEntryWeight] at hfuel
    omega
  | (k, r) :: entries, fuel + 1, extra, table, p, after, rest, l, hfuel, hvalid, hsound, hat, hne,
      hroom => by
    obtain ⟨hk, hr, hinfo, hentries⟩ := hvalid
    rw [rawEntryWeight] at hfuel
    rw [rawEntryErrors] at hroom
    rw [rawEntryTokens, List.append_assoc, List.append_assoc] at hat
    obtain ⟨c, cs, hrest, hcs⟩ := exists_head (rawEntryTokens entries) after rest
    have hafter : c.type = nextKeyType after.type entries := nextKeyType_of_head hrest
    have hrestlen : 0 < rest.length := List.length_pos_iff.mpr hne
    rw [hrest] at hat
    rw [← hafter] at hr
    obtain ⟨fuel', rfl⟩ : ∃ fuel', fuel = fuel' + 1 :=
      ⟨fuel - 1, by have := r.weight_pos; omega⟩
    obtain ⟨table₁, p₁, value, hsound₁, hperm₁, hbuilds₁, haccepted₁, hround⟩ :=
      dictRound hk hinfo hsound hat (by omega) (by omega)
        fun hat₂ hroom₂ => parseItem_takes r (fuel' + 1) (by omega) hr hat₂ hroom₂
    have he₁ := haccepted₁.errors
    have hat₁ := haccepted₁.stands
    rw [← hrest] at hat₁
    obtain ⟨fuel₁, table', p₂, es, hextra, hsound₂, hperm₂, hbuilds₂, haccepted₂, hrun⟩ :=
      parseDictLoop_rounds entries (fuel' + 1) extra (by omega) hentries hsound₁ hat₁ hne
        (by omega)
    have he₂ := haccepted₂.errors
    refine ⟨fuel₁, table', p₂, ⟨cString k.bytes.asString, value⟩ :: es, hextra, hsound₂, ?_,
      ⟨rfl, hbuilds₁, hbuilds₂⟩, ⟨haccepted₂.stands, ?_⟩, fun out p' hloop => ?_⟩
    · refine hperm₂.trans ((hperm₁.append_left es).trans ?_)
      exact List.perm_middle
    · rw [rawEntryErrors]
      omega
    · exact hround out p' (hrun out p' hloop)

end

/-! ## Whole texts -/

/-- What a whole run took: an item, and the token behind it that was read last. -/
theorem parseBuffer_derived {fuel : Nat} {p p' : Parser} {item : BencodeType}
    (hnone : p.errors = []) (h : parseBuffer getSha1 fuel p = .ok item p') :
    ∃ (r : Raw) (l : Lexer), r.Valid (Hashable getSha1 p.l.buf) p'.peekToken.type ∧
      Yields nextToken p.l r.tokens l ∧
      nextToken l = .ok (p'.peekToken, p'.l) ∧ p'.errors.length = r.errors ∧ r.errors ≤ 500 ∧
      (∃ ts, r.tokens = ts ++ [p'.curToken]) ∧ r.Builds item := by
  simp only [parseBuffer, bind_returns_iff] at h
  obtain ⟨u, p₁, hstep₁, u', p₂, hstep₂, h⟩ := h
  obtain ⟨t₁, l₁, hnext₁, rfl⟩ := parserNextToken_returns_iff.mp hstep₁
  obtain ⟨t₂, l₂, hnext₂, rfl⟩ := parserNextToken_returns_iff.mp hstep₂
  have hbuf : l₂.buf = p.l.buf := (nextToken_buf hnext₂).trans (nextToken_buf hnext₁)
  obtain ⟨r, hr⟩ := parseItem_derived fuel hbuf h
  obtain ⟨ts, htokens, used, hyields, hused⟩ := hr.reads
  have hall : Yields nextToken p.l (t₁ :: t₂ :: used) p'.l :=
    ⟨l₁, hnext₁, l₂, hnext₂, hyields⟩
  have hsplit : t₁ :: t₂ :: used = r.tokens ++ [p'.peekToken] := by
    rw [htokens, List.append_assoc]
    exact hused
  rw [hsplit, yields_append] at hall
  obtain ⟨l, htaken, l₃, hlast, hl₃⟩ := hall
  subst hl₃
  have he : p'.errors.length = p.errors.length + r.errors := hr.errors
  have hroom : p'.errors.length ≤ max 500 p.errors.length := hr.room
  rw [hnone, List.length_nil] at he hroom
  exact ⟨r, l, hr.valid, htaken, hlast, by omega, by omega, ⟨ts, htokens⟩, hr.builds⟩

/-- **When the parser returns**: the lexer delivers the tokens of an item, as the
parser takes them, and one token behind it, and the item costs no more errors
than there is room for. -/
theorem parseBuffer_returns_iff {p : Parser} (hnone : p.errors = []) :
    (∃ fuel item p', parseBuffer getSha1 fuel p = .ok item p') ↔
      ∃ (r : Raw) (next : Token) (l : Lexer), r.Valid (Hashable getSha1 p.l.buf) next.type ∧
        Yields nextToken p.l (r.tokens ++ [next]) l ∧ r.errors ≤ 500 := by
  constructor
  · rintro ⟨fuel, item, p', h⟩
    obtain ⟨r, l, hvalid, htaken, hlast, -, hroom, -⟩ := parseBuffer_derived hnone h
    exact ⟨r, p'.peekToken, p'.l, hvalid, yields_append.mpr ⟨l, htaken, .one hlast⟩, hroom⟩
  · rintro ⟨r, next, l, hvalid, hyields, hroom⟩
    obtain ⟨t₁, rest, htokens, hrest⟩ : ∃ t₁ rest, r.tokens ++ [next] = t₁ :: rest ∧ rest ≠ [] := by
      obtain ⟨more, hmore⟩ := r.tokens_first
      exact ⟨r.first, more ++ [next], by rw [hmore]; rfl, by simp⟩
    obtain ⟨t₂, used, rfl⟩ := List.exists_cons_of_ne_nil hrest
    rw [htokens] at hyields
    obtain ⟨l₁, hnext₁, l₂, hnext₂, hyields⟩ := hyields
    have hstands : ((p.next t₁ l₁).next t₂ l₂).Stands (r.tokens ++ [next]) l :=
      ⟨used, htokens, hyields⟩
    have hbuf : l.buf = p.l.buf := hstands.buf.trans
      ((nextToken_buf hnext₂).trans (nextToken_buf hnext₁))
    rw [← hbuf] at hvalid
    have hroom' : ((p.next t₁ l₁).next t₂ l₂).errors.length + r.errors ≤ 500 := by
      show p.errors.length + r.errors ≤ 500
      rw [hnone, List.length_nil]
      omega
    obtain ⟨item, p', hitem, -⟩ := parseItem_takes r r.weight (le_refl _) hvalid hstands hroom'
    refine ⟨r.weight, item, p', ?_⟩
    simp only [parseBuffer, bind_returns_iff]
    exact ⟨(), _, parserNextToken_returns_iff.mpr ⟨t₁, l₁, hnext₁, rfl⟩, (), _,
      parserNextToken_returns_iff.mpr ⟨t₂, l₂, hnext₂, rfl⟩, hitem⟩

end Runs

end BtClient

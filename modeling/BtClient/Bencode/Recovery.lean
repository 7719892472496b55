import BtClient.Bencode.Steps
import BtClient.Lib.Stream

/-!
# What the parser makes of any tokens

The parser goes on behind most errors, so what it accepts is a language of its
own. A `Raw` is a tree of that language: the values of bencode, and one
constructor for each way in which `parse_item` gives up on a value and returns.
`Raw.tokens` are the tokens it takes, `Raw.errors` the calls of `parse_error`
it costs, and `Raw.Valid` says which tokens these are, with the look-ahead that
decides where the parser gives up.
-/

namespace BtClient

open CLib

/-- The tokens of a string that is read. -/
structure RawString where
  size : Token
  colon : Token
  bytes : Token

/-- What `parse_item` takes for an item. -/
inductive Raw where
  | int (start num stop : Token)
  /-- The numeral is not followed by the end. -/
  | intUnended (start num : Token)
  /-- The end stands in place of the numeral. -/
  | intEmpty (start stop : Token)
  /-- Neither a numeral nor the end follows. -/
  | intMissing (start : Token)
  | str (s : RawString)
  /-- The colon is not followed by the bytes. -/
  | strUnread (size colon : Token)
  /-- The size is not followed by a colon. -/
  | strCut (size : Token)
  | list (start : Token) (items : List Raw) (stop : Token)
  | dict (start : Token) (entries : List (RawString × Raw)) (stop : Token)
  /-- A key is not a string. -/
  | dictCut (start : Token) (entries : List (RawString × Raw)) (key : Raw)
  /-- A token no value starts with. -/
  | stray (t : Token)

def RawString.tokens (s : RawString) : List Token := [s.size, s.colon, s.bytes]

mutual

/-- The tokens taken, up to the current one at the end. -/
def Raw.tokens : Raw → List Token
  | .int start num stop => [start, num, stop]
  | .intUnended start num => [start, num]
  | .intEmpty start stop => [start, stop]
  | .intMissing start => [start]
  | .str s => s.tokens
  | .strUnread size colon => [size, colon]
  | .strCut size => [size]
  | .list start items stop => start :: (rawTokens items ++ [stop])
  | .dict start entries stop => start :: (rawEntryTokens entries ++ [stop])
  | .dictCut start entries key => start :: (rawEntryTokens entries ++ key.tokens)
  | .stray t => [t]

def rawTokens : List Raw → List Token
  | [] => []
  | r :: items => r.tokens ++ rawTokens items

def rawEntryTokens : List (RawString × Raw) → List Token
  | [] => []
  | (k, r) :: entries => k.tokens ++ (r.tokens ++ rawEntryTokens entries)

end

mutual

/-- The errors recorded. -/
def Raw.errors : Raw → Nat
  | .int _ _ _ => 0
  | .intUnended _ _ => 2
  | .intEmpty _ _ => 2
  | .intMissing _ => 4
  | .str _ => 0
  | .strUnread _ _ => 2
  | .strCut _ => 1
  | .list _ items _ => rawErrors items
  | .dict _ entries _ => rawEntryErrors entries
  | .dictCut _ entries key => rawEntryErrors entries + (key.errors + 1)
  | .stray _ => 1

def rawErrors : List Raw → Nat
  | [] => 0
  | r :: items => r.errors + rawErrors items

def rawEntryErrors : List (RawString × Raw) → Nat
  | [] => 0
  | (_, r) :: entries => r.errors + rawEntryErrors entries

end

/-- The first token. -/
def Raw.first : Raw → Token
  | .int start _ _ => start
  | .intUnended start _ => start
  | .intEmpty start _ => start
  | .intMissing start => start
  | .str s => s.size
  | .strUnread size _ => size
  | .strCut size => size
  | .list start _ _ => start
  | .dict start _ _ => start
  | .dictCut start _ _ => start
  | .stray t => t

/-- The last token. -/
def Raw.last : Raw → Token
  | .int _ _ stop => stop
  | .intUnended _ num => num
  | .intEmpty _ stop => stop
  | .intMissing start => start
  | .str s => s.bytes
  | .strUnread _ colon => colon
  | .strCut size => size
  | .list _ _ stop => stop
  | .dict _ _ stop => stop
  | .dictCut _ _ key => key.last
  | .stray t => t

/-- A string, read or not: its `kind` is `BYTESTRING`. -/
def Raw.isString : Raw → Bool
  | .str _ => true
  | .strUnread _ _ => true
  | .strCut _ => true
  | _ => false

/-- The type of the token in front of which the items start. -/
def nextType (after : TokenType) : List Raw → TokenType
  | [] => after
  | r :: _ => r.first.type

def nextKeyType (after : TokenType) : List (RawString × Raw) → TokenType
  | [] => after
  | (k, _) :: _ => k.size.type

structure RawString.Valid (s : RawString) : Prop where
  size : s.size.type = .stringSize
  colon : s.colon.type = .colon
  bytes : s.bytes.type = .string

mutual

/-- The tokens are of the types that make the parser take the item so, in front
of a token of type `after`. Under a key `info` stands something that starts as a
dictionary and stops at an end, and that `BENCODE_GET_SHA1` can hash. -/
def Raw.Valid (hashes : Nat → Nat → Prop) : Raw → TokenType → Prop
  | .int start num stop, _ =>
    start.type = .intStart ∧ num.type = .int ∧ stop.type = .end_
  | .intUnended start num, after =>
    start.type = .intStart ∧ num.type = .int ∧ after ≠ .end_
  | .intEmpty start stop, _ => start.type = .intStart ∧ stop.type = .end_
  | .intMissing start, after => start.type = .intStart ∧ after ≠ .int ∧ after ≠ .end_
  | .str s, _ => s.Valid
  | .strUnread size colon, after =>
    size.type = .stringSize ∧ colon.type = .colon ∧ after ≠ .string
  | .strCut size, after => size.type = .stringSize ∧ after ≠ .colon
  | .list start items stop, _ =>
    start.type = .listStart ∧ stop.type = .end_ ∧ ValidItems hashes items .end_
  | .dict start entries stop, _ =>
    start.type = .dictStart ∧ stop.type = .end_ ∧ ValidEntries hashes entries .end_
  | .dictCut start entries key, after =>
    start.type = .dictStart ∧ ValidEntries hashes entries key.first.type ∧
      key.isString = false ∧ key.first.type ≠ .end_ ∧ key.Valid hashes after
  | .stray t, _ =>
    t.type ≠ .intStart ∧ t.type ≠ .listStart ∧ t.type ≠ .dictStart ∧ t.type ≠ .stringSize

def ValidItems (hashes : Nat → Nat → Prop) : List Raw → TokenType → Prop
  | [], _ => True
  | r :: items, after =>
    r.first.type ≠ .end_ ∧ r.Valid hashes (nextType after items) ∧ ValidItems hashes items after

def ValidEntries (hashes : Nat → Nat → Prop) : List (RawString × Raw) → TokenType → Prop
  | [], _ => True
  | (k, r) :: entries, after =>
    k.Valid ∧ r.Valid hashes (nextKeyType after entries) ∧
      (cString k.bytes.asString = infoKey → r.first.type = .dictStart ∧ r.last.type = .end_ ∧
        hashes r.first.pos r.last.pos) ∧
      ValidEntries hashes entries after

end

mutual

/-- The item that `parse_item` returns. -/
def Raw.Builds : Raw → BencodeType → Prop
  | .int _ num _, .integer n => n = num.asInt
  | .intUnended _ num, .integer n => n = num.asInt
  | .intEmpty start _, .integer n => n = start.asInt
  | .intMissing start, .integer n => n = start.asInt
  | .str s, .bytestring len str =>
    len = sizeOfLong s.size.asInt ∧ str = some s.bytes.asString
  | .strUnread _ _, .bytestring len str => len = 0 ∧ str = none
  | .strCut _, .bytestring len str => len = 0 ∧ str = none
  | .list _ items _, .list values => BuildsItems items values
  | .dict _ entries _, .dictionary table _ =>
    table.Sound ∧ ∃ es, table.entries.Perm es ∧ BuildsEntries entries es
  | .dictCut _ entries _, .dictionary table _ =>
    table.Sound ∧ ∃ es, table.entries.Perm es ∧ BuildsEntries entries es
  | .stray _, .error => True
  | _, _ => False

def BuildsItems : List Raw → List BencodeType → Prop
  | [], [] => True
  | r :: items, value :: values => r.Builds value ∧ BuildsItems items values
  | _, _ => False

def BuildsEntries : List (RawString × Raw) → List (HashPosition BencodeType) → Prop
  | [], [] => True
  | (k, r) :: entries, pos :: es =>
    pos.key = cString k.bytes.asString ∧ r.Builds pos.value ∧ BuildsEntries entries es
  | _, _ => False

end

/-! ## Lemmas -/

theorem Raw.tokens_first (r : Raw) : ∃ ts, r.tokens = r.first :: ts := by
  cases r <;> exact ⟨_, by simp only [Raw.tokens, Raw.first, RawString.tokens]; rfl⟩

theorem nextType_of_head {items : List Raw} {t c : Token} {ts cs : List Token}
    (h : rawTokens items ++ t :: ts = c :: cs) : c.type = nextType t.type items := by
  cases items with
  | nil =>
    rw [rawTokens, List.nil_append] at h
    cases h
    rfl
  | cons r items =>
    obtain ⟨rest, hrest⟩ := r.tokens_first
    rw [rawTokens, hrest] at h
    cases h
    rfl

theorem nextKeyType_of_head {entries : List (RawString × Raw)} {t c : Token} {ts cs : List Token}
    (h : rawEntryTokens entries ++ t :: ts = c :: cs) : c.type = nextKeyType t.type entries := by
  cases entries with
  | nil =>
    rw [rawEntryTokens, List.nil_append] at h
    cases h
    rfl
  | cons e entries =>
    obtain ⟨k, r⟩ := e
    rw [rawEntryTokens, RawString.tokens] at h
    cases h
    rfl

theorem Raw.Builds.withDigest {r : Raw} {item : BencodeType} (h : r.Builds item)
    (digest : List UInt8) : r.Builds (item.withDigest digest) := by
  cases item with
  | dictionary table old =>
    cases r with
    | dict start entries stop => exact h
    | dictCut start entries key => exact h
    | _ => simp [Raw.Builds] at h
  | _ => exact h

/-- A value keeps what it is when it gets a digest. -/
theorem Raw.Builds.hashed {r : Raw} {item value : BencodeType} (h : r.Builds item)
    (hvalue : value = item ∨ ∃ digest, value = item.withDigest digest) : r.Builds value := by
  rcases hvalue with rfl | ⟨digest, rfl⟩
  · exact h
  · exact h.withDigest digest

/-- Only strings have the kind of a string. -/
theorem Raw.Builds.isString {r : Raw} {item : BencodeType} (h : r.Builds item) :
    r.isString = true ↔ ∃ len str, item = .bytestring len str := by
  cases item with
  | bytestring len str => cases r <;> simp_all [Raw.Builds, Raw.isString]
  | _ => cases r <;> simp_all [Raw.Builds, Raw.isString]

/-- Only a string that is read has bytes. -/
theorem Raw.Builds.bytes {r : Raw} {len : Nat} {str : List UInt8}
    (h : r.Builds (.bytestring len (some str))) :
    ∃ k : RawString, r = .str k ∧ k.bytes.asString = str := by
  cases r with
  | str k => exact ⟨k, rfl, (Option.some.inj h.2).symm⟩
  | _ => simp [Raw.Builds] at h

/-! ## What a run has taken -/

theorem yields_buf {l l' : Lexer} {ts : List Token} (h : Yields nextToken l ts l') :
    l'.buf = l.buf :=
  Yields.invariant (fun _ _ _ hs hnext => (nextToken_buf hnext).trans hs) h rfl

/-- The tokens of `p` from its current one on, up to the current one of `p'`. -/
def Parser.Reads (p : Parser) (ts : List Token) (p' : Parser) : Prop :=
  ∃ used, Yields nextToken p.l used p'.l ∧
    p.curToken :: p.peekToken :: used = ts ++ [p'.curToken, p'.peekToken]

section Reads

variable {p p₁ p' : Parser} {ts ts' : List Token} {t : Token} {l : Lexer}

theorem Parser.Reads.refl (p : Parser) : p.Reads [] p := ⟨[], rfl, rfl⟩

theorem Parser.Reads.trans (h : p.Reads ts p₁) (h' : p₁.Reads ts' p') : p.Reads (ts ++ ts') p' := by
  obtain ⟨used, hyields, htokens⟩ := h
  obtain ⟨used', hyields', htokens'⟩ := h'
  refine ⟨used ++ used', yields_append.mpr ⟨p₁.l, hyields, hyields'⟩, ?_⟩
  rw [← List.cons_append, ← List.cons_append, htokens, List.append_assoc, List.append_assoc,
    ← htokens']
  rfl

theorem Parser.Reads.next (hnext : nextToken p.l = .ok (t, l)) :
    p.Reads [p.curToken] (p.next t l) :=
  ⟨[t], Yields.one hnext, rfl⟩

theorem Parser.Reads.snoc (h : p.Reads ts p₁) (hnext : nextToken p₁.l = .ok (t, l)) :
    p.Reads (ts ++ [p₁.curToken]) (p₁.next t l) :=
  h.trans (.next hnext)

theorem Parser.Reads.buf (h : p.Reads ts p') : p'.l.buf = p.l.buf := by
  obtain ⟨used, hyields, -⟩ := h
  exact yields_buf hyields

end Reads

/-- From `p` on `parse_item` took `r`, returned `item` and stopped in `p'`. -/
structure Derived (hashes : Nat → Nat → Prop) (p : Parser) (r : Raw) (item : BencodeType)
    (p' : Parser) : Prop where
  reads : ∃ ts, r.tokens = ts ++ [p'.curToken] ∧ p.Reads ts p'
  first : r.first = p.curToken
  last : r.last = p'.curToken
  valid : r.Valid hashes p'.peekToken.type
  errors : p'.errors.length = p.errors.length + r.errors
  room : p'.errors.length ≤ max 500 p.errors.length
  builds : r.Builds item

section Leaves

variable {hashes : Nat → Nat → Prop} {p p' : Parser} {item : BencodeType}

theorem parseInteger_derived (hcur : p.curToken.type = .intStart)
    (h : parseInteger p = .ok item p') : ∃ r, Derived hashes p r item p' := by
  by_cases hpeek : p.peekToken.type = .int
  · obtain ⟨t, l, hnext, h⟩ := (parseInteger_returns_iff_of_eq hpeek).mp h
    by_cases ht : t.type = .end_
    · obtain ⟨rfl, t', l', hnext', rfl⟩ := (integerEnd_returns_iff_of_eq ht).mp h
      refine ⟨.int p.curToken p.peekToken t, ⟨_, rfl, (Parser.Reads.next hnext).snoc hnext'⟩, rfl,
        rfl, ⟨hcur, hpeek, ht⟩, rfl, le_max_right _ _, rfl⟩
    · obtain ⟨rfl, hroom, rfl⟩ := (integerEnd_returns_iff_of_ne ht).mp h
      refine ⟨.intUnended p.curToken p.peekToken, ⟨_, rfl, .next hnext⟩, rfl, rfl,
        ⟨hcur, hpeek, ht⟩, ?_, ?_, rfl⟩
      · simp [Parser.failed, Raw.errors, Parser.next]
      · simp only [Parser.failed, Parser.next, List.length_append, List.length_singleton] at hroom ⊢
        omega
  · obtain ⟨hroom₁, h⟩ := (parseInteger_returns_iff_of_ne hpeek).mp h
    by_cases ht : p.peekToken.type = .end_
    · obtain ⟨rfl, t, l, hnext, rfl⟩ :=
        (integerEnd_returns_iff_of_eq (p := (p.failed _).failed _) ht).mp h
      refine ⟨.intEmpty p.curToken p.peekToken, ⟨_, rfl, .next hnext⟩, rfl, rfl, ⟨hcur, ht⟩, ?_, ?_,
        rfl⟩
      · simp [Parser.failed, Raw.errors, Parser.next]
      · simp only [Parser.failed, Parser.next, List.length_append, List.length_singleton]
        omega
    · obtain ⟨rfl, hroom, rfl⟩ :=
        (integerEnd_returns_iff_of_ne (p := (p.failed _).failed _) ht).mp h
      refine ⟨.intMissing p.curToken, ⟨_, rfl, .refl p⟩, rfl, rfl, ⟨hcur, hpeek, ht⟩, ?_, ?_, rfl⟩
      · simp [Parser.failed, Raw.errors]
      · simp only [Parser.failed, List.length_append, List.length_singleton] at hroom ⊢
        omega

theorem parseBytestring_derived (hcur : p.curToken.type = .stringSize)
    (h : parseBytestring p = .ok item p') : ∃ r, Derived hashes p r item p' := by
  by_cases hpeek : p.peekToken.type = .colon
  · obtain ⟨t, l, hnext, h⟩ := (parseBytestring_returns_iff hcur hpeek).mp h
    rcases h with ⟨ht, rfl, hroom, rfl⟩ | ⟨ht, t', l', hnext', rfl, rfl⟩
    · refine ⟨.strUnread p.curToken p.peekToken, ⟨_, rfl, .next hnext⟩, rfl, rfl,
        ⟨hcur, hpeek, ht⟩, ?_, ?_, rfl, rfl⟩
      · simp [Parser.failed, Raw.errors, Parser.next]
      · simp only [Parser.failed, Parser.next, List.length_append, List.length_singleton]
        omega
    · exact ⟨.str ⟨p.curToken, p.peekToken, t⟩, ⟨_, rfl, (Parser.Reads.next hnext).snoc hnext'⟩,
        rfl, rfl, ⟨hcur, hpeek, ht⟩, rfl, le_max_right _ _, rfl, rfl⟩
  · obtain ⟨rfl, hroom, rfl⟩ := (parseBytestring_returns_iff_of_ne hcur hpeek).mp h
    refine ⟨.strCut p.curToken, ⟨_, rfl, .refl p⟩, rfl, rfl, ⟨hcur, hpeek⟩, ?_, ?_, rfl, rfl⟩
    · simp [Parser.failed, Raw.errors]
    · simp only [Parser.failed, List.length_append, List.length_singleton]
      omega

end Leaves

/-! ## Lists and dictionaries -/

/-- From `p` on the loop of `parse_list` took `items` and stopped at an end. -/
structure DerivedItems (hashes : Nat → Nat → Prop) (p : Parser) (items : List Raw)
    (values : List BencodeType) (p' : Parser) : Prop where
  reads : p.Reads (rawTokens items) p'
  stop : p'.curToken.type = .end_
  valid : ValidItems hashes items .end_
  errors : p'.errors.length = p.errors.length + rawErrors items
  room : p'.errors.length ≤ max 500 p.errors.length
  builds : BuildsItems items values

/-- From `p` on the loop of `parse_dict` took `entries` and stopped at an end. -/
structure ClosedEntries (hashes : Nat → Nat → Prop) (p : Parser)
    (entries : List (RawString × Raw)) (p' : Parser) : Prop where
  reads : p.Reads (rawEntryTokens entries) p'
  stop : p'.curToken.type = .end_
  valid : ValidEntries hashes entries .end_
  errors : p'.errors.length = p.errors.length + rawEntryErrors entries
  room : p'.errors.length ≤ max 500 p.errors.length

/-- From `p` on the loop of `parse_dict` took `entries` and gave up at `key`. -/
structure CutEntries (hashes : Nat → Nat → Prop) (p : Parser)
    (entries : List (RawString × Raw)) (key : Raw) (p' : Parser) : Prop where
  reads : ∃ ts, rawEntryTokens entries ++ key.tokens = ts ++ [p'.curToken] ∧ p.Reads ts p'
  last : key.last = p'.curToken
  valid : ValidEntries hashes entries key.first.type
  other : key.isString = false
  opens : key.first.type ≠ .end_
  keyValid : key.Valid hashes p'.peekToken.type
  errors : p'.errors.length = p.errors.length + (rawEntryErrors entries + (key.errors + 1))
  room : p'.errors.length ≤ max 500 p.errors.length

/-- An item and the step behind it, in front of the rest of a loop. -/
theorem Derived.step {hashes : Nat → Nat → Prop} {p p₁ : Parser} {r : Raw} {item : BencodeType}
    {t : Token} {l : Lexer} (h : Derived hashes p r item p₁)
    (hnext : nextToken p₁.l = .ok (t, l)) : p.Reads r.tokens (p₁.next t l) := by
  obtain ⟨ts, htokens, hreads⟩ := h.reads
  rw [htokens]
  exact hreads.snoc hnext

/-- The ranges that `BENCODE_GET_SHA1` returns a digest for. -/
def Hashable (getSha1 : List UInt8 → Nat → Nat → Except Fault (List UInt8)) (buf : List UInt8)
    (start stop : Nat) : Prop :=
  ∃ digest, getSha1 buf start stop = .ok digest

section Rounds

variable {hashes : Nat → Nat → Prop} {p p₁ p₂ p' : Parser} {r : Raw} {item : BencodeType}
  {t t' : Token} {l l' : Lexer}

/-- One round of the loop of `parse_list`. -/
theorem DerivedItems.cons {items : List Raw} {values : List BencodeType}
    (hcur : p.curToken.type ≠ .end_) (hitem : Derived hashes p r item p₁)
    (hnext : nextToken p₁.l = .ok (t, l))
    (hrest : DerivedItems hashes (p₁.next t l) items values p') :
    DerivedItems hashes p (r :: items) (item :: values) p' := by
  have hafter : p₁.peekToken.type = nextType .end_ items := by
    obtain ⟨used, -, htokens⟩ := hrest.reads
    rw [← hrest.stop]
    exact nextType_of_head htokens.symm
  refine ⟨?_, hrest.stop, ⟨?_, ?_, hrest.valid⟩, ?_, ?_, hitem.builds, hrest.builds⟩
  · rw [rawTokens]
    exact (hitem.step hnext).trans hrest.reads
  · rwa [hitem.first]
  · rw [← hafter]
    exact hitem.valid
  · have h₁ := hitem.errors
    have h₂ : p'.errors.length = p₁.errors.length + rawErrors items := hrest.errors
    rw [rawErrors]
    omega
  · have h₁ := hitem.room
    have h₂ : p'.errors.length ≤ max 500 p₁.errors.length := hrest.room
    omega

/-- One round of the loop of `parse_dict`: a key `k` and a value `r`. -/
structure EntryRound (hashes : Nat → Nat → Prop) (p : Parser) (k : RawString) (r : Raw)
    (item : BencodeType) (p' : Parser) : Prop where
  reads : p.Reads (k.tokens ++ r.tokens) p'
  valid : ∀ entries after, p'.curToken.type = nextKeyType after entries →
    ValidEntries hashes entries after → ValidEntries hashes ((k, r) :: entries) after
  errors : p'.errors.length = p.errors.length + r.errors
  room : p'.errors.length ≤ max 500 p.errors.length
  builds : r.Builds item

theorem entryRound {k : RawString} {key value : BencodeType} {calls : List (Nat × Nat)}
    (hkey : Derived hashes p (.str k) key p₁) (hnext : nextToken p₁.l = .ok (t, l))
    (hvalue : Derived hashes (p₁.next t l) r item p₂)
    (hinfo : cString k.bytes.asString = infoKey → p₁.peekToken.type = .dictStart ∧
      p₂.curToken.type = .end_ ∧ hashes p₁.peekToken.pos p₂.curToken.pos)
    (hhashed : value = item ∨ ∃ digest, value = item.withDigest digest)
    (hnext' : nextToken p₂.l = .ok (t', l')) :
    EntryRound hashes p k r value (Parser.next { p₂ with hashed := calls } t' l') := by
  have hfirst : r.first = p₁.peekToken := hvalue.first
  refine ⟨(hkey.step hnext).trans (hvalue.step hnext'), ?_, ?_, ?_, hvalue.builds.hashed hhashed⟩
  · intro entries after hcur hentries
    refine ⟨hkey.valid, ?_, ?_, hentries⟩
    · rw [← hcur]
      exact hvalue.valid
    · rw [hfirst, hvalue.last]
      exact hinfo
  · have h₁ : p₁.errors.length = p.errors.length + 0 := hkey.errors
    have h₂ : p₂.errors.length = p₁.errors.length + r.errors := hvalue.errors
    show p₂.errors.length = _
    omega
  · have h₁ := hkey.room
    have h₂ : p₂.errors.length ≤ max 500 p₁.errors.length := hvalue.room
    show p₂.errors.length ≤ _
    omega

theorem ClosedEntries.cons {k : RawString} {entries : List (RawString × Raw)}
    (hround : EntryRound hashes p k r item p₁) (hrest : ClosedEntries hashes p₁ entries p') :
    ClosedEntries hashes p ((k, r) :: entries) p' := by
  have hcur : p₁.curToken.type = nextKeyType .end_ entries := by
    obtain ⟨used, -, htokens⟩ := hrest.reads
    rw [← hrest.stop]
    exact nextKeyType_of_head htokens.symm
  have he := hround.errors
  have he' := hrest.errors
  have hr := hround.room
  have hr' := hrest.room
  refine ⟨?_, hrest.stop, hround.valid _ _ hcur hrest.valid, ?_, by omega⟩
  · rw [rawEntryTokens, ← List.append_assoc]
    exact hround.reads.trans hrest.reads
  · rw [rawEntryErrors]
    omega

theorem CutEntries.cons {k : RawString} {key : Raw} {entries : List (RawString × Raw)}
    (hround : EntryRound hashes p k r item p₁) (hrest : CutEntries hashes p₁ entries key p') :
    CutEntries hashes p ((k, r) :: entries) key p' := by
  obtain ⟨ts, htokens, hreads⟩ := hrest.reads
  have hcur : p₁.curToken.type = nextKeyType key.first.type entries := by
    obtain ⟨used, -, hused⟩ := hreads
    obtain ⟨rest, hrest⟩ := key.tokens_first
    rw [hrest] at htokens
    have hhead : rawEntryTokens entries ++ key.first :: (rest ++ [p'.peekToken])
        = p₁.curToken :: p₁.peekToken :: used := by
      rw [hused, ← List.cons_append, ← List.append_assoc, htokens, List.append_assoc]
      rfl
    exact nextKeyType_of_head hhead
  have he := hround.errors
  have he' := hrest.errors
  have hr := hround.room
  have hr' := hrest.room
  refine ⟨⟨k.tokens ++ r.tokens ++ ts, ?_, hround.reads.trans hreads⟩, hrest.last,
    hround.valid _ _ hcur hrest.valid, hrest.other, hrest.opens, hrest.keyValid, ?_, by omega⟩
  · rw [rawEntryTokens, List.append_assoc, List.append_assoc, htokens]
    simp only [List.append_assoc]
  · rw [rawEntryErrors]
    omega

/-- The loop gives up at the first key. -/
theorem CutEntries.here {error : String} (hcur : p.curToken.type ≠ .end_)
    (hkey : Derived hashes p r item p₁) (hother : r.isString = false)
    (hroom : p₁.errors.length < 500) : CutEntries hashes p [] r (p₁.failed error) := by
  have he := hkey.errors
  have hfailed : (p₁.failed error).errors.length = p₁.errors.length + 1 := by simp [Parser.failed]
  refine ⟨hkey.reads, hkey.last, trivial, hother, by rwa [hkey.first], hkey.valid, ?_, ?_⟩
  · rw [hfailed, rawEntryErrors]
    omega
  · rw [hfailed]
    omega

/-- From `p` on the loop of `parse_dict` took `entries` and put them into `table`. -/
structure DerivedEntries (hashes : Nat → Nat → Prop) (p : Parser) (table : HashTable BencodeType)
    (entries : List (RawString × Raw)) (out : HashTable BencodeType) (p' : Parser) : Prop where
  sound : out.Sound
  builds : ∃ es, out.entries.Perm (es ++ table.entries) ∧ BuildsEntries entries es
  stop : ClosedEntries hashes p entries p' ∨ ∃ key, CutEntries hashes p entries key p'

theorem DerivedEntries.cons {k : RawString} {entries : List (RawString × Raw)}
    {value : BencodeType} {table table₁ out : HashTable BencodeType}
    (hround : EntryRound hashes p k r value p₁)
    (hperm : table₁.entries.Perm (⟨cString k.bytes.asString, value⟩ :: table.entries))
    (hrest : DerivedEntries hashes p₁ table₁ entries out p') :
    DerivedEntries hashes p table ((k, r) :: entries) out p' := by
  obtain ⟨es, hperm', hbuilds⟩ := hrest.builds
  refine ⟨hrest.sound, ⟨⟨cString k.bytes.asString, value⟩ :: es, ?_, rfl, hround.builds, hbuilds⟩,
    ?_⟩
  · refine hperm'.trans ((hperm.append_left es).trans ?_)
    exact List.perm_middle
  · rcases hrest.stop with hclosed | ⟨key, hcut⟩
    · exact .inl (hclosed.cons hround)
    · exact .inr ⟨key, hcut.cons hround⟩

end Rounds

section Runs

variable {getSha1 : List UInt8 → Nat → Nat → Except Fault (List UInt8)} {buf : List UInt8}

mutual

/-- **What `parse_item` returns is what it took of the tokens.** -/
theorem parseItem_derived : ∀ (fuel : Nat) {p p' : Parser} {item : BencodeType}, p.l.buf = buf →
    parseItem getSha1 fuel p = .ok item p' → ∃ r, Derived (Hashable getSha1 buf) p r item p'
  | 0, p, p', item, _, h => by
    rw [parseItem] at h
    cases h
  | fuel + 1, p, p', item, hbuf, h => by
    by_cases hint : p.curToken.type = .intStart
    · rw [parseItem_int fuel hint] at h
      exact parseInteger_derived hint h
    by_cases hstr : p.curToken.type = .stringSize
    · rw [parseItem_str fuel hstr] at h
      exact parseBytestring_derived hstr h
    by_cases hlist : p.curToken.type = .listStart
    · rw [parseItem_list fuel hlist, bind_returns_iff] at h
      obtain ⟨u, p₁, hstep, h⟩ := h
      obtain ⟨t, l, hnext, rfl⟩ := parserNextToken_returns_iff.mp hstep
      rw [bind_returns_iff] at h
      obtain ⟨out, p₂, hloop, hret⟩ := h
      have hbuf₁ : (p.next t l).l.buf = buf := (Parser.Reads.next hnext).buf.trans hbuf
      obtain ⟨items, values, rfl, hitems⟩ := parseListLoop_derived fuel [] hbuf₁ hloop
      cases hret
      refine ⟨.list p.curToken items p'.curToken, ⟨p.curToken :: rawTokens items, ?_, ?_⟩, rfl, rfl,
        ⟨hlist, hitems.stop, hitems.valid⟩, hitems.errors, hitems.room, hitems.builds⟩
      · rw [Raw.tokens, List.cons_append]
      · exact (Parser.Reads.next hnext).trans hitems.reads
    by_cases hdict : p.curToken.type = .dictStart
    · rw [parseItem_dict fuel hdict, bind_returns_iff] at h
      obtain ⟨u, p₁, hstep, h⟩ := h
      obtain ⟨t, l, hnext, rfl⟩ := parserNextToken_returns_iff.mp hstep
      rw [bind_returns_iff] at h
      obtain ⟨out, p₂, hloop, hret⟩ := h
      have hreads : p.Reads [p.curToken] (p.tabled.next t l) := Parser.Reads.next hnext
      obtain ⟨entries, hentries⟩ :=
        parseDictLoop_derived fuel (hashTableInit_wf _).sound (hreads.buf.trans hbuf) hloop
      obtain ⟨es, hperm, hbuilds⟩ := hentries.builds
      rw [entries_hashTableInit, List.append_nil] at hperm
      have hsound := hentries.sound
      cases hret
      rcases hentries.stop with hclosed | ⟨key, hcut⟩
      · refine ⟨.dict p.curToken entries p'.curToken,
          ⟨p.curToken :: rawEntryTokens entries, ?_, ?_⟩, rfl, rfl,
          ⟨hdict, hclosed.stop, hclosed.valid⟩, hclosed.errors, hclosed.room, hsound, es, hperm,
          hbuilds⟩
        · rw [Raw.tokens, List.cons_append]
        · exact hreads.trans hclosed.reads
      · obtain ⟨ts, htokens, hkeys⟩ := hcut.reads
        refine ⟨.dictCut p.curToken entries key, ⟨p.curToken :: ts, ?_, hreads.trans hkeys⟩, rfl,
          hcut.last, ⟨hdict, hcut.valid, hcut.other, hcut.opens, hcut.keyValid⟩, hcut.errors,
          hcut.room, hsound, es, hperm, hbuilds⟩
        rw [Raw.tokens, htokens, List.cons_append]
    · rw [parseItem_stray fuel hint hlist hdict hstr, bind_returns_iff] at h
      obtain ⟨u, p₁, herror, hret⟩ := h
      obtain ⟨hroom, rfl⟩ := parseError_returns_iff.mp herror
      cases hret
      refine ⟨.stray p.curToken, ⟨[], rfl, .refl p⟩, rfl, rfl, ⟨hint, hlist, hdict, hstr⟩, ?_, ?_,
        trivial⟩
      · simp [Parser.failed, Raw.errors]
      · simp only [Parser.failed, List.length_append, List.length_singleton]
        omega

theorem parseListLoop_derived : ∀ (fuel : Nat) {p p' : Parser} (values : List BencodeType)
    {out : List BencodeType}, p.l.buf = buf → parseListLoop getSha1 fuel values p = .ok out p' →
    ∃ items values', out = values ++ values' ∧
      DerivedItems (Hashable getSha1 buf) p items values' p'
  | 0, p, p', values, out, _, h => by
    rw [parseListLoop] at h
    cases h
  | fuel + 1, p, p', values, out, hbuf, h => by
    by_cases hcur : p.curToken.type = .end_
    · rw [parseListLoop_end fuel values hcur] at h
      cases h
      exact ⟨[], [], (List.append_nil _).symm, .refl p, hcur, trivial, rfl, le_max_right _ _,
        trivial⟩
    · rw [parseListLoop_item fuel values hcur, bind_returns_iff] at h
      obtain ⟨item, p₁, hitem, h⟩ := h
      obtain ⟨r, hr⟩ := parseItem_derived fuel hbuf hitem
      rw [bind_returns_iff] at h
      obtain ⟨u, p₂, hstep, h⟩ := h
      obtain ⟨t, l, hnext, rfl⟩ := parserNextToken_returns_iff.mp hstep
      obtain ⟨items, values', rfl, hitems⟩ :=
        parseListLoop_derived fuel _ ((hr.step hnext).buf.trans hbuf) h
      exact ⟨r :: items, item :: values', by simp, hitems.cons hcur hr hnext⟩

theorem parseDictLoop_derived : ∀ (fuel : Nat) {p p' : Parser} {table out : HashTable BencodeType},
    table.Sound → p.l.buf = buf → parseDictLoop getSha1 fuel table p = .ok out p' →
    ∃ entries, DerivedEntries (Hashable getSha1 buf) p table entries out p'
  | 0, p, p', table, out, _, _, h => by
    rw [parseDictLoop] at h
    cases h
  | fuel + 1, p, p', table, out, hsound, hbuf, h => by
    by_cases hcur : p.curToken.type = .end_
    · rw [parseDictLoop_end fuel table hcur] at h
      cases h
      exact ⟨[], hsound, ⟨[], .refl _, trivial⟩,
        .inl ⟨.refl p, hcur, trivial, rfl, le_max_right _ _⟩⟩
    · cases hkey : parseItem getSha1 fuel p with
      | error e p₁ =>
        rw [parseDictLoop_error fuel table hcur hkey] at h
        cases h
      | ok key p₁ =>
        obtain ⟨r, hr⟩ := parseItem_derived fuel hbuf hkey
        by_cases hstring : r.isString = true
        · obtain ⟨len, str, rfl⟩ := hr.builds.isString.mp hstring
          cases str with
          | none =>
            rw [parseDictLoop_null fuel table hcur hkey] at h
            cases h
          | some str =>
            rw [parseDictLoop_entry fuel table hcur hkey] at h
            obtain ⟨k, rfl, rfl⟩ := hr.builds.bytes
            obtain ⟨t, l, item, p₂, value, calls, table', t', l', hnext, hitem, hinfo, hvalue,
              hinsert, hnext', hloop⟩ := dictEntry_returned h
            have hbuf₁ := (hr.step hnext).buf.trans hbuf
            obtain ⟨r', hr'⟩ := parseItem_derived fuel hbuf₁ hitem
            have hbuf₂ : p₂.l.buf = buf := by
              obtain ⟨ts, -, hreads⟩ := hr'.reads
              exact hreads.buf.trans hbuf₁
            have hround : EntryRound (Hashable getSha1 buf) p k r' value
                (Parser.next { p₂ with hashed := calls } t' l') := by
              refine entryRound hr hnext hr' (fun hk => ?_) hvalue hnext'
              rw [← hbuf₂]
              exact hinfo hk
            obtain ⟨table₁, hinsert₁, hsound₁, hperm₁⟩ :=
              insert_sound hsound (cString k.bytes.asString) value
            rw [hinsert₁] at hinsert
            cases hinsert
            obtain ⟨entries, hentries⟩ :=
              parseDictLoop_derived fuel hsound₁ (hround.reads.buf.trans hbuf) hloop
            exact ⟨(k, r') :: entries, hentries.cons hround hperm₁⟩
        · have hother : ∀ len str, key ≠ .bytestring len str := by
            rintro len str rfl
            exact hstring (hr.builds.isString.mpr ⟨len, str, rfl⟩)
          rw [parseDictLoop_cut fuel table hcur hkey hother, bind_returns_iff] at h
          obtain ⟨u, p₂, herror, hret⟩ := h
          obtain ⟨hroom, rfl⟩ := parseError_returns_iff.mp herror
          cases hret
          exact ⟨[], hsound, ⟨[], .refl _, trivial⟩,
            .inr ⟨r, .here hcur hr (by simpa using hstring) hroom⟩⟩

end

end Runs

end BtClient

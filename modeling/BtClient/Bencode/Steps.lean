import BtClient.Bencode.Parsing

/-!
# The parser's steps, exactly

When a function of the parser returns, and what it returns then. `Parsing`
follows a run over a good text; these are the equivalences for any text, with
the calls of `parse_error` and the branches behind them.
-/

namespace BtClient

open CLib

/-! ## The text stays -/

theorem readChar_buf {l l' : Lexer} (h : readChar l = .ok l') : l'.buf = l.buf := by
  unfold readChar at h
  split at h
  · cases h
  · cases h
    rfl

theorem lexStringLoop_buf (left : Nat) : ∀ {l l' : Lexer} {s : List UInt8},
    lexStringLoop left l = .ok (s, l') → l'.buf = l.buf := by
  induction left with
  | zero =>
    intro l l' s h
    cases h
    rfl
  | succ left ih =>
    intro l l' s h
    rw [lexStringLoop, seq_returns_iff] at h
    obtain ⟨l₁, hread, h⟩ := h
    rw [seq_returns_iff] at h
    obtain ⟨⟨rest, l₂⟩, hloop, hret⟩ := h
    cases hret
    exact (ih hloop).trans (readChar_buf hread)

theorem lexNumber_buf (room : Nat) : ∀ {text : List UInt8} {l l' : Lexer}
    {num : Option (List UInt8)}, lexNumber room text l = .ok (num, l') → l'.buf = l.buf := by
  induction room with
  | zero =>
    intro text l l' num h
    cases h
  | succ room ih =>
    intro text l l' num h
    rw [lexNumber] at h
    split at h
    · cases h
      rfl
    · rw [seq_returns_iff] at h
      obtain ⟨next, -, h⟩ := h
      split at h
      · cases h
        rfl
      · rw [seq_returns_iff] at h
        obtain ⟨l₁, hread, h⟩ := h
        exact (ih h).trans (readChar_buf hread)

theorem finishToken_buf {l l' : Lexer} {t t' : Token}
    (h : (.ok (finishToken t l) : Except Fault (Token × Lexer)) = .ok (t', l')) :
    l'.buf = l.buf := by
  cases h
  rfl

theorem nextTokenNumber_buf {l l' : Lexer} {t : Token}
    (h : nextTokenNumber l = .ok (t, l')) : l'.buf = l.buf := by
  rw [nextTokenNumber, seq_returns_iff] at h
  obtain ⟨⟨num, l₁⟩, hnumber, h⟩ := h
  have hbuf := lexNumber_buf 500 hnumber
  cases num with
  | none =>
    cases h
    exact hbuf
  | some text =>
    simp only [seq_returns_iff] at h
    obtain ⟨next, -, n, -, hret⟩ := h
    exact (finishToken_buf hret).trans hbuf

theorem nextTokenDefault_buf {l l' : Lexer} {t : Token}
    (h : nextTokenDefault l = .ok (t, l')) : l'.buf = l.buf := by
  unfold nextTokenDefault at h
  split at h
  · rw [seq_returns_iff] at h
    obtain ⟨⟨s, l₁⟩, hstring, hret⟩ := h
    refine (finishToken_buf hret).trans ?_
    unfold lexString at hstring
    split at hstring
    · cases hstring
    · exact lexStringLoop_buf _ hstring
  · split at h
    · exact nextTokenNumber_buf h
    · split at h <;> exact finishToken_buf h

/-- **`next_token` changes nothing of the text.** -/
theorem nextToken_buf {l l' : Lexer} {t : Token} (h : nextToken l = .ok (t, l')) :
    l'.buf = l.buf := by
  rw [nextToken, seq_returns_iff] at h
  obtain ⟨l₁, hread, h⟩ := h
  refine Eq.trans ?_ (readChar_buf hread)
  repeat' split at h
  all_goals first
    | exact finishToken_buf h
    | exact nextTokenDefault_buf h

section Start

variable (input : Option Bool) (mem : List UInt8) (seeds : Nat → TableSeed)

theorem startParser_at : (startParser input mem seeds).l.At [] mem := ⟨rfl, rfl⟩

theorem startParser_fresh : (startParser input mem seeds).l.Fresh :=
  ⟨by simp [startParser], by simp [startParser], by simp [startParser], by simp [startParser]⟩

end Start

/-! ## One step of the parser -/

variable {p p' : Parser}

/-- The parser after `next_token` delivered `t` and left the lexer `l`. -/
def Parser.next (p : Parser) (t : Token) (l : Lexer) : Parser :=
  { p with curToken := p.peekToken, peekToken := t, l := l }

/-- The parser after `parse_error`. -/
def Parser.failed (p : Parser) (error : String) : Parser :=
  { p with errors := p.errors ++ [error] }

theorem parserNextToken_returns_iff {u : Unit} :
    parserNextToken p = .ok u p' ↔ ∃ t l, nextToken p.l = .ok (t, l) ∧ p' = p.next t l := by
  show EStateM.bind (lift (nextToken p.l)) _ p = .ok u p' ↔ _
  unfold EStateM.bind
  cases hnext : nextToken p.l with
  | error e => simp [lift]
  | ok result =>
    obtain ⟨t, l⟩ := result
    constructor
    · intro h
      cases h
      exact ⟨t, l, rfl, rfl⟩
    · rintro ⟨t', l', hres, rfl⟩
      cases hres
      rfl

theorem parseError_returns_iff {error : String} {u : Unit} :
    parseError error p = .ok u p' ↔ p.errors.length < 500 ∧ p' = p.failed error := by
  by_cases hroom : p.errors.length < 500
  · have hrun : parseError error p = .ok () (p.failed error) := by
      show (if p.errors.length < 500 then _ else _ : ParserM Unit) p = _
      rw [if_pos hroom]
      rfl
    rw [hrun]
    constructor
    · intro h
      cases h
      exact ⟨hroom, rfl⟩
    · rintro ⟨-, rfl⟩
      rfl
  · have hrun : parseError error p = .error .outOfBounds p := by
      show (if p.errors.length < 500 then _ else _ : ParserM Unit) p = _
      rw [if_neg hroom]
      rfl
    rw [hrun]
    simp [hroom]

/-- The message of `expect_peek`. -/
def expectMessage (expected : TokenType) : String :=
  "ERROR: expected token " ++ toString expected.code

/-- `expect_peek` moves on over the expected token. -/
theorem expectPeek_returns_iff_of_eq {expected : TokenType} (h : p.peekToken.type = expected)
    {ok : Bool} :
    expectPeek expected p = .ok ok p' ↔
      ok = true ∧ ∃ t l, nextToken p.l = .ok (t, l) ∧ p' = p.next t l := by
  have hrun : expectPeek expected p = (do parserNextToken; return true) p := by
    show (if p.peekToken.type ≠ expected then _ else _ : ParserM Bool) p = _
    rw [if_neg (by simpa using h)]
  rw [hrun, bind_returns_iff]
  constructor
  · rintro ⟨u, p₁, hnext, hret⟩
    cases hret
    exact ⟨rfl, parserNextToken_returns_iff.mp hnext⟩
  · rintro ⟨rfl, hnext⟩
    exact ⟨(), p', parserNextToken_returns_iff.mpr hnext, rfl⟩

/-- In front of another token `expect_peek` records an error and stays. -/
theorem expectPeek_returns_iff_of_ne {expected : TokenType} (h : p.peekToken.type ≠ expected)
    {ok : Bool} :
    expectPeek expected p = .ok ok p' ↔
      ok = false ∧ p.errors.length < 500 ∧ p' = p.failed (expectMessage expected) := by
  have hrun : expectPeek expected p
      = (do parseError (expectMessage expected); return false) p := by
    show (if p.peekToken.type ≠ expected then _ else _ : ParserM Bool) p = _
    rw [if_pos h]
    rfl
  rw [hrun, bind_returns_iff]
  constructor
  · rintro ⟨u, p₁, herror, hret⟩
    cases hret
    exact ⟨rfl, parseError_returns_iff.mp herror⟩
  · rintro ⟨rfl, herror⟩
    exact ⟨(), p', parseError_returns_iff.mpr herror, rfl⟩

/-! ## Strings -/

/-- At a size the assertion holds. -/
theorem parseBytestring_checked (hcur : p.curToken.type = .stringSize) :
    parseBytestring p = (do
      if (← expectPeek .colon) = false then
        return .bytestring 0 none
      else if (← expectPeek .string) = false then
        parseError "ERROR: A colon should be followed by a string\n"
        return .bytestring 0 none
      else
        let q ← get
        return .bytestring (sizeOfLong p.curToken.asInt) (some q.curToken.asString) :
      ParserM BencodeType) p := by
  have hassert : check (p.curToken.type = .stringSize) = .ok () := check_of (by simpa using hcur)
  show (lift (check (p.curToken.type = .stringSize)) >>= fun _ => _ : ParserM BencodeType) p = _
  rw [hassert]
  rfl

/-- A size that no colon follows. -/
theorem parseBytestring_returns_iff_of_ne (hcur : p.curToken.type = .stringSize)
    (hpeek : p.peekToken.type ≠ .colon) {item : BencodeType} :
    parseBytestring p = .ok item p' ↔
      item = .bytestring 0 none ∧ p.errors.length < 500 ∧ p' = p.failed (expectMessage .colon) := by
  rw [parseBytestring_checked hcur, bind_returns_iff]
  simp only [expectPeek_returns_iff_of_ne hpeek]
  constructor
  · rintro ⟨ok, p₁, ⟨rfl, hroom, rfl⟩, hret⟩
    cases hret
    exact ⟨rfl, hroom, rfl⟩
  · rintro ⟨rfl, hroom, rfl⟩
    exact ⟨false, _, ⟨rfl, hroom, rfl⟩, rfl⟩

/-- The colon is passed over, and then the bytes are expected. -/
theorem parseBytestring_returns_iff (hcur : p.curToken.type = .stringSize)
    (hpeek : p.peekToken.type = .colon) {item : BencodeType} :
    parseBytestring p = .ok item p' ↔ ∃ t l, nextToken p.l = .ok (t, l) ∧
      ((t.type ≠ .string ∧ item = .bytestring 0 none ∧ p.errors.length + 1 < 500 ∧
          p' = ((p.next t l).failed (expectMessage .string)).failed
            "ERROR: A colon should be followed by a string\n") ∨
        (t.type = .string ∧ ∃ t' l', nextToken l = .ok (t', l') ∧
          item = .bytestring (sizeOfLong p.curToken.asInt) (some t.asString) ∧
          p' = (p.next t l).next t' l')) := by
  rw [parseBytestring_checked hcur, bind_returns_iff]
  simp only [expectPeek_returns_iff_of_eq hpeek]
  constructor
  · rintro ⟨ok, p₁, ⟨rfl, t, l, hnext, rfl⟩, h⟩
    refine ⟨t, l, hnext, ?_⟩
    rw [if_neg (by simp), bind_returns_iff] at h
    obtain ⟨ok, p₂, hstring, h⟩ := h
    by_cases ht : t.type = .string
    · obtain ⟨rfl, t', l', hnext', rfl⟩ := (expectPeek_returns_iff_of_eq ht).mp hstring
      cases h
      exact .inr ⟨ht, t', l', hnext', rfl, rfl⟩
    · obtain ⟨rfl, -, rfl⟩ := (expectPeek_returns_iff_of_ne ht).mp hstring
      rw [if_pos rfl, bind_returns_iff] at h
      obtain ⟨u, p₃, herror, hret⟩ := h
      obtain ⟨hroom, rfl⟩ := parseError_returns_iff.mp herror
      cases hret
      refine .inl ⟨ht, rfl, ?_, rfl⟩
      simpa [Parser.failed, Parser.next] using hroom
  · rintro ⟨t, l, hnext, hcases⟩
    refine ⟨true, _, ⟨rfl, t, l, hnext, rfl⟩, ?_⟩
    rw [if_neg (by simp), bind_returns_iff]
    rcases hcases with ⟨ht, rfl, hroom, rfl⟩ | ⟨ht, t', l', hnext', rfl, rfl⟩
    · have hroom₁ : (p.next t l).errors.length < 500 := Nat.lt_of_succ_lt hroom
      refine ⟨false, _, (expectPeek_returns_iff_of_ne ht).mpr ⟨rfl, hroom₁, rfl⟩, ?_⟩
      rw [if_pos rfl, bind_returns_iff]
      refine ⟨(), _, parseError_returns_iff.mpr ⟨?_, rfl⟩, rfl⟩
      simpa [Parser.failed, Parser.next] using hroom
    · refine ⟨true, _, (expectPeek_returns_iff_of_eq ht).mpr ⟨rfl, t', l', hnext', rfl⟩, ?_⟩
      rfl

/-! ## Integers -/

/-- What `parse_integer` does after the numeral, or without one: the end is
expected. -/
def integerEnd (n : Int) : ParserM BencodeType := do
  if (← expectPeek .end_) = false then
    parseError "Unterminated int value"
  return .integer n

theorem integerEnd_returns_iff_of_eq {n : Int} (hpeek : p.peekToken.type = .end_)
    {item : BencodeType} :
    integerEnd n p = .ok item p' ↔
      item = .integer n ∧ ∃ t l, nextToken p.l = .ok (t, l) ∧ p' = p.next t l := by
  rw [integerEnd, bind_returns_iff]
  simp only [expectPeek_returns_iff_of_eq hpeek]
  constructor
  · rintro ⟨ok, p₁, ⟨rfl, t, l, hnext, rfl⟩, h⟩
    cases h
    exact ⟨rfl, t, l, hnext, rfl⟩
  · rintro ⟨rfl, t, l, hnext, rfl⟩
    exact ⟨true, _, ⟨rfl, t, l, hnext, rfl⟩, rfl⟩

theorem integerEnd_returns_iff_of_ne {n : Int} (hpeek : p.peekToken.type ≠ .end_)
    {item : BencodeType} :
    integerEnd n p = .ok item p' ↔
      item = .integer n ∧ p.errors.length + 1 < 500 ∧
        p' = (p.failed (expectMessage .end_)).failed "Unterminated int value" := by
  rw [integerEnd, bind_returns_iff]
  simp only [expectPeek_returns_iff_of_ne hpeek]
  constructor
  · rintro ⟨ok, p₁, ⟨rfl, hroom, rfl⟩, h⟩
    rw [if_pos rfl, bind_returns_iff] at h
    obtain ⟨u, p₂, herror, hret⟩ := h
    obtain ⟨hroom', rfl⟩ := parseError_returns_iff.mp herror
    cases hret
    exact ⟨rfl, by simpa [Parser.failed] using hroom', rfl⟩
  · rintro ⟨rfl, hroom, rfl⟩
    refine ⟨false, _, ⟨rfl, Nat.lt_of_succ_lt hroom, rfl⟩, ?_⟩
    rw [if_pos rfl, bind_returns_iff]
    exact ⟨(), _, parseError_returns_iff.mpr ⟨by simpa [Parser.failed] using hroom, rfl⟩, rfl⟩

/-- A numeral follows. -/
theorem parseInteger_returns_iff_of_eq (hpeek : p.peekToken.type = .int) {item : BencodeType} :
    parseInteger p = .ok item p' ↔
      ∃ t l, nextToken p.l = .ok (t, l) ∧
        integerEnd p.peekToken.asInt (p.next t l) = .ok item p' := by
  rw [parseInteger, bind_returns_iff]
  simp only [expectPeek_returns_iff_of_eq hpeek]
  constructor
  · rintro ⟨ok, p₁, ⟨rfl, t, l, hnext, rfl⟩, h⟩
    exact ⟨t, l, hnext, h⟩
  · rintro ⟨t, l, hnext, h⟩
    exact ⟨true, _, ⟨rfl, t, l, hnext, rfl⟩, h⟩

/-- No numeral follows: the value is what the current token holds. -/
theorem parseInteger_returns_iff_of_ne (hpeek : p.peekToken.type ≠ .int) {item : BencodeType} :
    parseInteger p = .ok item p' ↔
      p.errors.length + 1 < 500 ∧
        integerEnd p.curToken.asInt ((p.failed (expectMessage .int)).failed
          "Integer initializer is not followed by an integer value") = .ok item p' := by
  rw [parseInteger, bind_returns_iff]
  simp only [expectPeek_returns_iff_of_ne hpeek]
  constructor
  · rintro ⟨ok, p₁, ⟨rfl, hroom, rfl⟩, h⟩
    rw [if_pos rfl, bind_returns_iff] at h
    obtain ⟨u, p₂, herror, h⟩ := h
    obtain ⟨hroom', rfl⟩ := parseError_returns_iff.mp herror
    exact ⟨by simpa [Parser.failed] using hroom', h⟩
  · rintro ⟨hroom, h⟩
    refine ⟨false, _, ⟨rfl, Nat.lt_of_succ_lt hroom, rfl⟩, ?_⟩
    rw [if_pos rfl, bind_returns_iff]
    exact ⟨(), _, parseError_returns_iff.mpr ⟨by simpa [Parser.failed] using hroom, rfl⟩, h⟩

/-! ## Entries called `info` -/

theorem check_returns_iff {cond : Bool} {u : Unit} :
    lift (check cond) p = .ok u p' ↔ cond = true ∧ p' = p := by
  rw [lift_returns_iff, check_eq_ok]

theorem infoStart_returns_iff {key : List UInt8} {start : Nat} :
    infoStart key p = .ok start p' ↔ p' = p ∧
      ((key ≠ infoKey ∧ start = 0) ∨
        (key = infoKey ∧ p.peekToken.type = .dictStart ∧ start = p.peekToken.pos)) := by
  by_cases hk : key = infoKey
  · have hrun : infoStart key p = (do
        lift (check (p.peekToken.type = .dictStart))
        return p.peekToken.pos : ParserM Nat) p := by
      rw [infoStart, if_pos hk]
      rfl
    rw [hrun, bind_returns_iff]
    constructor
    · rintro ⟨u, p₁, hcheck, hret⟩
      obtain ⟨htype, rfl⟩ := check_returns_iff.mp hcheck
      cases hret
      exact ⟨rfl, .inr ⟨hk, by simpa using htype, rfl⟩⟩
    · rintro ⟨rfl, ⟨hne, -⟩ | ⟨-, htype, rfl⟩⟩
      · exact absurd hk hne
      · exact ⟨(), _, check_returns_iff.mpr ⟨by simpa using htype, rfl⟩, rfl⟩
  · rw [infoStart, if_neg hk]
    constructor
    · intro h
      cases h
      exact ⟨rfl, .inl ⟨hk, rfl⟩⟩
    · rintro ⟨rfl, ⟨-, rfl⟩ | ⟨hk', -⟩⟩
      · rfl
      · exact absurd hk' hk

/-- A dictionary with its digest. -/
def BencodeType.withDigest (digest : List UInt8) : BencodeType → BencodeType
  | .dictionary asDict _ => .dictionary asDict (some digest)
  | value => value

/-- The parser after a call of `BENCODE_GET_SHA1`. -/
def Parser.called (p : Parser) (start : Nat) : Parser :=
  { p with hashed := p.hashed ++ [(start, p.curToken.pos)] }

theorem infoFinish_returns_iff {getSha1 : List UInt8 → Nat → Nat → Except Fault (List UInt8)}
    {key : List UInt8} {start : Nat} {value item : BencodeType} :
    infoFinish getSha1 key start value p = .ok item p' ↔
      (key ≠ infoKey ∧ item = value ∧ p' = p) ∨
        (key = infoKey ∧ p.curToken.type = .end_ ∧ ∃ digest,
          getSha1 p.l.buf start p.curToken.pos = .ok digest ∧ item = value.withDigest digest ∧
          p' = p.called start) := by
  by_cases hk : key = infoKey
  · have hrun : infoFinish getSha1 key start value p = (do
        lift (check (p.curToken.type = .end_))
        set (p.called start)
        let digest ← lift (getSha1 p.l.buf start p.curToken.pos)
        return value.withDigest digest : ParserM BencodeType) p := by
      rw [infoFinish, if_pos hk]
      cases value <;> rfl
    rw [hrun, bind_returns_iff]
    constructor
    · rintro ⟨u, p₁, hcheck, h⟩
      obtain ⟨htype, rfl⟩ := check_returns_iff.mp hcheck
      rw [bind_returns_iff] at h
      obtain ⟨u', p₂, hset, h⟩ := h
      cases hset
      rw [bind_returns_iff] at h
      obtain ⟨digest, p₃, hlift, hret⟩ := h
      obtain ⟨hsha, rfl⟩ := lift_returns_iff.mp hlift
      cases hret
      exact .inr ⟨hk, by simpa using htype, digest, hsha, rfl, rfl⟩
    · rintro (⟨hne, -⟩ | ⟨-, htype, digest, hsha, rfl, rfl⟩)
      · exact absurd hk hne
      · refine ⟨(), p, check_returns_iff.mpr ⟨by simpa using htype, rfl⟩, ?_⟩
        rw [bind_returns_iff]
        refine ⟨⟨⟩, p.called start, rfl, ?_⟩
        rw [bind_returns_iff]
        exact ⟨digest, _, lift_returns_iff.mpr ⟨hsha, rfl⟩, rfl⟩
  · rw [infoFinish, if_neg hk]
    constructor
    · intro h
      cases h
      exact .inl ⟨hk, rfl, rfl⟩
    · rintro (⟨-, rfl, rfl⟩ | ⟨hk', -⟩)
      · rfl
      · exact absurd hk' hk

/-! ## The branches of `parse_item` and of its loops -/

theorem get_bind_run {α : Type} (f : Parser → ParserM α) (p : Parser) : (get >>= f) p = f p p := rfl

section Branches

variable {getSha1 : List UInt8 → Nat → Nat → Except Fault (List UInt8)} {p : Parser}

theorem parseItem_int (fuel : Nat) (h : p.curToken.type = .intStart) :
    parseItem getSha1 (fuel + 1) p = parseInteger p := by
  simp only [parseItem, get_bind_run, h]

theorem parseItem_str (fuel : Nat) (h : p.curToken.type = .stringSize) :
    parseItem getSha1 (fuel + 1) p = parseBytestring p := by
  simp only [parseItem, get_bind_run, h]

theorem parseItem_list (fuel : Nat) (h : p.curToken.type = .listStart) :
    parseItem getSha1 (fuel + 1) p = (do
      parserNextToken
      let values ← parseListLoop getSha1 fuel []
      return .list values : ParserM BencodeType) p := by
  simp only [parseItem, get_bind_run, h]

/-- The parser after `hash_table_init`. -/
def Parser.tabled (p : Parser) : Parser := { p with tables := p.tables + 1 }

theorem parseItem_dict (fuel : Nat) (h : p.curToken.type = .dictStart) :
    parseItem getSha1 (fuel + 1) p = (do
      parserNextToken
      let table ← parseDictLoop getSha1 fuel (hashTableInit (p.seeds p.tables))
      return .dictionary table none : ParserM BencodeType) p.tabled := by
  simp only [parseItem, get_bind_run, h]
  rfl

theorem parseItem_stray (fuel : Nat) (hint : p.curToken.type ≠ .intStart)
    (hlist : p.curToken.type ≠ .listStart) (hdict : p.curToken.type ≠ .dictStart)
    (hstr : p.curToken.type ≠ .stringSize) :
    parseItem getSha1 (fuel + 1) p = (do
      parseError "unexpected token"
      return .error : ParserM BencodeType) p := by
  simp only [parseItem, get_bind_run]

theorem parseListLoop_end (fuel : Nat) (values : List BencodeType) (h : p.curToken.type = .end_) :
    parseListLoop getSha1 (fuel + 1) values p = .ok values p := by
  simp only [parseListLoop, get_bind_run, h, if_true]
  rfl

theorem parseListLoop_item (fuel : Nat) (values : List BencodeType) (h : p.curToken.type ≠ .end_) :
    parseListLoop getSha1 (fuel + 1) values p = (do
      let item ← parseItem getSha1 fuel
      parserNextToken
      parseListLoop getSha1 fuel (values ++ [item])) p := by
  simp only [parseListLoop, get_bind_run, h, if_false]

theorem parseDictLoop_end (fuel : Nat) (table : HashTable BencodeType)
    (h : p.curToken.type = .end_) :
    parseDictLoop getSha1 (fuel + 1) table p = .ok table p := by
  simp only [parseDictLoop, get_bind_run, h, if_true]
  rfl

/-- What `parse_dict` does behind a key. -/
def dictEntry (getSha1 : List UInt8 → Nat → Nat → Except Fault (List UInt8)) (fuel : Nat)
    (table : HashTable BencodeType) (key : List UInt8) : ParserM (HashTable BencodeType) := do
  let start ← infoStart key
  parserNextToken
  let value ← infoFinish getSha1 key start (← parseItem getSha1 fuel)
  let table ← lift (hashTableInsert table key value)
  parserNextToken
  parseDictLoop getSha1 fuel table

theorem parseDictLoop_entry (fuel : Nat) (table : HashTable BencodeType)
    (h : p.curToken.type ≠ .end_) {p₁ : Parser} {len : Nat} {str : List UInt8}
    (hkey : parseItem getSha1 fuel p = .ok (.bytestring len (some str)) p₁) :
    parseDictLoop getSha1 (fuel + 1) table p = dictEntry getSha1 fuel table (cString str) p₁ := by
  simp only [parseDictLoop, get_bind_run, h, if_false]
  show EStateM.bind (parseItem getSha1 fuel) _ p = _
  unfold EStateM.bind
  rw [hkey]
  rfl

theorem parseDictLoop_error (fuel : Nat) (table : HashTable BencodeType)
    (h : p.curToken.type ≠ .end_) {p₁ : Parser} {e : Fault}
    (hkey : parseItem getSha1 fuel p = .error e p₁) :
    parseDictLoop getSha1 (fuel + 1) table p = .error e p₁ := by
  simp only [parseDictLoop, get_bind_run, h, if_false]
  show EStateM.bind (parseItem getSha1 fuel) _ p = _
  unfold EStateM.bind
  rw [hkey]

/-- A string that was not read has no key. -/
theorem parseDictLoop_null (fuel : Nat) (table : HashTable BencodeType)
    (h : p.curToken.type ≠ .end_) {p₁ : Parser} {len : Nat}
    (hkey : parseItem getSha1 fuel p = .ok (.bytestring len none) p₁) :
    parseDictLoop getSha1 (fuel + 1) table p = .error .nullDeref p₁ := by
  simp only [parseDictLoop, get_bind_run, h, if_false]
  show EStateM.bind (parseItem getSha1 fuel) _ p = _
  unfold EStateM.bind
  rw [hkey]
  rfl

/-- The loop gives up at a key that is not a string. -/
theorem parseDictLoop_cut (fuel : Nat) (table : HashTable BencodeType)
    (h : p.curToken.type ≠ .end_) {p₁ : Parser} {item : BencodeType}
    (hkey : parseItem getSha1 fuel p = .ok item p₁) (hne : ∀ len str, item ≠ .bytestring len str) :
    parseDictLoop getSha1 (fuel + 1) table p = (do
      parseError "Dictionary key is not a string\n"
      return table) p₁ := by
  simp only [parseDictLoop, get_bind_run, h, if_false]
  show EStateM.bind (parseItem getSha1 fuel) _ p = _
  unfold EStateM.bind
  rw [hkey]
  cases item with
  | bytestring len str => exact absurd rfl (hne len str)
  | _ => rfl

/-- The key's value is hashed if the key is `info`: then it starts as a dictionary,
and stops at an end. -/
def InfoHashed (getSha1 : List UInt8 → Nat → Nat → Except Fault (List UInt8)) (key : List UInt8)
    (p p' : Parser) : Prop :=
  key = infoKey → p.peekToken.type = .dictStart ∧ p'.curToken.type = .end_ ∧
    ∃ digest, getSha1 p'.l.buf p.peekToken.pos p'.curToken.pos = .ok digest

/-- An entry that was stored. -/
theorem dictEntry_returned {fuel : Nat} {table out : HashTable BencodeType} {key : List UInt8}
    {p' : Parser} (h : dictEntry getSha1 fuel table key p = .ok out p') :
    ∃ t l item p₂ value calls table' t' l', nextToken p.l = .ok (t, l) ∧
      parseItem getSha1 fuel (p.next t l) = .ok item p₂ ∧ InfoHashed getSha1 key p p₂ ∧
      (value = item ∨ ∃ digest, value = item.withDigest digest) ∧
      hashTableInsert table key value = .ok table' ∧ nextToken p₂.l = .ok (t', l') ∧
      parseDictLoop getSha1 fuel table' (Parser.next { p₂ with hashed := calls } t' l')
        = .ok out p' := by
  rw [dictEntry, bind_returns_iff] at h
  obtain ⟨start, p₁, hstart, h⟩ := h
  obtain ⟨rfl, hinfo⟩ := infoStart_returns_iff.mp hstart
  rw [bind_returns_iff] at h
  obtain ⟨u, p₂, hstep, h⟩ := h
  obtain ⟨t, l, hnext, rfl⟩ := parserNextToken_returns_iff.mp hstep
  rw [bind_returns_iff] at h
  obtain ⟨item, p₃, hitem, h⟩ := h
  rw [bind_returns_iff] at h
  obtain ⟨value, p₄, hfinish, h⟩ := h
  rw [bind_returns_iff] at h
  obtain ⟨table', p₅, hlift, h⟩ := h
  obtain ⟨hinsert, rfl⟩ := lift_returns_iff.mp hlift
  rw [bind_returns_iff] at h
  obtain ⟨u', p₆, hstep', h⟩ := h
  obtain ⟨t', l', hnext', rfl⟩ := parserNextToken_returns_iff.mp hstep'
  rcases infoFinish_returns_iff.mp hfinish with
    ⟨hk, rfl, rfl⟩ | ⟨hk, hend, digest, hsha, rfl, rfl⟩
  · exact ⟨t, l, value, p₅, value, p₅.hashed, table', t', l', hnext, hitem, fun h => absurd h hk,
      .inl rfl, hinsert, hnext', h⟩
  · rcases hinfo with ⟨hne, -⟩ | ⟨-, hdict, rfl⟩
    · exact absurd hk hne
    · exact ⟨t, l, item, p₃, _, _, table', t', l', hnext, hitem,
        fun _ => ⟨hdict, hend, digest, hsha⟩, .inr ⟨digest, rfl⟩, hinsert, hnext', h⟩

/-- An entry whose value is read is stored. -/
theorem dictEntry_returns {fuel : Nat} (table : HashTable BencodeType) {key : List UInt8}
    {t : Token} {l : Lexer} {item : BencodeType} {p₂ : Parser}
    (hnext : nextToken p.l = .ok (t, l)) (hitem : parseItem getSha1 fuel (p.next t l) = .ok item p₂)
    (hinfo : InfoHashed getSha1 key p p₂) :
    ∃ value calls, (value = item ∨ ∃ digest, value = item.withDigest digest) ∧
      ∀ table' t' l' out p', hashTableInsert table key value = .ok table' →
        nextToken p₂.l = .ok (t', l') →
        parseDictLoop getSha1 fuel table' (Parser.next { p₂ with hashed := calls } t' l')
          = .ok out p' →
        dictEntry getSha1 fuel table key p = .ok out p' := by
  have hrun : ∀ start value p₃, infoStart key p = .ok start p →
      infoFinish getSha1 key start item p₂ = .ok value p₃ → ∀ table' t' l' out p',
        hashTableInsert table key value = .ok table' → nextToken p₃.l = .ok (t', l') →
        parseDictLoop getSha1 fuel table' (p₃.next t' l') = .ok out p' →
        dictEntry getSha1 fuel table key p = .ok out p' := by
    intro start value p₃ hstart hfinish table' t' l' out p' hinsert hnext' hloop
    simp only [dictEntry, bind_returns_iff]
    exact ⟨start, p, hstart, (), _, parserNextToken_returns_iff.mpr ⟨t, l, hnext, rfl⟩, item, p₂,
      hitem, value, p₃, hfinish, table', p₃, lift_returns_iff.mpr ⟨hinsert, rfl⟩, (), _,
      parserNextToken_returns_iff.mpr ⟨t', l', hnext', rfl⟩, hloop⟩
  by_cases hk : key = infoKey
  · obtain ⟨hdict, hend, digest, hsha⟩ := hinfo hk
    refine ⟨item.withDigest digest, _, .inr ⟨digest, rfl⟩, hrun p.peekToken.pos _
      (p₂.called p.peekToken.pos) ?_ ?_⟩
    · exact infoStart_returns_iff.mpr ⟨rfl, .inr ⟨hk, hdict, rfl⟩⟩
    · exact infoFinish_returns_iff.mpr (.inr ⟨hk, hend, digest, hsha, rfl, rfl⟩)
  · refine ⟨item, p₂.hashed, .inl rfl, hrun 0 item p₂ ?_ ?_⟩
    · exact infoStart_returns_iff.mpr ⟨rfl, .inl ⟨hk, rfl⟩⟩
    · exact infoFinish_returns_iff.mpr (.inl ⟨hk, rfl, rfl⟩)

end Branches

end BtClient

import BtClient.Bencode.Steps

/-!
# Strings are read byte for byte

Where a string stands at a value position, `parse_bytestring` returns its
bytes and leaves the lexer right behind them, unless there are none or the
first of them is a colon: `next_token` takes a colon for a token before it
looks at the tokens before, and the loop that copies `n` bytes counts to
`n - 1` in a `size_t`.
-/

namespace BtClient

open CLib

/-- What may stand behind a value: the `NUL` at the end, the `e` of what it is
in, or another value. -/
def Continues (rest : List UInt8) : Prop :=
  (∃ tail, rest = 0 :: tail) ∨ (∃ tail, rest = 101 :: tail) ∨
    ∃ v tail, rest = encode v ++ tail ∧ (encode v).length < 2 ^ 63

/-- The parser takes the string `s` that stands behind `before`: it reads the
size and the colon, `parse_bytestring` returns the bytes and records no error,
and the look-ahead was read by a lexer that stood right behind `s`. -/
def ReadsString (q : Parser) (before s rest : List UInt8) : Prop :=
  ∃ p p' l, (do parserNextToken; parserNextToken) q = .ok () p ∧
    parseBytestring p = .ok (.bytestring s.length (some s)) p' ∧ p'.errors = q.errors ∧
    l.At (before ++ encodeStr s) rest ∧ l.Fresh ∧ nextToken l = .ok (p'.peekToken, p'.l)

section Follow

variable {l : Lexer} {before rest : List UInt8}

/-- The first token of what continues a text is read. -/
theorem Continues.lexes (h : Continues rest) (hat : l.At before rest) (hfresh : l.Fresh) :
    ∃ t l', nextToken l = .ok (t, l') := by
  rcases h with ⟨tail, rfl⟩ | ⟨tail, rfl⟩ | ⟨v, tail, rfl, hlen⟩
  · exact ⟨_, _, nextToken_stop hat hfresh.before⟩
  · exact ⟨_, _, nextToken_end hat hfresh.colon⟩
  · cases v with
    | int n => exact ⟨_, _, nextToken_intStart hat hfresh.colon⟩
    | list vs => exact ⟨_, _, nextToken_listStart hat hfresh.colon⟩
    | dict es => exact ⟨_, _, nextToken_dictStart hat hfresh.colon⟩
    | str s =>
      simp only [encode, encodeStr, List.length_append, List.length_cons] at hlen
      have hshort := length_decimal_le (n := s.length) (by omega)
      have hat' : l.At before (decimalInt (s.length : Int) ++ 58 :: (s ++ tail)) := by
        show l.At before (decimal s.length ++ 58 :: (s ++ tail))
        simpa [encode, encodeStr] using hat
      rcases nextToken_number (s.length : Int) (.inr rfl) hat' hfresh.before with
        ⟨-, l', hnext, -⟩ | ⟨hlong, -⟩
      · exact ⟨_, l', hnext⟩
      · have : (decimalInt (s.length : Int)).length = (decimal s.length).length := rfl
        omega

/-- It does not start with a colon. -/
theorem Continues.head (h : Continues rest) : ∃ c tail, rest = c :: tail ∧ c ≠ 58 := by
  rcases h with ⟨tail, rfl⟩ | ⟨tail, rfl⟩ | ⟨v, tail, rfl, -⟩
  · exact ⟨0, tail, rfl, by decide⟩
  · exact ⟨101, tail, rfl, by decide⟩
  · cases v with
    | int n => exact ⟨105, _, rfl, by decide⟩
    | list vs => exact ⟨108, _, rfl, by decide⟩
    | dict es => exact ⟨100, _, rfl, by decide⟩
    | str s =>
      obtain ⟨c, cs, hcs⟩ := List.exists_cons_of_ne_nil (decimal_ne_nil s.length)
      have hc : isdigit c = true := isdigit_of_mem_decimal (n := s.length) (by simp [hcs])
      refine ⟨c, cs ++ 58 :: s ++ tail, by simp [encode, encodeStr, hcs], ?_⟩
      rintro rfl
      exact absurd hc (by decide)

end Follow

/-! ## The size and the colon -/

/-- The token of a string's size. -/
def sizeToken (s : List UInt8) : Token :=
  { type := .stringSize, asInt := clampLong (s.length : Int) }

/-- A parser in front of the bytes of a string. -/
structure Parser.AtBytes (p : Parser) (before s rest : List UInt8) : Prop where
  cur : p.curToken = sizeToken s
  peek : p.peekToken = { type := .colon }
  at_ : p.l.At (before ++ (decimal s.length ++ [58])) (s ++ rest)
  prev : p.l.prev = { type := .colon }
  prevprev : p.l.prevprev = sizeToken s

/-- The size and the colon are read, unless the size has too many digits. -/
theorem nextTokens_size {q : Parser} {before s rest : List UInt8}
    (hat : q.l.At before (encodeStr s ++ rest)) (hfresh : q.l.Fresh) :
    ((decimal s.length).length < 500 ∧
      ∃ p, (do parserNextToken; parserNextToken) q = .ok () p ∧ p.AtBytes before s rest ∧
        p.errors = q.errors) ∨
    (500 ≤ (decimal s.length).length ∧
      ∀ p, (do parserNextToken; parserNextToken) q ≠ .ok () p) := by
  have hat₁ : q.l.At before (decimalInt (s.length : Int) ++ 58 :: (s ++ rest)) := by
    show q.l.At before (decimal s.length ++ 58 :: (s ++ rest))
    simpa [encodeStr] using hat
  rcases nextToken_number (s.length : Int) (.inr rfl) hat₁ hfresh.before with
    ⟨hshort, l₁, hnext₁, hafter₁⟩ | ⟨hlong, e, hnext₁⟩
  · rw [numberType, if_neg hfresh.intStart, if_pos rfl] at hnext₁ hafter₁
    have hnext₂ := nextToken_colon hafter₁.at_
    have hafter₂ := after_took hafter₁.at_ { type := .colon }
    refine .inl ⟨hshort, (q.next (sizeToken s) l₁).next { type := .colon } _, ?_, ⟨rfl, rfl, ?_,
      hafter₂.prev, hafter₂.prevprev.trans hafter₁.prev⟩, rfl⟩
    · rw [bind_returns_iff]
      exact ⟨(), _, parserNextToken_returns_iff.mpr ⟨_, l₁, hnext₁, rfl⟩,
        parserNextToken_returns_iff.mpr ⟨_, _, hnext₂, rfl⟩⟩
    · rw [← List.append_assoc]
      exact hafter₂.at_
  · refine .inr ⟨hlong, fun p hrun => ?_⟩
    rw [bind_returns_iff] at hrun
    obtain ⟨u, p₁, hfirst, -⟩ := hrun
    obtain ⟨t, l, hnext, -⟩ := parserNextToken_returns_iff.mp hfirst
    rw [hnext₁] at hnext
    cases hnext

/-! ## The bytes -/

section Bytes

variable {p : Parser} {before s rest : List UInt8}

/-- An empty string is copied into a buffer of no bytes. -/
theorem Parser.AtBytes.empty (h : p.AtBytes before [] rest) (hrest : Continues rest) :
    ∃ e, nextToken p.l = .error e := by
  obtain ⟨c, tail, rfl, hc⟩ := hrest.head
  have hat : p.l.At (before ++ (decimal 0 ++ [58])) (c :: tail) := h.at_
  refine ⟨.outOfBounds, ?_⟩
  simp only [nextToken, readChar_at hat, ok_bind, hc, if_false, h.prev, ne_eq, not_true_eq_false,
    and_false, nextTokenDefault, h.prevprev, sizeToken, if_true]
  rfl

/-- What `parse_bytestring` returns with bytes has them behind the colon. -/
theorem Parser.AtBytes.returns {p' : Parser} {len : Nat} {str : List UInt8}
    (h : p.AtBytes before s rest)
    (hrun : parseBytestring p = .ok (.bytestring len (some str)) p') :
    len = sizeOfLong (clampLong (s.length : Int)) ∧
      ∃ t l, nextToken p.l = .ok (t, l) ∧ t.type = .string := by
  have hcur : p.curToken.type = .stringSize := by
    rw [h.cur]
    rfl
  have hpeek : p.peekToken.type = .colon := by rw [h.peek]
  obtain ⟨t, l, hnext, hcases⟩ := (parseBytestring_returns_iff hcur hpeek).mp hrun
  rcases hcases with ⟨-, hitem, -⟩ | ⟨ht, -, -, -, hitem, -⟩
  · cases hitem
  · rw [h.cur] at hitem
    cases hitem
    exact ⟨rfl, t, l, hnext, ht⟩

/-- A string that is returned whole is not empty, starts with no colon and has a
size that is a `long`. -/
theorem Parser.AtBytes.whole {p' : Parser} (h : p.AtBytes before s rest)
    (hrest : Continues rest)
    (hrun : parseBytestring p = .ok (.bytestring s.length (some s)) p') :
    readable s = true ∧ s.length < 2 ^ 63 := by
  obtain ⟨hlen, t, l, hnext, ht⟩ := h.returns hrun
  constructor
  · cases s with
    | nil =>
      obtain ⟨e, herror⟩ := h.empty hrest
      rw [hnext] at herror
      cases herror
    | cons c cs =>
      by_cases hc : c = 58
      · subst hc
        rw [nextToken_colon h.at_] at hnext
        cases hnext
        cases ht
      · simpa [readable] using hc
  · -- a longer one has its size clamped
    by_contra hlong
    have hclamp : clampLong (s.length : Int) = 2 ^ 63 - 1 := by
      unfold clampLong
      omega
    rw [hclamp] at hlen
    have : sizeOfLong (2 ^ 63 - 1) = 2 ^ 63 - 1 := by decide
    omega

/-- Any other string is returned. -/
theorem Parser.AtBytes.reads (h : p.AtBytes before s rest) (hrest : Continues rest)
    (hs : readable s = true) (hlen : s.length < 2 ^ 63) :
    ∃ p' l, parseBytestring p = .ok (.bytestring s.length (some s)) p' ∧ p'.errors = p.errors ∧
      l.At (before ++ encodeStr s) rest ∧ l.Fresh ∧ nextToken l = .ok (p'.peekToken, p'.l) := by
  have hclamp : clampLong (s.length : Int) = s.length := clampLong_of_range (by omega) (by omega)
  have hsize : sizeOfLong (clampLong (s.length : Int)) = s.length := by
    rw [hclamp]
    simp only [sizeOfLong]
    omega
  obtain ⟨l, hnext, hafter⟩ := nextToken_string hs h.at_ (by rw [h.prev])
    (by rw [h.prevprev, sizeToken, hclamp]) hlen
  have hfresh : l.Fresh := hafter.fresh (by rw [h.prev]; simp) (by simp)
  have hat : l.At (before ++ encodeStr s) rest := by
    simpa [encodeStr] using hafter.at_
  obtain ⟨t', l', hnext'⟩ := hrest.lexes hat hfresh
  have hcur : p.curToken.type = .stringSize := by
    rw [h.cur]
    rfl
  have hpeek : p.peekToken.type = .colon := by rw [h.peek]
  refine ⟨(p.next { type := .string, asString := s } l).next t' l', l, ?_, rfl, hat, hfresh,
    hnext'⟩
  rw [parseBytestring_returns_iff hcur hpeek]
  refine ⟨_, l, hnext, .inr ⟨rfl, t', l', hnext', ?_, rfl⟩⟩
  rw [h.cur, sizeToken, hsize]

end Bytes

/-- **Strings are binary safe exactly when they are not empty and do not start with
a colon.** A size of `2^63` or more is no `long`. -/
theorem bytestring_read_iff {q : Parser} {before s rest : List UInt8}
    (hat : q.l.At before (encodeStr s ++ rest)) (hfresh : q.l.Fresh) (hrest : Continues rest) :
    ReadsString q before s rest ↔ readable s = true ∧ s.length < 2 ^ 63 := by
  rcases nextTokens_size hat hfresh with ⟨-, p, hrun, hbytes, herrors⟩ | ⟨hlong, hnone⟩
  · constructor
    · rintro ⟨p₁, p', l, hrun₁, hbytestring, -⟩
      rw [hrun] at hrun₁
      cases hrun₁
      exact hbytes.whole hrest hbytestring
    · rintro ⟨hs, hlen⟩
      obtain ⟨p', l, hbytestring, herrors', hafter⟩ := hbytes.reads hrest hs hlen
      exact ⟨p, p', l, hrun, hbytestring, herrors'.trans herrors, hafter⟩
  · constructor
    · rintro ⟨p, p', l, hrun, -⟩
      exact absurd hrun (hnone p)
    · rintro ⟨-, hlen⟩
      have := length_decimal_le (n := s.length) (by omega)
      omega

/-- The bytes `e`, `0` and `:` in this order are a string like any other. -/
theorem bytestring_read_structural :
    ReadsString (startParser none (encodeStr [101, 0, 58] ++ [0]) fun _ => ⟨0, 0⟩) [] [101, 0, 58]
      [0] :=
  (bytestring_read_iff (startParser_at _ _ _) (startParser_fresh _ _ _) (.inl ⟨[], rfl⟩)).mpr
    ⟨by decide, by decide⟩

/-- The string `:` is not read. -/
theorem bytestring_colon_lost :
    ¬ ∀ (q : Parser) (before s rest : List UInt8), q.l.At before (encodeStr s ++ rest) →
      q.l.Fresh → Continues rest → ReadsString q before s rest := by
  intro hclaim
  have hrest : Continues [0] := .inl ⟨[], rfl⟩
  have hat := startParser_at none (encodeStr [58] ++ [0]) fun _ => ⟨0, 0⟩
  have hfresh := startParser_fresh none (encodeStr [58] ++ [0]) fun _ => ⟨0, 0⟩
  obtain ⟨p, p', l, hrun, hbytestring, -⟩ := hclaim _ [] [58] [0] hat hfresh hrest
  rcases nextTokens_size hat hfresh with ⟨-, p₁, hrun₁, hbytes, -⟩ | ⟨-, hnone⟩
  · rw [hrun] at hrun₁
    cases hrun₁
    exact absurd (hbytes.whole hrest hbytestring).1 (by decide)
  · exact hnone p hrun

end BtClient

import BtClient.Bencode.Lexing

/-!
# The text behind a token

The converse of the token lemmas of `Lexing`: when `next_token` returns, of which
bytes its token was made. Tokens that are neither illegal nor the end of the
file are one structural byte, a run of digits and minus signs in front of `e` or
`:`, or the bytes of a string (`nextToken_text`).
-/

namespace BtClient

open CLib

/-- The lexer `l₁` has read on, but delivered no token since `l`. -/
structure Lexer.Inside (l l₁ : Lexer) : Prop where
  prev : l₁.prev = l.prev
  prevprev : l₁.prevprev = l.prevprev
  input : l₁.input = l.input

theorem Lexer.Inside.refl (l : Lexer) : l.Inside l := ⟨rfl, rfl, rfl⟩

theorem Lexer.Inside.trans {l l₁ l₂ : Lexer} (h : l.Inside l₁) (h' : l₁.Inside l₂) :
    l.Inside l₂ :=
  ⟨h'.prev.trans h.prev, h'.prevprev.trans h.prevprev, h'.input.trans h.input⟩

/-- Behind a `read_char`. -/
theorem readChar_text {l l' : Lexer} {before rest : List UInt8} (hat : l.At before rest)
    (h : readChar l = .ok l') :
    ∃ c rest', rest = c :: rest' ∧ l'.ch = c ∧ l'.At (before ++ [c]) rest' ∧ l.Inside l' := by
  cases rest with
  | nil =>
    rw [readChar_outside hat] at h
    cases h
  | cons c rest' =>
    rw [readChar_at hat] at h
    cases h
    exact ⟨c, rest', rfl, rfl, Lexer.At.move (b := [c]) hat rfl (by rw [hat.readPos]; rfl), rfl,
      rfl, rfl⟩

theorem peekChar_text {l : Lexer} {before rest : List UInt8} {c : UInt8} (hat : l.At before rest)
    (h : peekChar l = .ok c) : ∃ rest', rest = c :: rest' := by
  cases rest with
  | nil =>
    rw [peekChar_outside hat] at h
    cases h
  | cons d rest' =>
    rw [peekChar_at hat] at h
    cases h
    exact ⟨rest', rfl⟩

/-- The text of a numeral, the first byte of which is read. -/
theorem lexNumber_text (room : Nat) : ∀ {text num : List UInt8} {l l' : Lexer}
    {before rest : List UInt8}, l.At before rest → lexNumber room text l = .ok (some num, l') →
    ∃ cs stop rest', rest = cs ++ stop :: rest' ∧ (stop = 101 ∨ stop = 58) ∧
      num = text ++ l.ch :: cs ∧ (∀ c ∈ l.ch :: cs, numeralByte c = true) ∧
      l'.At (before ++ cs) (stop :: rest') ∧ l.Inside l' := by
  induction room with
  | zero =>
    intro text num l l' before rest _ h
    cases h
  | succ room ih =>
    intro text num l l' before rest hat h
    rw [lexNumber] at h
    split at h
    · cases h
    · rename_i hbyte
      have hch : numeralByte l.ch = true := by
        simp only [numeralByte, Bool.or_eq_true, beq_iff_eq]
        by_cases hdigit : isdigit l.ch = true
        · exact .inl hdigit
        · right
          by_contra hminus
          exact hbyte ⟨by simpa using hdigit, hminus⟩
      rw [seq_returns_iff] at h
      obtain ⟨next, hpeek, h⟩ := h
      obtain ⟨rest', rfl⟩ := peekChar_text hat hpeek
      split at h
      · rename_i hstop
        cases h
        refine ⟨[], next, rest', rfl, hstop, rfl, ?_, by simpa using hat, .refl l⟩
        simpa using hch
      · rw [seq_returns_iff] at h
        obtain ⟨l₁, hread, h⟩ := h
        obtain ⟨c, rest₁, hrest, rfl, hat₁, hin₁⟩ := readChar_text hat hread
        cases hrest
        obtain ⟨cs, stop, rest₂, rfl, hstop, rfl, hbytes, hat₂, hin₂⟩ := ih hat₁ h
        refine ⟨l₁.ch :: cs, stop, rest₂, rfl, hstop, by simp, ?_, by simpa using hat₂,
          hin₁.trans hin₂⟩
        intro d hd
        rcases List.mem_cons.mp hd with rfl | hd
        · exact hch
        · exact hbytes d hd

/-- The bytes of a string, the first of which is read. -/
theorem lexStringLoop_text (left : Nat) : ∀ {s : List UInt8} {l l' : Lexer}
    {before rest : List UInt8}, l.At before rest → lexStringLoop left l = .ok (s, l') →
    ∃ cs rest', rest = cs ++ rest' ∧ cs.length = left ∧ s = l.ch :: cs ∧
      l'.At (before ++ cs) rest' ∧ l.Inside l' := by
  induction left with
  | zero =>
    intro s l l' before rest hat h
    cases h
    exact ⟨[], rest, rfl, rfl, rfl, by simpa using hat, .refl l⟩
  | succ left ih =>
    intro s l l' before rest hat h
    rw [lexStringLoop, seq_returns_iff] at h
    obtain ⟨l₁, hread, h⟩ := h
    rw [seq_returns_iff] at h
    obtain ⟨⟨s₁, l₂⟩, hloop, hret⟩ := h
    cases hret
    obtain ⟨c, rest₁, rfl, rfl, hat₁, hin₁⟩ := readChar_text hat hread
    obtain ⟨cs, rest', rfl, hlen, rfl, hat₂, hin₂⟩ := ih hat₁ hloop
    exact ⟨l₁.ch :: cs, rest', rfl, by simp [hlen], rfl, by simpa using hat₂, hin₁.trans hin₂⟩

/-! ## One token -/

/-- The structural bytes and their tokens. -/
def structural (c : UInt8) (t : TokenType) : Prop :=
  c = 58 ∧ t = .colon ∨ c = 100 ∧ t = .dictStart ∨ c = 108 ∧ t = .listStart ∨
    c = 105 ∧ t = .intStart ∨ c = 101 ∧ t = .end_

/-- The bytes of a number token. -/
structure NumberText (l : Lexer) (before rest : List UInt8) (t : Token) (l' : Lexer)
    (num : List UInt8) (stop : UInt8) (rest' : List UInt8) : Prop where
  text : rest = num ++ stop :: rest'
  stops : stop = 101 ∨ stop = 58
  nonempty : num ≠ []
  bytes : ∀ c ∈ num, numeralByte c = true
  token : t = { type := numberType l.prev.type stop, asInt := numeralValue num }
  after : l.After t (before ++ num) (stop :: rest') l'

/-- The bytes of a string token. -/
structure StringText (l : Lexer) (before rest : List UInt8) (t : Token) (l' : Lexer)
    (s rest' : List UInt8) : Prop where
  text : rest = s ++ rest'
  sized : l.prevprev.type = .stringSize
  length : s.length = sizeOfLong l.prevprev.asInt
  token : t = { type := .string, asString := s }
  after : l.After t (before ++ s) rest' l'

/-- What the token `t` was made of, where `l` delivers it and goes on as `l'`. -/
inductive TokenText (l : Lexer) (before rest : List UInt8) (t : Token) (l' : Lexer) : Prop where
  | other (htype : t.type = .illegal ∨ t.type = .endOfFile)
  | byte (c : UInt8) (rest' : List UInt8) (hrest : rest = c :: rest')
      (htype : structural c t.type) (hafter : l.After t (before ++ [c]) rest' l')
  | number (num : List UInt8) (stop : UInt8) (rest' : List UInt8)
      (h : NumberText l before rest t l' num stop rest')
  | string (s rest' : List UInt8) (h : StringText l before rest t l' s rest')

section Text

variable {l l₁ l' : Lexer} {t : Token} {before rest : List UInt8}

theorem Lexer.Inside.after (h : l.Inside l₁) (hat : l₁.At before rest) (t : Token) :
    l.After t before rest (finishToken t l₁).2 :=
  ⟨⟨hat.buf, hat.readPos⟩, rfl, h.prev, h.input⟩

theorem nextTokenNumber_text {c : UInt8} {rest' : List UInt8} (hin : l.Inside l₁)
    (hrest : rest = c :: rest') (hch : l₁.ch = c) (hat : l₁.At (before ++ [c]) rest')
    (h : nextTokenNumber l₁ = .ok (t, l')) : TokenText l before rest t l' := by
  subst hch
  rw [nextTokenNumber, seq_returns_iff] at h
  obtain ⟨⟨text, l₂⟩, hlex, h⟩ := h
  cases text with
  | none =>
    cases h
    exact .other (.inl rfl)
  | some num =>
    obtain ⟨cs, stop, rest₂, rfl, hstop, rfl, hbytes, hat₂, hin'⟩ :=
      lexNumber_text 500 hat hlex
    rw [List.nil_append] at h
    simp only [peekChar_at hat₂, ok_bind] at h
    rw [seq_returns_iff] at h
    obtain ⟨n, hn, hret⟩ := h
    have hfirst : isdigit l₁.ch = true ∨ l₁.ch = 45 := by
      simpa [numeralByte] using hbytes l₁.ch (by simp)
    have hvalue := strtol_padded hfirst hn
    subst hvalue
    have hin₂ := hin.trans hin'
    rw [List.append_assoc] at hat₂
    rw [hin₂.prev] at hret
    cases hret
    refine .number (l₁.ch :: cs) stop rest₂ ⟨hrest, hstop, by simp, hbytes, rfl, ?_⟩
    exact hin₂.after hat₂ _

theorem nextTokenDefault_text {c : UInt8} {rest' : List UInt8} (hin : l.Inside l₁)
    (hrest : rest = c :: rest') (hch : l₁.ch = c) (hat : l₁.At (before ++ [c]) rest')
    (h : nextTokenDefault l₁ = .ok (t, l')) : TokenText l before rest t l' := by
  rw [nextTokenDefault, hin.prevprev] at h
  split at h
  · rename_i hsized
    rw [seq_returns_iff] at h
    obtain ⟨⟨s, l₂⟩, hlex, hret⟩ := h
    subst hch
    cases hsize : sizeOfLong l.prevprev.asInt with
    | zero =>
      rw [hsize] at hlex
      cases hlex
    | succ left =>
      rw [hsize, lexString] at hlex
      obtain ⟨cs, rest₂, rfl, hlen, rfl, hat₂, hin'⟩ := lexStringLoop_text left hat hlex
      have hin₂ := hin.trans hin'
      rw [List.append_assoc] at hat₂
      cases hret
      refine .string (l₁.ch :: cs) rest₂ ⟨hrest, hsized, ?_, rfl, hin₂.after hat₂ _⟩
      rw [hsize, List.length_cons, hlen]
  · split at h
    · exact nextTokenNumber_text hin hrest hch hat h
    · split at h
      · cases h
        exact .other (.inr rfl)
      · cases h
        exact .other (.inl rfl)

/-- **The text of a token.** -/
theorem nextToken_text (hat : l.At before rest) (h : nextToken l = .ok (t, l')) :
    TokenText l before rest t l' := by
  rw [nextToken, seq_returns_iff] at h
  obtain ⟨l₁, hread, h⟩ := h
  obtain ⟨c, rest', hrest, hch, hat₁, hin⟩ := readChar_text hat hread
  have hbyte : ∀ t', .ok (finishToken t' l₁) = (.ok (t, l') : Except Fault (Token × Lexer)) →
      structural c t'.type → TokenText l before rest t l' := by
    intro t' hret htype
    cases hret
    exact .byte c rest' hrest htype (hin.after hat₁ _)
  rw [hch] at h
  split at h
  · rename_i hc
    exact hbyte _ h (.inl ⟨hc, rfl⟩)
  · split at h
    · rename_i hc
      exact hbyte _ h (.inr (.inl ⟨hc.1, rfl⟩))
    · split at h
      · rename_i hc
        exact hbyte _ h (.inr (.inr (.inl ⟨hc.1, rfl⟩)))
      · split at h
        · rename_i hc
          exact hbyte _ h (.inr (.inr (.inr (.inl ⟨hc.1, rfl⟩))))
        · split at h
          · rename_i hc
            exact hbyte _ h (.inr (.inr (.inr (.inr ⟨hc.1, rfl⟩))))
          · exact nextTokenDefault_text hin hrest hch hat₁ h

/-! ## By the type of the token -/

theorem TokenText.of_byte {c : UInt8} (h : TokenText l before rest t l')
    (hc : structural c t.type) :
    ∃ rest', rest = c :: rest' ∧ l.After t (before ++ [c]) rest' l' := by
  cases h with
  | other htype =>
    rcases htype with htype | htype <;> simp [structural, htype] at hc
  | byte c' rest' hrest htype hafter =>
    have hsame : c = c' := by
      rcases htype with ⟨rfl, ht⟩ | ⟨rfl, ht⟩ | ⟨rfl, ht⟩ | ⟨rfl, ht⟩ | ⟨rfl, ht⟩ <;>
        simpa [structural, ht] using hc
    subst hsame
    exact ⟨rest', hrest, hafter⟩
  | number num stop rest' htext =>
    rw [htext.token] at hc
    simp only [numberType] at hc
    split at hc
    · simp [structural] at hc
    · split at hc <;> simp [structural] at hc
  | string s rest' htext =>
    rw [htext.token] at hc
    simp [structural] at hc

theorem TokenText.of_number (h : TokenText l before rest t l')
    (ht : t.type = .int ∨ t.type = .stringSize) :
    ∃ num stop rest', NumberText l before rest t l' num stop rest' := by
  cases h with
  | other htype => rcases htype with htype | htype <;> simp [htype] at ht
  | byte c rest' hrest htype hafter =>
    rcases htype with ⟨-, h⟩ | ⟨-, h⟩ | ⟨-, h⟩ | ⟨-, h⟩ | ⟨-, h⟩ <;> simp [h] at ht
  | number num stop rest' htext => exact ⟨num, stop, rest', htext⟩
  | string s rest' htext => simp [htext.token] at ht

theorem TokenText.of_string (h : TokenText l before rest t l') (ht : t.type = .string) :
    ∃ s rest', StringText l before rest t l' s rest' := by
  cases h with
  | other htype => rcases htype with htype | htype <;> simp [htype] at ht
  | byte c rest' hrest htype hafter =>
    rcases htype with ⟨-, h⟩ | ⟨-, h⟩ | ⟨-, h⟩ | ⟨-, h⟩ | ⟨-, h⟩ <;> simp [h] at ht
  | number num stop rest' htext =>
    rw [htext.token] at ht
    simp only [numberType] at ht
    split at ht
    · cases ht
    · split at ht <;> cases ht
  | string s rest' htext => exact ⟨s, rest', htext⟩

end Text

end BtClient

import BtClient.Bencode.Value

/-!
# What the lexer makes of a canonical encoding

`next_token` decides by the two previous tokens what a byte means. `Fresh` is
what those must be where a value or the end of a container starts; each token
lemma says where it leaves the lexer, and `feeds_value` puts them together:
on the encoding of a value the lexer delivers the tokens of the value and is
fresh again behind it.

`Feeds fine ts l` is the lexer seen by the parser, a stream of tokens. A
numeral too long for `char buf[500]` makes `next_token` fault; `fine` says
that there is none.
-/

namespace BtClient

open CLib

/-- The bytes before and after the lexer's position. -/
structure Lexer.At (l : Lexer) (before rest : List UInt8) : Prop where
  buf : l.buf = before ++ rest
  readPos : l.readPos = before.length

/-- The previous tokens leave the meaning of the next byte open. -/
structure Lexer.Fresh (l : Lexer) : Prop where
  colon : l.prev.type ≠ .colon
  intStart : l.prev.type ≠ .intStart
  stringSize : l.prev.type ≠ .stringSize
  before : l.prevprev.type ≠ .stringSize

/-- `l'` is the lexer after `l` delivered `t`. -/
structure Lexer.After (l : Lexer) (t : Token) (before rest : List UInt8) (l' : Lexer) :
    Prop where
  at_ : l'.At before rest
  prev : l'.prev = t
  prevprev : l'.prevprev = l.prev
  input : l'.input = l.input

theorem Lexer.After.fresh {l l' : Lexer} {t : Token} {before rest : List UInt8}
    (h : l.After t before rest l') (hprev : l.prev.type ≠ .stringSize)
    (ht : t.type ≠ .colon ∧ t.type ≠ .intStart ∧ t.type ≠ .stringSize) : l'.Fresh :=
  ⟨h.prev ▸ ht.1, h.prev ▸ ht.2.1, h.prev ▸ ht.2.2, h.prevprev ▸ hprev⟩

theorem Lexer.At.move {l : Lexer} {a b c : List UInt8} (h : l.At a (b ++ c)) {l' : Lexer}
    (hbuf : l'.buf = l.buf) (hpos : l'.readPos = l.readPos + b.length) : l'.At (a ++ b) c :=
  ⟨by rw [hbuf, h.buf, List.append_assoc], by rw [hpos, h.readPos, List.length_append]⟩

theorem readChar_at {l : Lexer} {before rest : List UInt8} {c : UInt8}
    (h : l.At before (c :: rest)) :
    readChar l = .ok { l with ch := c, pos := before.length, readPos := before.length + 1 } := by
  have hget : l.buf[l.readPos]? = some c := by
    rw [h.buf, h.readPos, List.getElem?_append_right (le_refl _), Nat.sub_self]
    rfl
  simp only [readChar, hget]
  rw [h.readPos]

theorem peekChar_at {l : Lexer} {before rest : List UInt8} {c : UInt8}
    (h : l.At before (c :: rest)) : peekChar l = .ok c := by
  have hget : l.buf[l.readPos]? = some c := by
    rw [h.buf, h.readPos, List.getElem?_append_right (le_refl _), Nat.sub_self]
    rfl
  simp only [peekChar, hget]

section Outside

variable {l : Lexer} {before : List UInt8}

theorem Lexer.At.outside (h : l.At before []) : l.buf[l.readPos]? = none := by
  rw [h.buf, h.readPos, List.append_nil, List.getElem?_eq_none_iff]

theorem readChar_outside (h : l.At before []) : readChar l = .error .outOfBounds := by
  simp only [readChar, h.outside]

theorem peekChar_outside (h : l.At before []) : peekChar l = .error .outOfBounds := by
  simp only [peekChar, h.outside]

/-- At the end of the memory there is no token. -/
theorem nextToken_outside (h : l.At before []) : nextToken l = .error .outOfBounds := by
  rw [nextToken, readChar_outside h, error_bind]

end Outside

/-! ## One token -/

/-- The lexer after the byte `c` became the token `t`. -/
def Lexer.took (l : Lexer) (c : UInt8) (t : Token) : Lexer :=
  { l with ch := c, pos := l.readPos, readPos := l.readPos + 1, prevprev := l.prev, prev := t }

theorem after_took {l : Lexer} {before rest : List UInt8} {c : UInt8}
    (h : l.At before (c :: rest)) (t : Token) :
    l.After t (before ++ [c]) rest (l.took c t) :=
  ⟨Lexer.At.move (b := [c]) h rfl rfl, rfl, rfl, rfl⟩

theorem nextToken_colon {l : Lexer} {before rest : List UInt8} (h : l.At before (58 :: rest)) :
    nextToken l = .ok ({ type := .colon }, l.took 58 { type := .colon }) := by
  simp [nextToken, readChar_at h, finishToken, Lexer.took, h.readPos]

theorem nextToken_dictStart {l : Lexer} {before rest : List UInt8} (h : l.At before (100 :: rest))
    (hprev : l.prev.type ≠ .colon) :
    nextToken l = .ok ({ type := .dictStart, pos := before.length },
      l.took 100 { type := .dictStart, pos := before.length }) := by
  simp [nextToken, readChar_at h, finishToken, Lexer.took, h.readPos, hprev]

theorem nextToken_listStart {l : Lexer} {before rest : List UInt8} (h : l.At before (108 :: rest))
    (hprev : l.prev.type ≠ .colon) :
    nextToken l = .ok ({ type := .listStart }, l.took 108 { type := .listStart }) := by
  simp [nextToken, readChar_at h, finishToken, Lexer.took, h.readPos, hprev]

theorem nextToken_intStart {l : Lexer} {before rest : List UInt8} (h : l.At before (105 :: rest))
    (hprev : l.prev.type ≠ .colon) :
    nextToken l = .ok ({ type := .intStart }, l.took 105 { type := .intStart }) := by
  simp [nextToken, readChar_at h, finishToken, Lexer.took, h.readPos, hprev]

theorem nextToken_end {l : Lexer} {before rest : List UInt8} (h : l.At before (101 :: rest))
    (hprev : l.prev.type ≠ .colon) :
    nextToken l = .ok ({ type := .end_, pos := before.length },
      l.took 101 { type := .end_, pos := before.length }) := by
  simp [nextToken, readChar_at h, finishToken, Lexer.took, h.readPos, hprev]

/-- The token the lexer makes of the `NUL` behind a document. -/
def stopToken (input : Option Bool) : Token :=
  if input = some true then { type := .endOfFile } else { type := .illegal }

theorem nextToken_stop {l : Lexer} {before rest : List UInt8} (h : l.At before (0 :: rest))
    (hprev : l.prevprev.type ≠ .stringSize) :
    nextToken l = .ok (stopToken l.input, l.took 0 (stopToken l.input)) := by
  simp only [nextToken, readChar_at h, ok_bind, nextTokenDefault, hprev, if_false]
  by_cases hin : l.input = some true
  · simp [stopToken, hin, finishToken, Lexer.took, h.readPos, isdigit]
  · simp [stopToken, hin, finishToken, Lexer.took, h.readPos, isdigit]

/-! ## Numbers -/

/-- A byte of a numeral. -/
def numeralByte (c : UInt8) : Bool := isdigit c || c == 45

theorem numeralByte_decimalInt {n : Int} {c : UInt8} (h : c ∈ decimalInt n) :
    numeralByte c = true := by
  cases n with
  | ofNat n => simp [numeralByte, isdigit_of_mem_decimal (n := n) h]
  | negSucc n =>
    rcases List.mem_cons.mp h with rfl | h
    · rfl
    · simp [numeralByte, isdigit_of_mem_decimal h]

theorem decimalInt_ne_nil (n : Int) : decimalInt n ≠ [] := by
  cases n with
  | ofNat n => exact decimal_ne_nil n
  | negSucc n => simp [decimalInt]

/-- None of the bytes `next_token` treats apart is part of a numeral. -/
theorem numeralByte_other {c : UInt8} (h : numeralByte c = true) :
    c ≠ 58 ∧ c ≠ 100 ∧ c ≠ 108 ∧ c ≠ 105 ∧ c ≠ 101 := by
  refine ⟨?_, ?_, ?_, ?_, ?_⟩ <;> rintro rfl <;> exact absurd h (by decide)

/-- Collecting a numeral: the buffer takes it, or it is too long for it. The
lexer stands behind the first byte `c`. -/
theorem lexNumber_numeral {stop : UInt8} (hstop : stop = 101 ∨ stop = 58) (rest : List UInt8)
    (cs : List UInt8) : ∀ (c : UInt8) (before text : List UInt8) (room : Nat) (l : Lexer),
      (∀ d ∈ c :: cs, numeralByte d = true) → l.ch = c → l.At before (cs ++ stop :: rest) →
      (cs.length < room ∧ ∃ l', lexNumber room text l = .ok (some (text ++ c :: cs), l') ∧
        l'.At (before ++ cs) (stop :: rest) ∧ l'.prev = l.prev ∧ l'.prevprev = l.prevprev ∧
        l'.input = l.input) ∨
      (room ≤ cs.length ∧ lexNumber room text l = .error .outOfBounds) := by
  induction cs with
  | nil =>
    intro c before text room l hbytes hch hat
    rcases room with _ | room
    · exact .inr ⟨le_refl _, rfl⟩
    · refine .inl ⟨Nat.zero_lt_succ _, l, ?_, by simpa using hat, rfl, rfl, rfl⟩
      have hc := hbytes c (by simp)
      have hnext : stop = 101 ∨ stop = 58 := hstop
      simp only [numeralByte, Bool.or_eq_true, beq_iff_eq] at hc
      rw [lexNumber, hch, if_neg (by rcases hc with hc | hc <;> simp [hc]), peekChar_at hat,
        ok_bind, if_pos hnext]
      rfl
  | cons d cs ih =>
    intro c before text room l hbytes hch hat
    rcases room with _ | room
    · -- no room for this byte: the write is outside `buf`
      exact .inr ⟨Nat.zero_le _, rfl⟩
    · have hc := hbytes c (by simp)
      have hd := numeralByte_other (hbytes d (by simp))
      simp only [numeralByte, Bool.or_eq_true, beq_iff_eq] at hc
      have hstep : lexNumber (room + 1) text l = lexNumber room (text ++ [c])
          { l with ch := d, pos := before.length, readPos := before.length + 1 } := by
        rw [lexNumber, hch, if_neg (by rcases hc with hc | hc <;> simp [hc]), peekChar_at hat,
          ok_bind, if_neg (by simp [hd.1, hd.2.2.2.2]), readChar_at hat, ok_bind]
      rw [hstep]
      have hat' : Lexer.At { l with ch := d, pos := before.length, readPos := before.length + 1 }
          (before ++ [d]) (cs ++ stop :: rest) :=
        Lexer.At.move (b := [d]) hat rfl (by rw [hat.readPos]; rfl)
      rcases ih d (before ++ [d]) (text ++ [c]) room _ (fun x hx => hbytes x (by simp [hx])) rfl
        hat' with ⟨hlt, l', hlex, hl'⟩ | ⟨hle, hlex⟩
      · refine .inl ⟨by rw [List.length_cons]; omega, l', ?_, ?_⟩
        · rw [hlex, List.append_assoc]
          rfl
        · simpa using hl'
      · exact .inr ⟨by rw [List.length_cons]; omega, hlex⟩

/-- **A numeral** becomes a token with its value, unless the lexer's buffer is
too small for it. -/
theorem nextToken_number {l : Lexer} {before rest : List UInt8} {stop : UInt8} (n : Int)
    (hstop : stop = 101 ∨ stop = 58) (hat : l.At before (decimalInt n ++ stop :: rest))
    (hprev : l.prevprev.type ≠ .stringSize) :
    ((decimalInt n).length < 500 ∧ ∃ l', nextToken l =
        .ok ({ type := numberType l.prev.type stop, asInt := clampLong n }, l') ∧
        l.After { type := numberType l.prev.type stop, asInt := clampLong n }
          (before ++ decimalInt n) (stop :: rest) l') ∨
    (500 ≤ (decimalInt n).length ∧ ∃ e, nextToken l = .error e) := by
  obtain ⟨c, cs, hcs⟩ := List.exists_cons_of_ne_nil (decimalInt_ne_nil n)
  have hbytes : ∀ d ∈ c :: cs, numeralByte d = true := fun d hd =>
    numeralByte_decimalInt (n := n) (by rw [hcs]; exact hd)
  have hc := hbytes c (by simp)
  obtain ⟨h58, h100, h108, h105, h101⟩ := numeralByte_other hc
  have hdigit : isdigit c = true ∨ c = 45 := by simpa [numeralByte] using hc
  have hat₀ : l.At before (c :: (cs ++ stop :: rest)) := by
    rw [hcs] at hat
    exact hat
  have hat₁ : Lexer.At { l with ch := c, pos := before.length, readPos := before.length + 1 }
      (before ++ [c]) (cs ++ stop :: rest) :=
    Lexer.At.move (b := [c]) hat₀ rfl (by rw [hat₀.readPos]; rfl)
  have hnext : nextToken l = nextTokenNumber
      { l with ch := c, pos := before.length, readPos := before.length + 1 } := by
    simp only [nextToken, readChar_at hat₀, ok_bind, h58, h100, h108, h105, h101, false_and,
      if_false, nextTokenDefault, hprev, hdigit, if_true]
  rw [hnext, nextTokenNumber]
  have hlength : (decimalInt n).length = cs.length + 1 := by rw [hcs, List.length_cons]
  rcases lexNumber_numeral hstop rest cs c (before ++ [c]) [] 500 _ hbytes rfl hat₁ with
    ⟨hlt, l', hlex, hat', hprev', hprevprev', hinput'⟩ | ⟨hle, hlex⟩
  · rw [List.nil_append, ← hcs] at hlex
    simp only [hlex, ok_bind, peekChar_at hat']
    rcases Nat.lt_or_ge (decimalInt n).length 500 with hfit | hfull
    · left
      have hpad : List.replicate (500 - (decimalInt n).length) (0 : UInt8)
          = 0 :: List.replicate (499 - (decimalInt n).length) 0 := by
        rw [show 500 - (decimalInt n).length = 499 - (decimalInt n).length + 1 from by omega,
          List.replicate_succ]
      rw [hpad, strtol_decimalInt n (by decide), ok_bind]
      rw [hprev']
      refine ⟨hfit, _, rfl, ⟨?_, ?_⟩, rfl, hprev', hinput'⟩
      · rw [hcs]
        simpa using hat'.buf
      · rw [hcs]
        simpa using hat'.readPos
    · -- exactly 500 bytes fill the buffer and leave no `NUL` for `strtol`
      right
      have hexact : 500 - (decimalInt n).length = 0 := by omega
      rw [hexact, List.replicate_zero, List.append_nil, strtol_unterminated]
      exact ⟨hfull, _, rfl⟩
  · right
    rw [hlex]
    exact ⟨by omega, _, rfl⟩

/-! ## Strings -/

/-- Copying a string whose first byte the lexer stands behind. -/
theorem lexStringLoop_bytes (rest cs : List UInt8) :
    ∀ (c : UInt8) (before : List UInt8) (l : Lexer), l.ch = c → l.At before (cs ++ rest) →
    ∃ l', lexStringLoop cs.length l = .ok (c :: cs, l') ∧ l'.At (before ++ cs) rest ∧
      l'.prev = l.prev ∧ l'.prevprev = l.prevprev ∧ l'.input = l.input := by
  induction cs with
  | nil =>
    intro c before l hch hat
    exact ⟨l, by rw [← hch]; rfl, by simpa using hat, rfl, rfl, rfl⟩
  | cons d cs ih =>
    intro c before l hch hat
    have hat' : Lexer.At { l with ch := d, pos := before.length, readPos := before.length + 1 }
        (before ++ [d]) (cs ++ rest) :=
      Lexer.At.move (b := [d]) hat rfl (by rw [hat.readPos]; rfl)
    obtain ⟨l', hlex, hl'⟩ := ih d (before ++ [d]) _ rfl hat'
    refine ⟨l', ?_, by simpa using hl'⟩
    rw [List.length_cons, lexStringLoop, readChar_at hat, ok_bind, hlex, ← hch]
    rfl

/-- **The bytes of a string**, after its size and the colon. -/
theorem nextToken_string {l : Lexer} {before rest s : List UInt8} (hs : readable s = true)
    (hat : l.At before (s ++ rest)) (hprev : l.prev.type = .colon)
    (hprevprev : l.prevprev = { type := .stringSize, asInt := s.length })
    (hlen : s.length < 2 ^ 63) :
    ∃ l', nextToken l = .ok ({ type := .string, asString := s }, l') ∧
      l.After { type := .string, asString := s } (before ++ s) rest l' := by
  rcases s with _ | ⟨c, cs⟩
  · cases hs
  have hc : c ≠ 58 := by simpa [readable] using hs
  have hsize : sizeOfLong (((c :: cs).length : Nat) : Int) = cs.length + 1 := by
    simp only [sizeOfLong, List.length_cons] at hlen ⊢
    omega
  have hat₁ : Lexer.At { l with ch := c, pos := before.length, readPos := before.length + 1 }
      (before ++ [c]) (cs ++ rest) :=
    Lexer.At.move (b := [c]) hat rfl (by rw [hat.readPos]; rfl)
  obtain ⟨l', hlex, hat', hprev', -, hinput'⟩ :=
    lexStringLoop_bytes rest cs c (before ++ [c]) _ rfl hat₁
  have hnext : nextToken l =
      .ok (finishToken { type := .string, asString := c :: cs } l') := by
    have hdefault : nextToken l = nextTokenDefault
        { l with ch := c, pos := before.length, readPos := before.length + 1 } := by
      simp only [nextToken, readChar_at hat, ok_bind, hc, if_false, hprev, ne_eq, not_true_eq_false,
        and_false]
    rw [hdefault, nextTokenDefault, if_pos (by rw [hprevprev]), hprevprev, hsize, lexString,
      ← hprevprev, hlex]
    rfl
  refine ⟨_, hnext, ⟨?_, ?_⟩, rfl, hprev', hinput'⟩
  · simpa using hat'.buf
  · simpa using hat'.readPos

/-! ## The stream of tokens -/

/-- The lexer delivers the tokens `ts`, or it faults although all is `fine`. -/
def Feeds (fine : Prop) : List Token → Lexer → Prop
  | [], _ => True
  | t :: ts, l =>
    match nextToken l with
    | .ok (t', l') => t' = t ∧ l'.buf = l.buf ∧ Feeds fine ts l'
    | .error _ => ¬ fine

section Feeds

variable {fine : Prop} {l : Lexer} {before rest : List UInt8} {ts : List Token}

theorem Feeds.cons {b : List UInt8} {t : Token} {l' : Lexer} (hat : l.At before (b ++ rest))
    (hnext : nextToken l = .ok (t, l')) (hafter : l.After t (before ++ b) rest l')
    (hrest : Feeds fine ts l') : Feeds fine (t :: ts) l := by
  simp only [Feeds, hnext]
  refine ⟨trivial, ?_, hrest⟩
  rw [hafter.at_.buf, hat.buf, List.append_assoc]

theorem Feeds.fault {t : Token} {e : Fault} (hnext : nextToken l = .error e) (h : ¬ fine) :
    Feeds fine (t :: ts) l := by
  simp only [Feeds, hnext]
  exact h

theorem Feeds.byte {c : UInt8} {t : Token} (hat : l.At before (c :: rest))
    (hnext : nextToken l = .ok (t, l.took c t))
    (hrest : ∀ l', l.After t (before ++ [c]) rest l' → Feeds fine ts l') :
    Feeds fine (t :: ts) l :=
  Feeds.cons (b := [c]) hat hnext (after_took hat t) (hrest _ (after_took hat t))

/-- From behind the text `before` on, a fresh lexer delivers `ts`. -/
def FeedsFrom (fine : Prop) (ts : List Token) (before rest : List UInt8) (input : Option Bool) :
    Prop :=
  ∀ l : Lexer, l.At before rest → l.Fresh → l.input = input → Feeds fine ts l

theorem feeds_str {s : List UInt8} (hs : readable s = true) (hlen : s.length < 2 ^ 63)
    (hat : l.At before (encodeStr s ++ rest)) (hfresh : l.Fresh)
    (hrest : FeedsFrom fine ts (before ++ encodeStr s) rest l.input) :
    Feeds fine (strTokens s ++ ts) l := by
  have hnumeral : decimalInt (s.length : Int) = decimal s.length := rfl
  have hclamp : clampLong (s.length : Int) = s.length := clampLong_of_range (by omega) (by omega)
  have hshort := length_decimal_le (n := s.length) (by omega)
  have hat₁ : l.At before (decimalInt (s.length : Int) ++ 58 :: (s ++ rest)) := by
    rw [hnumeral]
    simpa [encodeStr] using hat
  rcases nextToken_number (s.length : Int) (.inr rfl) hat₁ hfresh.before with
    ⟨-, l₁, hnext₁, hafter₁⟩ | ⟨hlong, -⟩
  · rw [hclamp, numberType, if_neg hfresh.intStart, if_pos rfl] at hnext₁ hafter₁
    refine Feeds.cons hat₁ hnext₁ hafter₁ ?_
    refine Feeds.byte hafter₁.at_ (nextToken_colon hafter₁.at_) (fun l₂ hafter₂ => ?_)
    obtain ⟨l₃, hnext₃, hafter₃⟩ := nextToken_string hs hafter₂.at_ (by rw [hafter₂.prev])
      (hafter₂.prevprev.trans hafter₁.prev) hlen
    refine Feeds.cons hafter₂.at_ hnext₃ hafter₃ (hrest l₃ ?_ ?_ ?_)
    · have := hafter₃.at_
      simpa [encodeStr, hnumeral] using this
    · exact hafter₃.fresh (by rw [hafter₂.prev]; simp) (by simp)
    · rw [hafter₃.input, hafter₂.input, hafter₁.input]
  · rw [hnumeral] at hlong
    omega

theorem feeds_int {n : Int} (hfits : fine → (decimalInt n).length < 500)
    (hat : l.At before (encode (.int n) ++ rest)) (hfresh : l.Fresh)
    (hrest : FeedsFrom fine ts (before ++ encode (.int n)) rest l.input) :
    Feeds fine (tokens before.length (.int n) ++ ts) l := by
  have hat₁ : l.At before (105 :: (decimalInt n ++ 101 :: rest)) := by
    simpa [encode] using hat
  refine Feeds.byte hat₁ (nextToken_intStart hat₁ hfresh.colon) (fun l₁ hafter₁ => ?_)
  rcases nextToken_number n (.inl rfl) hafter₁.at_
    (by rw [hafter₁.prevprev]; exact hfresh.stringSize) with
    ⟨-, l₂, hnext₂, hafter₂⟩ | ⟨hlong, e, hnext₂⟩
  · rw [hafter₁.prev, numberType, if_pos rfl] at hnext₂ hafter₂
    refine Feeds.cons hafter₁.at_ hnext₂ hafter₂ ?_
    have hpos : before.length + 1 + (decimalInt n).length
        = (before ++ [105] ++ decimalInt n).length := by
      simp only [List.length_append, List.length_cons, List.length_nil]
    rw [hpos]
    refine Feeds.byte hafter₂.at_ (nextToken_end hafter₂.at_ (by rw [hafter₂.prev]; simp))
      (fun l₃ hafter₃ => hrest l₃ ?_ ?_ ?_)
    · have := hafter₃.at_
      simpa [encode] using this
    · exact hafter₃.fresh (by rw [hafter₂.prev]; simp) (by simp)
    · rw [hafter₃.input, hafter₂.input, hafter₁.input]
  · refine Feeds.fault hnext₂ (fun hfine => ?_)
    have := hfits hfine
    omega

/-- The `e` that ends a list or a dictionary. -/
theorem feeds_end (hat : l.At before (101 :: rest)) (hfresh : l.Fresh)
    (hrest : FeedsFrom fine ts (before ++ [101]) rest l.input) :
    Feeds fine ({ type := .end_, pos := before.length } :: ts) l :=
  Feeds.byte hat (nextToken_end hat hfresh.colon) fun l₁ hafter₁ =>
    hrest l₁ hafter₁.at_ (hafter₁.fresh hfresh.stringSize (by simp)) hafter₁.input

/-- A list or a dictionary: the byte that opens it, what stands inside, and
the `e`. -/
theorem feeds_bracket {c : UInt8} {t : Token} {body : List UInt8} {inner : List Token}
    (hat : l.At before (c :: (body ++ [101]) ++ rest)) (hfresh : l.Fresh)
    (hopen : nextToken l = .ok (t, l.took c t))
    (ht : t.type ≠ .colon ∧ t.type ≠ .intStart ∧ t.type ≠ .stringSize)
    (hbody : ∀ {l₁ : Lexer} {ts : List Token}, l₁.At (before ++ [c]) (body ++ 101 :: rest) →
      l₁.Fresh → FeedsFrom fine ts (before ++ [c] ++ body) (101 :: rest) l₁.input →
      Feeds fine (inner ++ ts) l₁)
    (hrest : FeedsFrom fine ts (before ++ c :: (body ++ [101])) rest l.input) :
    Feeds fine (t :: (inner ++ [{ type := .end_, pos := before.length + 1 + body.length }]) ++ ts)
      l := by
  have hat₀ : l.At before (c :: (body ++ 101 :: rest)) := by
    simpa using hat
  rw [List.cons_append, List.append_assoc]
  refine Feeds.byte hat₀ hopen (fun l₁ hafter₁ => ?_)
  refine hbody hafter₁.at_ (hafter₁.fresh hfresh.stringSize ht) ?_
  intro l₂ hat₂ hfresh₂ hinput₂
  have hpos : before.length + 1 + body.length = (before ++ [c] ++ body).length := by
    simp only [List.length_append, List.length_cons, List.length_nil]
  rw [hpos]
  refine feeds_end hat₂ hfresh₂ ?_
  intro l₃ hat₃ hfresh₃ hinput₃
  exact hrest l₃ (by simpa using hat₃) hfresh₃ (by rw [hinput₃, hinput₂, hafter₁.input])

end Feeds

mutual

/-- **The tokens of a value.** Where a value is encoded, a fresh lexer
delivers the value's tokens and is fresh behind it. -/
theorem feeds_value {fine : Prop} : ∀ (v : Value) {l : Lexer} {before rest : List UInt8}
    {ts : List Token}, v.reads = true → (fine → v.fits = true) → (encode v).length < 2 ^ 63 →
    l.At before (encode v ++ rest) → l.Fresh →
    FeedsFrom fine ts (before ++ encode v) rest l.input →
    Feeds fine (tokens before.length v ++ ts) l
  | .int n, l, before, rest, ts, _, hfits, _, hat, hfresh, hrest => by
    refine feeds_int (fun hfine => ?_) hat hfresh hrest
    simpa [Value.fits, Value.every, fitsHere] using hfits hfine
  | .str s, l, before, rest, ts, hreads, _, hlen, hat, hfresh, hrest => by
    refine feeds_str hreads ?_ hat hfresh hrest
    simp only [encode, encodeStr, List.length_append, List.length_cons] at hlen
    omega
  | .list vs, l, before, rest, ts, hreads, hfits, hlen, hat, hfresh, hrest => by
    rw [encode, List.length_cons, List.length_append] at hlen
    rw [encode] at hat hrest
    refine feeds_bracket hat hfresh (nextToken_listStart hat hfresh.colon) (by simp) ?_ hrest
    intro l₁ ts' hat₁ hfresh₁ hrest₁
    have hlist := feeds_list vs (every_list.mp hreads).2
      (fun hfine => (every_list.mp (hfits hfine)).2) (by omega) hat₁ hfresh₁ hrest₁
    rwa [List.length_append] at hlist
  | .dict es, l, before, rest, ts, hreads, hfits, hlen, hat, hfresh, hrest => by
    rw [encode, List.length_cons, List.length_append] at hlen
    rw [encode] at hat hrest
    obtain ⟨hkeys, hinside⟩ := every_dict.mp hreads
    refine feeds_bracket hat hfresh (nextToken_dictStart hat hfresh.colon) (by simp) ?_ hrest
    intro l₁ ts' hat₁ hfresh₁ hrest₁
    have hdict := feeds_entries es hkeys hinside
      (fun hfine => (every_dict.mp (hfits hfine)).2) (by omega) hat₁ hfresh₁ hrest₁
    rwa [List.length_append] at hdict

theorem feeds_list {fine : Prop} : ∀ (vs : List Value) {l : Lexer} {before rest : List UInt8}
    {ts : List Token}, everyList readsHere vs = true → (fine → everyList fitsHere vs = true) →
    (encodeList vs).length < 2 ^ 63 → l.At before (encodeList vs ++ rest) → l.Fresh →
    FeedsFrom fine ts (before ++ encodeList vs) rest l.input →
    Feeds fine (tokensList before.length vs ++ ts) l
  | [], l, before, rest, ts, _, _, _, hat, hfresh, hrest =>
    hrest l (by simpa [encodeList] using hat) hfresh rfl
  | v :: vs, l, before, rest, ts, hreads, hfits, hlen, hat, hfresh, hrest => by
    rw [everyList_cons] at hreads
    rw [encodeList, List.length_append] at hlen
    rw [encodeList, List.append_assoc] at hat
    rw [tokensList, List.append_assoc]
    refine feeds_value v hreads.1 (fun hfine => (everyList_cons.mp (hfits hfine)).1) (by omega) hat
      hfresh ?_
    intro l₁ hat₁ hfresh₁ hinput₁
    rw [← List.length_append]
    refine feeds_list vs hreads.2 (fun hfine => (everyList_cons.mp (hfits hfine)).2) (by omega) hat₁
      hfresh₁ ?_
    intro l₂ hat₂ hfresh₂ hinput₂
    exact hrest l₂ (by simpa [encodeList] using hat₂) hfresh₂ (by rw [hinput₂, hinput₁])

theorem feeds_entries {fine : Prop} : ∀ (es : List (List UInt8 × Value)) {l : Lexer}
    {before rest : List UInt8} {ts : List Token}, readsHere (.dict es) = true →
    everyEntry readsHere es = true → (fine → everyEntry fitsHere es = true) →
    (encodeEntries es).length < 2 ^ 63 → l.At before (encodeEntries es ++ rest) → l.Fresh →
    FeedsFrom fine ts (before ++ encodeEntries es) rest l.input →
    Feeds fine (tokensEntries before.length es ++ ts) l
  | [], l, before, rest, ts, _, _, _, _, hat, hfresh, hrest =>
    hrest l (by simpa [encodeEntries] using hat) hfresh rfl
  | (k, v) :: es, l, before, rest, ts, hkeys, hreads, hfits, hlen, hat, hfresh, hrest => by
    rw [everyEntry_cons] at hreads
    rw [readsHere, List.all_cons, Bool.and_eq_true] at hkeys
    rw [encodeEntries, List.length_append, List.length_append] at hlen
    rw [encodeEntries, List.append_assoc, List.append_assoc] at hat
    rw [tokensEntries, List.append_assoc, List.append_assoc]
    have hklen : k.length < 2 ^ 63 := by
      simp only [encodeStr, List.length_append, List.length_cons] at hlen
      omega
    refine feeds_str hkeys.1 hklen hat hfresh ?_
    intro l₁ hat₁ hfresh₁ hinput₁
    rw [← List.length_append]
    refine feeds_value v hreads.1 (fun hfine => (everyEntry_cons.mp (hfits hfine)).1) (by omega)
      hat₁ hfresh₁ ?_
    intro l₂ hat₂ hfresh₂ hinput₂
    rw [← List.length_append]
    refine feeds_entries es hkeys.2 hreads.2 (fun hfine => (everyEntry_cons.mp (hfits hfine)).2)
      (by omega) hat₂ hfresh₂ ?_
    intro l₃ hat₃ hfresh₃ hinput₃
    exact hrest l₃ (by simpa [encodeEntries] using hat₃) hfresh₃
      (by rw [hinput₃, hinput₂, hinput₁])

end

/-- The stream of a document: the tokens of its value, then what the lexer
makes of the `NUL` behind it. -/
theorem feeds_document {fine : Prop} (v : Value) (input : Option Bool) (hreads : v.reads = true)
    (hfits : fine → v.fits = true) (hlen : (encode v).length < 2 ^ 63) (after : List UInt8) :
    Feeds fine (tokens 0 v ++ [stopToken input])
      { input := input, buf := encode v ++ 0 :: after } := by
  have hstart : Lexer.At { input := input, buf := encode v ++ 0 :: after } []
      (encode v ++ 0 :: after) := ⟨rfl, rfl⟩
  refine feeds_value v hreads hfits hlen hstart ⟨by simp, by simp, by simp, by simp⟩ ?_
  intro l hat hfresh hinput
  rw [show input = l.input from hinput.symm]
  exact Feeds.byte hat (nextToken_stop hat hfresh.before) (fun _ _ => trivial)

end BtClient

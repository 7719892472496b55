import BtClient.Bencode.Termination

/-!
# Reading behind the end of a document

The parser is one token ahead, so to close the dictionary of a document it
reads the token behind the last `e`, and there `buf` ends: `read_char` compares
no position with `bufsize`. In a memory of exactly `bufsize` bytes the parser
only returns when it gives the document up before its end, which takes a string
that the lexer misreads.
-/

namespace BtClient

open CLib

/-! ## The tokens of a value are taken as the value -/

section Unambiguous

variable {hashes : Nat → Nat → Prop}

/-- What starts like a string is one. -/
theorem Raw.Valid.isString {r : Raw} {after : TokenType} (h : r.Valid hashes after)
    (hfirst : r.first.type = .stringSize) : r.isString = true := by
  cases r with
  | str k => rfl
  | strUnread size colon => rfl
  | strCut size => rfl
  | stray t => exact absurd hfirst h.2.2.2
  | dictCut start entries key => simp [Raw.first, h.1] at hfirst
  | _ =>
    simp only [Raw.Valid] at h
    simp [Raw.first, h.1] at hfirst

theorem Raw.Valid.of_dictStart {r : Raw} {after : TokenType} (h : r.Valid hashes after)
    (hfirst : r.first.type = .dictStart) :
    (∃ start entries stop, r = .dict start entries stop) ∨
      ∃ start entries key, r = .dictCut start entries key := by
  cases r with
  | dict start entries stop => exact .inl ⟨start, entries, stop, rfl⟩
  | dictCut start entries key => exact .inr ⟨start, entries, key, rfl⟩
  | stray t => exact absurd hfirst h.2.2.1
  | str k => simp [Raw.first, (show k.Valid from h).size] at hfirst
  | _ =>
    simp only [Raw.Valid] at h
    simp [Raw.first, h.1] at hfirst

theorem first_eq_of_tokens {r : Raw} {t : Token} {after ts : List Token}
    (h : r.tokens ++ after = t :: ts) : r.first = t := by
  obtain ⟨more, hmore⟩ := r.tokens_first
  rw [hmore] at h
  exact (List.cons.inj h).1

mutual

/-- **Unambiguity.** A valid item whose tokens are followed by its look-ahead is the
value that the tokens begin with. -/
theorem tokens_unambiguous : ∀ (v : Value) {r : Raw} {pos : Nat} {next : Token}
    {rest ts : List Token}, r.Valid hashes next.type →
    r.tokens ++ next :: rest = tokens pos v ++ ts → r.tokens = tokens pos v
  | .int n, r, pos, next, rest, ts, hvalid, h => by
    cases r <;> simp_all [Raw.tokens, tokens, Raw.Valid, RawString.tokens]
  | .str s, r, pos, next, rest, ts, hvalid, h => by
    cases r <;> simp_all [Raw.tokens, tokens, strTokens, Raw.Valid, RawString.tokens]
  | .list vs, r, pos, next, rest, ts, hvalid, h => by
    rw [tokens, List.cons_append, List.append_assoc, List.singleton_append] at h
    obtain ⟨start, items, stop, rfl⟩ := hvalid.of_listStart (by rw [first_eq_of_tokens h])
    obtain ⟨-, hstop, hitems⟩ := hvalid
    rw [Raw.tokens, List.cons_append, List.append_assoc, List.singleton_append] at h
    obtain ⟨rfl, hbody⟩ := List.cons.inj h
    obtain ⟨hsame, rfl⟩ := tokens_unambiguous_list vs hitems hstop rfl hbody
    rw [Raw.tokens, tokens, hsame]
  | .dict es, r, pos, next, rest, ts, hvalid, h => by
    rw [tokens, List.cons_append, List.append_assoc, List.singleton_append] at h
    rcases hvalid.of_dictStart (by rw [first_eq_of_tokens h]) with
      ⟨start, entries, stop, rfl⟩ | ⟨start, entries, key, rfl⟩
    · obtain ⟨-, hstop, hentries⟩ := hvalid
      rw [Raw.tokens, List.cons_append, List.append_assoc, List.singleton_append] at h
      obtain ⟨rfl, hbody⟩ := List.cons.inj h
      rw [← hstop] at hentries
      obtain ⟨hsame, rfl⟩ := tokens_unambiguous_entries es hentries (by rw [hstop]; simp) rfl hbody
      rw [Raw.tokens, tokens, hsame]
    · -- the loop gives up neither at a key of the dictionary nor at its end
      obtain ⟨-, hentries, hother, hopens, hkey⟩ := hvalid
      obtain ⟨more, hmore⟩ := key.tokens_first
      rw [Raw.tokens, List.cons_append, List.append_assoc, hmore, List.cons_append] at h
      have hstring : key.first.type ≠ .stringSize := by
        intro hfirst
        rw [hkey.isString hfirst] at hother
        cases hother
      obtain ⟨-, hend⟩ := tokens_unambiguous_entries es hentries hstring rfl (List.cons.inj h).2
      rw [hend] at hopens
      exact absurd rfl hopens

theorem tokens_unambiguous_list : ∀ (vs : List Value) {items : List Raw} {pos : Nat}
    {stop stop' : Token} {rest ts : List Token}, ValidItems hashes items .end_ →
    stop.type = .end_ → stop'.type = .end_ →
    rawTokens items ++ stop :: rest = tokensList pos vs ++ stop' :: ts →
    rawTokens items = tokensList pos vs ∧ stop = stop'
  | [], [], pos, stop, stop', rest, ts, _, _, _, h => by
    rw [rawTokens, tokensList, List.nil_append, List.nil_append] at h
    exact ⟨rfl, (List.cons.inj h).1⟩
  | [], r :: items, pos, stop, stop', rest, ts, hvalid, _, hstop', h => by
    rw [rawTokens, tokensList, List.nil_append, List.append_assoc] at h
    have hfirst := hvalid.1
    rw [first_eq_of_tokens h] at hfirst
    exact absurd hstop' hfirst
  | v :: vs, [], pos, stop, stop', rest, ts, _, hstop, _, h => by
    obtain ⟨t, more, htokens, hend, -⟩ := tokens_cons pos v
    rw [rawTokens, tokensList, htokens, List.nil_append] at h
    rw [(List.cons.inj h).1] at hstop
    exact absurd hstop hend
  | v :: vs, r :: items, pos, stop, stop', rest, ts, hvalid, hstop, hstop', h => by
    obtain ⟨-, hr, hitems⟩ := hvalid
    rw [rawTokens, tokensList, List.append_assoc, List.append_assoc] at h
    obtain ⟨c, cs, hrest, -⟩ := exists_head (rawTokens items) stop rest
    have hafter : c.type = nextType .end_ items := by
      rw [← hstop]
      exact nextType_of_head hrest
    rw [← hafter] at hr
    rw [hrest] at h
    have hsame := tokens_unambiguous v hr h
    rw [hsame, List.append_cancel_left_eq, ← hrest] at h
    obtain ⟨hsame', hstops⟩ := tokens_unambiguous_list vs hitems hstop hstop' h
    exact ⟨by rw [rawTokens, tokensList, hsame, hsame'], hstops⟩

theorem tokens_unambiguous_entries : ∀ (es : List (List UInt8 × Value))
    {entries : List (RawString × Raw)} {pos : Nat} {t stop' : Token} {rest ts : List Token},
    ValidEntries hashes entries t.type → t.type ≠ .stringSize → stop'.type = .end_ →
    rawEntryTokens entries ++ t :: rest = tokensEntries pos es ++ stop' :: ts →
    rawEntryTokens entries = tokensEntries pos es ∧ t = stop'
  | [], [], pos, t, stop', rest, ts, _, _, _, h => by
    rw [rawEntryTokens, tokensEntries, List.nil_append, List.nil_append] at h
    exact ⟨rfl, (List.cons.inj h).1⟩
  | [], (k, r) :: entries, pos, t, stop', rest, ts, hvalid, _, hstop', h => by
    rw [rawEntryTokens, tokensEntries, RawString.tokens, List.nil_append] at h
    rw [← (List.cons.inj h).1, hvalid.1.size] at hstop'
    cases hstop'
  | (k, v) :: es, [], pos, t, stop', rest, ts, _, ht, _, h => by
    rw [rawEntryTokens, tokensEntries, strTokens, List.nil_append] at h
    rw [(List.cons.inj h).1] at ht
    exact absurd rfl ht
  | (k, v) :: es, (k', r) :: entries, pos, t, stop', rest, ts, hvalid, ht, hstop', h => by
    obtain ⟨-, hr, -, hentries⟩ := hvalid
    rw [rawEntryTokens, tokensEntries, RawString.tokens, strTokens] at h
    simp only [List.append_assoc, List.cons_append, List.nil_append, List.cons.injEq] at h
    obtain ⟨hsize, hcolon, hbytes, h⟩ := h
    obtain ⟨c, cs, hrest, -⟩ := exists_head (rawEntryTokens entries) t rest
    have hafter : c.type = nextKeyType t.type entries := nextKeyType_of_head hrest
    rw [← hafter] at hr
    rw [hrest] at h
    have hsame := tokens_unambiguous v hr h
    rw [hsame, List.append_cancel_left_eq, ← hrest] at h
    obtain ⟨hsame', hstops⟩ := tokens_unambiguous_entries es hentries ht hstop' h
    refine ⟨?_, hstops⟩
    rw [rawEntryTokens, tokensEntries, RawString.tokens, strTokens, hsize, hcolon, hbytes, hsame,
      hsame']

end

end Unambiguous

/-! ## A memory that ends with the document -/

/-- What a lexer delivers that either delivers `ts` or faults. -/
theorem Feeds.yields {ts : List Token} : ∀ {l l' : Lexer} {us : List Token},
    Feeds False ts l → Yields nextToken l us l' → us <+: ts ∨ ts <+: us := by
  induction ts with
  | nil =>
    intro l l' us _ _
    exact .inr List.nil_prefix
  | cons t ts ih =>
    intro l l' us hfeeds hyields
    cases us with
    | nil => exact .inl List.nil_prefix
    | cons u us =>
      obtain ⟨l₁, hnext, hrest⟩ := hyields
      simp only [Feeds, hnext] at hfeeds
      obtain ⟨rfl, -, hfeeds⟩ := hfeeds
      rcases ih hfeeds hrest with h | h
      · exact .inl ((List.prefix_cons_inj u).mpr h)
      · exact .inr ((List.prefix_cons_inj u).mpr h)

/-- At the end of the memory there is no token. -/
theorem feeds_end_of_memory {l : Lexer} {before : List UInt8} (hat : l.At before [])
    (ts : List Token) : Feeds False ts l := by
  cases ts with
  | nil => trivial
  | cons t ts => exact Feeds.fault (nextToken_outside hat) not_false

/-- In a memory that ends with the document the lexer delivers tokens of the
document only. -/
theorem yields_document {v : Value} {l l' : Lexer} {us : List Token} (hreads : v.reads = true)
    (hlen : (encode v).length < 2 ^ 63) (hat : l.At [] (encode v ++ [])) (hfresh : l.Fresh)
    (h : Yields nextToken l us l') : us <+: tokens 0 v := by
  have hfeeds : ∀ ts, Feeds False (tokens 0 v ++ ts) l := by
    intro ts
    refine feeds_value v hreads (fun h => h.elim) hlen hat hfresh ?_
    intro l' hat' _ _
    exact feeds_end_of_memory hat' ts
  have hbehind : ∀ t, us <+: tokens 0 v ∨ tokens 0 v ++ [t] <+: us := by
    intro t
    rcases (hfeeds [t]).yields h with hpre | hpre
    · rcases List.prefix_concat_iff.mp hpre with rfl | hpre
      · exact .inr List.prefix_rfl
      · exact .inl hpre
    · exact .inr hpre
  -- a token behind the document's would be any token
  rcases hbehind { type := .colon } with hpre | hcolon
  · exact hpre
  · rcases hbehind { type := .end_ } with hpre | hend
    · exact hpre
    · have hsame := List.prefix_of_prefix_length_le hcolon hend (by simp)
      have heq := hsame.eq_of_length (by simp)
      simp at heq

/-! ## When the reads stay inside -/

/-- `new_lexer(filename)` on a file with the given content. It leaves `prev` and
`prevprev` as it finds them. -/
def newLexer (input : Option Bool) (content : List UInt8) (prev prevprev : Token) : Lexer :=
  { input := input, buf := content, prev := prev, prevprev := prevprev }

/-- `new_parser` and `parse_item` return. The memory is the `bufsize` bytes of
`buf`, so that a read at any other position is a fault. -/
def ReadsInside (getSha1 : List UInt8 → Nat → Nat → Except Fault (List UInt8))
    (seeds : Nat → TableSeed) (l : Lexer) : Prop :=
  ∃ fuel item p', parseBuffer getSha1 fuel { l := l, seeds := seeds } = .ok item p'

section Inside

variable {getSha1 : List UInt8 → Nat → Nat → Except Fault (List UInt8)} {seeds : Nat → TableSeed}

theorem readsInside_iff (l : Lexer) : ReadsInside getSha1 seeds l ↔ BeginsWithItem getSha1 l := by
  have hstart : ({ l := l, seeds := seeds } : Parser).errors = [] := rfl
  exact parseBuffer_returns_iff hstart

theorem not_readsInside {input : Option Bool} {prev prevprev : Token} {v : Value}
    (hfresh : (newLexer input (encode v) prev prevprev).Fresh) (hreads : v.reads = true)
    (hlen : (encode v).length < 2 ^ 63) :
    ¬ ReadsInside getSha1 seeds (newLexer input (encode v) prev prevprev) := by
  intro hinside
  obtain ⟨r, next, l, hvalid, hyields, -⟩ := (readsInside_iff _).mp hinside
  have hat : (newLexer input (encode v) prev prevprev).At [] (encode v ++ []) :=
    ⟨by rw [List.append_nil]; rfl, rfl⟩
  obtain ⟨rest, hrest⟩ := yields_document hreads hlen hat hfresh hyields
  rw [List.append_assoc, List.singleton_append] at hrest
  have hdocument : r.tokens ++ next :: rest = tokens 0 v ++ [] := by
    rw [hrest, List.append_nil]
  have hsame := tokens_unambiguous v hvalid hdocument
  -- the look-ahead would be one of the document's tokens, and all are taken
  have hlength := congrArg List.length hrest
  rw [hsame, List.length_append, List.length_cons] at hlength
  omega

end Inside

end BtClient

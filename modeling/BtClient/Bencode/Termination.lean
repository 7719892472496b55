import BtClient.Bencode.Acceptance

/-!
# Whether parsing ends

`parse_item` returns on the texts that begin with an item of the parser's own
language (`Raw`), every list in it closed, and whose errors fit `errors[500]`.
On others it does not: the loop of `parse_list` only stops at an `END` token, and
behind the text there is none, only an error for each `NUL`.
-/

namespace BtClient

open CLib

/-- `parse_item` returns on the buffer with `zeros` bytes `NUL` behind it, and
`error_index` is at most the size of `errors`. -/
def ParsingEnds (getSha1 : List UInt8 → Nat → Nat → Except Fault (List UInt8))
    (input : Option Bool) (seeds : Nat → TableSeed) (buf : List UInt8) (zeros : Nat) : Prop :=
  ∃ fuel item p', parseBuffer getSha1 fuel
      (startParser input (buf ++ List.replicate zeros 0) seeds) = .ok item p' ∧
    p'.errors.length ≤ 500

/-- The tokens of the lexer are those of an item, as the parser takes them, with
one more behind it; the item costs at most 500 errors. -/
def BeginsWithItem (getSha1 : List UInt8 → Nat → Nat → Except Fault (List UInt8)) (l : Lexer) :
    Prop :=
  ∃ (r : Raw) (next : Token) (l' : Lexer), r.Valid (Hashable getSha1 l.buf) next.type ∧
    Yields nextToken l (r.tokens ++ [next]) l' ∧ r.errors ≤ 500

/-- **Parsing ends exactly on the texts that begin with an item** of the language of
`Raw`. -/
theorem parsing_ends_iff (getSha1 : List UInt8 → Nat → Nat → Except Fault (List UInt8))
    (input : Option Bool) (seeds : Nat → TableSeed) (buf : List UInt8) (zeros : Nat) :
    ParsingEnds getSha1 input seeds buf zeros ↔
      BeginsWithItem getSha1 { input := input, buf := buf ++ List.replicate zeros 0 } := by
  constructor
  · rintro ⟨fuel, item, p', hrun, -⟩
    exact (parseBuffer_returns_iff rfl).mp ⟨fuel, item, p', hrun⟩
  · intro h
    have hstart : (startParser input (buf ++ List.replicate zeros 0) seeds).errors = [] := rfl
    obtain ⟨fuel, item, p', hrun⟩ := (parseBuffer_returns_iff hstart).mpr h
    obtain ⟨r, l, -, -, -, herrors, hroom, -⟩ := parseBuffer_derived hstart hrun
    exact ⟨fuel, item, p', hrun, by omega⟩

/-! ## A list that is not closed -/

/-- Behind the text every token is a stop token. -/
theorem yields_zeros (zeros : Nat) : ∀ {l l' : Lexer} {before : List UInt8} {ts : List Token},
    l.At before (List.replicate zeros 0) → l.prevprev.type ≠ .stringSize →
    l.prev.type ≠ .stringSize → Yields nextToken l ts l' →
    ∀ t ∈ ts, t = stopToken l.input := by
  induction zeros with
  | zero =>
    intro l l' before ts hat _ _ hyields t ht
    cases ts with
    | nil => cases ht
    | cons t' ts =>
      obtain ⟨l₁, hnext, -⟩ := hyields
      rw [nextToken_outside hat] at hnext
      cases hnext
  | succ zeros ih =>
    intro l l' before ts hat hprevprev hprev hyields t ht
    cases ts with
    | nil => cases ht
    | cons t' ts =>
      obtain ⟨l₁, hnext, hrest⟩ := hyields
      rw [List.replicate_succ] at hat
      rw [nextToken_stop hat hprevprev] at hnext
      cases hnext
      rcases List.mem_cons.mp ht with rfl | ht
      · rfl
      · have hstop : (stopToken l.input).type ≠ .stringSize := by
          unfold stopToken
          split <;> simp
        have hafter := after_took hat (stopToken l.input)
        exact ih hafter.at_ hprev hstop hrest t ht

/-- What starts like a list is one. -/
theorem Raw.Valid.of_listStart {hashes : Nat → Nat → Prop} {r : Raw} {after : TokenType}
    (h : r.Valid hashes after) (hfirst : r.first.type = .listStart) :
    ∃ start items stop, r = .list start items stop := by
  cases r with
  | list start items stop => exact ⟨start, items, stop, rfl⟩
  | stray t => exact absurd hfirst h.2.1
  | str k => simp [Raw.first, (show k.Valid from h).size] at hfirst
  | dictCut start entries key => simp [Raw.first, h.1] at hfirst
  | _ =>
    simp only [Raw.Valid] at h
    simp [Raw.first, h.1] at hfirst

/-- On `l` parsing does not end, however many bytes `NUL` are behind it. -/
theorem open_list_never_ends :
    ¬ ∀ (getSha1 : List UInt8 → Nat → Nat → Except Fault (List UInt8)) (input : Option Bool)
      (seeds : Nat → TableSeed) (buf : List UInt8),
      ∃ zeros, ParsingEnds getSha1 input seeds buf zeros := by
  intro hclaim
  obtain ⟨zeros, fuel, item, p', hrun, -⟩ :=
    hclaim (fun _ _ _ => .ok []) none (fun _ => ⟨0, 0⟩) [108]
  obtain ⟨r, l, hvalid, htaken, -⟩ := parseBuffer_derived rfl hrun
  obtain ⟨more, hmore⟩ := r.tokens_first
  rw [hmore] at htaken
  obtain ⟨l₁, hnext, hrest⟩ := htaken
  have hat : Lexer.At { input := none, buf := [108] ++ List.replicate zeros 0 } []
      (108 :: List.replicate zeros 0) := ⟨rfl, rfl⟩
  have hlist := nextToken_listStart hat (by simp)
  have hafter := after_took hat { type := .listStart }
  obtain ⟨hfirst, rfl⟩ := Prod.mk.inj (Except.ok.inj (hlist.symm.trans hnext))
  obtain ⟨start, items, stop, rfl⟩ := hvalid.of_listStart (by rw [← hfirst])
  have hend : stop.type = .end_ := hvalid.2.1
  have hmem : stop ∈ more := by
    rw [Raw.tokens] at hmore
    rw [← (List.cons.inj hmore).2]
    simp
  -- the end would be one of the tokens made of `NUL`s
  have hstop := yields_zeros zeros hafter.at_ (by simp [Lexer.took]) (by simp [Lexer.took]) hrest
    stop hmem
  rw [hstop] at hend
  simp [Lexer.took, stopToken] at hend

end BtClient

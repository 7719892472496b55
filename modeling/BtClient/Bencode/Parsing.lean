import BtClient.Bencode.Lexing
import BtClient.HashTable.FiniteMap
import Mathlib.Data.List.TakeWhile

/-!
# What the parser makes of a canonical encoding

The parser sees the lexer as a stream of tokens (`Parser.At`). `Goes` is the
`Outcome` judgement with what every step of the parser keeps: no error is
recorded, the buffer stays, and the calls of `BENCODE_GET_SHA1` are the given
ones, or the first of them when the step faults. One lemma for each function,
and `parseItem_goes` by recursion over the value.

A run faults for one of three reasons: a numeral does not fit the lexer's
buffer (`fits` is false), an `info` value is too short for the hash function
(`HashesRange`), or the fuel runs dry.
-/

namespace BtClient

open CLib

/-! ## The judgement -/

/-- The parser stands in front of the tokens `ts`, the first two of them read. -/
def Parser.At (fits : Prop) (p : Parser) (ts : List Token) : Prop :=
  ∃ rest, ts = p.curToken :: p.peekToken :: rest ∧ Feeds fits rest p.l

/-- `p'` is a later state than `p`, after the given calls of
`BENCODE_GET_SHA1`. -/
structure Parser.Moved (p : Parser) (calls : List (Nat × Nat)) (p' : Parser) : Prop where
  errors : p'.errors = p.errors
  buf : p'.l.buf = p.l.buf
  hashed : p'.hashed = p.hashed ++ calls

theorem Parser.Moved.refl (p : Parser) : p.Moved [] p := ⟨rfl, rfl, (List.append_nil _).symm⟩

theorem Parser.Moved.trans {p q r : Parser} {calls calls' : List (Nat × Nat)}
    (h : p.Moved calls q) (h' : q.Moved calls' r) : p.Moved (calls ++ calls') r :=
  ⟨h'.errors.trans h.errors, h'.buf.trans h.buf,
    by rw [h'.hashed, h.hashed, List.append_assoc]⟩

/-- From `p` on, `m` makes the given calls and ends in `post`; if it faults, it
has made the first of them, and `fine` is false. -/
def Goes {α : Type} (fine : Prop) (m : ParserM α) (p : Parser) (calls : List (Nat × Nat))
    (post : α → Parser → Prop) : Prop :=
  Outcome fine (m p) (fun a p' => p.Moved calls p' ∧ post a p')
    (fun p' => p'.hashed <+: p.hashed ++ calls)

section Rules

variable {α β : Type} {fine fine' : Prop} {p : Parser} {calls calls' : List (Nat × Nat)}
  {post post' : α → Parser → Prop}

theorem Goes.ret {a : α} (h : post a p) : Goes fine (pure a) p [] post :=
  show p.Moved [] p ∧ post a p from ⟨.refl p, h⟩

theorem Goes.mono {m : ParserM α} (h : Goes fine m p calls post) (hfine : fine' → fine)
    (hpost : ∀ a p', p.Moved calls p' → post a p' → post' a p') :
    Goes fine' m p calls post' :=
  Outcome.mono h hfine (fun a p' hp' => ⟨hp'.1, hpost a p' hp'.1 hp'.2⟩) (fun _ hs => hs)

theorem Goes.weaken {m : ParserM α} (h : Goes fine m p calls post) (hfine : fine' → fine) :
    Goes fine' m p calls post :=
  h.mono hfine (fun _ _ _ hpost => hpost)

/-- **The sequence rule**: the calls of the parts, one after the other. -/
theorem Goes.bind {m : ParserM α} {f : α → ParserM β} {mid : α → Parser → Prop}
    {post : β → Parser → Prop} (hm : Goes fine m p calls mid)
    (hf : ∀ a p', p.Moved calls p' → mid a p' → Goes fine (f a) p' calls' post) :
    Goes fine (m >>= f) p (calls ++ calls') post := by
  have hm' : Outcome fine (m p) (fun a p' => p.Moved calls p' ∧ mid a p')
      (fun p' => p'.hashed <+: p.hashed ++ (calls ++ calls')) := by
    refine Outcome.mono hm id (fun _ _ h => h) (fun p' hs => ?_)
    rw [← List.append_assoc]
    exact hs.trans (List.prefix_append _ _)
  refine Outcome.bind hm' (fun a p' hp' => ?_)
  refine Outcome.mono (hf a p' hp'.1 hp'.2) id (fun b q hq => ⟨hp'.1.trans hq.1, hq.2⟩)
    (fun q hs => ?_)
  rw [← List.append_assoc, ← hp'.1.hashed]
  exact hs

theorem Goes.get_bind {f : Parser → ParserM α} (h : Goes fine (f p) p calls post) :
    Goes fine (get >>= f) p calls post := h

theorem Goes.lift_bind {a : α} {f : α → ParserM β} {post : β → Parser → Prop}
    (h : Goes fine (f a) p calls post) : Goes fine (lift (.ok a) >>= f) p calls post := h

/-- Whatever the outcome, the calls made are the first of the given ones. -/
theorem Goes.hashed_prefix {m : ParserM α} (h : Goes fine m p calls post) :
    (stateOf (m p)).hashed <+: p.hashed ++ calls := by
  unfold Goes Outcome at h
  cases hr : m p with
  | ok a p' =>
    rw [hr] at h
    rw [stateOf, h.1.hashed]
  | error e p' =>
    rw [hr] at h
    exact h.2

/-- A step without calls in front. -/
theorem Goes.step {m : ParserM α} {f : α → ParserM β} {mid : α → Parser → Prop}
    {post : β → Parser → Prop} (hm : Goes fine m p [] mid)
    (hf : ∀ a p', p.Moved [] p' → mid a p' → Goes fine (f a) p' calls post) :
    Goes fine (m >>= f) p calls post :=
  Goes.bind hm hf

/-- A step without calls behind. -/
theorem Goes.finish {m : ParserM α} {f : α → ParserM β} {mid : α → Parser → Prop}
    {post : β → Parser → Prop} (hm : Goes fine m p calls mid)
    (hf : ∀ a p', p.Moved calls p' → mid a p' → Goes fine (f a) p' [] post) :
    Goes fine (m >>= f) p calls post := by
  have h := Goes.bind hm hf
  rwa [List.append_nil] at h

end Rules

/-! ## One step -/

section Steps

variable {fits : Prop} {p : Parser} {t : Token} {ts : List Token}

theorem parserNextToken_goes (hat : p.At fits (t :: ts)) (hts : 2 ≤ ts.length) :
    Goes fits parserNextToken p [] (fun _ p' => p'.At fits ts) := by
  obtain ⟨rest, hrest, hfeeds⟩ := hat
  rw [List.cons.injEq] at hrest
  obtain ⟨-, rfl⟩ := hrest
  rcases rest with _ | ⟨t', rest⟩
  · simp at hts
  · show Outcome fits (parserNextToken p) _ _
    simp only [Feeds] at hfeeds
    cases hnext : nextToken p.l with
    | error e =>
      rw [hnext] at hfeeds
      have hrun : parserNextToken p = .error e p := by
        show EStateM.bind (lift (nextToken p.l)) _ p = _
        rw [hnext]
        rfl
      rw [hrun]
      exact ⟨hfeeds, by rw [List.append_nil]⟩
    | ok result =>
      obtain ⟨t'', l'⟩ := result
      rw [hnext] at hfeeds
      obtain ⟨rfl, hbuf, hfeeds⟩ := hfeeds
      have hrun : parserNextToken p =
          .ok () { p with curToken := p.peekToken, peekToken := t'', l := l' } := by
        show EStateM.bind (lift (nextToken p.l)) _ p = _
        rw [hnext]
        rfl
      rw [hrun]
      exact ⟨⟨rfl, hbuf, (List.append_nil _).symm⟩, rest, rfl, hfeeds⟩

/-- The step from one token to the next, in a run that may need more than
numerals that fit. -/
theorem Goes.next {β : Type} {fine : Prop} {calls : List (Nat × Nat)} {f : Unit → ParserM β}
    {post : β → Parser → Prop} (hat : p.At fits (t :: ts)) (hts : 2 ≤ ts.length)
    (hfits : fine → fits)
    (hf : ∀ p', p.Moved [] p' → p'.At fits ts → Goes fine (f ()) p' calls post) :
    Goes fine (parserNextToken >>= f) p calls post :=
  Goes.step ((parserNextToken_goes hat hts).weaken hfits) (fun _ p' => hf p')

theorem expectPeek_goes {t' : Token} {expected : TokenType} (hat : p.At fits (t :: t' :: ts))
    (hts : ts ≠ []) (htype : t'.type = expected) :
    Goes fits (expectPeek expected) p [] (fun ok p' => ok = true ∧ p'.At fits (t' :: ts)) := by
  have hpeek : p.peekToken.type = expected := by
    obtain ⟨rest, hrest, -⟩ := hat
    simp only [List.cons.injEq] at hrest
    rw [← hrest.2.1, htype]
  refine Goes.get_bind ?_
  rw [if_neg (by simpa using hpeek)]
  have hlen : 0 < ts.length := List.length_pos_iff.mpr hts
  refine Goes.next hat (by rw [List.length_cons]; omega) id (fun p' _ hat' => ?_)
  exact Goes.ret ⟨rfl, hat'⟩

theorem Parser.At.curToken (hat : p.At fits (t :: ts)) : p.curToken = t := by
  obtain ⟨rest, hrest, -⟩ := hat
  exact (List.cons.inj hrest).1.symm

theorem Parser.At.peekToken {t' : Token} (hat : p.At fits (t :: t' :: ts)) : p.peekToken = t' := by
  obtain ⟨rest, hrest, -⟩ := hat
  simp only [List.cons.injEq] at hrest
  exact hrest.2.1.symm

theorem parseInteger_goes {n : Int} {stop : Nat}
    (hat : p.At fits ({ type := .intStart } :: { type := .int, asInt := n } ::
      { type := .end_, pos := stop } :: ts)) (hts : ts ≠ []) :
    Goes fits parseInteger p [] (fun item p' => item = .integer n ∧
      p'.At fits ({ type := .end_, pos := stop } :: ts)) := by
  refine Goes.step (expectPeek_goes hat (by simp) rfl) (fun ok p₁ _ h₁ => ?_)
  obtain ⟨rfl, hat₁⟩ := h₁
  simp only [Bool.true_eq_false, if_false]
  refine Goes.get_bind ?_
  refine Goes.step (expectPeek_goes hat₁ hts rfl) (fun ok p₂ _ h₂ => ?_)
  obtain ⟨rfl, hat₂⟩ := h₂
  simp only [Bool.true_eq_false, if_false]
  exact Goes.ret ⟨by rw [hat₁.curToken], hat₂⟩

theorem parseBytestring_goes {s : List UInt8} (hlen : s.length < 2 ^ 63)
    (hat : p.At fits (strTokens s ++ ts)) (hts : ts ≠ []) :
    Goes fits parseBytestring p [] (fun item p' => item = .bytestring s.length (some s) ∧
      p'.At fits ({ type := .string, asString := s } :: ts)) := by
  have hcur := Parser.At.curToken hat
  refine Goes.get_bind ?_
  have hassert : check (p.curToken.type = .stringSize) = .ok () := by
    rw [hcur]
    rfl
  have hsize : sizeOfLong p.curToken.asInt = s.length := by
    rw [hcur]
    simp only [sizeOfLong]
    omega
  rw [hassert, hsize]
  refine Goes.lift_bind ?_
  refine Goes.step (expectPeek_goes hat (by simp) rfl) (fun ok p₁ _ h₁ => ?_)
  obtain ⟨rfl, hat₁⟩ := h₁
  simp only [Bool.true_eq_false, if_false]
  refine Goes.step (expectPeek_goes hat₁ hts rfl) (fun ok p₂ _ h₂ => ?_)
  obtain ⟨rfl, hat₂⟩ := h₂
  simp only [Bool.true_eq_false, if_false]
  exact Goes.get_bind (Goes.ret ⟨by rw [hat₂.curToken], hat₂⟩)

end Steps

/-! ## The tree of a value -/

mutual

/-- The tree the parser builds of a value: the table of a dictionary holds the
entries, in whatever slots, and an `info` value its digest. -/
def Tree (digest : List UInt8 → List UInt8) : Value → BencodeType → Prop
  | .int n, .integer m => m = clampLong n
  | .str s, .bytestring len str => len = s.length ∧ str = some s
  | .list vs, .list items => TreeList digest vs items
  | .dict es, .dictionary table _ =>
    table.Wf ∧ ∃ entries, table.entries.Perm entries ∧ TreeEntries digest es entries
  | _, _ => False

def TreeList (digest : List UInt8 → List UInt8) : List Value → List BencodeType → Prop
  | [], [] => True
  | v :: vs, item :: items => Tree digest v item ∧ TreeList digest vs items
  | _, _ => False

def TreeEntries (digest : List UInt8 → List UInt8) :
    List (List UInt8 × Value) → List (HashPosition BencodeType) → Prop
  | [], [] => True
  | (k, v) :: es, pos :: entries =>
    pos.key = k ∧ Tree digest v pos.value ∧
      (k = infoKey → ∃ table, pos.value = .dictionary table (some (digest (encode v)))) ∧
      TreeEntries digest es entries
  | _, _ => False

end

theorem TreeEntries.keys {digest : List UInt8 → List UInt8} :
    ∀ {es : List (List UInt8 × Value)} {entries : List (HashPosition BencodeType)},
      TreeEntries digest es entries → entries.map HashPosition.key = es.map Prod.fst
  | [], [], _ => rfl
  | (k, v) :: es, pos :: entries, h => by
    simp only [TreeEntries] at h
    rw [List.map_cons, List.map_cons, h.1, TreeEntries.keys h.2.2.2]

mutual

/-- Fuel enough to parse a value. -/
def weight : Value → Nat
  | .int _ => 1
  | .str _ => 1
  | .list vs => 1 + weightList vs
  | .dict es => 1 + weightEntries es

def weightList : List Value → Nat
  | [] => 1
  | v :: vs => 1 + weight v + weightList vs

def weightEntries : List (List UInt8 × Value) → Nat
  | [] => 1
  | (_, v) :: es => 1 + weight v + weightEntries es

end

/-- What the parser relies on `BENCODE_GET_SHA1` for: the digest of the bytes
from `start` to `end`, both included, when there are at least as many as a
digest has. -/
structure HashesRange (getSha1 : List UInt8 → Nat → Nat → Except Fault (List UInt8))
    (digest : List UInt8 → List UInt8) : Prop where
  long : ∀ before b after, 20 ≤ b.length →
    getSha1 (before ++ (b ++ after)) before.length (before.length + b.length - 1) = .ok (digest b)
  short : ∀ before b after, b ≠ [] → b.length < 20 →
    ∃ e, getSha1 (before ++ (b ++ after)) before.length (before.length + b.length - 1) = .error e

/-! ## Dictionaries and lists -/

section Containers

variable {fits : Prop} {getSha1 : List UInt8 → Nat → Nat → Except Fault (List UInt8)}
  {digest : List UInt8 → List UInt8} {p : Parser} {ts : List Token}

theorem Parser.At.congr {p' : Parser} (hat : p.At fits ts) (hcur : p'.curToken = p.curToken)
    (hpeek : p'.peekToken = p.peekToken) (hl : p'.l = p.l) : p'.At fits ts := by
  obtain ⟨rest, hrest, hfeeds⟩ := hat
  exact ⟨rest, by rw [hcur, hpeek]; exact hrest, by rw [hl]; exact hfeeds⟩

theorem initTable_goes (hat : p.At fits ts) :
    Goes fits initTable p [] (fun table p' => table.Wf ∧ table.entries = [] ∧ p'.At fits ts) :=
  show p.Moved [] { p with tables := p.tables + 1 } ∧
      (hashTableInit (p.seeds p.tables) : HashTable BencodeType).Wf ∧
      (hashTableInit (p.seeds p.tables) : HashTable BencodeType).entries = [] ∧
      Parser.At fits { p with tables := p.tables + 1 } ts from
    ⟨⟨rfl, rfl, (List.append_nil _).symm⟩, hashTableInit_wf _, entries_hashTableInit _,
      hat.congr rfl rfl rfl⟩

theorem goes_outOfFuel {α : Type} {fine : Prop} (hfine : ¬ fine) {calls : List (Nat × Nat)}
    {post : α → Parser → Prop} : Goes fine (throw .outOfFuel) p calls post :=
  ⟨hfine, List.prefix_append _ _⟩

theorem parseItem_str_goes {s : List UInt8} (fuel : Nat) (hlen : s.length < 2 ^ 63)
    (hat : p.At fits (strTokens s ++ ts)) (hts : ts ≠ []) :
    Goes (fits ∧ 0 < fuel) (parseItem getSha1 fuel) p []
      (fun item p' => item = .bytestring s.length (some s) ∧
        p'.At fits ({ type := .string, asString := s } :: ts)) := by
  cases fuel with
  | zero =>
    rw [parseItem]
    exact goes_outOfFuel (fun h => Nat.lt_irrefl 0 h.2)
  | succ fuel =>
    rw [parseItem]
    refine Goes.get_bind ?_
    rw [Parser.At.curToken hat]
    exact (parseBytestring_goes hlen hat hts).weaken (fun h => h.1)

/-- Under `info` the look-ahead is the `d` of the value. -/
theorem infoStart_goes {k : List UInt8} {v : Value} {t : Token} {pos : Nat}
    (hinfo : k = infoKey → v.isDict = true) (hat : p.At fits (t :: (tokens pos v ++ ts))) :
    Goes fits (infoStart k) p []
      (fun start p' => (k = infoKey → start = pos) ∧ p'.At fits (t :: (tokens pos v ++ ts))) := by
  rw [infoStart]
  by_cases hk : k = infoKey
  · rw [if_pos hk]
    cases v with
    | dict es =>
      refine Goes.get_bind ?_
      rw [tokens, List.cons_append] at hat
      rw [hat.peekToken]
      exact Goes.lift_bind (Goes.ret ⟨fun _ => rfl, hat⟩)
    | _ => exact absurd (hinfo hk) (by simp [Value.isDict])
  · rw [if_neg hk]
    exact Goes.ret ⟨fun h => absurd h hk, hat⟩

/-- Behind an `info` value its first and its last byte are passed on to
`BENCODE_GET_SHA1`, and the digest is kept with the value. -/
theorem infoFinish_goes (hook : HashesRange getSha1 digest) {k : List UInt8} {v : Value}
    {before after : List UInt8} {start : Nat} {item : BencodeType}
    (hinfo : k = infoKey → v.isDict = true) (hstart : k = infoKey → start = before.length)
    (hbuf : p.l.buf = before ++ (encode v ++ after)) (htree : Tree digest v item)
    (hat : p.At fits (lastToken before.length v :: ts)) :
    Goes (k = infoKey → 20 ≤ (encode v).length) (infoFinish getSha1 k start item) p
      ((if k = infoKey then [(before.length, v)] else []).map infoCall)
      (fun item' p' => Tree digest v item' ∧
        (k = infoKey → ∃ table, item' = .dictionary table (some (digest (encode v)))) ∧
        (k = infoKey → 20 ≤ (encode v).length) ∧ p'.At fits (lastToken before.length v :: ts)) := by
  rw [infoFinish]
  by_cases hk : k = infoKey
  · have hend : p.curToken = { type := .end_, pos := before.length + (encode v).length - 1 } := by
      rw [hat.curToken]
      cases v with
      | dict es => rfl
      | _ => exact absurd (hinfo hk) (by simp [Value.isDict])
    obtain ⟨table, old, rfl⟩ : ∃ table old, item = .dictionary table old := by
      cases v with
      | dict es =>
        cases item with
        | dictionary table old => exact ⟨table, old, rfl⟩
        | _ => exact absurd htree (by simp [Tree])
      | _ => exact absurd (hinfo hk) (by simp [Value.isDict])
    rw [if_pos hk, if_pos hk, hstart hk]
    refine Goes.get_bind ?_
    rw [hend, hbuf]
    refine Goes.lift_bind ?_
    rcases Nat.lt_or_ge (encode v).length 20 with hshort | hlong
    · obtain ⟨e, he⟩ := hook.short before (encode v) after (encode_ne_nil v) hshort
      rw [he]
      exact ⟨fun h => absurd (h hk) (by omega), List.prefix_rfl⟩
    · rw [hook.long before (encode v) after hlong]
      refine ⟨⟨rfl, rfl, rfl⟩, ?_, fun _ => ⟨table, rfl⟩, fun _ => hlong,
        hat.congr hend.symm rfl rfl⟩
      cases v with
      | dict es => exact htree
      | _ => exact absurd (hinfo hk) (by simp [Value.isDict])
  · rw [if_neg hk, if_neg hk]
    exact Goes.ret ⟨htree, fun h => absurd h hk, fun h => absurd h hk, hat⟩

end Containers

/-- The tokens of a value: there are at least two, and the first is not the
end of something. -/
theorem tokens_cons (pos : Nat) (v : Value) :
    ∃ t ts, tokens pos v = t :: ts ∧ t.type ≠ .end_ ∧ ts ≠ [] := by
  cases v with
  | int n => exact ⟨_, _, rfl, by simp, by simp⟩
  | str s => exact ⟨_, _, rfl, by simp, by simp⟩
  | list vs => exact ⟨_, _, rfl, by simp, by simp⟩
  | dict es => exact ⟨_, _, rfl, by simp, by simp⟩

theorem weight_pos (v : Value) : 0 < weight v := by
  cases v with
  | int n => exact Nat.one_pos
  | str s => exact Nat.one_pos
  | list vs => rw [weight]; omega
  | dict es => rw [weight]; omega

theorem wfEntry_iff {k : List UInt8} {v : Value} :
    wfEntry (k, v) = true ↔
      readable k = true ∧ k.all (· != 0) = true ∧ (k = infoKey → v.isDict = true) := by
  simp only [wfEntry, Bool.and_eq_true, Bool.or_eq_true, bne_iff_ne, and_assoc]
  by_cases hk : k = infoKey <;> simp [hk]

/-- The entries of a dictionary have distinct keys, so the insertion of the next
one does not replace one. -/
theorem insert_entry {table : HashTable BencodeType} {done : List (HashPosition BencodeType)}
    {k : List UInt8} {keys : List (List UInt8)} (item : BencodeType) (htable : table.Wf)
    (hperm : table.entries.Perm done) (hnodup : (done.map HashPosition.key ++ k :: keys).Nodup) :
    ∃ table', hashTableInsert table k item = .ok table' ∧ table'.Wf ∧
      table'.entries.Perm (⟨k, item⟩ :: done) ∧
      ((⟨k, item⟩ :: done).map HashPosition.key ++ keys).Nodup := by
  rw [List.nodup_middle, List.nodup_cons, List.mem_append, not_or] at hnodup
  have hfresh : k ∉ table.keys := by
    rw [HashTable.keys, (hperm.map HashPosition.key).mem_iff]
    exact hnodup.1.1
  obtain ⟨table', hinsert, htable', hperm'⟩ := insert_fresh htable item hfresh
  refine ⟨table', hinsert, htable', hperm'.trans (hperm.cons _), ?_⟩
  rw [List.map_cons, List.cons_append, List.nodup_cons, List.mem_append, not_or]
  exact hnodup

theorem cString_eq {str : List UInt8} (h : str.all (· != 0) = true) : cString str = str := by
  rw [cString, List.takeWhile_eq_self_iff]
  simpa using h

theorem infoHere_cons {k : List UInt8} {v : Value} {es : List (List UInt8 × Value)} :
    infoHere (.dict ((k, v) :: es)) = true ↔
      (k = infoKey → 20 ≤ (encode v).length) ∧ infoHere (.dict es) = true := by
  simp only [infoHere, List.all_cons, Bool.and_eq_true, Bool.or_eq_true, bne_iff_ne,
    decide_eq_true_eq]
  by_cases hk : k = infoKey <;> simp [hk]

mutual

/-- **What `parse_item` does on the encoding of a value.** -/
theorem parseItem_goes {fits : Prop} {getSha1 : List UInt8 → Nat → Nat → Except Fault (List UInt8)}
    {digest : List UInt8 → List UInt8} (hook : HashesRange getSha1 digest) :
    ∀ (v : Value) (fuel : Nat) {p : Parser} {before after : List UInt8} {ts : List Token},
      v.wf = true → (encode v).length < 2 ^ 63 → p.l.buf = before ++ (encode v ++ after) →
      p.At fits (tokens before.length v ++ ts) → ts ≠ [] →
      Goes (fits ∧ v.longInfos = true ∧ weight v ≤ fuel) (parseItem getSha1 fuel) p
        ((infoEntries before.length v).map infoCall)
        (fun item p' => Tree digest v item ∧ v.longInfos = true ∧
          p'.At fits (lastToken before.length v :: ts))
  | v, 0, p, before, after, ts, _, _, _, _, _ => by
    rw [parseItem]
    exact goes_outOfFuel (fun h => absurd h.2.2 (by have := weight_pos v; omega))
  | .int n, fuel + 1, p, before, after, ts, _, _, _, hat, hts => by
    rw [parseItem]
    refine Goes.get_bind ?_
    rw [hat.curToken]
    refine Goes.mono (parseInteger_goes hat hts) (fun h => h.1) ?_
    rintro item p' - ⟨rfl, hat'⟩
    rw [← bracket_end _ _ 105] at hat'
    exact ⟨rfl, rfl, hat'⟩
  | .str s, fuel + 1, p, before, after, ts, _, hlen, _, hat, hts => by
    have hslen : s.length < 2 ^ 63 := by
      simp only [encode, encodeStr, List.length_append, List.length_cons] at hlen
      omega
    rw [parseItem]
    refine Goes.get_bind ?_
    rw [Parser.At.curToken hat]
    refine Goes.mono (parseBytestring_goes hslen hat hts) (fun h => h.1) ?_
    rintro item p' - ⟨rfl, hat'⟩
    exact ⟨⟨rfl, rfl⟩, rfl, hat'⟩
  | .list vs, fuel + 1, p, before, after, ts, hwf, hlen, hbuf, hat, hts => by
    have hpos : before.length + 1 = (before ++ [108]).length := by simp
    rw [encode, bracket_inside] at hbuf
    have htslen : 0 < ts.length := List.length_pos_iff.mpr hts
    rw [tokens, List.cons_append, List.append_assoc, List.singleton_append] at hat
    rw [encode, List.length_cons, List.length_append] at hlen
    rw [parseItem]
    refine Goes.get_bind ?_
    rw [hat.curToken]
    refine Goes.next hat (by rw [List.length_append, List.length_cons]; omega) (fun h => h.1) ?_
    intro p₁ hmoved₁ hat₁
    rw [hpos] at hat₁
    rw [infoEntries, hpos]
    refine Goes.finish ((parseListLoop_goes hook vs fuel [] (every_list.mp hwf).2 (by omega)
      (hmoved₁.buf.trans hbuf) hat₁ hts).weaken (fun h => ?_)) ?_
    · rw [weight] at h
      exact ⟨h.1, (every_list.mp h.2.1).2, by omega⟩
    · rintro out p₂ - ⟨items, rfl, htree, hinfos, hat₂⟩
      rw [← hpos, ← bracket_end _ _ 108] at hat₂
      exact Goes.ret ⟨htree, every_list.mpr ⟨rfl, hinfos⟩, hat₂⟩
  | .dict es, fuel + 1, p, before, after, ts, hwf, hlen, hbuf, hat, hts => by
    have hpos : before.length + 1 = (before ++ [100]).length := by simp
    rw [encode, bracket_inside] at hbuf
    have htslen : 0 < ts.length := List.length_pos_iff.mpr hts
    obtain ⟨hhere, hinside⟩ := every_dict.mp hwf
    simp only [wfHere, Bool.and_eq_true, decide_eq_true_eq] at hhere
    rw [tokens, List.cons_append, List.append_assoc, List.singleton_append] at hat
    rw [encode, List.length_cons, List.length_append] at hlen
    rw [parseItem]
    refine Goes.get_bind ?_
    rw [hat.curToken]
    refine Goes.step ((initTable_goes hat).weaken (fun h => h.1)) ?_
    rintro table p₀ hmoved₀ ⟨htable, hempty, hat₀⟩
    refine Goes.next hat₀ (by rw [List.length_append, List.length_cons]; omega) (fun h => h.1) ?_
    intro p₁ hmoved₁ hat₁
    rw [hpos] at hat₁
    rw [infoEntries, hpos]
    refine Goes.finish ((parseDictLoop_goes hook es fuel [] htable (by rw [hempty]) hhere.1
      (by simpa using hhere.2) hinside (by omega)
      (hmoved₁.buf.trans (hmoved₀.buf.trans hbuf)) hat₁ hts).weaken (fun h => ?_)) ?_
    · rw [weight] at h
      exact ⟨h.1, (every_dict.mp h.2.1).1, (every_dict.mp h.2.1).2, by omega⟩
    · rintro out p₂ - ⟨entries, hout, hperm, htree, hinfo, hinfos, hat₂⟩
      rw [← hpos, ← bracket_end _ _ 100] at hat₂
      exact Goes.ret ⟨⟨hout, entries, hperm, htree⟩, every_dict.mpr ⟨hinfo, hinfos⟩, hat₂⟩

theorem parseListLoop_goes {fits : Prop}
    {getSha1 : List UInt8 → Nat → Nat → Except Fault (List UInt8)}
    {digest : List UInt8 → List UInt8} (hook : HashesRange getSha1 digest) :
    ∀ (vs : List Value) (fuel : Nat) (values : List BencodeType) {p : Parser}
      {before after : List UInt8} {stop : Nat} {ts : List Token},
      everyList wfHere vs = true → (encodeList vs).length < 2 ^ 63 →
      p.l.buf = before ++ (encodeList vs ++ after) →
      p.At fits (tokensList before.length vs ++ { type := .end_, pos := stop } :: ts) → ts ≠ [] →
      Goes (fits ∧ everyList infoHere vs = true ∧ weightList vs ≤ fuel)
        (parseListLoop getSha1 fuel values) p ((infoEntriesList before.length vs).map infoCall)
        (fun out p' => ∃ items, out = values ++ items ∧ TreeList digest vs items ∧
          everyList infoHere vs = true ∧ p'.At fits ({ type := .end_, pos := stop } :: ts))
  | vs, 0, values, p, before, after, stop, ts, _, _, _, _, _ => by
    rw [parseListLoop]
    refine goes_outOfFuel (fun h => absurd h.2.2 ?_)
    cases vs <;> rw [weightList] <;> omega
  | [], fuel + 1, values, p, before, after, stop, ts, _, _, _, hat, _ => by
    rw [tokensList, List.nil_append] at hat
    rw [parseListLoop]
    refine Goes.get_bind ?_
    rw [hat.curToken, if_pos rfl]
    exact Goes.ret ⟨[], by simp, trivial, rfl, hat⟩
  | v :: vs, fuel + 1, values, p, before, after, stop, ts, hwf, hlen, hbuf, hat, hts => by
    obtain ⟨t, rest, htokens, hend, -⟩ := tokens_cons before.length v
    have htslen : 0 < ts.length := List.length_pos_iff.mpr hts
    rw [everyList_cons] at hwf
    rw [encodeList, List.length_append] at hlen
    rw [encodeList, List.append_assoc] at hbuf
    rw [tokensList, List.append_assoc] at hat
    have hcur : p.curToken.type ≠ .end_ := by
      rw [htokens, List.cons_append] at hat
      rw [hat.curToken]
      exact hend
    rw [parseListLoop, infoEntriesList, List.map_append]
    refine Goes.get_bind ?_
    rw [if_neg hcur]
    refine Goes.bind ((parseItem_goes hook v fuel hwf.1 (by omega) hbuf hat (by simp)).weaken
      (fun h => ?_)) ?_
    · rw [everyList_cons, weightList] at h
      exact ⟨h.1, h.2.1.1, by omega⟩
    rintro item p₁ hmoved₁ ⟨htree, hinfos, hat₁⟩
    refine Goes.next hat₁ (by rw [List.length_append, List.length_cons]; omega) (fun h => h.1) ?_
    intro p₂ hmoved₂ hat₂
    rw [← List.length_append] at hat₂ ⊢
    have hbuf₂ : p₂.l.buf = (before ++ encode v) ++ (encodeList vs ++ after) := by
      rw [hmoved₂.buf, hmoved₁.buf, hbuf, List.append_assoc]
    refine Goes.mono (parseListLoop_goes hook vs fuel (values ++ [item]) hwf.2 (by omega) hbuf₂ hat₂
      hts) (fun h => ?_) ?_
    · rw [everyList_cons, weightList] at h
      exact ⟨h.1, h.2.1.2, by omega⟩
    · rintro out p₃ - ⟨items, rfl, htrees, hinfos', hat₃⟩
      exact ⟨item :: items, by rw [List.append_assoc]; rfl, ⟨htree, htrees⟩,
        everyList_cons.mpr ⟨hinfos, hinfos'⟩, hat₃⟩

theorem parseDictLoop_goes {fits : Prop}
    {getSha1 : List UInt8 → Nat → Nat → Except Fault (List UInt8)}
    {digest : List UInt8 → List UInt8} (hook : HashesRange getSha1 digest) :
    ∀ (es : List (List UInt8 × Value)) (fuel : Nat) {table : HashTable BencodeType}
      (done : List (HashPosition BencodeType)) {p : Parser}
      {before after : List UInt8} {stop : Nat} {ts : List Token},
      table.Wf → table.entries.Perm done → es.all wfEntry = true →
      (done.map HashPosition.key ++ es.map Prod.fst).Nodup →
      everyEntry wfHere es = true → (encodeEntries es).length < 2 ^ 63 →
      p.l.buf = before ++ (encodeEntries es ++ after) →
      p.At fits (tokensEntries before.length es ++ { type := .end_, pos := stop } :: ts) → ts ≠ [] →
      Goes (fits ∧ infoHere (.dict es) = true ∧ everyEntry infoHere es = true ∧
          weightEntries es ≤ fuel)
        (parseDictLoop getSha1 fuel table) p ((infoEntriesDict before.length es).map infoCall)
        (fun out p' => ∃ entries, out.Wf ∧ out.entries.Perm (done ++ entries) ∧
          TreeEntries digest es entries ∧ infoHere (.dict es) = true ∧
          everyEntry infoHere es = true ∧ p'.At fits ({ type := .end_, pos := stop } :: ts))
  | es, 0, table, done, p, before, after, stop, ts, _, _, _, _, _, _, _, _, _ => by
    rw [parseDictLoop]
    refine goes_outOfFuel (fun h => absurd h.2.2.2 ?_)
    cases es <;> rw [weightEntries] <;> omega
  | [], fuel + 1, table, done, p, before, after, stop, ts, htable, hperm, _, _, _, _, _, hat,
      _ => by
    rw [tokensEntries, List.nil_append] at hat
    rw [parseDictLoop]
    refine Goes.get_bind ?_
    rw [hat.curToken, if_pos rfl]
    exact Goes.ret ⟨[], htable, by simpa using hperm, trivial, rfl, rfl, hat⟩
  | (k, v) :: es, fuel + 1, table, done, p, before, after, stop, ts, htable, hperm, hkeys, hnodup,
      hwf, hlen, hbuf, hat, hts => by
    have htslen : 0 < ts.length := List.length_pos_iff.mpr hts
    rw [everyEntry_cons] at hwf
    rw [List.all_cons, Bool.and_eq_true] at hkeys
    obtain ⟨-, hnul, hinfo⟩ := wfEntry_iff.mp hkeys.1
    rw [encodeEntries, List.length_append, List.length_append] at hlen
    rw [encodeEntries, List.append_assoc, List.append_assoc] at hbuf
    rw [tokensEntries, List.append_assoc, List.append_assoc] at hat
    have hklen : k.length < 2 ^ 63 := by
      simp only [encodeStr, List.length_append, List.length_cons] at hlen
      omega
    have hcur : p.curToken.type ≠ .end_ := by
      rw [Parser.At.curToken hat]
      simp
    rw [parseDictLoop, infoEntriesDict, List.map_append, List.map_append]
    refine Goes.get_bind ?_
    rw [if_neg hcur]
    -- the key, which has no `NUL` and so is its own C string
    refine Goes.step ((parseItem_str_goes fuel hklen hat (by simp)).weaken (fun h => ?_)) ?_
    · rw [weightEntries] at h
      exact ⟨h.1, by have := weight_pos v; omega⟩
    rintro _ p₁ hmoved₁ ⟨rfl, hat₁⟩
    simp only [cString_eq hnul]
    refine Goes.step ((infoStart_goes hinfo hat₁).weaken (fun h => h.1)) ?_
    rintro start p₂ hmoved₂ ⟨hstart, hat₂⟩
    -- the value; its last token is the one the hash range ends with
    refine Goes.next hat₂ (by simp only [List.length_append, List.length_cons]; omega)
      (fun h => h.1) ?_
    intro p₃ hmoved₃ hat₃
    rw [← List.length_append] at hat₃ hstart ⊢
    have hbuf₃ : p₃.l.buf
        = (before ++ encodeStr k) ++ (encode v ++ (encodeEntries es ++ after)) := by
      rw [hmoved₃.buf, hmoved₂.buf, hmoved₁.buf, hbuf, List.append_assoc]
    refine Goes.bind ((parseItem_goes hook v fuel hwf.1 (by omega) hbuf₃ hat₃ (by simp)).weaken
      (fun h => ?_)) ?_
    · rw [everyEntry_cons, weightEntries] at h
      exact ⟨h.1, h.2.2.1.1, by omega⟩
    rintro item p₄ hmoved₄ ⟨htree, hinfos, hat₄⟩
    refine Goes.bind ((infoFinish_goes hook hinfo hstart (hmoved₄.buf.trans hbuf₃) htree
      hat₄).weaken (fun h hk => (infoHere_cons.mp h.2.1).1 hk)) ?_
    rintro item' p₅ hmoved₅ ⟨htree', hdigest, hlong, hat₅⟩
    obtain ⟨table', hinsert, htable', hperm', hnodup'⟩ := insert_entry item' htable hperm hnodup
    rw [hinsert]
    refine Goes.lift_bind ?_
    refine Goes.next hat₅ (by rw [List.length_append, List.length_cons]; omega) (fun h => h.1) ?_
    intro p₆ hmoved₆ hat₆
    rw [← List.length_append] at hat₆ ⊢
    have hbuf₆ : p₆.l.buf = (before ++ encodeStr k ++ encode v) ++ (encodeEntries es ++ after) := by
      rw [hmoved₆.buf, hmoved₅.buf, hmoved₄.buf, hbuf₃, List.append_assoc (before ++ encodeStr k)]
    refine Goes.mono (parseDictLoop_goes hook es fuel (⟨k, item'⟩ :: done) htable' hperm' hkeys.2
      hnodup' hwf.2 (by omega) hbuf₆ hat₆ hts) (fun h => ?_) ?_
    · rw [everyEntry_cons, weightEntries] at h
      exact ⟨h.1, (infoHere_cons.mp h.2.1).2, h.2.2.1.2, by omega⟩
    · rintro out p₇ - ⟨entries, hout, houtperm, htrees, hinfoes, hinfos', hat₇⟩
      refine ⟨⟨k, item'⟩ :: entries, hout, houtperm.trans List.perm_middle.symm,
        ⟨rfl, htree', hdigest, htrees⟩, infoHere_cons.mpr ⟨hlong, hinfoes⟩,
        everyEntry_cons.mpr ⟨hinfos, hinfos'⟩, hat₇⟩

end

end BtClient

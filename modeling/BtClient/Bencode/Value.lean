import BtClient.Bencode.Parser

/-!
# Bencode values and their canonical encoding

What the lexer and the parser are for. A `Value` is the abstract value,
`encode` its canonical text, and `tokens` the tokens that text consists of,
with the positions the lexer notes in them. `infoEntries` lists the values
under a key `info`, each with the offset of its encoding.
-/

namespace BtClient

open CLib

/-- A bencode value; a dictionary is its entries in the order of the text. -/
inductive Value where
  | int (n : Int)
  | str (s : List UInt8)
  | list (vs : List Value)
  | dict (es : List (List UInt8 × Value))

/-- The text of a string. -/
def encodeStr (s : List UInt8) : List UInt8 := decimal s.length ++ 58 :: s

mutual

/-- The canonical encoding. -/
def encode : Value → List UInt8
  | .int n => 105 :: (decimalInt n ++ [101])
  | .str s => encodeStr s
  | .list vs => 108 :: (encodeList vs ++ [101])
  | .dict es => 100 :: (encodeEntries es ++ [101])

def encodeList : List Value → List UInt8
  | [] => []
  | v :: vs => encode v ++ encodeList vs

def encodeEntries : List (List UInt8 × Value) → List UInt8
  | [] => []
  | (k, v) :: es => encodeStr k ++ (encode v ++ encodeEntries es)

end

/-! ## Conditions on values -/

mutual

/-- `p` holds of the value and of every value inside it. -/
def Value.every (p : Value → Bool) : Value → Bool
  | .int n => p (.int n)
  | .str s => p (.str s)
  | .list vs => p (.list vs) && everyList p vs
  | .dict es => p (.dict es) && everyEntry p es

def everyList (p : Value → Bool) : List Value → Bool
  | [] => true
  | v :: vs => v.every p && everyList p vs

def everyEntry (p : Value → Bool) : List (List UInt8 × Value) → Bool
  | [] => true
  | (_, v) :: es => v.every p && everyEntry p es

end

/-- A string the lexer can read: not empty, and not starting with a colon. -/
def readable : List UInt8 → Bool
  | [] => false
  | c :: _ => c != 58

def Value.isDict : Value → Bool
  | .dict _ => true
  | _ => false

/-- An entry: the key is readable and has no `NUL`, and under `info` there is
a dictionary. -/
def wfEntry (e : List UInt8 × Value) : Bool :=
  readable e.1 && e.1.all (· != 0) && (e.1 != infoKey || e.2.isDict)

/-- A readable string; a dictionary with distinct keys and good entries. -/
def wfHere : Value → Bool
  | .str s => readable s
  | .dict es => es.all wfEntry && decide (es.map Prod.fst).Nodup
  | _ => true

/-- A readable string; a dictionary with readable keys. -/
def readsHere : Value → Bool
  | .str s => readable s
  | .dict es => es.all fun e => readable e.1
  | _ => true

/-- An integer that is a `long`. -/
def longHere : Value → Bool
  | .int n => decide (-2 ^ 63 ≤ n) && decide (n < 2 ^ 63)
  | _ => true

/-- A numeral that fits the lexer's `char buf[500]` with the `NUL` behind it. -/
def fitsHere : Value → Bool
  | .int n => decide ((decimalInt n).length < 500)
  | _ => true

/-- An `info` value whose encoding is at least as long as a SHA-1 digest. -/
def infoHere : Value → Bool
  | .dict es => es.all fun e => e.1 != infoKey || decide (20 ≤ (encode e.2).length)
  | _ => true

/-- The values the lexer and the parser can read. -/
def Value.wf (v : Value) : Bool := v.every wfHere

/-- Every string is readable, the keys included. -/
def Value.reads (v : Value) : Bool := v.every readsHere

/-- Every integer is a `long`. -/
def Value.longInts (v : Value) : Bool := v.every longHere

/-- Every numeral fits the lexer's buffer. -/
def Value.fits (v : Value) : Bool := v.every fitsHere

/-- Every `info` value is long enough for its digest. -/
def Value.longInfos (v : Value) : Bool := v.every infoHere

/-! ## Tokens -/

def strTokens (s : List UInt8) : List Token :=
  [{ type := .stringSize, asInt := s.length }, { type := .colon },
    { type := .string, asString := s }]

mutual

/-- The tokens of the encoding that starts at offset `pos`. -/
def tokens : Nat → Value → List Token
  | pos, .int n =>
    [{ type := .intStart }, { type := .int, asInt := clampLong n },
      { type := .end_, pos := pos + 1 + (decimalInt n).length }]
  | _, .str s => strTokens s
  | pos, .list vs =>
    { type := .listStart } :: (tokensList (pos + 1) vs ++
      [{ type := .end_, pos := pos + 1 + (encodeList vs).length }])
  | pos, .dict es =>
    { type := .dictStart, pos := pos } :: (tokensEntries (pos + 1) es ++
      [{ type := .end_, pos := pos + 1 + (encodeEntries es).length }])

def tokensList : Nat → List Value → List Token
  | _, [] => []
  | pos, v :: vs => tokens pos v ++ tokensList (pos + (encode v).length) vs

def tokensEntries : Nat → List (List UInt8 × Value) → List Token
  | _, [] => []
  | pos, (k, v) :: es =>
    strTokens k ++ (tokens (pos + (encodeStr k).length) v ++
      tokensEntries (pos + (encodeStr k).length + (encode v).length) es)

end

/-- The last token of a value: of a string its bytes, else the `e` that ends
it. -/
def lastToken (pos : Nat) : Value → Token
  | .str s => { type := .string, asString := s }
  | v => { type := .end_, pos := pos + (encode v).length - 1 }

/-! ## Entries called `info` -/

mutual

/-- The values under a key `info`, at any depth, in the order their last bytes
stand in the text, each with the offset of its encoding. -/
def infoEntries : Nat → Value → List (Nat × Value)
  | _, .int _ => []
  | _, .str _ => []
  | pos, .list vs => infoEntriesList (pos + 1) vs
  | pos, .dict es => infoEntriesDict (pos + 1) es

def infoEntriesList : Nat → List Value → List (Nat × Value)
  | _, [] => []
  | pos, v :: vs => infoEntries pos v ++ infoEntriesList (pos + (encode v).length) vs

def infoEntriesDict : Nat → List (List UInt8 × Value) → List (Nat × Value)
  | _, [] => []
  | pos, (k, v) :: es =>
    infoEntries (pos + (encodeStr k).length) v ++
      ((if k = infoKey then [(pos + (encodeStr k).length, v)] else []) ++
        infoEntriesDict (pos + (encodeStr k).length + (encode v).length) es)

end

/-- The arguments `start` and `end` of `BENCODE_GET_SHA1` that cover an entry's
value: the first and the last byte of its encoding. -/
def infoCall (entry : Nat × Value) : Nat × Nat :=
  (entry.1, entry.1 + (encode entry.2).length - 1)

/-! ## Lemmas -/

section Every

variable {p q : Value → Bool}

theorem every_list {vs : List Value} :
    (Value.list vs).every p = true ↔ p (.list vs) = true ∧ everyList p vs = true := by
  simp [Value.every]

theorem every_dict {es : List (List UInt8 × Value)} :
    (Value.dict es).every p = true ↔ p (.dict es) = true ∧ everyEntry p es = true := by
  simp [Value.every]

theorem everyList_cons {v : Value} {vs : List Value} :
    everyList p (v :: vs) = true ↔ v.every p = true ∧ everyList p vs = true := by
  simp [everyList]

theorem everyEntry_cons {k : List UInt8} {v : Value} {es : List (List UInt8 × Value)} :
    everyEntry p ((k, v) :: es) = true ↔ v.every p = true ∧ everyEntry p es = true := by
  simp [everyEntry]

mutual

theorem every_mono (h : ∀ v, p v = true → q v = true) :
    ∀ v : Value, v.every p = true → v.every q = true
  | .int n, hv => h _ hv
  | .str s, hv => h _ hv
  | .list vs, hv => by
    rw [every_list] at hv ⊢
    exact ⟨h _ hv.1, everyList_mono h vs hv.2⟩
  | .dict es, hv => by
    rw [every_dict] at hv ⊢
    exact ⟨h _ hv.1, everyEntry_mono h es hv.2⟩

theorem everyList_mono (h : ∀ v, p v = true → q v = true) :
    ∀ vs : List Value, everyList p vs = true → everyList q vs = true
  | [], _ => rfl
  | v :: vs, hv => by
    rw [everyList_cons] at hv ⊢
    exact ⟨every_mono h v hv.1, everyList_mono h vs hv.2⟩

theorem everyEntry_mono (h : ∀ v, p v = true → q v = true) :
    ∀ es : List (List UInt8 × Value), everyEntry p es = true → everyEntry q es = true
  | [], _ => rfl
  | (k, v) :: es, hv => by
    rw [everyEntry_cons] at hv ⊢
    exact ⟨every_mono h v hv.1, everyEntry_mono h es hv.2⟩

end

end Every

theorem Value.reads_of_wf {v : Value} (h : v.wf = true) : v.reads = true := by
  refine every_mono (fun w hw => ?_) v h
  cases w with
  | dict es =>
    simp only [wfHere, Bool.and_eq_true, List.all_eq_true] at hw
    simp only [readsHere, List.all_eq_true]
    intro e he
    have hentry := hw.1 e he
    simp only [wfEntry, Bool.and_eq_true] at hentry
    exact hentry.1.1
  | _ => exact hw

/-- A `long` has few digits. -/
theorem Value.fits_of_longInts {v : Value} (h : v.longInts = true) : v.fits = true := by
  refine every_mono (fun w hw => ?_) v h
  cases w with
  | int n =>
    simp only [longHere, Bool.and_eq_true, decide_eq_true_eq] at hw
    have := length_decimalInt_le hw.1 hw.2
    simp only [fitsHere, decide_eq_true_eq]
    omega
  | str s => rfl
  | list vs => rfl
  | dict es => rfl

theorem encode_ne_nil (v : Value) : encode v ≠ [] := by
  cases v with
  | int n => simp [encode]
  | str s => simp [encode, encodeStr]
  | list vs => simp [encode]
  | dict es => simp [encode]

theorem length_encode_pos (v : Value) : 0 < (encode v).length :=
  List.length_pos_iff.mpr (encode_ne_nil v)

/-- A list or a dictionary in a text: what stands inside it starts one byte
further on. -/
theorem bracket_inside (before after body : List UInt8) (c : UInt8) :
    before ++ (c :: (body ++ [101]) ++ after) = (before ++ [c]) ++ (body ++ 101 :: after) := by
  simp

/-- The offset of the `e` that ends a list or a dictionary. -/
theorem bracket_end (pos : Nat) (body : List UInt8) (c : UInt8) :
    pos + (c :: (body ++ [101])).length - 1 = pos + 1 + body.length := by
  simp only [List.length_cons, List.length_append, List.length_nil]
  omega

/-- The last token of a value is the last of its tokens. -/
theorem getLast?_tokens (pos : Nat) (v : Value) :
    (tokens pos v).getLast? = some (lastToken pos v) := by
  cases v with
  | int n =>
    simp only [tokens, lastToken, encode, bracket_end]
    rfl
  | str s => simp [tokens, strTokens, lastToken]
  | list vs =>
    simp only [tokens, lastToken, encode, bracket_end]
    rw [← List.cons_append, List.getLast?_concat]
  | dict es =>
    simp only [tokens, lastToken, encode, bracket_end]
    rw [← List.cons_append, List.getLast?_concat]

end BtClient

import BtClient.Lib.Decimal

/-!
# The bencode lexer (`deps/stb_bencode.h`)

`next_token` and what it calls. `buf` is the readable memory from `l->buf` on:
the document, and the byte after it that the lexer looks at. A read beyond it
is a fault, as is a write past one of the lexer's own buffers.

The input stream only matters for `feof`: `input` is `none` for `NULL`, else
what `feof` returns.
-/

namespace BtClient

open CLib

/-- `TokenType`. -/
inductive TokenType where
  | illegal
  | listStart
  | dictStart
  | intStart
  | int
  | end_
  | stringSize
  | string
  | colon
  | endOfFile
  deriving DecidableEq, Repr

/-- `Token`. The two members of its union are fields of their own: each is
only read after the type was tested. -/
structure Token where
  type : TokenType := .illegal
  pos : Nat := 0
  asString : List UInt8 := []
  asInt : Int := 0
  deriving DecidableEq, Repr

/-- `Lexer`. -/
structure Lexer where
  input : Option Bool
  buf : List UInt8
  pos : Nat := 0
  readPos : Nat := 0
  ch : UInt8 := 0
  prevprev : Token := {}
  prev : Token := {}
  deriving DecidableEq, Repr

/-- `read_char(l)`. -/
def readChar (l : Lexer) : Except Fault Lexer :=
  match l.buf[l.readPos]? with
  | none => .error .outOfBounds
  | some ch => .ok { l with ch := ch, pos := l.readPos, readPos := l.readPos + 1 }

/-- `peek_char(l)`. -/
def peekChar (l : Lexer) : Except Fault UInt8 :=
  match l.buf[l.readPos]? with
  | none => .error .outOfBounds
  | some ch => .ok ch

/-- A `long` converted to `size_t`. -/
def sizeOfLong (n : Int) : Nat := (n % 2 ^ 64).toNat

/-- The loop that copies a string, with `left` bytes to go after `l->ch`. -/
def lexStringLoop : Nat → Lexer → Except Fault (List UInt8 × Lexer)
  | 0, l => .ok ([l.ch], l)
  | left + 1, l => do
    let (rest, l') ← lexStringLoop left (← readChar l)
    return (l.ch :: rest, l')

/-- The string of `n` bytes that starts with `l->ch`. For `n = 0` the bound
`n - 1` wraps, and the first write is already outside of `calloc(0, 1)`. -/
def lexString (n : Nat) (l : Lexer) : Except Fault (List UInt8 × Lexer) :=
  match n with
  | 0 => .error .outOfBounds
  | left + 1 => lexStringLoop left l

/-- The loop that collects a number into `char buf[500]`, with `room` bytes of
it left and `text` in it: `none` when it meets a byte that is neither a digit
nor a minus sign. -/
def lexNumber : (room : Nat) → (text : List UInt8) → Lexer →
    Except Fault (Option (List UInt8) × Lexer)
  | 0, _, _ => .error .outOfBounds
  | room + 1, text, l =>
    if isdigit l.ch = false ∧ l.ch ≠ 45 then .ok (none, l)
    else do
      let next ← peekChar l
      if next = 101 ∨ next = 58 then return (some (text ++ [l.ch]), l)
      else lexNumber room (text ++ [l.ch]) (← readChar l)

/-- The end of `next_token`: `t` becomes the previous token. -/
def finishToken (t : Token) (l : Lexer) : Token × Lexer :=
  (t, { l with prevprev := l.prev, prev := t })

/-- The type of a number token, by the token before and the byte after it. -/
def numberType (prev : TokenType) (next : UInt8) : TokenType :=
  if prev = .intStart then .int else if next = 58 then .stringSize else .illegal

/-- The `default` case of `next_token` on a digit or a minus sign. -/
def nextTokenNumber (l : Lexer) : Except Fault (Token × Lexer) := do
  match ← lexNumber 500 [] l with
  -- the early return: the previous tokens stay as they are
  | (none, l) => return ({ type := .illegal }, l)
  | (some text, l) =>
    let next ← peekChar l
    let n ← strtol (text ++ List.replicate (500 - text.length) 0)
    return finishToken { type := numberType l.prev.type next, asInt := n } l

/-- The `default` case of `next_token`. -/
def nextTokenDefault (l : Lexer) : Except Fault (Token × Lexer) :=
  if l.prevprev.type = .stringSize then do
    let (s, l) ← lexString (sizeOfLong l.prevprev.asInt) l
    return finishToken { type := .string, asString := s } l
  else if isdigit l.ch = true ∨ l.ch = 45 then nextTokenNumber l
  else if l.input = some true then return finishToken { type := .endOfFile } l
  else return finishToken { type := .illegal } l

/-- `next_token(l)`. The cases `d`, `l`, `i` and `e` make one and the same
test, so falling through from any of them ends in `default`. -/
def nextToken (l : Lexer) : Except Fault (Token × Lexer) := do
  let l ← readChar l
  if l.ch = 58 then -- ':'
    return finishToken { type := .colon } l
  else if l.ch = 100 ∧ l.prev.type ≠ .colon then -- 'd'
    return finishToken { type := .dictStart, pos := l.pos } l
  else if l.ch = 108 ∧ l.prev.type ≠ .colon then -- 'l'
    return finishToken { type := .listStart } l
  else if l.ch = 105 ∧ l.prev.type ≠ .colon then -- 'i'
    return finishToken { type := .intStart } l
  else if l.ch = 101 ∧ l.prev.type ≠ .colon then -- 'e'
    return finishToken { type := .end_, pos := l.pos } l
  else nextTokenDefault l

end BtClient

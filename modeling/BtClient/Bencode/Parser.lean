import BtClient.Bencode.Lexer
import BtClient.HashTable.Model
import BtClient.Lib.Outcome

/-!
# The bencode parser (`deps/stb_bencode.h`)

The parser works on a `Parser` that is one token ahead (`peek_token`). Its
functions are state programs that keep the state they had reached when they
fault. The recursion of `parse_item` through the loops of `parse_list` and
`parse_dict` runs on fuel.

`BENCODE_GET_SHA1` is a macro that the includer defines: a parameter. The
state also carries what the C text leaves to the environment, the `TableSeed`
that each `hash_table_init` finds, and one thing it does not have: `hashed`,
the arguments of the calls of `BENCODE_GET_SHA1`, in order.

A parsed string is `n` bytes in a buffer of `n` bytes; where the code takes it
for a C string, the byte after the buffer is read as `NUL`.
-/

namespace BtClient

open CLib

/-- `BencodeType`: the union by its `kind`. A string read without success is
all zero; `sha1_digest` is written for a dictionary that is the value of
`info`, and not otherwise. -/
inductive BencodeType where
  | bytestring (len : Nat) (str : Option (List UInt8))
  | integer (asInt : Int)
  | list (values : List BencodeType)
  | dictionary (asDict : HashTable BencodeType) (sha1Digest : Option (List UInt8))
  | error

/-- `Parser`. -/
structure Parser where
  l : Lexer
  curToken : Token := {}
  peekToken : Token := {}
  errors : List String := []
  seeds : Nat → TableSeed
  tables : Nat := 0
  hashed : List (Nat × Nat) := []

/-- A function that works on a `Parser *`. -/
abbrev ParserM := EStateM Fault Parser

/-- The number of a token type, as `%i` prints it. -/
def TokenType.code : TokenType → Nat
  | .illegal => 0
  | .listStart => 1
  | .dictStart => 2
  | .intStart => 3
  | .int => 4
  | .end_ => 5
  | .stringSize => 6
  | .string => 7
  | .colon => 8
  | .endOfFile => 9

/-- `parser_next_token(p)`. -/
def parserNextToken : ParserM Unit := do
  let p ← get
  let (t, l) ← lift (nextToken p.l)
  set { p with curToken := p.peekToken, peekToken := t, l := l }

/-- `parse_error(p, error)`. -/
def parseError (error : String) : ParserM Unit := do
  let p ← get
  if p.errors.length < 500 then set { p with errors := p.errors ++ [error] }
  else throw .outOfBounds

/-- `expect_peek(p, expected)`. -/
def expectPeek (expected : TokenType) : ParserM Bool := do
  let p ← get
  if p.peekToken.type ≠ expected then
    parseError ("ERROR: expected token " ++ toString expected.code)
    return false
  else
    parserNextToken
    return true

/-- `hash_table_init` of the parser's next table. -/
def initTable : ParserM (HashTable BencodeType) := do
  let p ← get
  set { p with tables := p.tables + 1 }
  return hashTableInit (p.seeds p.tables)

/-- `parse_integer(p)`. -/
def parseInteger : ParserM BencodeType := do
  if (← expectPeek .int) = false then
    parseError "Integer initializer is not followed by an integer value"
  let p ← get
  if (← expectPeek .end_) = false then
    parseError "Unterminated int value"
  return .integer p.curToken.asInt

/-- `parse_bytestring(p)`. -/
def parseBytestring : ParserM BencodeType := do
  let p ← get
  lift (check (p.curToken.type = .stringSize))
  let len := sizeOfLong p.curToken.asInt
  if (← expectPeek .colon) = false then
    return .bytestring 0 none
  else if (← expectPeek .string) = false then
    parseError "ERROR: A colon should be followed by a string\n"
    return .bytestring 0 none
  else
    let p ← get
    return .bytestring len (some p.curToken.asString)

/-- The bytes of a buffer up to its first `NUL`. -/
def cString (str : List UInt8) : List UInt8 := str.takeWhile (· ≠ 0)

/-- The literal `"info"`. -/
def infoKey : List UInt8 := [105, 110, 102, 111]

/-- `start_pos` of the value that follows `key`. -/
def infoStart (key : List UInt8) : ParserM Nat := do
  if key = infoKey then
    let p ← get
    lift (check (p.peekToken.type = .dictStart))
    return p.peekToken.pos
  else return 0

/-- What `parse_dict` does between a value and its insertion: for the value of
`info`, the call of `BENCODE_GET_SHA1` and the copy of the digest. -/
def infoFinish (getSha1 : List UInt8 → Nat → Nat → Except Fault (List UInt8)) (key : List UInt8)
    (start : Nat) (value : BencodeType) : ParserM BencodeType := do
  if key = infoKey then
    let p ← get
    lift (check (p.curToken.type = .end_))
    set { p with hashed := p.hashed ++ [(start, p.curToken.pos)] }
    let digest ← lift (getSha1 p.l.buf start p.curToken.pos)
    match value with
    | .dictionary asDict _ => return .dictionary asDict (some digest)
    | value => return value
  else return value

section Parse

variable (getSha1 : List UInt8 → Nat → Nat → Except Fault (List UInt8))

mutual

/-- `parse_item(p)`, with `parse_list` and `parse_dict` up to their loops. -/
def parseItem : Nat → ParserM BencodeType
  | 0 => throw .outOfFuel
  | fuel + 1 => do
    let p ← get
    match p.curToken.type with
    | .intStart => parseInteger
    | .listStart =>
      parserNextToken
      let values ← parseListLoop fuel []
      return .list values
    | .dictStart =>
      let table ← initTable
      parserNextToken
      let table ← parseDictLoop fuel table
      return .dictionary table none
    | .stringSize => parseBytestring
    | _ =>
      parseError "unexpected token"
      return .error

/-- The loop of `parse_list`, with the values appended so far. -/
def parseListLoop : Nat → List BencodeType → ParserM (List BencodeType)
  | 0, _ => throw .outOfFuel
  | fuel + 1, values => do
    let p ← get
    if p.curToken.type = .end_ then return values
    else
      let item ← parseItem fuel
      parserNextToken
      parseListLoop fuel (values ++ [item])

/-- The loop of `parse_dict`, with the table filled so far. -/
def parseDictLoop : Nat → HashTable BencodeType → ParserM (HashTable BencodeType)
  | 0, _ => throw .outOfFuel
  | fuel + 1, table => do
    let p ← get
    if p.curToken.type = .end_ then return table
    else
      match ← parseItem fuel with
      | .bytestring _ none => throw .nullDeref
      | .bytestring _ (some str) =>
        let key := cString str
        let start ← infoStart key
        parserNextToken
        let value ← infoFinish getSha1 key start (← parseItem fuel)
        let table ← lift (hashTableInsert table key value)
        parserNextToken
        parseDictLoop fuel table
      | _ =>
        parseError "Dictionary key is not a string\n"
        return table

end

end Parse

/-- The parser `parse_content` and `new_parser` start from: two tokens read,
everything else zero. -/
def startParser (input : Option Bool) (buf : List UInt8) (seeds : Nat → TableSeed) : Parser where
  l := { input := input, buf := buf }
  seeds := seeds

/-- The start of `parse_content`: two calls of `parser_next_token` on a zeroed
parser, then `parse_item`. -/
def parseBuffer (getSha1 : List UInt8 → Nat → Nat → Except Fault (List UInt8)) (fuel : Nat) :
    ParserM BencodeType := do
  parserNextToken
  parserNextToken
  parseItem getSha1 fuel

end BtClient

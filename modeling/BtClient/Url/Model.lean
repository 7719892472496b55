import BtClient.Lib.CString
import BtClient.Lib.Decimal
import BtClient.Lib.Strtok

/-!
# Tracker URLs (`url/url.c`)

`url_from_string` cuts a copy of its input into tokens at the bytes `:` and
`/`. Whether a port follows the host is looked up in the input itself, where
the byte behind the host still stands.
-/

namespace BtClient

open CLib

/-- `protocol_t`. -/
inductive Protocol where
  | unknown
  | http
  | https
  | udp
  deriving DecidableEq, Repr

/-- `url_t`, with the strings its pointers own. -/
structure Url where
  protocol : Protocol
  host : List UInt8
  port : UInt16
  path : List UInt8
  deriving DecidableEq, Repr

/-- The delimiters `":/"`. -/
def urlDelims : List UInt8 := ascii ":/"

/-- `atoi`. -/
def atoi (mem : List UInt8) : Except Fault Int := strtol mem

/-- The scheme, compared with the start of the copy. -/
def protocolOf (buf : List UInt8) : Protocol :=
  if strncmp 5 (ascii "http:") buf = 0 then .http
  else if strncmp 6 (ascii "https:") buf = 0 then .https
  else if strncmp 6 (ascii "udp://") buf = 0 then .udp
  else .unknown

/-- The port where none is written; a `url_t` starts out as zeros. -/
def defaultPort : Protocol → UInt16
  | .http => 80
  | .https => 443
  | .udp | .unknown => 0

/-- The port, and the tokenizer behind it. -/
def urlPort (protocol : Protocol) (input : List UInt8) (behindHost : Nat) (t : Strtok) :
    Except Fault (UInt16 × Strtok) := do
  if strncmp 1 (ascii ":") (input.drop behindHost) = 0 then
    let t ← strtokR urlDelims t.mem t.save
    let port ← t.pointer
    -- a conversion to `int` and one to `uint16_t` keep the value modulo 2^16
    return (UInt16.ofInt (← atoi (t.mem.drop port)), t)
  else
    return (defaultPort protocol, t)

/-- `url_from_string(input)`, on the memory that starts at `input`. -/
def urlFromString (input : List UInt8) : Except Fault Url := do
  let buf := input.take ((← strlen input) + 1)
  let protocol := protocolOf buf
  let t ← strtokR urlDelims buf 0
  let t ← strtokR urlDelims t.mem t.save
  let host ← t.pointer
  let hostText ← stringAt t.mem host
  let (port, t) ← urlPort protocol input (hostText.length + host) t
  let t ← strtokR urlDelims t.mem t.save
  let path ← match t.token with
    | some path => stringAt t.mem path
    | none => .ok []
  return ⟨protocol, hostText, port, path⟩

end BtClient

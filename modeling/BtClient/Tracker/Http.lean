import BtClient.Lib.CString
import BtClient.Lib.Decimal
import BtClient.Lib.Snprintf
import BtClient.Lib.Strtok
import BtClient.Tracker.Types
import BtClient.Url.Model

/-!
# The HTTP tracker (`tracker/http/tracker_http.c`)

The request is printed piece by piece into a buffer, the response received into
another one, and its header walked with `strtok_r` up to the empty line.
`curl_easy_escape` is a parameter: it belongs to libcurl.

`recv` answers with bytes, with the end of the stream or with an error; what a
run of the receive loop gets is the list of these answers. Where the list ends,
`recv` does not return.
-/

namespace BtClient

open CLib

/-! ## The request -/

/-- `HAS_FLAG(req, flag)`. The macro assigns to `flags`, which keeps the flag and
clears the others. -/
def hasFlag (req : TrackerRequest) (flag : UInt8) : Bool × TrackerRequest :=
  let req := { req with flags := req.flags &&& flag }
  (req.flags != 0, req)

section Request

variable (curlEasyEscape : List UInt8 → List UInt8)

/-- `build_http_url(req, buff, bufsize)`, and the request after it. -/
def buildHttpUrl (req : TrackerRequest) (buff bufsize : Nat) : Printer × TrackerRequest :=
  let p := Printer.start buff bufsize
  let p := p.print (ascii "?info_hash=")
  let p := p.print (curlEasyEscape req.infoHash)
  let p := p.print (ascii "&peer_id=")
  let p := p.print (curlEasyEscape req.peerId)
  let p := p.print (ascii "&port=" ++ decimal req.port.toNat)
  let p := p.print (ascii "&uploaded=" ++ decimal req.uploaded.toNat)
  let p := p.print (ascii "&downloaded=" ++ decimal req.downloaded.toNat)
  let p := p.print (ascii "&left=" ++ decimal req.left.toNat)
  let (compact, req) := hasFlag req compactFlag
  (if compact then p.print (ascii "&compact=1") else p, req)

/-- `build_http_request(url, req, buff, bufsize)`. -/
def buildHttpRequest (url : Url) (req : TrackerRequest) (buff bufsize : Nat) : Printer :=
  let p := Printer.start buff bufsize
  let p := p.print (ascii "GET /" ++ url.path)
  let p := p.call fun buff bufsize => (buildHttpUrl curlEasyEscape req buff bufsize).1
  let p := p.print (ascii " HTTP/1.1\r\n")
  p.print (ascii "Host: " ++ url.host ++ ascii "\r\n\r\n")

end Request

/-! ## Receiving -/

/-- What `recv` on a stream answers. -/
inductive StreamRecv where
  | data (bytes : List UInt8)
  | closed
  | failed (errno : Nat)
  deriving DecidableEq, Repr

/-- `n = recv(sockfd, buf + total_received, sizeof(buf) - total_received, 0)`: `n`,
which is a `size_t`, and the buffer. -/
def httpRecv (answer : StreamRecv) (buf : List UInt8) (totalReceived : Nat) :
    Except Fault (Nat × List UInt8) :=
  match answer with
  | .data bytes =>
    let got := bytes.take (sizeSub buf.length totalReceived)
    if totalReceived + got.length ≤ buf.length then
      .ok (got.length, splice buf totalReceived got)
    else .error .outOfBounds
  | .closed => .ok (0, buf)
  | .failed _ => .ok (2 ^ 64 - 1, buf)

/-- The receive loop of `http_announce`, to the end: the buffer that is parsed,
`none` where `NULL` is returned instead. -/
def httpReceive : List StreamRecv → List UInt8 → Nat → Except Fault (Option (List UInt8))
  | [], _, _ => .error .outOfFuel
  | answer :: answers, buf, totalReceived => do
    let (n, buf) ← httpRecv answer buf totalReceived
    -- `n` is unsigned
    if n < 0 then return none
    let totalReceived := (totalReceived + n) % 2 ^ 64
    if n > 0 then httpReceive answers buf totalReceived
    else
      check (totalReceived < 2048)
      return some buf

/-! ## The header of the response -/

/-- The literals of `parse_tracker_response`. -/
def http11Ok : List UInt8 := ascii "HTTP/1.1 200 OK"

def http10Ok : List UInt8 := ascii "HTTP/1.0 200 OK"

def contentLengthField : List UInt8 := ascii "Content-Length:"

/-- The body of the loop over the header lines, at the line at offset `line`: the
value of a `Content-Length` line is read with a second tokenizer. -/
def readContentLength (mem : List UInt8) (line contentLength : Nat) :
    Except Fault (List UInt8 × Nat) := do
  if strncmp contentLengthField.length (mem.drop line) contentLengthField = 0 then
    let t ← strtokR (ascii ":") mem line
    let t ← strtokR (ascii ":") t.mem t.save
    return (t.mem, ← strtoul (t.mem.drop (← t.pointer)))
  else return (mem, contentLength)

/-- Where the content is found: its offset, the length announced for it, and the
memory the tokenizers leave. -/
structure Content where
  mem : List UInt8
  offset : Nat
  contentLength : Nat
  deriving DecidableEq, Repr

/-- The loop over the header lines. -/
def headerLines : Nat → List UInt8 → (saveptr contentLength : Nat) → Except Fault Content
  | 0, _, _, _ => .error .outOfFuel
  | fuel + 1, mem, saveptr, contentLength => do
    let t ← strtokR (ascii "\n") mem saveptr
    let line ← t.pointer
    let (mem, contentLength) ← readContentLength t.mem line contentLength
    let length ← strlen (mem.drop line)
    if length ≠ 1 then headerLines fuel mem t.save contentLength
    else return ⟨mem, line + length + 1, contentLength⟩

/-- `parse_tracker_response(buf)` up to the call of `parse_content`, `none` where it
returns `NULL`. Every round of the loop uses up a byte, so the fuel is enough. -/
def parseTrackerResponse (buf : List UInt8) : Except Fault (Option Content) := do
  let t ← strtokR (ascii "\n") buf 0
  if strncmp http11Ok.length t.mem http11Ok ≠ 0 ∧ strncmp http10Ok.length t.mem http10Ok ≠ 0 then
    return none
  let t ← strtokR (ascii "\n") t.mem t.save
  return some (← headerLines (buf.length + 1) t.mem t.save 0)

end BtClient

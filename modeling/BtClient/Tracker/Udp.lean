import BtClient.Lib.Endian
import BtClient.Lib.Splice
import BtClient.Lib.Words
import BtClient.Tracker.Types

/-!
# The UDP tracker (`tracker/udp/tracker_udp.c`, `peer_parser.c`)

Packed structs are sent as they lie in memory, so a datagram is the
concatenation of its fields, each stored by a little-endian host. `htonl` is
a swap of four bytes, whatever the width of the field its result goes to.

`udp_announce` runs attempt by attempt. An attempt sends one datagram and waits
for one; what the kernel answers to `send` and `recv`, and whether the
connection id has expired when it is asked, is in the `Attempt`. A datagram
socket sends a datagram whole or not at all.
-/

namespace BtClient

open CLib

/-! ## The datagrams -/

/-- `PROTOCOL_ID`. -/
def protocolId : Nat := 0x41727101980

/-- `htonl` and `ntohl` on a little-endian host. -/
def htonl (x : UInt32) : UInt32 := UInt32.ofNat (byteSwap 4 x.toNat)

/-- `udp_announce_req_t`. -/
structure UdpAnnounceReq where
  connectionId : UInt64
  action : UInt32
  transactionId : UInt32
  infoHash : List UInt8
  peerId : List UInt8
  downloaded : UInt64
  left : UInt64
  uploaded : UInt64
  event : UInt32
  ipAddress : UInt32
  key : UInt32
  numWant : UInt32
  port : UInt16
  deriving DecidableEq, Repr

/-- `fill_announce_request(req, out, connection_id, transaction_id)`. The
argument of `htonl` is a `uint32_t`, and so is its result. -/
def fillAnnounceRequest (req : TrackerRequest) (connectionId : UInt64) (transactionId : UInt32) :
    UdpAnnounceReq where
  connectionId := connectionId
  action := htonl 1
  transactionId := transactionId
  infoHash := req.infoHash
  peerId := req.peerId
  downloaded := (htonl req.downloaded.toUInt32).toUInt64
  left := (htonl req.left.toUInt32).toUInt64
  uploaded := (htonl req.uploaded.toUInt32).toUInt64
  event := htonl (UInt32.ofNat req.event.code)
  ipAddress := 0
  key := 0
  numWant := htonl 50
  port := (htonl req.port.toUInt32).toUInt16

/-- The fields of the request as they lie in memory. -/
def UdpAnnounceReq.fields (r : UdpAnnounceReq) : List (List UInt8) :=
  [leBytes 8 r.connectionId.toNat, leBytes 4 r.action.toNat, leBytes 4 r.transactionId.toNat,
    r.infoHash, r.peerId, leBytes 8 r.downloaded.toNat, leBytes 8 r.left.toNat,
    leBytes 8 r.uploaded.toNat, leBytes 4 r.event.toNat, leBytes 4 r.ipAddress.toNat,
    leBytes 4 r.key.toNat, leBytes 4 r.numWant.toNat, leBytes 2 r.port.toNat]

/-- The datagram of an announce. -/
def UdpAnnounceReq.bytes (r : UdpAnnounceReq) : List UInt8 := r.fields.flatten

/-- The datagram `udp_tryconnect` sends. -/
def connectBytes (transactionId : UInt32) : List UInt8 :=
  beBytes 8 protocolId ++ leBytes 4 (htonl 0).toNat ++ leBytes 4 transactionId.toNat

/-! ## Receiving -/

/-- What `send` answers: the datagram is out, or an `errno`. -/
inductive SendOutcome where
  | sent
  | failed (errno : Nat)
  deriving DecidableEq, Repr

/-- What `recv` answers: a datagram, or an `errno`. -/
inductive RecvOutcome where
  | datagram (bytes : List UInt8)
  | failed (errno : Nat)
  deriving DecidableEq, Repr

/-- `EAGAIN` and `EWOULDBLOCK`. -/
def eagain : Nat := 11

/-- `recv(sockfd, buf, buf_len, 0)`, read as the `size_t` it is assigned to,
and the buffer: a longer datagram is cut off, an error leaves the buffer. -/
def recvInto (outcome : RecvOutcome) (buf : List UInt8) : Nat × List UInt8 :=
  match outcome with
  | .datagram bytes =>
    (min bytes.length buf.length, splice buf 0 (bytes.take buf.length))
  | .failed _ => (2 ^ 64 - 1, buf)

/-- `udp_recv_dgram(sockfd, timeout, buf, buf_len, dgram_size)`: the buffer and
`*dgram_size`, `none` for the return value `-1`. -/
def udpRecvDgram (outcome : RecvOutcome) (buf : List UInt8) : Option (List UInt8 × Nat) :=
  let (n, buf) := recvInto outcome buf
  -- `n` is unsigned
  if n < 0 then none else some (buf, n)

/-- One attempt. `expired` is what `CONNECTION_EXPIRED` says if it is asked. -/
structure Attempt where
  send : SendOutcome
  recv : RecvOutcome
  expired : Bool
  deriving DecidableEq, Repr

/-- `udp_tryconnect` and `udp_tryannounce` with a buffer to receive into: the
buffer and the size of the datagram, or the `errno` with the return value
`-1`. -/
def udpTry (a : Attempt) (buf : List UInt8) : Except Nat (List UInt8 × Nat) :=
  match a.send with
  | .failed errno => .error errno
  | .sent =>
    match udpRecvDgram a.recv buf with
    | some r => .ok r
    | none => .error (match a.recv with | .failed errno => errno | .datagram _ => 0)

/-- `parse_peers(buf, peer_count)`. -/
def parsePeers (buf : List UInt8) (peerCount : Nat) : List Peer :=
  (List.range peerCount).map fun i => ⟨slice buf (6 * i) 4, slice buf (6 * i + 4) 2⟩

/-! ## `udp_announce` -/

/-- Where `udp_announce` stands; `n` counts the attempts as the variable does.
`aborted` is a failed assertion. -/
inductive UdpPc where
  | connecting (n : Nat)
  | announcing (n : Nat) (connectionId : UInt64)
  | done (response : Option TrackerResponse)
  | aborted
  deriving DecidableEq, Repr

/-- What an attempt sends. -/
def UdpPc.datagram (req : TrackerRequest) (transactionId : UInt32) : UdpPc → List UInt8
  | .announcing _ connectionId => (fillAnnounceRequest req connectionId transactionId).bytes
  | _ => connectBytes transactionId

/-- The body of both `while` loops: an attempt has failed, and `n` has been
counted up. -/
def retry (n errno : Nat) (again : UdpPc) : UdpPc :=
  if n = 8 then .done none
  else if errno ≠ eagain then .done none
  else again

/-- A connect response of the right size. -/
def connectReply (transactionId : UInt32) (res : List UInt8) (dgramSize : Nat) : UdpPc :=
  if dgramSize ≠ 16 then .aborted
  else if leBytes 4 transactionId.toNat ≠ slice res 4 4 then .done none
  else if ofLe (slice res 0 4) ≠ 0 then .done none
  else .announcing 0 (UInt64.ofNat (ofLe (slice res 8 8)))

/-- The response built from the buffer. -/
def buildResponse (buf : List UInt8) (numPeers : Nat) : TrackerResponse where
  interval := ofBe32 (slice buf 8 4)
  complete := ofBe32 (slice buf 16 4)
  incomplete := ofBe32 (slice buf 12 4)
  peers := parsePeers (buf.drop 20) numPeers

/-- An announce response. -/
def announceReply (transactionId : UInt32) (buf : List UInt8) (dgramSize : Nat) : UdpPc :=
  if dgramSize < 20 then .done none
  else if ofBe32 (slice buf 0 4) = 3 then .done none
  else if slice buf 4 4 ≠ leBytes 4 transactionId.toNat then .done none
  else if sizeSub dgramSize 20 % 6 ≠ 0 then .aborted
  else .done (some (buildResponse buf (sizeSub dgramSize 20 / 6)))

/-- One attempt of `udp_announce`; `none` once it has returned. The `res` of a
first attempt is not initialised, and nothing reads it unless a datagram has
filled it. -/
def udpStep (transactionId : UInt32) (pc : UdpPc) (a : Attempt) : Option UdpPc :=
  match pc with
  | .connecting n =>
    match udpTry a (List.replicate 16 0) with
    | .error errno => some (retry (n + 1) errno (.connecting (n + 1)))
    | .ok (res, dgramSize) => some (connectReply transactionId res dgramSize)
  | .announcing n connectionId =>
    match udpTry a (List.replicate 2048 0) with
    | .error errno =>
      -- `goto reconnect` does not touch `n`
      some (retry (n + 1) errno
        (if a.expired then .connecting (n + 1) else .announcing (n + 1) connectionId))
    | .ok (buf, dgramSize) => some (announceReply transactionId buf dgramSize)
  | .done _ | .aborted => none

end BtClient

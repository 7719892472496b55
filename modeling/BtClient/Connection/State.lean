import BtClient.Connection.PieceMsg
import BtClient.Connection.Selection
import BtClient.Lib.Endian
import BtClient.Lib.MessageQueue
import BtClient.Queue.Model

/-!
# A connection's own state (`peer-connection/peer_connection.c`)

`conn_state_t`, and the calls the loop of `peer_connection` makes on it:
`service_have_events`, `process_msg`, `service_peer_requests` and
`send_requests`. `PieceMsg` has what a block does; here are the other messages.

A bitfield is a heap buffer, and its length need not cover the piece index it
is asked for: `peer_have` is allocated with a size cut to `uint16_t`. So a bit
outside the buffer is the fault `outOfBounds`, for a load and for a store. What
`malloc` leaves in `peer_have` is an argument of `connStateInit`. `peer_wants`,
which nothing reads, is left out.
-/

namespace BtClient

open CLib

/-! ## Bitfields -/

/-- A load `BITFIELD_ISSET(idx, buf)` from a buffer that may be too short. -/
def bitfieldLoad (idx : Nat) (buf : List UInt8) : Except Fault Bool :=
  if idx / 8 < buf.length then .ok (bitfieldIsset idx buf) else .error .outOfBounds

/-- `BITFIELD_SET(idx, buf)`. -/
def bitfieldSet (idx : Nat) (buf : List UInt8) : Except Fault (List UInt8) :=
  if idx / 8 < buf.length then
    .ok (buf.set (idx / 8) (buf.getD (idx / 8) 0 ||| UInt8.ofNat (1 <<< (8 - idx % 8 - 1))))
  else .error .outOfBounds

/-- The loop of `make_bitfield` over `piece_states` from index `i` on. -/
def makeBitfieldLoop : List PieceState → Nat → List UInt8 → Except Fault (List UInt8)
  | [], _, ret => .ok ret
  | state :: states, i, ret => do
    let ret ← if state = .stateHave then bitfieldSet i ret else .ok ret
    makeBitfieldLoop states (i + 1) ret

/-- `make_bitfield(torrent)`. -/
def makeBitfield (torrent : Metainfo) (sh : Shared) : Except Fault (List UInt8) :=
  makeBitfieldLoop sh.pieceStates 0
    (List.replicate (bitfieldNumBytes torrent.info.numPieces) 0)

/-! ## The state -/

/-- `peer_state_t`. -/
structure PeerState where
  choked : Bool
  interested : Bool
  deriving DecidableEq, Repr

/-- `conn_state_t`: `localState` and `remoteState` are its `local` and `remote`. -/
structure ConnState where
  localState : PeerState
  remoteState : PeerState
  peerHave : List UInt8
  localHave : List UInt8
  bitlen : Nat
  blocksSent : UInt32
  blockRecvd : UInt32
  localRequests : List PieceRequest
  peerRequests : RequestQueue.Queue
  deriving DecidableEq, Repr

/-- `sizeof(request_msg_t)`. -/
def requestMsgSize : Nat := 12

/-- `conn_state_init(torrent)`; byte `k` of the block `malloc` returns for
`peer_have` reads `fill k`. -/
def connStateInit (fill : Nat → UInt8) (torrent : Metainfo) (sh : Shared) :
    Except Fault ConnState := do
  let bitlen := torrent.info.numPieces
  let numBytes := bitfieldNumBytes bitlen % 2 ^ 16
  let localHave ← makeBitfield torrent sh
  return { localState := ⟨true, false⟩
           remoteState := ⟨true, false⟩
           peerHave := (List.range numBytes).map fill
           localHave := localHave
           bitlen := bitlen
           blocksSent := 0
           blockRecvd := 0
           localRequests := []
           peerRequests := RequestQueue.queueInit requestMsgSize 16 }

/-! ## Short messages -/

/-- A message without a payload and, if it was sent, the state after it. -/
def sendThenUpdate (torrent : Metainfo) (msg : PeerMsg) (update : ConnState → ConnState)
    (sock : Socket) (state : ConnState) : Except Fault (Socket × ConnState) := do
  let (ok, sock) ← peerMsgSend torrent msg sock
  return (sock, if ok then update state else state)

/-- `unchoke(sockfd, state, torrent)`. -/
def unchoke (torrent : Metainfo) : Socket → ConnState → Except Fault (Socket × ConnState) :=
  sendThenUpdate torrent .unchoke fun state =>
    { state with remoteState := { state.remoteState with choked := false } }

/-- `show_interested(sockfd, state, torrent)`. -/
def showInterested (torrent : Metainfo) : Socket → ConnState → Except Fault (Socket × ConnState) :=
  sendThenUpdate torrent .interested fun state =>
    { state with localState := { state.localState with interested := true } }

/-- `show_not_interested(sockfd, state, torrent)`. -/
def showNotInterested (torrent : Metainfo) :
    Socket → ConnState → Except Fault (Socket × ConnState) :=
  sendThenUpdate torrent .notInterested fun state =>
    { state with localState := { state.localState with interested := false } }

/-! ## `service_have_events` -/

/-- `service_have_events(sockfd, queue, torrent, havebf)`, with the messages
it handed to `peer_msg_send`. -/
def serviceHaveEvents (torrent : Metainfo) (queue : MsgQueue) (sock : Socket)
    (havebf : List UInt8) : Except Fault (MsgQueue × Socket × List UInt8 × List PeerMsg) :=
  match _h : mqReceive queue 4 with
  | .error _ => .ok (queue, sock, havebf, [])
  | .ok (bytes, queue') =>
    if bytes.length = 4 then do
      let index := UInt32.ofNat (ofLe bytes)
      let havebf ← bitfieldSet index.toNat havebf
      let (ok, sock) ← peerMsgSend torrent (.haveMsg index) sock
      if ok then
        let (queue, sock, havebf, sent) ← serviceHaveEvents torrent queue' sock havebf
        return (queue, sock, havebf, .haveMsg index :: sent)
      else return (queue', sock, havebf, [.haveMsg index])
    -- a message of another size ends the loop, but it has been taken
    else .ok (queue', sock, havebf, [])
termination_by queue.messages.length
decreasing_by
  rw [(mqReceive_eq_ok _h).1, List.length_cons]
  omega

/-! ## `process_msg` -/

/-- A `request_msg_t` in memory. -/
def requestMsgBytes (request : RequestMsg) : List UInt8 :=
  leBytes 4 request.index.toNat ++ leBytes 4 request.begin.toNat ++
    leBytes 4 request.length.toNat

/-- The loop of the `MSG_BITFIELD` case, over `piece_states` from index `i` on. -/
def offersMissing (peerHave : List UInt8) : List PieceState → Nat → Bool
  | [], _ => false
  | state :: states, i =>
    (state != .stateHave && bitfieldIsset i peerHave) || offersMissing peerHave states (i + 1)

/-- The `if` of the `MSG_HAVE` case. -/
def haveInterest (torrent : Metainfo) (index : UInt32) (sock : Socket) (state : ConnState) :
    Except Fault (Socket × ConnState) :=
  if state.localState.interested then .ok (sock, state)
  else do
    let isset ← bitfieldLoad index.toNat state.localHave
    if isset then showInterested torrent sock state else return (sock, state)

/-- The `MSG_HAVE` case. -/
def processHave (torrent : Metainfo) (index : UInt32) (sock : Socket) (state : ConnState) :
    Except Fault (Socket × ConnState) := do
  let (sock, state) ← haveInterest torrent index sock state
  let peerHave ← bitfieldSet index.toNat state.peerHave
  return (sock, { state with peerHave := peerHave })

/-- The `MSG_BITFIELD` case. -/
def processBitfield (torrent : Metainfo) (bits : List UInt8) (sock : Socket) (state : ConnState)
    (sh : Shared) : Except Fault (Socket × ConnState) := do
  check (bits.length = bitfieldNumBytes state.bitlen)
  let peerHave ← RequestQueue.memWrite state.peerHave 0 bits
  let state := { state with peerHave := peerHave }
  if offersMissing peerHave sh.pieceStates 0 then showInterested torrent sock state
  else return (sock, state)

/-- `process_msg(sockfd, msg, state, torrent)`; `realloc` is the answer an
`enqueue` into a full queue gets. -/
def processMsg (sha1 : List UInt8 → List UInt8) (torrent : Metainfo)
    (realloc : RequestQueue.Realloc) (disk : Disk) (msg : PeerMsg) (sock : Socket)
    (state : ConnState) (sh : Shared) :
    Except Fault (Socket × ConnState × Shared × List Event) :=
  match msg with
  | .keepalive | .cancel | .port _ => .ok (sock, state, sh, [])
  | .choke =>
    .ok (sock, { state with localState := { state.localState with choked := true } }, sh, [])
  -- no `break` after the assignment: the case runs into `MSG_INTERESTED`
  | .unchoke =>
    .ok (sock, { state with localState := { state.localState with choked := false }
                            remoteState := { state.remoteState with interested := true } }, sh, [])
  | .interested =>
    .ok (sock, { state with remoteState := { state.remoteState with interested := true } }, sh, [])
  | .notInterested =>
    .ok (sock, { state with remoteState := { state.remoteState with interested := false } }, sh, [])
  | .haveMsg index => do
    let (sock, state) ← processHave torrent index sock state
    return (sock, state, sh, [])
  | .bitfield bits => do
    let (sock, state) ← processBitfield torrent bits sock state sh
    return (sock, state, sh, [])
  | .request request => do
    match ← RequestQueue.enqueue realloc state.peerRequests (requestMsgBytes request) with
    | none => return (sock, state, sh, [])
    | some queue => return (sock, { state with peerRequests := queue }, sh, [])
  | .piece piece => do
    let (requests, sock, sh, events) ←
      processPieceMsg sha1 torrent disk piece state.localRequests sock sh
    return (sock, { state with localRequests := requests, blockRecvd := state.blockRecvd + 1 },
      sh, events)

/-! ## `service_peer_requests` -/

/-- The `request_msg_t` of an entry of `peer_requests`. -/
def ofRequestMsgBytes (bytes : List UInt8) : RequestMsg where
  index := UInt32.ofNat (ofLe (slice bytes 0 4))
  begin := UInt32.ofNat (ofLe (slice bytes 4 4))
  length := UInt32.ofNat (ofLe (slice bytes 8 4))

theorem dequeue_size {q q' : RequestQueue.Queue} {out : List UInt8}
    (h : RequestQueue.dequeue q = .ok (some (out, q'))) : q'.size < q.size := by
  unfold RequestQueue.dequeue at h
  by_cases hzero : q.size = 0
  · rw [if_pos hzero] at h
    cases h
  · rw [if_neg hzero] at h
    obtain ⟨_, -, h⟩ := (seq_returns_iff _ _ _).mp h
    obtain ⟨_, -, h⟩ := (seq_returns_iff _ _ _).mp h
    cases h
    show q.size - 1 < q.size
    omega

/-- `service_peer_requests(sockfd, state, torrent)`. -/
def servicePeerRequests (torrent : Metainfo) (sock : Socket) (state : ConnState) :
    Except Fault (Socket × ConnState) :=
  match _h : RequestQueue.dequeue state.peerRequests with
  | .error e => .error e
  | .ok none => .ok (sock, state)
  | .ok (some (out, queue)) => do
    let request := ofRequestMsgBytes out
    let (ok, sock) ←
      peerMsgSend torrent (.piece ⟨request.index, request.begin, request.length.toNat⟩) sock
    if ok then
      servicePeerRequests torrent sock
        { state with peerRequests := queue, blocksSent := state.blocksSent + 1 }
    else return (sock, { state with peerRequests := queue })
termination_by state.peerRequests.size
decreasing_by exact dequeue_size _h

/-! ## `send_requests` -/

/-- The inner loop of `send_requests`: whether every send returned `0`, the
socket, and the messages handed to `peer_msg_send`. -/
def sendBlockRequests (torrent : Metainfo) (pieceIndex : UInt32) :
    List BlockRequest → Socket → Except Fault (Bool × Socket × List PeerMsg)
  | [], sock => .ok (true, sock, [])
  | br :: rest, sock => do
    let toSend : PeerMsg := .request ⟨pieceIndex, UInt32.ofNat br.begin, UInt32.ofNat br.len⟩
    let (ok, sock) ← peerMsgSend torrent toSend sock
    if ok then
      let (ok, sock, sent) ← sendBlockRequests torrent pieceIndex rest sock
      return (ok, sock, toSend :: sent)
    else return (false, sock, [toSend])

/-- What `send_requests` did: whether it returned `0`, what it left behind and
the messages it handed to `peer_msg_send`. -/
structure SentRequests where
  ok : Bool
  sock : Socket
  state : ConnState
  sh : Shared
  sent : List PeerMsg

/-- `send_requests(sockfd, state, torrent, last_sent_request_time)`. With one
outstanding request allowed, the loop has at most one round. -/
def sendRequests (torrent : Metainfo) (sock : Socket) (state : ConnState) (sh : Shared) :
    Except Fault SentRequests :=
  if 1 ≤ state.localRequests.length then .ok ⟨true, sock, state, sh, []⟩
  else do
    match ← torrentNextRequestLoad sh state.peerHave with
    | (none, sh) =>
      if state.localState.interested then
        let (sock, state) ← showNotInterested torrent sock state
        return ⟨true, sock, state, sh, [.notInterested]⟩
      else return ⟨true, sock, state, sh, []⟩
    | (some index, sh) =>
      let request ← pieceRequestCreate torrent (UInt32.ofNat index)
      let state := { state with localRequests := state.localRequests ++ [request] }
      let (ok, sock, sent) ←
        sendBlockRequests torrent request.pieceIndex request.blockRequests sock
      return ⟨ok, sock, state, sh, sent⟩

end BtClient

import BtClient.Peer.Socket
import BtClient.PieceRequest.Model

/-!
# Peer wire messages (`peer-msg/peer_msg.c`)

`peer_msg_t` is a type tag with a union; here each tag carries its own
payload. `peerMsgSend` and `peerMsgRecv` follow the source call by call: every
`send_buff` and `peer_recv` is one `sendThen` or `recvThen`, whose failure is
the return value `-1`.

The receive side of `MSG_PIECE` stores the block while it reads it, straight
into the mapped files, so `peerMsgRecv` takes the `Disk` and returns it. What
`peer_recv` stored before it failed stays stored.
-/

namespace BtClient

open CLib

/-- `BITFIELD_NUM_BYTES(len)`. -/
def bitfieldNumBytes (len : Nat) : Nat := len / 8 + (if len % 8 = 0 then 0 else 1)

/-- `msg_type_t`, without the bound `MSG_MAX`. -/
inductive MsgType where
  | msgChoke
  | msgUnchoke
  | msgInterested
  | msgNotInterested
  | msgHave
  | msgBitfield
  | msgRequest
  | msgPiece
  | msgCancel
  | msgPort
  | msgKeepalive
  deriving DecidableEq, Repr

/-- The number of the enumerator. -/
def MsgType.code : MsgType → UInt8
  | .msgChoke => 0
  | .msgUnchoke => 1
  | .msgInterested => 2
  | .msgNotInterested => 3
  | .msgHave => 4
  | .msgBitfield => 5
  | .msgRequest => 6
  | .msgPiece => 7
  | .msgCancel => 8
  | .msgPort => 9
  | .msgKeepalive => 10

/-- The enumerator of a type byte; `none` from `MSG_MAX` on. -/
def MsgType.ofCode (code : UInt8) : Option MsgType :=
  match code.toNat with
  | 0 => some .msgChoke
  | 1 => some .msgUnchoke
  | 2 => some .msgInterested
  | 3 => some .msgNotInterested
  | 4 => some .msgHave
  | 5 => some .msgBitfield
  | 6 => some .msgRequest
  | 7 => some .msgPiece
  | 8 => some .msgCancel
  | 9 => some .msgPort
  | 10 => some .msgKeepalive
  | _ => none

@[simp] theorem MsgType.ofCode_code (type : MsgType) : MsgType.ofCode type.code = some type := by
  cases type <;> rfl

/-- `request_msg_t`. -/
structure RequestMsg where
  index : UInt32
  begin : UInt32
  length : UInt32
  deriving DecidableEq, Repr

/-- `piece_msg_t`. -/
structure PieceMsg where
  index : UInt32
  begin : UInt32
  blocklen : Nat
  deriving DecidableEq, Repr

/-- `peer_msg_t`. -/
inductive PeerMsg where
  | keepalive
  | choke
  | unchoke
  | interested
  | notInterested
  | haveMsg (index : UInt32)
  | bitfield (bits : List UInt8)
  | request (request : RequestMsg)
  | piece (piece : PieceMsg)
  | cancel
  | port (listenPort : UInt32)
  deriving DecidableEq, Repr

/-- The tag of a message. -/
def PeerMsg.type : PeerMsg → MsgType
  | .keepalive => .msgKeepalive
  | .choke => .msgChoke
  | .unchoke => .msgUnchoke
  | .interested => .msgInterested
  | .notInterested => .msgNotInterested
  | .haveMsg _ => .msgHave
  | .bitfield _ => .msgBitfield
  | .request _ => .msgRequest
  | .piece _ => .msgPiece
  | .cancel => .msgCancel
  | .port _ => .msgPort

/-- `msgbuf_len(type, torrent)`: the `size_t` sum is returned as `uint32_t`. -/
def msgbufLen (type : MsgType) (torrent : Metainfo) : Nat :=
  match type with
  | .msgKeepalive => 0
  | .msgPiece => 1 + 2 * 4 + peerRequestSize
  | .msgBitfield => (1 + bitfieldNumBytes torrent.info.numPieces) % 2 ^ 32
  | .msgRequest => 1 + 3 * 4
  | .msgHave => 1 + 4
  | .msgPort => 1 + 4
  | _ => 1

/-! ## Sending -/

/-- `if (send_buff(sockfd, buff, n) < 0) return -1;` and what follows. -/
def sendThen (s : Socket) (buff : List UInt8) (k : Socket → Except Fault (Bool × Socket)) :
    Except Fault (Bool × Socket) :=
  match sendBuff s buff with
  | (false, s') => .ok (false, s')
  | (true, s') => k s'

/-- The `switch` of `peer_msg_send`, after the length and the type byte. -/
def sendPayload (torrent : Metainfo) (msg : PeerMsg) (s : Socket) : Except Fault (Bool × Socket) :=
  match msg with
  | .keepalive =>
    sendThen s [] fun s => do
      check (msgbufLen msg.type torrent = 1)
      return (true, s)
  | .choke | .unchoke | .interested | .notInterested => do
    check (msgbufLen msg.type torrent = 1)
    return (true, s)
  | .piece _ => .ok (true, s)
  | .bitfield bits => .ok (sendBuff s bits)
  | .request r =>
    sendThen s (be32 r.index) fun s =>
      sendThen s (be32 r.begin) fun s =>
        sendThen s (be32 r.length) fun s => .ok (true, s)
  | .haveMsg index => .ok (sendBuff s (be32 index))
  | .port listenPort => .ok (sendBuff s (be32 listenPort))
  | .cancel => .ok (false, s)

/-- `peer_msg_send(sockfd, msg, torrent)`: whether it returned `0`. -/
def peerMsgSend (torrent : Metainfo) (msg : PeerMsg) (s : Socket) : Except Fault (Bool × Socket) :=
  sendThen s (be32 (UInt32.ofNat (msgbufLen msg.type torrent))) fun s =>
    if msg.type = .msgKeepalive then .ok (true, s)
    else sendThen s [msg.type.code] (sendPayload torrent msg)

/-- `peer_msg_send` for each message in turn, up to the first `-1`. -/
def peerMsgSends (torrent : Metainfo) : List PeerMsg → Socket → Except Fault (Bool × Socket)
  | [], s => .ok (true, s)
  | msg :: msgs, s => do
    let (ok, s) ← peerMsgSend torrent msg s
    if ok then peerMsgSends torrent msgs s else return (false, s)

/-! ## Receiving -/

/-- `valid_len(type, torrent, len)`. -/
def validLen (type : MsgType) (torrent : Metainfo) (len : Nat) : Bool :=
  if type = .msgPiece then
    1 + 2 * 4 + 1 ≤ len && len ≤ 1 + 2 * 4 + peerRequestSize
  else len == msgbufLen type torrent

/-- The result of a receive: the message (`none` is the return value `-1`),
the socket and the mapped files after it. -/
abbrev RecvResult (α : Type) := Option α × Socket × Disk

/-- `if (peer_recv(sockfd, buf, len) < 0) return -1;` and what follows. -/
def recvThen {α : Type} (s : Socket) (disk : Disk) (len : Nat)
    (k : List UInt8 → Socket → Except Fault (RecvResult α)) : Except Fault (RecvResult α) :=
  let r := peerRecv s len
  if r.ok then k r.bytes r.sock else .ok (none, r.sock, disk)

/-- The loop of `peer_msg_recv_piece` over the slices of a block. -/
def recvFilemems : List FileMem → Socket → Disk → Bool × Socket × Disk
  | [], s, disk => (true, s, disk)
  | mem :: mems, s, disk =>
    let r := peerRecv s mem.size
    let disk := writeSeg disk mem r.bytes
    if r.ok then recvFilemems mems r.sock disk else (false, r.sock, disk)

/-- `peer_msg_recv_piece` once the begin field is there: find the block and
fill its slices. -/
def recvBlock (torrent : Metainfo) (disk : Disk) (index : UInt32) (left : Nat)
    (bytes : List UInt8) (s : Socket) : Except Fault (RecvResult PieceMsg) := do
  let begin := ofBe32 bytes
  let left := wordSub left 4
  let pr ← pieceRequestCreate torrent index
  match pieceRequestBlockAt pr begin.toNat with
  | none => return (none, s, disk)
  | some br =>
    let (ok, s, disk) := recvFilemems br.filemems s disk
    return (if ok then some ⟨index, begin, left⟩ else none, s, disk)

/-- `peer_msg_recv_piece` once the index field is there. -/
def recvBegin (torrent : Metainfo) (disk : Disk) (left : Nat) (bytes : List UInt8) (s : Socket) :
    Except Fault (RecvResult PieceMsg) :=
  recvThen s disk 4 (recvBlock torrent disk (ofBe32 bytes) (wordSub left 4))

/-- `peer_msg_recv_piece(sockfd, out, torrent, len)`. -/
def peerMsgRecvPiece (torrent : Metainfo) (len : Nat) (s : Socket) (disk : Disk) :
    Except Fault (RecvResult PieceMsg) :=
  recvThen s disk 4 (recvBegin torrent disk len)

/-- The `switch` of `peer_msg_recv`, after the length and the type byte. -/
def recvPayload (torrent : Metainfo) (type : MsgType) (left : Nat) (s : Socket) (disk : Disk) :
    Except Fault (RecvResult PeerMsg) :=
  match type with
  | .msgChoke => do check (left = 0); return (some .choke, s, disk)
  | .msgUnchoke => do check (left = 0); return (some .unchoke, s, disk)
  | .msgInterested => do check (left = 0); return (some .interested, s, disk)
  | .msgNotInterested => do check (left = 0); return (some .notInterested, s, disk)
  | .msgPiece => do
    check (left > 0)
    let (piece, s, disk) ← peerMsgRecvPiece torrent left s disk
    return (piece.map .piece, s, disk)
  | .msgBitfield =>
    recvThen s disk left fun bytes s => .ok (some (.bitfield bytes), s, disk)
  | .msgRequest =>
    recvThen s disk left fun bytes s => do
      check (left = 3 * 4)
      return (some (.request ⟨ofBe32 (slice bytes 0 4), ofBe32 (slice bytes 4 4),
        ofBe32 (slice bytes 8 4)⟩), s, disk)
  | .msgHave => do
    check (left = 4)
    recvThen s disk left fun bytes s => .ok (some (.haveMsg (ofBe32 bytes)), s, disk)
  | .msgPort => do
    check (left = 4)
    recvThen s disk left fun bytes s => .ok (some (.port (ofBe32 bytes)), s, disk)
  | .msgCancel => .ok (none, s, disk)
  | .msgKeepalive => .ok (none, s, disk)

/-- `peer_msg_recv` once the type byte is there. -/
def recvTyped (torrent : Metainfo) (disk : Disk) (len : Nat) (bytes : List UInt8) (s : Socket) :
    Except Fault (RecvResult PeerMsg) :=
  match MsgType.ofCode (bytes.getD 0 0) with
  | none => .ok (none, s, disk)
  | some type =>
    if validLen type torrent len then recvPayload torrent type (wordSub len 1) s disk
    else .ok (none, s, disk)

/-- `peer_msg_recv` once the length word is there. -/
def recvBody (torrent : Metainfo) (disk : Disk) (bytes : List UInt8) (s : Socket) :
    Except Fault (RecvResult PeerMsg) :=
  let len := (ofBe32 bytes).toNat
  if len = 0 then .ok (some .keepalive, s, disk)
  else recvThen s disk 1 (recvTyped torrent disk len)

/-- `peer_msg_recv(sockfd, out, torrent)`. -/
def peerMsgRecv (torrent : Metainfo) (s : Socket) (disk : Disk) :
    Except Fault (RecvResult PeerMsg) :=
  recvThen s disk 4 (recvBody torrent disk)

/-- `peer_msg_recv` called `n` times, up to the first `-1`: what the calls
returned, in order. -/
def peerMsgRecvs (torrent : Metainfo) :
    Nat → Socket → Disk → Except Fault (List (Option PeerMsg) × Socket × Disk)
  | 0, s, disk => .ok ([], s, disk)
  | n + 1, s, disk => do
    match ← peerMsgRecv torrent s disk with
    | (none, s, disk) => return ([none], s, disk)
    | (some msg, s, disk) =>
      let (msgs, s, disk) ← peerMsgRecvs torrent n s disk
      return (some msg :: msgs, s, disk)

end BtClient

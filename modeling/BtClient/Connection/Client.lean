import BtClient.Connection.PieceMsg
import BtClient.Lib.Transition

/-!
# The client, step by step

The sequential model of `PieceMsg` says what one connection does when it is
alone. Here any number of connections run at once over one torrent and one set
of mapped files. A step is what a thread does without giving way: one `recv`
into a mapped file, one `EVP_DigestUpdate`, one critical section, one round of
the loop over `local_requests`. Peers are not modelled: what they send is in
the actions, so every byte sequence and every timing is some run.

Only blocks touch the files and the piece states, so the other messages are
left out. `verified` is not in the program: it lists the bytes that each
successful `torrent_sha1_verify` has hashed.
-/

namespace BtClient

open CLib

/-- Where a connection stands, with the local variables that matter there.
`i` is the position in `local_requests`. -/
inductive ConnPc where
  | idle
  | receiving (msg : PieceMsg) (mems : List FileMem)
  | scanning (msg : PieceMsg) (i : Nat)
  | hashing (msg : PieceMsg) (i : Nat) (fed : List UInt8) (mems : List FileMem)
  | checked (msg : PieceMsg) (i : Nat) (valid : Bool)
  | finishing (msg : PieceMsg) (i : Nat) (completed : Bool)
  | closed
  deriving DecidableEq, Repr

/-- One connection: its `local_requests` and its place. -/
structure Connection where
  localRequests : List PieceRequest
  pc : ConnPc
  deriving DecidableEq, Repr

/-- The whole client. -/
structure Client where
  sh : Shared
  disk : Disk
  conns : List Connection
  aborted : Bool
  verified : List (UInt32 × List UInt8)
  deriving DecidableEq, Repr

/-- The steps of a connection. `frame` is the head of a `MSG_PIECE`, `store`
one chunk of its payload. -/
inductive ConnAction where
  | sendRequests (peerHaveBf : List UInt8)
  | frame (msg : PieceMsg)
  | store (bytes : List UInt8)
  | disconnect
  | scan
  | hash
  | record
  | finish
  deriving DecidableEq, Repr

/-- The steps of the client: a new connection, or a step of connection `c`. -/
inductive ClientAction where
  | connect
  | conn (c : Nat) (a : ConnAction)
  deriving DecidableEq, Repr

/-- The slices `torrent_sha1_verify` hashes for a piece, in order. -/
def requestMems (pr : PieceRequest) : List FileMem :=
  pr.blockRequests.flatMap BlockRequest.filemems

/-- `send_requests`, with the one outstanding request it allows. -/
def Client.sendRequests (torrent : Metainfo) (w : Client) (conn : Connection)
    (peerHaveBf : List UInt8) : Client × Connection :=
  if 1 ≤ conn.localRequests.length then (w, conn)
  else
    match torrentNextRequest w.sh peerHaveBf with
    | (none, sh) => ({ w with sh := sh }, conn)
    | (some index, sh) =>
      match pieceRequestCreate torrent (UInt32.ofNat index) with
      | .error _ => ({ w with sh := sh, aborted := true }, conn)
      | .ok pr => ({ w with sh := sh }, { conn with localRequests := conn.localRequests ++ [pr] })

/-- `peer_msg_recv` up to the payload of a `MSG_PIECE`. -/
def Client.frame (torrent : Metainfo) (w : Client) (conn : Connection) (msg : PieceMsg) :
    Client × Connection :=
  if validLen .msgPiece torrent (9 + msg.blocklen) then
    match pieceRequestCreate torrent msg.index with
    | .error _ => ({ w with aborted := true }, conn)
    | .ok pr =>
      match pieceRequestBlockAt pr msg.begin.toNat with
      | none => (w, { conn with pc := .closed })
      | some br => (w, { conn with pc := .receiving msg br.filemems })
  else (w, { conn with pc := .closed })

/-- What is left of the slices after a chunk of `n` bytes. -/
def advanceMems (mem : FileMem) (mems : List FileMem) (n : Nat) : List FileMem :=
  if n = mem.size then mems else ⟨mem.buf, mem.off + n, mem.size - n⟩ :: mems

/-- One round of the loop of `process_piece_msg`. -/
def Client.scan (torrent : Metainfo) (w : Client) (conn : Connection) (msg : PieceMsg) (i : Nat) :
    Client × Connection :=
  match conn.localRequests[i]? with
  | none => (w, { conn with pc := .idle })
  | some curr =>
    if curr.pieceIndex = msg.index then
      let curr := countBlock msg curr
      let requests := conn.localRequests.set i curr
      if curr.blocksLeft = 0 then
        if curr.pieceIndex.toNat < torrent.info.numPieces then
          match pieceRequestCreate torrent curr.pieceIndex with
          | .error _ => ({ w with aborted := true }, conn)
          | .ok pr => (w, ⟨requests, .hashing msg i [] (requestMems pr)⟩)
        else ({ w with aborted := true }, conn)
      else (w, ⟨requests, .scanning msg (i + 1)⟩)
    else (w, { conn with pc := .scanning msg (i + 1) })

/-- The critical section that records the outcome of a verification. -/
def Client.record (torrent : Metainfo) (w : Client) (conn : Connection) (msg : PieceMsg) (i : Nat)
    (valid : Bool) : Client × Connection :=
  if valid then
    match completionSection torrent.info.numPieces w.sh msg.index.toNat with
    | .error _ => ({ w with aborted := true }, conn)
    | .ok (sh, completed) => ({ w with sh := sh }, { conn with pc := .finishing msg i completed })
  else
    ({ w with sh := verifyFailedSection w.sh msg.index.toNat },
      { conn with pc := .scanning msg (i + 1) })

/-- One step of a connection, as far as it can be seen from its own place. -/
def Client.connStep (sha1 : List UInt8 → List UInt8) (torrent : Metainfo) (w : Client)
    (conn : Connection) (a : ConnAction) : Option (Client × Connection) :=
  match conn.pc, a with
  | .idle, .sendRequests bf => some (w.sendRequests torrent conn bf)
  | .idle, .frame msg => some (w.frame torrent conn msg)
  | .receiving msg (mem :: mems), .store bytes =>
    if bytes.length ≤ mem.size ∧ (bytes = [] → mem.size = 0) then
      some ({ w with disk := writeSeg w.disk mem bytes },
        { conn with pc := .receiving msg (advanceMems mem mems bytes.length) })
    else none
  | .receiving _ _, .disconnect => some (w, { conn with pc := .closed })
  | .receiving msg [], .scan => some (w, { conn with pc := .scanning msg 0 })
  | .scanning msg i, .scan => some (w.scan torrent conn msg i)
  | .hashing msg i fed (mem :: mems), .hash =>
    some (w, { conn with pc := .hashing msg i (fed ++ readSeg w.disk mem) mems })
  | .hashing msg i fed [], .hash =>
    let valid := torrent.info.pieces.getD msg.index.toNat [] == sha1 fed
    some ({ w with verified := if valid then w.verified ++ [(msg.index, fed)] else w.verified },
      { conn with pc := .checked msg i valid })
  | .checked msg i valid, .record => some (w.record torrent conn msg i valid)
  | .finishing msg i completed, .finish =>
    some ({ w with sh := if completed then torrentCompleteSection w.sh else w.sh },
      { conn with pc := .scanning msg (i + 1) })
  | _, _ => none

/-- One step of the client; an aborted process takes none. -/
def Client.step (sha1 : List UInt8 → List UInt8) (torrent : Metainfo) (w : Client)
    (a : ClientAction) : Option Client :=
  if w.aborted then none else
  match a with
  | .connect => some { w with conns := w.conns ++ [⟨[], .idle⟩] }
  | .conn c a =>
    (w.conns[c]?).bind fun conn =>
      (w.connStep sha1 torrent conn a).map fun (w', conn') =>
        { w' with conns := w'.conns.set c conn' }

/-- The client after `parse_file`, with files of any content. -/
def Client.init (torrent : Metainfo) (disk : Disk) : Client where
  sh := sharedInit torrent.info.numPieces
  disk := disk
  conns := []
  aborted := false
  verified := []

end BtClient

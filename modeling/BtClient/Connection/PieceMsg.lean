import BtClient.Connection.Shared
import BtClient.Peer.Msg

/-!
# A received block (`sha1/sha1.c`, `process_piece_msg`)

What a connection does with a `MSG_PIECE` after `peer_msg_recv` has stored its
payload: mark the block in every matching request, and when a request has no
block left, hash the piece from the files and record the outcome in the shared
state.

The digest is a parameter `sha1`. Effects that no state below depends on (the
bytes fed to the digest, the renaming of the files by `torrent_complete`, the
events posted by `notify_peers_have`) are returned as `Event`s.
-/

namespace BtClient

open CLib

/-- What a connection did besides changing its own state. -/
inductive Event where
  | hashed (index : UInt32) (bytes : List UInt8)
  | torrentComplete
  | notifyPeersHave (index : UInt32)
  deriving DecidableEq, Repr

/-! ## `torrent_sha1_verify` -/

/-- The bytes `torrent_sha1_verify` feeds to the digest. -/
def sha1Feed (torrent : Metainfo) (disk : Disk) (pieceIndex : UInt32) :
    Except Fault (List UInt8) := do
  check (pieceIndex.toNat < torrent.info.numPieces)
  let pr ← pieceRequestCreate torrent pieceIndex
  return pr.blockRequests.flatMap fun br => br.filemems.flatMap (readSeg disk)

/-- `torrent_sha1_verify(torrent, piece_index)`, with the bytes it hashed. -/
def torrentSha1Verify (sha1 : List UInt8 → List UInt8) (torrent : Metainfo) (disk : Disk)
    (pieceIndex : UInt32) : Except Fault (Bool × List UInt8) := do
  let bytes ← sha1Feed torrent disk pieceIndex
  return (torrent.info.pieces.getD pieceIndex.toNat [] == sha1 bytes, bytes)

/-! ## `handle_piece_dl_completion` -/

/-- `handle_piece_dl_completion(sockfd, torrent, index)`. -/
def handlePieceDlCompletion (torrent : Metainfo) (sock : Socket) (sh : Shared) (index : UInt32) :
    Except Fault (Socket × Shared × List Event) := do
  check (index.toNat < torrent.info.numPieces)
  let (sh, completed) ← completionSection torrent.info.numPieces sh index.toNat
  let (_, sock) ← peerMsgSend torrent (.haveMsg index) sock
  return if completed
    then (sock, torrentCompleteSection sh, [.torrentComplete, .notifyPeersHave index])
    else (sock, sh, [.notifyPeersHave index])

/-! ## `process_piece_msg` -/

/-- The inner loop of `process_piece_msg`: the first block that matches is
marked; `none` if none does. -/
def markBlock (msg : PieceMsg) : List BlockRequest → Option (List BlockRequest)
  | [] => none
  | br :: rest =>
    if br.len = msg.blocklen ∧ br.begin = msg.begin.toNat then
      some ({ br with completed := true } :: rest)
    else (markBlock msg rest).map (br :: ·)

/-- The request after the inner loop. -/
def countBlock (msg : PieceMsg) (curr : PieceRequest) : PieceRequest :=
  match markBlock msg curr.blockRequests with
  | none => curr
  | some blocks =>
    { curr with blockRequests := blocks, blocksLeft := wordSub curr.blocksLeft 1 }

theorem countBlock_pieceIndex (msg : PieceMsg) (r : PieceRequest) :
    (countBlock msg r).pieceIndex = r.pieceIndex := by
  unfold countBlock
  split <;> rfl

/-- What is done when a request has no block left. -/
def finishPiece (sha1 : List UInt8 → List UInt8) (torrent : Metainfo) (disk : Disk)
    (sock : Socket) (sh : Shared) (index : UInt32) :
    Except Fault (Socket × Shared × List Event) := do
  let (valid, bytes) ← torrentSha1Verify sha1 torrent disk index
  if valid then
    let (sock, sh, events) ← handlePieceDlCompletion torrent sock sh index
    return (sock, sh, .hashed index bytes :: events)
  else return (sock, verifyFailedSection sh index.toNat, [.hashed index bytes])

/-- `process_piece_msg(sockfd, state, msg, torrent)`: the loop over
`local_requests`. -/
def processPieceMsg (sha1 : List UInt8 → List UInt8) (torrent : Metainfo) (disk : Disk)
    (msg : PieceMsg) : List PieceRequest → Socket → Shared →
    Except Fault (List PieceRequest × Socket × Shared × List Event)
  | [], sock, sh => .ok ([], sock, sh, [])
  | curr :: rest, sock, sh =>
    if curr.pieceIndex = msg.index then do
      let curr := countBlock msg curr
      let (sock, sh, events) ←
        if curr.blocksLeft = 0 then finishPiece sha1 torrent disk sock sh curr.pieceIndex
        else .ok (sock, sh, [])
      let (rest, sock, sh, more) ← processPieceMsg sha1 torrent disk msg rest sock sh
      return (curr :: rest, sock, sh, events ++ more)
    else do
      let (rest, sock, sh, events) ← processPieceMsg sha1 torrent disk msg rest sock sh
      return (curr :: rest, sock, sh, events)

/-- What the loop does with its first request: it passes one of another piece,
counts a block off, or finishes the piece. -/
theorem processPieceMsg_cons {sha1 : List UInt8 → List UInt8} {torrent : Metainfo} {disk : Disk}
    {msg : PieceMsg} {curr : PieceRequest} {rest requests' : List PieceRequest}
    {sock sock' : Socket} {sh sh' : Shared} {events : List Event}
    (h : processPieceMsg sha1 torrent disk msg (curr :: rest) sock sh
      = .ok (requests', sock', sh', events)) :
    (∃ rest', curr.pieceIndex ≠ msg.index ∧ requests' = curr :: rest' ∧
      processPieceMsg sha1 torrent disk msg rest sock sh = .ok (rest', sock', sh', events)) ∨
    (∃ rest', curr.pieceIndex = msg.index ∧ requests' = countBlock msg curr :: rest' ∧
      (countBlock msg curr).blocksLeft ≠ 0 ∧
      processPieceMsg sha1 torrent disk msg rest sock sh = .ok (rest', sock', sh', events)) ∨
    ∃ rest' sock₁ sh₁ finished more, curr.pieceIndex = msg.index ∧
      requests' = countBlock msg curr :: rest' ∧ (countBlock msg curr).blocksLeft = 0 ∧
      finishPiece sha1 torrent disk sock sh msg.index = .ok (sock₁, sh₁, finished) ∧
      processPieceMsg sha1 torrent disk msg rest sock₁ sh₁ = .ok (rest', sock', sh', more) ∧
      events = finished ++ more := by
  simp only [processPieceMsg] at h
  by_cases hmatch : curr.pieceIndex = msg.index
  · rw [if_pos hmatch] at h
    by_cases hzero : (countBlock msg curr).blocksLeft = 0
    · rw [if_pos hzero, countBlock_pieceIndex, hmatch] at h
      obtain ⟨⟨sock₁, sh₁, finished⟩, hfinish, h⟩ := (seq_returns_iff _ _ _).mp h
      obtain ⟨⟨rest', sock₂, sh₂, more⟩, hrest, h⟩ := (seq_returns_iff _ _ _).mp h
      cases h
      exact .inr (.inr ⟨rest', sock₁, sh₁, finished, more, hmatch, rfl, hzero, hfinish, hrest, rfl⟩)
    · rw [if_neg hzero, ok_bind] at h
      obtain ⟨⟨rest', sock₂, sh₂, more⟩, hrest, h⟩ := (seq_returns_iff _ _ _).mp h
      cases h
      exact .inr (.inl ⟨rest', hmatch, rfl, hzero, hrest⟩)
  · rw [if_neg hmatch] at h
    obtain ⟨⟨rest', sock₂, sh₂, more⟩, hrest, h⟩ := (seq_returns_iff _ _ _).mp h
    cases h
    exact .inl ⟨rest', hmatch, rfl, hrest⟩

/-! ## A frame on a connection -/

/-- The part of a connection that a block touches: its socket, the mapped
files and `local_requests`. -/
structure Conn where
  sock : Socket
  disk : Disk
  localRequests : List PieceRequest

/-- `peer_msg_recv` followed by `process_piece_msg`; `none` when the receive
returned `-1` or something other than a block. -/
def handlePieceFrame (sha1 : List UInt8 → List UInt8) (torrent : Metainfo) (sh : Shared)
    (conn : Conn) : Except Fault (Option (Conn × Shared × List Event)) := do
  match ← peerMsgRecv torrent conn.sock conn.disk with
  | (some (.piece msg), sock, disk) =>
    let (requests, sock, sh, events) ←
      processPieceMsg sha1 torrent disk msg conn.localRequests sock sh
    return some (⟨sock, disk, requests⟩, sh, events)
  | _ => return none

/-- A run of `handlePieceFrame`. Other connections change the shared state
between two frames, so the run is given the state each frame finds. -/
def handlePieceFrames (sha1 : List UInt8 → List UInt8) (torrent : Metainfo) :
    List Shared → Conn → Except Fault (Option (Conn × List (List Event)))
  | [], conn => .ok (some (conn, []))
  | sh :: shs, conn => do
    match ← handlePieceFrame sha1 torrent sh conn with
    | none => return none
    | some (conn, _, events) =>
      match ← handlePieceFrames sha1 torrent shs conn with
      | none => return none
      | some (conn, log) => return some (conn, events :: log)

end BtClient

import BtClient.Connection.PieceMsg
import BtClient.Peer.Block
import Mathlib.Data.List.Sort

/-!
# Downloading a piece

The blocks of piece `i` arrive on one connection, in any order and mixed with
blocks of other pieces. Three parts of the code recompute the block layout:
the request kept in `local_requests`, the receive path that stores the
payloads, and `torrent_sha1_verify`. The run invariant ties them together:

* `blocks_left` of the request is the number of frames of `i` still to come,
* every payload of `i` that has arrived lies on disk at its own position.

At the last frame the slices that are hashed tile the whole piece, and the
piece is the payloads in the order of their offsets.
-/

namespace BtClient

open CLib

/-- Two sockets with the same receive side. -/
def SameRecv (s s' : Socket) : Prop := s'.rx = s.rx ∧ s'.recvPlan = s.recvPlan

theorem SameRecv.trans {s s' s'' : Socket} (h : SameRecv s s') (h' : SameRecv s' s'') :
    SameRecv s s'' := ⟨h'.1.trans h.1, h'.2.trans h.2⟩

/-! ## One block in `process_piece_msg` -/

theorem sendThen_frame {s : Socket} {buff : List UInt8}
    {k : Socket → Except Fault (Bool × Socket)}
    (hk : ∀ s', ∃ ok s'', k s' = .ok (ok, s'') ∧ SameRecv s' s'') :
    ∃ ok s', sendThen s buff k = .ok (ok, s') ∧ SameRecv s s' := by
  have hframe : SameRecv s (sendBuff s buff).2 := sendBuffLoop_frame buff s 0
  unfold sendThen
  rcases hsend : sendBuff s buff with ⟨ok, s'⟩
  rw [hsend] at hframe
  cases ok with
  | false => exact ⟨false, s', rfl, hframe⟩
  | true =>
    obtain ⟨ok, s'', hs'', hframe'⟩ := hk s'
    exact ⟨ok, s'', hs'', hframe.trans hframe'⟩

/-- Announcing a piece to the peer never faults and does not touch the receive
side, whether it succeeds or not. -/
theorem peerMsgSend_have_frame (torrent : Metainfo) (index : UInt32) (s : Socket) :
    ∃ ok s', peerMsgSend torrent (.haveMsg index) s = .ok (ok, s') ∧ SameRecv s s' := by
  apply sendThen_frame
  intro s'
  apply sendThen_frame
  intro s''
  exact ⟨_, _, rfl, sendBuffLoop_frame (be32 index) s'' 0⟩

/-- The completion of a piece on a consistent state. -/
theorem handlePieceDlCompletion_spec {torrent : Metainfo} {sh : Shared} {index : UInt32}
    (sock : Socket) (hsh : sh.Consistent torrent.info.numPieces)
    (hindex : index.toNat < torrent.info.numPieces) :
    ∃ sock' sh' events, handlePieceDlCompletion torrent sock sh index = .ok (sock', sh', events) ∧
      SameRecv sock sock' ∧ sh'.Consistent torrent.info.numPieces ∧
      ∀ j bytes, .hashed j bytes ∉ events := by
  obtain ⟨ok, sock', hsend, hframe⟩ := peerMsgSend_have_frame torrent index sock
  have hcheck : check (decide (index.toNat < torrent.info.numPieces)) = .ok () :=
    check_of (by simpa using hindex)
  rcases completionSection_cases hsh hindex with ⟨-, hsec⟩ | ⟨state, hget, hne, hsec⟩
  · refine ⟨sock', sh, [.notifyPeersHave index], ?_, hframe, hsh, by simp⟩
    simp [handlePieceDlCompletion, hcheck, hsec, hsend]
  · have hcons := hsh.complete hget hne (sh.completed || sh.piecesLeft == 1)
    by_cases hlast : (sh.piecesLeft == 1) = true
    · refine ⟨sock', _, [.torrentComplete, .notifyPeersHave index], ?_, hframe, hcons.seeding,
        by simp⟩
      simp [handlePieceDlCompletion, hcheck, hsec, hsend, hlast]
    · refine ⟨sock', _, [.notifyPeersHave index], ?_, hframe, hcons, by simp⟩
      simp [handlePieceDlCompletion, hcheck, hsec, hsend, hlast]

/-- A request without blocks left: exactly the piece is hashed. -/
theorem finishPiece_spec {sha1 : List UInt8 → List UInt8} {torrent : Metainfo} {disk : Disk}
    {index : UInt32} {valid : Bool} {fed : List UInt8} (sh : Shared) (sock : Socket)
    (hver : torrentSha1Verify sha1 torrent disk index = .ok (valid, fed))
    (hindex : index.toNat < torrent.info.numPieces)
    (hsh : valid = true → sh.Consistent torrent.info.numPieces) :
    ∃ sock' sh' events, finishPiece sha1 torrent disk sock sh index
        = .ok (sock', sh', .hashed index fed :: events) ∧
      SameRecv sock sock' ∧ (valid = true → sh'.Consistent torrent.info.numPieces) ∧
      ∀ j bytes, .hashed j bytes ∉ events := by
  cases valid with
  | false =>
    exact ⟨sock, _, [], by simp [finishPiece, hver]; rfl, ⟨rfl, rfl⟩, by simp, by simp⟩
  | true =>
    obtain ⟨sock', sh', events, hrun, hframe, hsh', hno⟩ :=
      handlePieceDlCompletion_spec sock (hsh rfl) hindex
    exact ⟨sock', sh', events, by simp [finishPiece, hver, hrun], hframe, fun _ => hsh', hno⟩

/-- What one block does to a list of requests. -/
def countBlocks (msg : PieceMsg) (requests : List PieceRequest) : List PieceRequest :=
  requests.map fun r => if r.pieceIndex = msg.index then countBlock msg r else r

theorem countBlocks_cons (msg : PieceMsg) (curr : PieceRequest) (rest : List PieceRequest) :
    countBlocks msg (curr :: rest)
      = (if curr.pieceIndex = msg.index then countBlock msg curr else curr)
        :: countBlocks msg rest := rfl

/-- **`process_piece_msg`**: every matching request counts the block off, each
one that becomes empty hashes the piece, and nothing else is hashed. -/
theorem processPieceMsg_spec {sha1 : List UInt8 → List UInt8} {torrent : Metainfo} {disk : Disk}
    (msg : PieceMsg) {valid : Bool} {fed : List UInt8}
    (hver : msg.index.toNat < torrent.info.numPieces →
      torrentSha1Verify sha1 torrent disk msg.index = .ok (valid, fed))
    (requests : List PieceRequest) :
    ∀ (sock : Socket) (sh : Shared),
      (∀ r ∈ requests, r.pieceIndex.toNat < torrent.info.numPieces) →
      (valid = true → sh.Consistent torrent.info.numPieces) →
      ∃ sock' sh' events, processPieceMsg sha1 torrent disk msg requests sock sh
          = .ok (countBlocks msg requests, sock', sh', events) ∧
        SameRecv sock sock' ∧
        (∀ j bytes, .hashed j bytes ∈ events →
          j = msg.index ∧ bytes = fed ∧ msg.index.toNat < torrent.info.numPieces) ∧
        (∀ r ∈ requests, r.pieceIndex = msg.index → (countBlock msg r).blocksLeft = 0 →
          .hashed msg.index fed ∈ events) := by
  induction requests with
  | nil => intro sock sh _ _; exact ⟨sock, sh, [], rfl, ⟨rfl, rfl⟩, by simp, by simp⟩
  | cons curr rest ih =>
    intro sock sh hin hsh
    have hrest : ∀ r ∈ rest, r.pieceIndex.toNat < torrent.info.numPieces :=
      fun r hr => hin r (by simp [hr])
    by_cases hmatch : curr.pieceIndex = msg.index
    · have hindex : msg.index.toNat < torrent.info.numPieces := by
        rw [← hmatch]
        exact hin curr (by simp)
      by_cases hzero : (countBlock msg curr).blocksLeft = 0
      · obtain ⟨sock₁, sh₁, ev₁, hrun₁, hframe₁, hsh₁, hno₁⟩ :=
          finishPiece_spec sh sock (hver hindex) hindex hsh
        -- `hno₁`: behind the verification the completion hashes nothing
        obtain ⟨sock₂, sh₂, ev₂, hrun₂, hframe₂, hall, hev⟩ := ih sock₁ sh₁ hrest hsh₁
        refine ⟨sock₂, sh₂, .hashed msg.index fed :: ev₁ ++ ev₂, ?_, hframe₁.trans hframe₂, ?_, ?_⟩
        · simp [processPieceMsg, hmatch, hzero, countBlock_pieceIndex, hrun₁, hrun₂, countBlocks]
        · intro j bytes h
          simp only [List.cons_append, List.mem_cons, Event.hashed.injEq, List.mem_append] at h
          rcases h with h | h | h
          · exact ⟨h.1, h.2, hindex⟩
          · exact absurd h (hno₁ j bytes)
          · exact hall j bytes h
        · intro r _ _ _
          simp
      · obtain ⟨sock₂, sh₂, ev₂, hrun₂, hframe₂, hall, hev⟩ := ih sock sh hrest hsh
        refine ⟨sock₂, sh₂, ev₂, ?_, hframe₂, hall, ?_⟩
        · simp [processPieceMsg, hmatch, hzero, hrun₂, countBlocks]
        · intro r hr hri hr0
          rcases List.mem_cons.mp hr with rfl | hr
          · exact absurd hr0 hzero
          · exact hev r hr hri hr0
    · obtain ⟨sock₂, sh₂, ev₂, hrun₂, hframe₂, hall, hev⟩ := ih sock sh hrest hsh
      refine ⟨sock₂, sh₂, ev₂, ?_, hframe₂, hall, ?_⟩
      · simp [processPieceMsg, hmatch, hrun₂, countBlocks]
      · intro r hr hri hr0
        rcases List.mem_cons.mp hr with rfl | hr
        · exact absurd hri hmatch
        · exact hev r hr hri hr0

/-! ## The block list of a request -/

/-- What a frame and a block must agree on: offset and length. -/
def shape (blocks : List BlockRequest) : List (Nat × Nat) := blocks.map fun b => (b.begin, b.len)

/-- The same of a frame. -/
def BlockFrame.key (f : BlockFrame) : Nat × Nat := (f.begin.toNat, f.payload.length)

/-- Marking a block finds it, and keeps the block list otherwise. -/
theorem markBlock_spec {msg : PieceMsg} {blocks : List BlockRequest}
    (h : (msg.begin.toNat, msg.blocklen) ∈ shape blocks) :
    ∃ blocks', markBlock msg blocks = some blocks' ∧ shape blocks' = shape blocks := by
  induction blocks with
  | nil => cases h
  | cons br rest ih =>
    simp only [markBlock]
    by_cases hbr : br.len = msg.blocklen ∧ br.begin = msg.begin.toNat
    · exact ⟨_, if_pos hbr, rfl⟩
    · have hrest : (msg.begin.toNat, msg.blocklen) ∈ shape rest := by
        rcases List.mem_cons.mp h with heq | hmem
        · obtain ⟨h1, h2⟩ := Prod.mk.inj heq
          exact absurd ⟨h2.symm, h1.symm⟩ hbr
        · exact hmem
      obtain ⟨blocks', hmark, hshape⟩ := ih hrest
      refine ⟨br :: blocks', by rw [if_neg hbr, hmark]; rfl, ?_⟩
      simp only [shape, List.map_cons, List.cons.injEq, true_and]
      exact hshape

/-- A scheduled block that arrives is counted off. -/
theorem countBlock_spec (msg : PieceMsg) {r : PieceRequest} {left : Nat}
    (h : (msg.begin.toNat, msg.blocklen) ∈ shape r.blockRequests)
    (hleft : r.blocksLeft = left + 1) (hlt : left + 1 < 2 ^ 32) :
    (countBlock msg r).blocksLeft = left ∧
      shape (countBlock msg r).blockRequests = shape r.blockRequests := by
  obtain ⟨blocks', hmark, hshape⟩ := markBlock_spec h
  have hcount : countBlock msg r
      = { r with blockRequests := blocks', blocksLeft := wordSub r.blocksLeft 1 } := by
    simp [countBlock, hmark]
  rw [hcount]
  refine ⟨?_, hshape⟩
  simp only
  rw [hleft, wordSub_of_le (by omega) hlt, Nat.add_sub_cancel]

section Schedule

variable {torrent : Metainfo} {index : UInt32} {pr : PieceRequest}

/-- The blocks of a piece, as offset and length: the length is a function of
the offset, and the offsets increase. -/
theorem Metainfo.Regular.shape_spec (hreg : torrent.Regular) (hpr : pr.Scheduled torrent index) :
    (∀ a ∈ shape pr.blockRequests, a.2 = min 16384
      (torrent.totalLength - (torrent.info.pieceLength.toNat * index.toNat + a.1))) ∧
    (shape pr.blockRequests).Pairwise (fun a b => a.1 < b.1) := by
  constructor
  · intro a ha
    obtain ⟨b, hb, rfl⟩ := List.mem_map.mp ha
    obtain ⟨k, hk, hget⟩ := List.mem_iff_getElem.mp hb
    have hblock := hreg.block hpr (List.getElem?_eq_getElem hk)
    rw [hget] at hblock
    simp only
    rw [hblock.begin]
    exact hblock.len
  · rw [shape, List.pairwise_map]
    apply List.pairwise_iff_getElem.mpr
    intro j k hj hk hjk
    have hbj := hreg.block hpr (List.getElem?_eq_getElem hj)
    have hbk := hreg.block hpr (List.getElem?_eq_getElem hk)
    simp only [hbj.begin, hbk.begin]
    omega

/-- A piece has few enough blocks for the `uint32_t` counter. -/
theorem Metainfo.Regular.length_lt (hreg : torrent.Regular) (hpr : pr.Scheduled torrent index) :
    pr.blockRequests.length < 2 ^ 32 := by
  by_contra hge
  -- block `2^31` would begin past any piece length below `2^32`
  have hk : 2 ^ 31 < pr.blockRequests.length := by omega
  have hin := (hreg.block hpr (List.getElem?_eq_getElem hk)).inPiece
  have hsmall := hreg.small
  omega

/-- What `torrent_sha1_verify` hashes: block after block, read from the
concatenation of the files. -/
theorem sha1Feed_spec {disk : Disk} (hreg : torrent.Regular)
    (hpr : pieceRequestCreate torrent index = .ok pr)
    (hindex : index.toNat < torrent.info.numPieces) (hsized : Sized disk torrent.fileSizes) :
    sha1Feed torrent disk index = .ok ((shape pr.blockRequests).flatMap fun a =>
      slice disk.flatten (torrent.info.pieceLength.toNat * index.toNat + a.1) a.2) := by
  have hsch := scheduled_of_create hpr
  have hblocks : (pr.blockRequests.flatMap fun br => br.filemems.flatMap (readSeg disk))
      = (shape pr.blockRequests).flatMap fun a =>
        slice disk.flatten (torrent.info.pieceLength.toNat * index.toNat + a.1) a.2 := by
    rw [shape, List.flatMap_map]
    apply List.flatMap_congr
    intro b hb
    obtain ⟨k, hk, hget⟩ := List.mem_iff_getElem.mp hb
    have hblock := hreg.block hsch (List.getElem?_eq_getElem hk)
    rw [hget] at hblock
    rw [gather_tiles hsized hblock.tiles, hblock.begin, Nat.add_sub_cancel_left]
  simp only [sha1Feed, hpr, ok_bind, pure_is_ok, hblocks]
  rw [check_of (by simpa using hindex), ok_bind]

end Schedule

/-! ## The frames of a piece -/

/-- The frames of piece `i`, in increasing `begin` order. -/
def inOrder (i : UInt32) (frames : List BlockFrame) : List BlockFrame :=
  (frames.filter fun f => f.index == i).mergeSort fun f g => f.begin.toNat ≤ g.begin.toNat

/-- Every block of `pr` arrives exactly once among the frames of piece `i`. -/
def EachOnce (i : UInt32) (pr : PieceRequest) (frames : List BlockFrame) : Prop :=
  ((frames.filter fun f => f.index == i).map BlockFrame.key).Perm (shape pr.blockRequests)

section Frames

variable {torrent : Metainfo} {i : UInt32} {pr : PieceRequest} {frames : List BlockFrame}

/-- In `begin` order, the frames of the piece are its blocks. -/
theorem EachOnce.inOrder_key (honce : EachOnce i pr frames) (hreg : torrent.Regular)
    (hpr : pr.Scheduled torrent i) :
    (inOrder i frames).map BlockFrame.key = shape pr.blockRequests := by
  obtain ⟨hlen, hsorted⟩ := hreg.shape_spec hpr
  have hperm : ((inOrder i frames).map BlockFrame.key).Perm (shape pr.blockRequests) :=
    ((List.mergeSort_perm _ _).map _).trans honce
  have hms : (inOrder i frames).Pairwise fun f g => decide (f.begin.toNat ≤ g.begin.toNat) = true :=
    List.pairwise_mergeSort
      (fun a b c hab hbc => by simp only [decide_eq_true_eq] at *; omega)
      (fun a b => by simp only [Bool.or_eq_true, decide_eq_true_eq]; omega) _
  have hleft : ((inOrder i frames).map BlockFrame.key).Pairwise fun a b => a.1 ≤ b.1 := by
    rw [List.pairwise_map]
    exact hms.imp (fun h => by simpa [BlockFrame.key] using h)
  have hright : (shape pr.blockRequests).Pairwise fun a b => a.1 ≤ b.1 :=
    hsorted.imp Nat.le_of_lt
  -- equal offsets have equal lengths, so the order by `begin` determines the list
  refine List.Perm.eq_of_pairwise ?_ hleft hright hperm
  intro a b ha hb hab hba
  have h1 := hlen a (hperm.subset ha)
  have h2 := hlen b hb
  have hfst : a.1 = b.1 := Nat.le_antisymm hab hba
  rw [hfst, ← h2] at h1
  exact Prod.ext hfst h1

/-- No offset of the piece arrives twice. -/
theorem EachOnce.distinct (honce : EachOnce i pr frames) (hreg : torrent.Regular)
    (hpr : pr.Scheduled torrent i) :
    frames.Pairwise fun f g => f.index = i → g.index = i → f.begin ≠ g.begin := by
  obtain ⟨-, hsorted⟩ := hreg.shape_spec hpr
  have hnodup : ((frames.filter fun f => f.index == i).map BlockFrame.key).Pairwise
      (fun a b => a.1 ≠ b.1) :=
    (hsorted.imp Nat.ne_of_lt).perm honce.symm (fun h => h.symm)
  rw [List.pairwise_map, List.pairwise_filter] at hnodup
  refine hnodup.imp ?_
  intro f g h hf hg heq
  exact h (by simpa using hf) (by simpa using hg) (by simp [BlockFrame.key, heq])

/-- Hashing the piece when all its payloads are stored: they are hashed in
`begin` order. -/
theorem sha1Feed_stored {disk : Disk} (hreg : torrent.Regular)
    (hpr : pieceRequestCreate torrent i = .ok pr) (hi : i.toNat < torrent.info.numPieces)
    (hsized : Sized disk torrent.fileSizes) (honce : EachOnce i pr frames)
    (hstored : ∀ f ∈ frames, f.index = i →
      slice disk.flatten (f.pos torrent) f.payload.length = f.payload) :
    sha1Feed torrent disk i = .ok ((inOrder i frames).flatMap BlockFrame.payload) := by
  rw [sha1Feed_spec hreg hpr hi hsized,
    ← honce.inOrder_key hreg (scheduled_of_create hpr), List.flatMap_map]
  congr 1
  apply List.flatMap_congr
  intro f hf
  have hmem := (List.mergeSort_perm _ _).subset hf
  obtain ⟨hin, hindex⟩ := List.mem_filter.mp hmem
  have hfi : f.index = i := by simpa using hindex
  have hslice := hstored f hin hfi
  rw [BlockFrame.pos, hfi] at hslice
  exact hslice

end Frames

/-! ## The run -/

/-- The connection after the frames `done`, with the frames `rest` to come;
`p` is the place of the request for `i` in `local_requests`. -/
structure Progress (torrent : Metainfo) (i : UInt32) (pr : PieceRequest) (p : Nat)
    (done rest : List BlockFrame) (conn : Conn) : Prop where
  rx : conn.sock.rx = rest.flatMap BlockFrame.encode
  plan : NeverFails conn.sock.recvPlan
  sized : Sized conn.disk torrent.fileSizes
  indexes : ∀ r ∈ conn.localRequests, r.pieceIndex.toNat < torrent.info.numPieces
  request : ∃ r, conn.localRequests[p]? = some r ∧ r.pieceIndex = i ∧
    shape r.blockRequests = shape pr.blockRequests ∧
    r.blocksLeft = rest.countP fun f => f.index == i
  stored : ∀ f ∈ done, f.index = i →
    slice conn.disk.flatten (f.pos torrent) f.payload.length = f.payload

/-- What the handling of frame `f` reports when `rest` is still to come. -/
structure FrameLog (torrent : Metainfo) (i : UInt32) (f : BlockFrame) (rest : List BlockFrame)
    (disk : Disk) (events : List Event) : Prop where
  fed : ∀ j bytes, .hashed j bytes ∈ events →
    j = f.index ∧ sha1Feed torrent disk f.index = .ok bytes
  last : f.index = i → (∀ g ∈ rest, g.index ≠ i) → ∃ bytes, .hashed i bytes ∈ events

section Run

variable {torrent : Metainfo} {i : UInt32} {pr : PieceRequest} {p : Nat}

/-- The counter of the request at `p` after one more frame. -/
theorem countBlocks_request {requests : List PieceRequest} {f : BlockFrame}
    {rest : List BlockFrame}
    (hreq : ∃ r, requests[p]? = some r ∧ r.pieceIndex = i ∧
      shape r.blockRequests = shape pr.blockRequests ∧
      r.blocksLeft = (f :: rest).countP fun f => f.index == i)
    (hkey : f.index = i → f.key ∈ shape pr.blockRequests)
    (hlt : ((f :: rest).countP fun f => f.index == i) < 2 ^ 32) :
    ∃ r, (countBlocks ⟨f.index, f.begin, f.payload.length⟩ requests)[p]? = some r ∧
      r.pieceIndex = i ∧ shape r.blockRequests = shape pr.blockRequests ∧
      r.blocksLeft = rest.countP fun f => f.index == i := by
  obtain ⟨r, hget, hri, hshape, hleft⟩ := hreq
  rw [List.countP_cons] at hleft hlt
  by_cases hfi : f.index = i
  · simp only [hfi, beq_self_eq_true, if_true] at hleft hlt
    obtain ⟨hcount, hshape'⟩ := countBlock_spec ⟨f.index, f.begin, f.payload.length⟩
      (by rw [hshape]; exact hkey hfi) hleft hlt
    refine ⟨countBlock ⟨f.index, f.begin, f.payload.length⟩ r, ?_, ?_, hshape'.trans hshape, hcount⟩
    · simp [countBlocks, List.getElem?_map, hget, hri, hfi]
    · rw [countBlock_pieceIndex, hri]
  · have hne : (f.index == i) = false := by simpa using hfi
    simp only [hne, Bool.false_eq_true, if_false, Nat.add_zero] at hleft
    refine ⟨r, ?_, hri, hshape, hleft⟩
    have hni : ¬ i = f.index := fun h => hfi h.symm
    simp [countBlocks, List.getElem?_map, hget, hri, hni]

/-- The new payload is in place, and it met none of the earlier ones. -/
theorem Progress.stored_step {done rest : List BlockFrame} {f : BlockFrame} {conn : Conn}
    {disk : Disk} (hreg : torrent.Regular) (h : Progress torrent i pr p done rest conn)
    (hf : f.Fits torrent) (hdone : ∀ g ∈ done, g.Fits torrent)
    (hdistinct : ∀ g ∈ done, g.index = i → f.index = i → g.begin ≠ f.begin)
    (hflat : disk.flatten = splice conn.disk.flatten (f.pos torrent) f.payload) :
    ∀ g ∈ done ++ [f], g.index = i →
      slice disk.flatten (g.pos torrent) g.payload.length = g.payload := by
  intro g hg hgi
  have hrange := hf.range hreg
  have hlen : conn.disk.flatten.length = torrent.totalLength := h.sized.length_flatten
  rw [hflat]
  rcases List.mem_append.mp hg with hg | hg
  · have hapart : g.index ≠ f.index ∨ g.begin ≠ f.begin := by
      by_cases hfi : f.index = i
      · exact .inr (hdistinct g hg hgi hfi)
      · exact .inl (fun heq => hfi (heq ▸ hgi))
    rw [slice_splice_disjoint (by omega) ((hdone g hg).disjoint hreg hf hapart)]
    exact h.stored g hg hgi
  · rw [List.mem_singleton] at hg
    subst hg
    exact slice_splice_self (by omega)

/-- **One frame**: no fault, the invariant moves on by one frame, and the log
says what was hashed. -/
theorem Progress.step (sha1 : List UInt8 → List UInt8) {done rest : List BlockFrame}
    {f : BlockFrame} {conn : Conn} {sh : Shared} (hreg : torrent.Regular)
    (h : Progress torrent i pr p done (f :: rest) conn) (hf : f.Fits torrent)
    (hdone : ∀ g ∈ done, g.Fits torrent) (hkey : f.index = i → f.key ∈ shape pr.blockRequests)
    (hdistinct : ∀ g ∈ done, g.index = i → f.index = i → g.begin ≠ f.begin)
    (hlt : ((f :: rest).countP fun f => f.index == i) < 2 ^ 32)
    (hsh : sh.Consistent torrent.info.numPieces) :
    ∃ conn' sh' events, handlePieceFrame sha1 torrent sh conn = .ok (some (conn', sh', events)) ∧
      Progress torrent i pr p (done ++ [f]) rest conn' ∧
      FrameLog torrent i f rest conn'.disk events := by
  obtain ⟨s', disk', hrecv, hrx', hnf', hsized', hflat'⟩ :=
    peerMsgRecv_block hreg hf h.sized h.plan (by rw [h.rx, List.flatMap_cons])
  -- what any verification of this piece would see
  obtain ⟨prf, -, -, hprf, -⟩ := hf.block hreg
  obtain ⟨fed, hfed⟩ : ∃ fed, f.index.toNat < torrent.info.numPieces →
      sha1Feed torrent disk' f.index = .ok fed := by
    refine ⟨_, fun hlt => sha1Feed_spec hreg hprf hlt hsized'⟩
  obtain ⟨valid, hver⟩ : ∃ valid, f.index.toNat < torrent.info.numPieces →
      torrentSha1Verify sha1 torrent disk' f.index = .ok (valid, fed) := by
    refine ⟨torrent.info.pieces.getD f.index.toNat [] == sha1 fed, fun hlt => ?_⟩
    simp [torrentSha1Verify, hfed hlt]
  obtain ⟨sock', sh', events, hproc, hsame, hall, hempty⟩ :=
    processPieceMsg_spec ⟨f.index, f.begin, f.payload.length⟩ hver conn.localRequests s' sh
      h.indexes (fun _ => hsh)
  have hreq := countBlocks_request h.request hkey hlt
  obtain ⟨r, hget, hri, -, hleft⟩ := h.request
  have hmem := List.mem_of_getElem? hget
  refine ⟨⟨sock', disk', countBlocks ⟨f.index, f.begin, f.payload.length⟩ conn.localRequests⟩,
    sh', events, by simp [handlePieceFrame, hrecv, hproc], ?_, ?_⟩
  · refine ⟨hsame.1.trans hrx', by rw [hsame.2]; exact hnf', hsized', ?_, hreq,
      h.stored_step hreg hf hdone hdistinct hflat'⟩
    intro r' hr'
    obtain ⟨r₀, hr₀, rfl⟩ := List.mem_map.mp hr'
    have := h.indexes r₀ hr₀
    split
    · rwa [countBlock_pieceIndex]
    · exact this
  · constructor
    · intro j bytes hj
      obtain ⟨hj1, hj2, hin⟩ := hall j bytes hj
      exact ⟨hj1, by rw [hj2]; exact hfed hin⟩
    · intro hfi hnone
      refine ⟨fed, ?_⟩
      -- nothing of the piece is to come, so this frame emptied the request at `p`
      have hzero : (rest.countP fun f => f.index == i) = 0 := by
        rw [List.countP_eq_zero]
        intro g hg
        simpa using hnone g hg
      obtain ⟨r', hget', -, -, hleft'⟩ := hreq
      have hr' : r' = countBlock ⟨f.index, f.begin, f.payload.length⟩ r := by
        rw [countBlocks, List.getElem?_map, hget] at hget'
        simpa [hri, hfi, eq_comm] using hget'
      have := hempty r hmem (by rw [hri, hfi]) (by rw [← hr', hleft', hzero])
      rwa [hfi] at this

/-- **A run**: after any number of frames the invariant holds, and the log has
one entry for each frame. The induction is on the frames to come. -/
theorem Progress.run (sha1 : List UInt8 → List UInt8) (hreg : torrent.Regular)
    (rest : List BlockFrame) :
    ∀ {done : List BlockFrame} {conn : Conn} (shs : List Shared) (k : Nat),
      Progress torrent i pr p done rest conn → (∀ f ∈ done ++ rest, f.Fits torrent) →
      (∀ f ∈ rest, f.index = i → f.key ∈ shape pr.blockRequests) →
      ((done ++ rest).Pairwise fun f g => f.index = i → g.index = i → f.begin ≠ g.begin) →
      (rest.countP fun f => f.index == i) < 2 ^ 32 →
      (∀ sh ∈ shs, sh.Consistent torrent.info.numPieces) → shs.length = rest.length →
      k ≤ rest.length →
      ∃ conn' log, handlePieceFrames sha1 torrent (shs.take k) conn = .ok (some (conn', log)) ∧
        Progress torrent i pr p (done ++ rest.take k) (rest.drop k) conn' ∧ log.length = k ∧
        ∀ m f, m < k → rest[m]? = some f → ∃ disk,
          FrameLog torrent i f (rest.drop (m + 1)) disk (log.getD m []) ∧
          Sized disk torrent.fileSizes ∧
          ∀ g ∈ done ++ rest.take (m + 1), g.index = i →
            slice disk.flatten (g.pos torrent) g.payload.length = g.payload := by
  induction rest with
  | nil =>
    intro done conn shs k h _ _ _ _ _ _ hk
    have hk0 : k = 0 := by simpa using hk
    subst hk0
    exact ⟨conn, [], by simp [handlePieceFrames], by simpa using h, rfl, by simp⟩
  | cons f rest ih =>
    intro done conn shs k h hfits hkey hdistinct hlt hsh hlen hk
    cases k with
    | zero => exact ⟨conn, [], by simp [handlePieceFrames], by simpa using h, rfl, by simp⟩
    | succ k =>
      obtain ⟨sh, shs, rfl⟩ : ∃ a l, shs = a :: l := by
        cases shs with
        | nil => simp at hlen
        | cons a l => exact ⟨a, l, rfl⟩
      obtain ⟨-, -, hcross⟩ := List.pairwise_append.mp hdistinct
      obtain ⟨conn₁, sh₁, events, hstep, hprog, hlog⟩ :=
        h.step sha1 hreg (hfits f (by simp)) (fun g hg => hfits g (by simp [hg]))
          (hkey f (by simp)) (fun g hg => hcross g hg f (by simp)) hlt (hsh sh (by simp))
      obtain ⟨conn₂, log, hrun, hprog₂, hloglen, hlogs⟩ :=
        ih shs k hprog (by simpa using hfits) (fun g hg => hkey g (by simp [hg]))
          (by simpa using hdistinct)
          (by rw [List.countP_cons] at hlt; omega) (fun s hs => hsh s (by simp [hs]))
          (by simpa using hlen) (by simpa using hk)
      refine ⟨conn₂, events :: log, by simp [handlePieceFrames, hstep, hrun],
        by simpa using hprog₂, by simp [hloglen], ?_⟩
      intro m g hm hg
      cases m with
      | zero =>
        have hgf : f = g := by simpa using hg
        subst hgf
        exact ⟨conn₁.disk, by simpa using hlog, hprog.sized, by simpa using hprog.stored⟩
      | succ m =>
        obtain ⟨disk, hl, hs, hst⟩ := hlogs m g (by omega) (by simpa using hg)
        exact ⟨disk, by simpa using hl, hs, by simpa using hst⟩

end Run

/-- Two files and one piece of two blocks, the first one across both files. -/
def twoFiles : Metainfo where
  announce := none
  announceList := []
  info := ⟨.infoMulti, 32768, [], 1, [[59, 114, 43, 139, 206, 204, 231, 94, 75, 4, 49, 7, 51, 83,
    13, 30, 207, 61, 192, 151]], 0, 2, []⟩
  infoHash := []
  maxPeers := 0
  sh := sharedInit 1
  files := [⟨10, []⟩, ⟨16389, []⟩]

/-- The digest of its content, which is all that is hashed below. -/
def twoFilesSha1 (_ : List UInt8) : List UInt8 :=
  [59, 114, 43, 139, 206, 204, 231, 94, 75, 4, 49, 7, 51, 83, 13, 30, 207, 61, 192, 151]

/-- Its blocks, the second one first. -/
def twoFilesFrames : List BlockFrame :=
  [⟨0, 16384, List.replicate 15 2⟩, ⟨0, 0, List.replicate 16384 1⟩]

end BtClient

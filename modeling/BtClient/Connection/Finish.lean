import BtClient.Connection.Calls
import BtClient.Connection.Download
import BtClient.Connection.Healthy
import BtClient.Connection.Refine
import BtClient.PieceRequest.Extent

/-!
# A download can always be finished

From every state a client can be in, some run leads to the complete download:
for each missing piece a new connection, to a peer that has this piece and
sends its blocks in order. The connections that exist already need not move.
What may have happened before is any run in which no frame names a piece
behind the content and no failed check throws a finished piece away.

With the bound of `OnePiece` this says how many connections a download takes:
as many as there are pieces, and no fewer.
-/

namespace BtClient

open CLib

/-- The content of a torrent: the hashes of the metainfo are those of its
pieces, and every piece begins inside it. -/
structure Metainfo.IsContent (sha1 : List UInt8 → List UInt8) (torrent : Metainfo)
    (content : List UInt8) : Prop where
  length : content.length = torrent.totalLength
  pieces : torrent.info.numPieces ≤ 2 ^ 32
  inside : ∀ k < torrent.info.numPieces,
    torrent.info.pieceLength.toNat * k < torrent.totalLength
  hashes : ∀ k < torrent.info.numPieces, torrent.info.pieces.getD k [] =
    sha1 (slice content (torrent.info.pieceLength.toNat * k) torrent.info.pieceLength.toNat)

theorem Metainfo.IsContent.addressable {sha1 : List UInt8 → List UInt8} {torrent : Metainfo}
    {content : List UInt8} (h : torrent.IsContent sha1 content) (hreg : torrent.Regular)
    (hpos : 1 ≤ torrent.info.numPieces) : torrent.Addressable := by
  refine ⟨hpos, h.pieces, fun i hi => ?_⟩
  rw [hreg.pieceStart_eq]
  exact Nat.le_of_lt (h.inside i.toNat hi)

/-! ## The blocks of a piece -/

/-- The frame that carries a block of the content. -/
def contentFrame (torrent : Metainfo) (content : List UInt8) (i : UInt32) (b : BlockRequest) :
    BlockFrame where
  index := i
  begin := UInt32.ofNat b.begin
  payload := slice content (torrent.info.pieceLength.toNat * i.toNat + b.begin) b.len

section Piece

variable {sha1 : List UInt8 → List UInt8} {torrent : Metainfo} {content : List UInt8}
  {i : UInt32} {pr : PieceRequest}

/-- The message of the frame of block `j`. -/
structure ContentBlock (torrent : Metainfo) (content : List UInt8) (i : UInt32)
    (pr : PieceRequest) (j : Nat) (b : BlockRequest) : Prop where
  begin : (contentFrame torrent content i b).begin.toNat = 16384 * j
  pos : (contentFrame torrent content i b).pos torrent =
    torrent.info.pieceLength.toNat * i.toNat + 16384 * j
  payload : (contentFrame torrent content i b).payload =
    slice content (torrent.info.pieceLength.toNat * i.toNat + 16384 * j) b.len
  length : (contentFrame torrent content i b).payload.length = b.len
  fits : (contentFrame torrent content i b).Fits torrent
  key : (16384 * j, b.len) ∈ shape pr.blockRequests

theorem contentBlock (hreg : torrent.Regular) (hlen : content.length = torrent.totalLength)
    (hpr : pieceRequestCreate torrent i = .ok pr) {j : Nat} {b : BlockRequest}
    (hb : pr.blockRequests[j]? = some b) : ContentBlock torrent content i pr j b := by
  have hblock := hreg.block (scheduled_of_create hpr) hb
  have hsmall := hreg.small
  have hin := hblock.inPiece
  have hbegin : (UInt32.ofNat b.begin).toNat = 16384 * j := by
    rw [UInt32.toNat_ofNat', hblock.begin]
    omega
  have hsize : (slice content (torrent.info.pieceLength.toNat * i.toNat + b.begin) b.len).length
      = b.len := by
    have hl := hblock.len
    rw [length_slice, hlen, hblock.begin]
    omega
  refine ⟨hbegin, ?_, ?_, hsize, ⟨pr, b, hpr, List.mem_of_getElem? hb, ?_, hsize.symm⟩, ?_⟩
  · rw [BlockFrame.pos, contentFrame, hbegin]
  · rw [contentFrame, hblock.begin]
  · rw [contentFrame, hbegin, hblock.begin]
  · rw [shape, ← hblock.begin]
    exact List.mem_map.mpr ⟨b, List.mem_of_getElem? hb, rfl⟩

/-- The bytes of a piece on disk, as a range of the files. -/
theorem sha1Feed_range {disk : Disk} (hreg : torrent.Regular)
    (hpr : pieceRequestCreate torrent i = .ok pr) (hi : i.toNat < torrent.info.numPieces)
    (hin : torrent.info.pieceLength.toNat * i.toNat < torrent.totalLength)
    (hsized : Sized disk torrent.fileSizes) :
    sha1Feed torrent disk i = .ok (slice disk.flatten
      (torrent.info.pieceLength.toNat * i.toNat) torrent.info.pieceLength.toNat) := by
  have hsch := scheduled_of_create hpr
  have hend := hsch.schedule.end_eq_of_dvd hreg.multiple torrent.info.pieceLength.toNat_lt
  have htiles := hsch.schedule.tiles (k := 0) hsch.start
  rw [hend, hreg.pieceStart_eq, Nat.mul_zero, Nat.add_zero] at htiles
  have hgather := gather_tiles hsized htiles
  rw [List.flatMap_assoc] at hgather
  simp only [sha1Feed, hpr, ok_bind, pure_is_ok, hgather]
  rw [check_of (by simpa using hi), ok_bind]
  congr 1
  -- the range may be cut by the end of the files, and so is the slice
  have hlen : disk.flatten.length = torrent.fileSizes.sum := hsized.length_flatten
  have htotal : torrent.totalLength = torrent.fileSizes.sum := rfl
  rw [slice, slice, List.take_eq_take_iff, List.length_drop]
  omega

/-! ## One frame -/

/-- Piece `k` has been completed. -/
structure Shared.Completes (n : Nat) (sh sh' : Shared) (k : Nat) : Prop where
  states : sh'.pieceStates = sh.pieceStates.set k .stateHave
  consistent : sh'.Consistent n
  completed : sh'.completed = (sh.completed || sh.piecesLeft == 1)

/-- A verified piece that was missing is completed. -/
theorem finishPiece_completes {disk : Disk} {sh : Shared} {state : PieceState} {fed : List UInt8}
    (sock : Socket) (hi : i.toNat < torrent.info.numPieces)
    (hsh : sh.Consistent torrent.info.numPieces)
    (hget : sh.pieceStates[i.toNat]? = some state) (hne : state ≠ .stateHave)
    (hfeed : sha1Feed torrent disk i = .ok fed)
    (hhash : torrent.info.pieces.getD i.toNat [] = sha1 fed) :
    ∃ sock' sh' events, finishPiece sha1 torrent disk sock sh i = .ok (sock', sh', events) ∧
      sh.Completes torrent.info.numPieces sh' i.toNat := by
  obtain ⟨ok, sock', hsend, -⟩ := peerMsgSend_have_frame torrent i sock
  have hcheck : check (decide (i.toNat < torrent.info.numPieces)) = .ok () :=
    check_of (by simpa using hi)
  have hver : torrentSha1Verify sha1 torrent disk i = .ok (true, fed) := by
    rw [torrentSha1Verify, hfeed, ok_bind, hhash, beq_self_eq_true]
    rfl
  rcases completionSection_cases hsh hi with ⟨hhave, -⟩ | ⟨state', hget', hne', hsec⟩
  · rw [hget] at hhave
    exact absurd (Option.some.inj hhave) hne
  have hcons := hsh.complete hget' hne' (sh.completed || sh.piecesLeft == 1)
  by_cases hlast : (sh.piecesLeft == 1) = true
  · refine ⟨sock', _, [.hashed i fed, .torrentComplete, .notifyPeersHave i], ?_,
      rfl, hcons.seeding, ?_⟩
    · simp [finishPiece, hver, handlePieceDlCompletion, hcheck, hsec, hsend, hlast]
    · simp [torrentCompleteSection, hlast]
  · refine ⟨sock', _, [.hashed i fed, .notifyPeersHave i], ?_, rfl, hcons, rfl⟩
    simp [finishPiece, hver, handlePieceDlCompletion, hcheck, hsec, hsend, hlast]

variable {w : Client} {c : Nat}

variable (sha1) in
/-- **A block arrives**: it is stored and counted off, and if it was the last
one and the piece is right, the piece is completed. -/
theorem block_reaches (sh : Shared) {disk : Disk} {r : PieceRequest} {j left : Nat}
    {b : BlockRequest} (ver : List (UInt32 × List UInt8)) (hreg : torrent.Regular)
    (hlen : content.length = torrent.totalLength)
    (hpr : pieceRequestCreate torrent i = .ok pr) (hrun : w.aborted = false)
    (hc : c < w.conns.length) (hb : pr.blockRequests[j]? = some b)
    (hsized : Sized disk torrent.fileSizes) (hr : r.pieceIndex = i)
    (hshape : shape r.blockRequests = shape pr.blockRequests)
    (hleft : r.blocksLeft = left + 1) (hlt : left + 1 < 2 ^ 32) :
    ∃ disk' r', Sized disk' torrent.fileSizes ∧
      disk'.flatten = splice disk.flatten (torrent.info.pieceLength.toNat * i.toNat + 16384 * j)
        (slice content (torrent.info.pieceLength.toNat * i.toNat + 16384 * j) b.len) ∧
      r'.pieceIndex = i ∧ shape r'.blockRequests = shape pr.blockRequests ∧
      r'.blocksLeft = left ∧
      (left ≠ 0 → ∃ ver', Reaches sha1 torrent w c ⟨sh, disk, ver, ⟨[r], .idle⟩⟩
        ⟨sh, disk', ver', ⟨[r'], .idle⟩⟩) ∧
      ∀ state, left = 0 → i.toNat < torrent.info.numPieces →
        sh.Consistent torrent.info.numPieces → sh.pieceStates[i.toNat]? = some state →
        state ≠ .stateHave → ∀ fed, sha1Feed torrent disk' i = .ok fed →
        torrent.info.pieces.getD i.toNat [] = sha1 fed →
        ∃ ver' sh', sh.Completes torrent.info.numPieces sh' i.toNat ∧
          Reaches sha1 torrent w c ⟨sh, disk, ver, ⟨[r], .idle⟩⟩
            ⟨sh', disk', ver', ⟨[r'], .idle⟩⟩ := by
  obtain ⟨hbegin, hpos, hpayload, hsize, hfits, hshaped⟩ := contentBlock hreg hlen hpr hb
  generalize hf : contentFrame torrent content i b = f at hbegin hpos hpayload hsize hfits
  have hfi : f.index = i := by rw [← hf]; rfl
  let sock : Socket := ⟨f.encode, [], fun _ => some 1, fun _ => some 1⟩
  obtain ⟨sock', disk', hrecv, -, -, hsized', hflat⟩ := peerMsgRecv_block (s := sock) hreg
    hfits hsized (fun _ => by simp [sock]) (List.append_nil f.encode).symm
  have hkey : (f.begin.toNat, f.payload.length) ∈ shape r.blockRequests := by
    rw [hshape, hbegin, hsize]
    exact hshaped
  obtain ⟨hcount, hshape'⟩ := countBlock_spec ⟨f.index, f.begin, f.payload.length⟩ hkey hleft hlt
  have hmatch : r.pieceIndex = f.index := by rw [hr, hfi]
  refine ⟨disk', countBlock ⟨f.index, f.begin, f.payload.length⟩ r, hsized', ?_, ?_,
    hshape'.trans hshape, hcount, ?_, ?_⟩
  · rw [hflat, hpos, hpayload]
  · rw [countBlock_pieceIndex, hr]
  · intro hmore
    have hframe : handlePieceFrame sha1 torrent sh ⟨sock, disk, [r]⟩ = .ok (some (⟨sock', disk',
        [countBlock ⟨f.index, f.begin, f.payload.length⟩ r]⟩, sh, [])) := by
      simp [handlePieceFrame, hrecv, processPieceMsg, hmatch, hcount, hmore]
    exact handlePieceFrame_reaches hrun hc hframe
  · intro state hlast hi hsh hget hne fed hfeed hhash
    obtain ⟨sock₁, sh₁, events, hfinish, hdone⟩ :=
      finishPiece_completes sock' hi hsh hget hne hfeed hhash
    have hframe : handlePieceFrame sha1 torrent sh ⟨sock, disk, [r]⟩ = .ok (some (⟨sock₁, disk',
        [countBlock ⟨f.index, f.begin, f.payload.length⟩ r]⟩, sh₁, events)) := by
      rw [← hfi] at hfinish
      simp [handlePieceFrame, hrecv, processPieceMsg, hmatch, hcount, hlast, countBlock_pieceIndex,
        hfinish]
    obtain ⟨ver', hreach⟩ := handlePieceFrame_reaches hrun hc hframe
    exact ⟨ver', sh₁, hdone, hreach⟩

/-- **The blocks from `j` on arrive.** What the files held before the first of
them had arrived is `base`; the induction is on the blocks that are left. -/
theorem blocks_reach {base : List UInt8} {sh : Shared} {state : PieceState}
    (hreg : torrent.Regular) (hcontent : torrent.IsContent sha1 content)
    (hpr : pieceRequestCreate torrent i = .ok pr) (hrun : w.aborted = false)
    (hc : c < w.conns.length) (hi : i.toNat < torrent.info.numPieces)
    (hsh : sh.Consistent torrent.info.numPieces)
    (hget : sh.pieceStates[i.toNat]? = some state) (hne : state ≠ .stateHave)
    (hbase : base.length = torrent.totalLength) (left : Nat) :
    ∀ {j : Nat} {disk : Disk} {r : PieceRequest} (ver : List (UInt32 × List UInt8)),
      j + left + 1 = pr.blockRequests.length → Sized disk torrent.fileSizes →
      disk.flatten = splice base (torrent.info.pieceLength.toNat * i.toNat)
        (slice content (torrent.info.pieceLength.toNat * i.toNat) (16384 * j)) →
      r.pieceIndex = i → shape r.blockRequests = shape pr.blockRequests →
      r.blocksLeft = left + 1 →
      ∃ disk' r' ver' sh', Sized disk' torrent.fileSizes ∧
        disk'.flatten = splice base (torrent.info.pieceLength.toNat * i.toNat)
          (slice content (torrent.info.pieceLength.toNat * i.toNat)
            torrent.info.pieceLength.toNat) ∧
        sh.Completes torrent.info.numPieces sh' i.toNat ∧
        Reaches sha1 torrent w c ⟨sh, disk, ver, ⟨[r], .idle⟩⟩
          ⟨sh', disk', ver', ⟨[r'], .idle⟩⟩ := by
  have hsch := scheduled_of_create hpr
  have hsum : torrent.totalLength = torrent.fileSizes.sum := rfl
  have hin := hcontent.inside i.toNat hi
  -- storing block `j` behind the blocks before it
  have hstore : ∀ {j : Nat} {b : BlockRequest} {disk disk' : Disk},
      pr.blockRequests[j]? = some b →
      disk.flatten = splice base (torrent.info.pieceLength.toNat * i.toNat)
        (slice content (torrent.info.pieceLength.toNat * i.toNat) (16384 * j)) →
      disk'.flatten = splice disk.flatten (torrent.info.pieceLength.toNat * i.toNat + 16384 * j)
        (slice content (torrent.info.pieceLength.toNat * i.toNat + 16384 * j) b.len) →
      disk'.flatten = splice base (torrent.info.pieceLength.toNat * i.toNat)
        (slice content (torrent.info.pieceLength.toNat * i.toNat) (16384 * j + b.len)) := by
    intro j b disk disk' hb hdisk hdisk'
    have hblock := hreg.block hsch hb
    have hl := hblock.len
    have hp := hblock.pos
    have hfirst : (slice content (torrent.info.pieceLength.toNat * i.toNat) (16384 * j)).length
        = 16384 * j := by
      rw [length_slice, hcontent.length]
      omega
    have hsecond : (slice content (torrent.info.pieceLength.toNat * i.toNat + 16384 * j)
        b.len).length = b.len := by
      rw [length_slice, hcontent.length]
      omega
    have hfits : torrent.info.pieceLength.toNat * i.toNat +
        ((slice content (torrent.info.pieceLength.toNat * i.toNat) (16384 * j)).length +
          (slice content (torrent.info.pieceLength.toNat * i.toNat + 16384 * j) b.len).length)
        ≤ base.length := by
      rw [hfirst, hsecond, hbase]
      omega
    have hadj := splice_splice_adjacent hfits
    rw [hfirst] at hadj
    rw [hdisk', hdisk, slice_length_add, hadj]
  induction left with
  | zero =>
    intro j disk r ver hj hsized hdisk hr hshape hleft
    have hlt : j < pr.blockRequests.length := by omega
    have hb : pr.blockRequests[j]? = some pr.blockRequests[j] := List.getElem?_eq_getElem hlt
    obtain ⟨disk', r', hsized', hflat, -, -, -, -, hlast⟩ := block_reaches sha1 sh
      ver hreg hcontent.length hpr hrun hc hb hsized hr hshape hleft (by decide)
    have hall := hstore hb hdisk hflat
    -- the last block ends with the piece, or with the content
    have hend := hsch.schedule.end_eq_of_dvd hreg.multiple torrent.info.pieceLength.toNat_lt
    have hlen := (hreg.block hsch hb).len
    have hpos := (hreg.block hsch hb).pos
    rw [blocksEnd, hreg.pieceStart_eq, Nat.zero_add] at hend
    have hwhole : slice content (torrent.info.pieceLength.toNat * i.toNat)
        (16384 * j + pr.blockRequests[j].len) = slice content
          (torrent.info.pieceLength.toNat * i.toNat) torrent.info.pieceLength.toNat := by
      rw [slice, slice, List.take_eq_take_iff, List.length_drop, hcontent.length]
      omega
    rw [hwhole] at hall
    have hfeed := sha1Feed_range hreg hpr hi hin hsized'
    have hread : slice disk'.flatten (torrent.info.pieceLength.toNat * i.toNat)
        torrent.info.pieceLength.toNat = slice content
          (torrent.info.pieceLength.toNat * i.toNat) torrent.info.pieceLength.toNat := by
      rw [hall]
      exact slice_splice_slice _ (by rw [hbase, hcontent.length]) (by omega)
    rw [hread] at hfeed
    obtain ⟨ver', sh', hdone, hreach⟩ := hlast state rfl hi hsh hget hne _ hfeed
      (hcontent.hashes i.toNat hi)
    exact ⟨disk', r', ver', sh', hsized', hall, hdone, hreach⟩
  | succ left ih =>
    intro j disk r ver hj hsized hdisk hr hshape hleft
    have hlt : j < pr.blockRequests.length := by omega
    have hb : pr.blockRequests[j]? = some pr.blockRequests[j] := List.getElem?_eq_getElem hlt
    have hcount := hreg.length_lt hsch
    obtain ⟨disk₁, r₁, hsized₁, hflat, hr₁, hshape₁, hleft₁, hmore, -⟩ :=
      block_reaches sha1 sh ver hreg hcontent.length hpr hrun hc hb hsized hr
        hshape hleft (by omega)
    have hfull : pr.blockRequests[j].len = 16384 := hsch.schedule.full hb (by omega)
    have hall := hstore hb hdisk hflat
    rw [hfull, show 16384 * j + 16384 = 16384 * (j + 1) from by omega] at hall
    obtain ⟨ver₁, hreach⟩ := hmore (by omega)
    obtain ⟨disk', r', ver', sh', hsized', hdisk', hdone, hrest⟩ :=
      ih ver₁ (by omega) hsized₁ hall hr₁ hshape₁ hleft₁
    exact ⟨disk', r', ver', sh', hsized', hdisk', hdone, hreach.trans hrest⟩

end Piece

/-! ## One piece -/

/-- A peer that has piece `k` and no other. -/
def onlyBit (k : Nat) : List UInt8 := packedSet (List.replicate (k / 8 + 1) 0) k

theorem onlyBit_isset (k j : Nat) : bitfieldIsset j (onlyBit k) = decide (k = j) := by
  have hzero : packedBit (List.replicate (k / 8 + 1) 0) j = false := by
    rw [packedBit, List.getD_eq_getElem?_getD, List.getElem?_replicate]
    split <;> simp
  rw [bitfieldIsset_eq, onlyBit, packedBit_packedSet (by simp), hzero, Bool.false_or]

/-- Such a peer is asked for its piece, if it is missing. -/
theorem torrentNextRequest_only {sh : Shared} {k : Nat} {state : PieceState}
    (hget : sh.pieceStates[k]? = some state) (hne : state ≠ .stateHave) (hk : k < 2 ^ 32) :
    torrentNextRequest sh (onlyBit k) =
      (some k, { sh with pieceStates := sh.pieceStates.set k .stateRequested }) := by
  have hoffered : Offered (onlyBit k) sh.pieceStates state k :=
    ⟨hget, by rw [onlyBit_isset, decide_eq_true_eq]⟩
  rcases torrentNextRequest_picked sh (onlyBit k) with ⟨-, hall⟩ | ⟨j, hpicked, hnext⟩
  · exact absurd (hall k state hoffered) hne
  · obtain ⟨_, ⟨-, hbit⟩, -⟩ := hpicked.offered
    rw [onlyBit_isset, decide_eq_true_eq] at hbit
    subst hbit
    rw [hnext, Nat.mod_eq_of_lt hk]

section Download

variable {sha1 : List UInt8 → List UInt8} {torrent : Metainfo} {content : List UInt8} {w : Client}

/-- What the download of piece `k` leaves behind. -/
structure Client.Fetched (torrent : Metainfo) (content : List UInt8) (w w' : Client) (k : Nat) :
    Prop where
  running : w'.aborted = false
  sized : Sized w'.disk torrent.fileSizes
  shared : w.sh.Completes torrent.info.numPieces w'.sh k
  disk : w'.disk.flatten = splice w.disk.flatten (torrent.info.pieceLength.toNat * k)
    (slice content (torrent.info.pieceLength.toNat * k) torrent.info.pieceLength.toNat)

/-- **A missing piece can be fetched**, by one connection more. -/
theorem fetch_piece (hreg : torrent.Regular) (hcontent : torrent.IsContent sha1 content)
    (hrun : w.aborted = false) (hsh : w.sh.Consistent torrent.info.numPieces)
    (hsized : Sized w.disk torrent.fileSizes) {k : Nat} {state : PieceState}
    (hget : w.sh.pieceStates[k]? = some state) (hne : state ≠ .stateHave) :
    ∃ as w', Run (Client.step sha1 torrent) unguarded w as w' ∧ as.count .connect = 1 ∧
      w.Fetched torrent content w' k := by
  obtain ⟨hlt, -⟩ := List.getElem?_eq_some_iff.mp hget
  have hk : k < torrent.info.numPieces := by rwa [hsh.length] at hlt
  have hword : k < 2 ^ 32 := Nat.lt_of_lt_of_le hk hcontent.pieces
  have hnat : (UInt32.ofNat k).toNat = k := by
    rw [UInt32.toNat_ofNat', Nat.mod_eq_of_lt hword]
  have hin := hcontent.inside k hk
  obtain ⟨pr, hpr, hsch⟩ := (pieceRequestCreate_spec torrent (UInt32.ofNat k)).1 (by
    rw [hreg.pieceStart_eq, hnat]
    omega)
  -- the connection, and its request
  let w₁ : Client := { w with conns := w.conns ++ [⟨[], .idle⟩] }
  have hc : w.conns.length < w₁.conns.length := by simp [w₁]
  have hput : w₁ = w₁.put w.conns.length ⟨w.sh, w.disk, w.verified, ⟨[], .idle⟩⟩ := by
    simp [w₁, Client.put]
  have hconnect : w.step sha1 torrent .connect = some w₁ := by
    rw [Client.step, if_neg (by rw [hrun]; decide)]
  let sh₁ : Shared := { w.sh with pieceStates := w.sh.pieceStates.set k .stateRequested }
  have hask : Reaches sha1 torrent w₁ w.conns.length
      ⟨w.sh, w.disk, w.verified, ⟨[], .idle⟩⟩ ⟨sh₁, w.disk, w.verified, ⟨[pr], .idle⟩⟩ := by
    refine .step (.sendRequests (onlyBit k)) hrun hc ?_
    simp only [Client.connStep, Client.sendRequests, Client.put, List.length_nil]
    rw [if_neg (by decide), torrentNextRequest_only hget hne hword]
    simp only [hpr, List.nil_append]
    rfl
  -- the blocks
  have hget₁ : sh₁.pieceStates[(UInt32.ofNat k).toNat]? = some .stateRequested := by
    rw [hnat]
    exact List.getElem?_set_self hlt
  have hsh₁ : sh₁.Consistent torrent.info.numPieces := by
    have hmiss := missing_set .stateRequested hget
    simp only [hne, if_false, reduceCtorEq] at hmiss
    refine ⟨by simpa [sh₁] using hsh.length, ?_, hsh.word⟩
    have hcount := hsh.count
    simp only [sh₁]
    omega
  have hblocks : 0 < pr.blockRequests.length := by
    by_contra hzero
    have hnone : pr.blockRequests.length = 0 := by omega
    have hstop := hsch.schedule.stop
    have hpos := hreg.pos
    have hsmall := hreg.small
    rw [hnone, hreg.pieceStart_eq, hnat] at hstop
    have htotal : torrent.totalLength = torrent.fileSizes.sum := rfl
    rcases hstop with hstop | hstop
    · rw [sizeSub_of_le (by omega) (by omega)] at hstop
      omega
    · omega
  have hcount := hreg.length_lt hsch
  obtain ⟨disk', r', ver', sh', hsized', hdisk', hdone, hreach⟩ :=
    blocks_reach (w := w₁) (c := w.conns.length) (j := 0) (r := pr) hreg hcontent hpr hrun hc
      (by rwa [hnat]) hsh₁ hget₁ (by decide) hsized.length_flatten
      (pr.blockRequests.length - 1) w.verified (by omega) hsized
      (by simp) hsch.indexed rfl (by rw [hsch.count]; omega)
  rw [hnat] at hdisk' hdone
  obtain ⟨as, has⟩ := hask.trans hreach
  rw [← hput] at has
  refine ⟨.connect :: as, _, .cons trivial hconnect has, ?_, ?_⟩
  · have hconns := length_conns has
    rw [show (w₁.put w.conns.length ⟨sh', disk', ver', ⟨[r'], .idle⟩⟩).conns.length =
      w₁.conns.length from List.length_set] at hconns
    rw [List.count_cons_self]
    omega
  · refine ⟨hrun, hsized', ⟨?_, hdone.consistent, ?_⟩, hdisk'⟩
    · show sh'.pieceStates = _
      rw [hdone.states, List.set_set]
    · exact hdone.completed

/-- A piece that is not the one fetched keeps its bytes. -/
theorem Client.Fetched.others {w' : Client} {k j : Nat} (h : w.Fetched torrent content w' k)
    (hlen : content.length = torrent.totalLength) (hsized : Sized w.disk torrent.fileSizes)
    (hk : torrent.info.pieceLength.toNat * k < torrent.totalLength) (hne : j ≠ k) :
    slice w'.disk.flatten (torrent.info.pieceLength.toNat * j) torrent.info.pieceLength.toNat =
      slice w.disk.flatten (torrent.info.pieceLength.toNat * j)
        torrent.info.pieceLength.toNat := by
  have hflat : w.disk.flatten.length = torrent.totalLength := hsized.length_flatten
  have hsize := length_slice content (torrent.info.pieceLength.toNat * k)
    torrent.info.pieceLength.toNat
  rw [h.disk]
  apply slice_splice_disjoint
  · omega
  · -- pieces are whole multiples of the piece length apart
    rcases Nat.lt_or_gt_of_ne hne with hjk | hjk
    · left
      calc torrent.info.pieceLength.toNat * j + torrent.info.pieceLength.toNat
          = torrent.info.pieceLength.toNat * (j + 1) := (Nat.mul_succ _ _).symm
        _ ≤ torrent.info.pieceLength.toNat * k := Nat.mul_le_mul_left _ hjk
    · right
      calc torrent.info.pieceLength.toNat * k + _
          ≤ torrent.info.pieceLength.toNat * k + torrent.info.pieceLength.toNat := by omega
        _ = torrent.info.pieceLength.toNat * (k + 1) := (Nat.mul_succ _ _).symm
        _ ≤ torrent.info.pieceLength.toNat * j := Nat.mul_le_mul_left _ hjk

/-- What a finished download leaves behind: everything is there, the pieces
that were missing as in the content, the others as they were. -/
structure Client.Finished (torrent : Metainfo) (content : List UInt8) (w w' : Client) : Prop where
  complete : ∀ s ∈ w'.sh.pieceStates, s = .stateHave
  completed : w.sh.completed = true ∨ missing w.sh.pieceStates ≠ 0 → w'.sh.completed = true
  fetched : ∀ k state, w.sh.pieceStates[k]? = some state → state ≠ .stateHave →
    slice w'.disk.flatten (torrent.info.pieceLength.toNat * k) torrent.info.pieceLength.toNat =
      slice content (torrent.info.pieceLength.toNat * k) torrent.info.pieceLength.toNat
  kept : ∀ k : Nat, w.sh.pieceStates[k]? = some .stateHave →
    slice w'.disk.flatten (torrent.info.pieceLength.toNat * k) torrent.info.pieceLength.toNat =
      slice w.disk.flatten (torrent.info.pieceLength.toNat * k) torrent.info.pieceLength.toNat

/-- **The missing pieces can be fetched one after the other.** -/
theorem finish_missing (hreg : torrent.Regular) (hcontent : torrent.IsContent sha1 content)
    (n : Nat) : ∀ {w : Client}, missing w.sh.pieceStates = n → w.aborted = false →
      w.sh.Consistent torrent.info.numPieces → Sized w.disk torrent.fileSizes →
      ∃ as w', Run (Client.step sha1 torrent) unguarded w as w' ∧ as.count .connect = n ∧
        Sized w'.disk torrent.fileSizes ∧ w.Finished torrent content w' := by
  induction n with
  | zero =>
    intro w hmiss _ _ hsized
    have hall := missing_eq_zero.mp hmiss
    refine ⟨[], w, .nil, rfl, hsized, hall, ?_, ?_, fun _ _ => rfl⟩
    · rintro (hdone | hne)
      · exact hdone
      · exact absurd hmiss hne
    · intro k state hget hne
      exact absurd (hall state (List.mem_of_getElem? hget)) hne
  | succ n ih =>
    intro w hmiss hrun hsh hsized
    -- some piece is missing
    obtain ⟨state, hmem, hstate⟩ := List.countP_pos_iff.mp
      (show 0 < w.sh.pieceStates.countP (fun s => s != .stateHave) from by
        rw [← missing, hmiss]
        omega)
    have hne : state ≠ .stateHave := by simpa using hstate
    obtain ⟨k, hk, hget⟩ := List.getElem_of_mem hmem
    have hget : w.sh.pieceStates[k]? = some state := by rw [List.getElem?_eq_getElem hk, hget]
    have hin := hcontent.inside k (by rwa [hsh.length] at hk)
    obtain ⟨as, w₁, has, hone, hfetch⟩ := fetch_piece hreg hcontent hrun hsh hsized hget hne
    have hset := missing_set .stateHave hget
    simp only [hne, if_false, if_true] at hset
    rw [← hfetch.shared.states] at hset
    obtain ⟨bs, w', hbs, hcount, hsized', hfin⟩ := ih (by omega) hfetch.running
      hfetch.shared.consistent hfetch.sized
    have hhave : w₁.sh.pieceStates[k]? = some .stateHave := by
      rw [hfetch.shared.states]
      exact List.getElem?_set_self hk
    have hother : ∀ j, j ≠ k → w₁.sh.pieceStates[j]? = w.sh.pieceStates[j]? := by
      intro j hj
      rw [hfetch.shared.states, List.getElem?_set_ne hj.symm]
    refine ⟨as ++ bs, w', has.append hbs, by rw [List.count_append, hone, hcount]; omega,
      hsized', hfin.complete, ?_, ?_, ?_⟩
    · intro _
      apply hfin.completed
      by_cases hlast : missing w₁.sh.pieceStates = 0
      · left
        have hleft : w.sh.piecesLeft = 1 := by
          have hcount := hsh.count
          omega
        rw [hfetch.shared.completed, hleft]
        simp
      · exact .inr hlast
    · intro j state' hget' hne'
      by_cases hj : j = k
      · subst hj
        rw [hfin.kept j hhave, hfetch.disk]
        exact slice_splice_slice _ (by rw [hsized.length_flatten, hcontent.length]; rfl)
          (by rw [hsized.length_flatten]; exact Nat.le_of_lt hin)
      · exact hfin.fetched j state' (by rw [hother j hj, hget']) hne'
    · intro j hget'
      have hj : j ≠ k := by
        rintro rfl
        rw [hget, Option.some.injEq] at hget'
        exact hne hget'
      rw [hfin.kept j (by rw [hother j hj, hget']),
        hfetch.others hcontent.length hsized hin hj]

end Download

end BtClient

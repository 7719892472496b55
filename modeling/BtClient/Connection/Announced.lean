import BtClient.Connection.Calls
import BtClient.Lib.History

/-!
# Only announced pieces are requested

What the peer has announced is its latest `BITFIELD` and its `HAVE`s;
`peer_have` should be just that, because `send_requests` picks from it.
`conn_state_init` does not clear the buffer, and a `BITFIELD` is copied over
the bits of the `HAVE`s before it.
-/

namespace BtClient

open CLib

variable {sha1 : List UInt8 → List UInt8} {torrent : Metainfo}

/-- A `BITFIELD`. -/
def IsBitfield (msg : PeerMsg) : Prop := ∃ bits, msg = .bitfield bits

/-- A `BITFIELD` with bit `i`. -/
def Offers (i : Nat) (msg : PeerMsg) : Prop :=
  ∃ bits, msg = .bitfield bits ∧ bitfieldIsset i bits = true

/-- Piece `i` was announced in a `HAVE`. -/
def HaveReceived (received : List PeerMsg) (i : Nat) : Prop :=
  ∃ index, PeerMsg.haveMsg index ∈ received ∧ index.toNat = i

/-- Piece `i` was announced in the latest `BITFIELD` or in a `HAVE`. -/
def Announced (received : List PeerMsg) (i : Nat) : Prop :=
  Since (Offers i) IsBitfield received ∨ HaveReceived received i

/-- `peer_have` is the set of the announced pieces. -/
def HaveTracks (torrent : Metainfo) (p : Peering) : Prop :=
  ∀ i < torrent.info.numPieces,
    bitfieldIsset i p.state.peerHave = true ↔ Announced p.received i

/-- A `send_requests` in this state asks for announced pieces only. -/
def RequestsAnnounced (torrent : Metainfo) (p : Peering) : Prop :=
  ∀ sock sh r, sh.pieceStates.length = torrent.info.numPieces →
    sendRequests torrent sock p.state sh = .ok r →
    ∀ request, .request request ∈ r.sent → Announced p.received request.index.toNat

/-- The block that `malloc` returned for `peer_have` has no bit of a piece set. -/
def MemoryCleared (fill : Nat → UInt8) (torrent : Metainfo) : Prop :=
  ∀ i < torrent.info.numPieces,
    bitfieldIsset i ((List.range (bitfieldNumBytes torrent.info.numPieces % 2 ^ 16)).map fill) =
      false

/-- A `BITFIELD` has the bits of all `HAVE`s received before it. -/
def BitfieldKeepsHaves (torrent : Metainfo) (p : Peering) (a : ConnCall × Surroundings) : Prop :=
  ∀ bits, a.1 = .processMsg (.bitfield bits) →
    ∀ i < torrent.info.numPieces, HaveReceived p.received i → bitfieldIsset i bits = true

/-! ## One message -/

theorem not_announced_nil (i : Nat) : ¬ Announced [] i := by
  rintro (h | ⟨index, hmem, -⟩)
  · exact not_since_nil h
  · cases hmem

theorem haveReceived_snoc (received : List PeerMsg) (msg : PeerMsg) (i : Nat) :
    HaveReceived (received ++ [msg]) i ↔
      HaveReceived received i ∨ ∃ index, msg = .haveMsg index ∧ index.toNat = i := by
  simp only [HaveReceived, List.mem_append, List.mem_singleton, or_and_right, exists_or,
    eq_comm (a := msg)]

theorem announced_have (received : List PeerMsg) (index : UInt32) (i : Nat) :
    Announced (received ++ [.haveMsg index]) i ↔ Announced received i ∨ index.toNat = i := by
  unfold Announced
  rw [since_snoc_of_neither _ (by simp [Offers]) (by simp [IsBitfield]), haveReceived_snoc]
  simp [or_assoc]

theorem announced_bitfield (received : List PeerMsg) (bits : List UInt8) (i : Nat) :
    Announced (received ++ [.bitfield bits]) i ↔
      bitfieldIsset i bits = true ∨ HaveReceived received i := by
  unfold Announced
  rw [since_snoc, haveReceived_snoc]
  simp [Offers, IsBitfield]

theorem announced_other {received : List PeerMsg} {msg : PeerMsg}
    (hhave : ∀ index, msg ≠ .haveMsg index) (hbits : ∀ bits, msg ≠ .bitfield bits) (i : Nat) :
    Announced (received ++ [msg]) i ↔ Announced received i := by
  unfold Announced
  rw [since_snoc_of_neither _ (by simp [Offers, hbits]) (by simp [IsBitfield, hbits]),
    haveReceived_snoc]
  simp [hhave]

/-- A `HAVE` that fits is recorded. -/
theorem haveTracks_have {p q : Peering} {index : UInt32} (hp : HaveTracks torrent p)
    (heff : MsgEffect (.haveMsg index) p.state q.state)
    (hrecv : q.received = p.received ++ [.haveMsg index]) : HaveTracks torrent q := by
  intro i hi
  rw [heff.peerHave, hrecv, announced_have, ← hp i hi]
  show packedBit (packedSet p.state.peerHave index.toNat) i = true ↔ _
  rw [packedBit_packedSet heff.fits, Bool.or_eq_true, decide_eq_true_eq]
  rfl

/-- A `BITFIELD` is recorded, and the `HAVE`s before it are lost unless it
repeats them. -/
theorem haveTracks_bitfield {p q : Peering} {bits : List UInt8}
    (hlen : p.state.bitlen = torrent.info.numPieces)
    (heff : MsgEffect (.bitfield bits) p.state q.state)
    (hrecv : q.received = p.received ++ [.bitfield bits]) :
    HaveTracks torrent q ↔ ∀ i < torrent.info.numPieces,
      HaveReceived p.received i → bitfieldIsset i bits = true := by
  have hbit : ∀ i < torrent.info.numPieces,
      bitfieldIsset i q.state.peerHave = bitfieldIsset i bits := by
    intro i hi
    rw [heff.peerHave]
    refine packedBit_splice ?_
    rw [heff.fits.1, hlen]
    exact lt_bitfieldNumBytes hi
  constructor
  · intro hq i hi hhave
    rw [← hbit i hi, hq i hi, hrecv, announced_bitfield]
    exact .inr hhave
  · intro hkeeps i hi
    rw [hbit i hi, hrecv, announced_bitfield]
    exact ⟨.inl, fun h => h.elim id (hkeeps i hi)⟩

/-- **One call** keeps `peer_have` exact exactly when it is no `BITFIELD` that
drops a `HAVE`. -/
theorem haveTracks_step {p q : Peering} {a : ConnCall × Surroundings}
    (hsized : p.state.Sized torrent) (hp : HaveTracks torrent p)
    (h : p.step sha1 torrent a = some q) :
    HaveTracks torrent q ↔ BitfieldKeepsHaves torrent p a := by
  rcases Peering.step_cases h with ⟨msg, hcall, heff, hrecv⟩ | ⟨hcall, hsame, hrecv⟩
  · unfold BitfieldKeepsHaves
    rw [hcall]
    cases msg with
    | bitfield bits =>
      rw [haveTracks_bitfield hsized.bitlen heff hrecv]
      simp
    | haveMsg index => simpa using haveTracks_have hp heff hrecv
    | _ =>
      have hq : HaveTracks torrent q := by
        intro i hi
        rw [heff.peerHave, hrecv, announced_other (by simp) (by simp)]
        exact hp i hi
      simpa using hq
  · have hq : HaveTracks torrent q := by
      intro i hi
      rw [hsame.peerHave, hrecv]
      exact hp i hi
    exact ⟨fun _ bits hbits => absurd hbits (hcall _), fun _ => hq⟩

/-! ## `send_requests` -/

/-- Every message of the inner loop is a `REQUEST` for the piece. -/
theorem sendBlockRequests_index {pieceIndex : UInt32} (brs : List BlockRequest) :
    ∀ {sock sock' : Socket} {ok : Bool} {sent : List PeerMsg},
      sendBlockRequests torrent pieceIndex brs sock = .ok (ok, sock', sent) →
      ∀ request, .request request ∈ sent → request.index = pieceIndex := by
  induction brs with
  | nil =>
    intro sock sock' ok sent h request hmem
    cases h
    cases hmem
  | cons br brs ih =>
    intro sock sock' ok sent h request hmem
    obtain ⟨⟨ok₁, sock₁⟩, -, h⟩ := (seq_returns_iff _ _ _).mp h
    cases ok₁ with
    | true =>
      obtain ⟨⟨ok₂, sock₂, sent₂⟩, hrest, h⟩ := (seq_returns_iff _ _ _).mp h
      cases h
      rcases List.mem_cons.mp hmem with heq | hmem
      · cases heq
        rfl
      · exact ih hrest request hmem
    | false =>
      cases h
      cases List.mem_singleton.mp hmem
      rfl

theorem pieceRequestCreate_index {index : UInt32} {pr : PieceRequest}
    (h : pieceRequestCreate torrent index = .ok pr) : pr.pieceIndex = index := by
  obtain ⟨cur, -, h⟩ := (seq_returns_iff _ _ _).mp h
  obtain ⟨blocks, -, h⟩ := (seq_returns_iff _ _ _).mp h
  cases h
  rfl

/-- The piece that `torrent_next_request` picks has its bit set. A bitfield of
fewer than `2^16` bytes has no bit that the 32 bits of the index would lose. -/
theorem torrentNextRequest_isset {sh sh' : Shared} {peerHave : List UInt8} {index : Nat}
    (hbytes : peerHave.length < 2 ^ 16)
    (h : torrentNextRequest sh peerHave = (some index, sh')) :
    index < 2 ^ 32 ∧ index < sh.pieceStates.length ∧ bitfieldIsset index peerHave = true := by
  rcases torrentNextRequest_cases sh peerHave with hnone | ⟨k, _, hget, -, hbit, hsome⟩
  · rw [hnone] at h
    cases h
  · rw [hsome, Prod.mk.injEq, Option.some.injEq] at h
    have hinside : k / 8 < peerHave.length := by
      by_contra hout
      rw [bitfieldIsset_eq, packedBit_eq_false_of_le (by omega)] at hbit
      cases hbit
    have hindex : index = k := by
      rw [← h.1]
      omega
    rw [hindex]
    exact ⟨by omega, (List.getElem?_eq_some_iff.mp hget).1, hbit⟩

/-- A `REQUEST` is for the piece that `torrent_next_request` has picked. -/
theorem sendRequests_picked {sock : Socket} {state : ConnState} {sh : Shared} {r : SentRequests}
    (h : sendRequests torrent sock state sh = .ok r) {request : RequestMsg}
    (hmem : .request request ∈ r.sent) :
    ∃ index sh', torrentNextRequest sh state.peerHave = (some index, sh') ∧
      request.index = UInt32.ofNat index := by
  rcases sendRequests_cases h with ⟨-, -, hsent⟩ | ⟨-, -, -, hnone⟩ |
    ⟨index, pr, -, hpick, hpr, hsend, -⟩
  · rw [hsent] at hmem
    cases hmem
  · exact absurd hmem (hnone request)
  · have hindex := sendBlockRequests_index _ hsend request hmem
    rw [pieceRequestCreate_index hpr] at hindex
    exact ⟨index, _, Prod.ext hpick rfl, hindex⟩

/-- From an exact `peer_have` only announced pieces are requested. -/
theorem HaveTracks.requests {p : Peering} (hp : HaveTracks torrent p)
    (hsized : p.state.Sized torrent) : RequestsAnnounced torrent p := by
  intro sock sh r hlen hr request hmem
  obtain ⟨index, sh', hpick, hindex⟩ := sendRequests_picked hr hmem
  have hbytes : p.state.peerHave.length < 2 ^ 16 := by
    rw [hsized.peerHave]
    exact Nat.mod_lt _ (by decide)
  obtain ⟨hword, hlt, hbit⟩ := torrentNextRequest_isset hbytes hpick
  rw [hindex, UInt32.toNat_ofNat', Nat.mod_eq_of_lt hword]
  rw [hlen] at hlt
  exact (hp _ hlt).mp hbit

/-! ## Whole runs -/

theorem sizedTracks_step {p q : Peering} {a : ConnCall × Surroundings}
    (hp : p.state.Sized torrent ∧ HaveTracks torrent p) (h : p.step sha1 torrent a = some q) :
    q.state.Sized torrent ∧ HaveTracks torrent q ↔ BitfieldKeepsHaves torrent p a := by
  rw [← haveTracks_step hp.1 hp.2 h]
  exact and_iff_right (Peering.step_sized h hp.1)

/-- Before the first message `peer_have` is exact if it is empty. -/
theorem haveTracks_init_iff {fill : Nat → UInt8} {sh : Shared} {state : ConnState}
    (hinit : connStateInit fill torrent sh = .ok state) :
    HaveTracks torrent ⟨state, []⟩ ↔ MemoryCleared fill torrent := by
  obtain ⟨localHave, -, hstate⟩ := (seq_returns_iff _ _ _).mp hinit
  cases hstate
  unfold HaveTracks MemoryCleared
  simp only [not_announced_nil, iff_false, Bool.not_eq_true]

/-- A `HAVE` of the first piece and a `BITFIELD` that repeats it. -/
def haveThenBitfield : List (ConnCall × Surroundings) :=
  [(.processMsg (.haveMsg 0), quiet eightComplete),
    (.processMsg (.bitfield [128]), quiet eightComplete)]

end BtClient

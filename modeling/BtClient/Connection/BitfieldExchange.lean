import BtClient.Connection.Interest

/-!
# A bitfield from one client to the other

The path of a `BITFIELD`: `make_bitfield` packs the piece states of the sender,
`peer_msg_send` writes them behind the length word, `peer_msg_recv` reads them
back and `process_msg` stores them in `peer_have` of the receiver.
-/

namespace BtClient

open CLib

variable {sha1 : List UInt8 → List UInt8} {torrent : Metainfo}

/-- `peer_have` is the piece states `sh`: a bit for each `HAVE` piece, and none
in the spare bits of the last byte. -/
structure HoldsStates (torrent : Metainfo) (peerHave : List UInt8) (sh : Shared) : Prop where
  pieces : ∀ i < torrent.info.numPieces,
    bitfieldIsset i peerHave = true ↔ sh.pieceStates[i]? = some .stateHave
  spare : ∀ i, torrent.info.numPieces ≤ i → i < 8 * bitfieldNumBytes torrent.info.numPieces →
    bitfieldIsset i peerHave = false

/-- A bitfield of the torrent's size in a connection of it. -/
theorem processBitfield_stores {bits : List UInt8} {state : ConnState}
    (hn : torrent.info.numPieces ≤ 524280) (hsized : state.Sized torrent)
    (hbits : bits.length = bitfieldNumBytes torrent.info.numPieces) (sock : Socket) (sh : Shared) :
    ∃ sock' state', processBitfield torrent bits sock state sh = .ok (sock', state') ∧
      state'.peerHave = bits := by
  have hpeer : state.peerHave.length = bits.length := by
    rw [hsized.peerHave, hbits, bitfieldNumBytes_mod hn]
  obtain ⟨sock', state', hcase, -⟩ := processBitfield_spec torrent sock sh
    (by rw [hsized.bitlen, hbits]) (Nat.le_of_eq hpeer.symm)
  refine ⟨sock', state', hcase, ?_⟩
  rw [(processBitfield_cases hcase).2.2.sameBits.peerHave]
  show splice state.peerHave 0 bits = bits
  rw [splice, List.take_zero, List.nil_append, Nat.zero_add, ← hpeer, List.drop_length,
    List.append_nil]

/-- What `make_bitfield` builds holds the states it was built from. -/
theorem holdsStates_of_bits {sh : Shared} {bits : List UInt8}
    (hlen : sh.pieceStates.length = torrent.info.numPieces)
    (hset : ∀ j, packedBit bits j = true ↔ sh.pieceStates[j]? = some .stateHave) :
    HoldsStates torrent bits sh := by
  refine ⟨fun i _ => hset i, fun i hi _ => ?_⟩
  rw [bitfieldIsset_eq, Bool.eq_false_iff, Ne, hset, List.getElem?_eq_none (by omega)]
  simp

/-- A shared state of `eightPieces` with two pieces done. -/
def firstAndThird : Shared where
  state := .stateLeeching
  pieceStates := [.stateHave, .stateRequested, .stateHave, .stateNotRequested,
    .stateNotRequested, .stateNotRequested, .stateNotRequested, .stateNotRequested]
  piecesLeft := 6
  completed := false

/-- The frame of that bitfield on its way, in chunks of three bytes. -/
def bitfieldArrives : Socket where
  rx := [0, 0, 0, 2, 5, 160]
  tx := []
  recvPlan := fun _ => some 3
  sendPlan := fun _ => none

end BtClient

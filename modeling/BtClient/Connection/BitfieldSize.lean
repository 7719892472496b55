import BtClient.Connection.Calls
import BtClient.FileParser.RoundTrip

/-!
# The size of the bitfield buffers

`conn_state_init` computes the size of `peer_have` in a `uint16_t`, while the
copy of a `MSG_BITFIELD` and the scan of `torrent_next_request` go by
`num_pieces`, a `size_t`. Both stay inside the buffer exactly as long as the
size fits its variable.
-/

namespace BtClient

open CLib

/-- `peer_have` is large enough for what is done with it: the copy of the
torrent's bitfield, and the scan over all pieces, whatever their states. -/
structure BuffersFit (torrent : Metainfo) (state : ConnState) : Prop where
  allocated : bitfieldNumBytes torrent.info.numPieces ≤ state.peerHave.length
  copy : ∀ bits : List UInt8, bits.length = bitfieldNumBytes state.bitlen →
    ∃ peerHave, RequestQueue.memWrite state.peerHave 0 bits = .ok peerHave
  scan : ∀ sh : Shared, sh.pieceStates.length = torrent.info.numPieces →
    ∃ r, torrentNextRequestLoad sh state.peerHave = .ok r

/-- The bytes of a bitfield have room for its bits. -/
theorem le_bitfieldNumBytes (n : Nat) : n ≤ 8 * bitfieldNumBytes n := by
  unfold bitfieldNumBytes
  split <;> omega

theorem bitfieldNumBytes_large {n : Nat} (h : 524280 < n) : 2 ^ 16 ≤ bitfieldNumBytes n := by
  unfold bitfieldNumBytes
  split <;> omega

theorem memWrite_start {mem bs : List UInt8} (h : bs.length ≤ mem.length) :
    RequestQueue.memWrite mem 0 bs = .ok (splice mem 0 bs) := by
  unfold RequestQueue.memWrite
  rw [if_pos (by simpa using h)]
  rfl

/-- A buffer of the full size holds everything. -/
theorem BuffersFit.of_allocated {torrent : Metainfo} {state : ConnState}
    (hsized : state.Sized torrent)
    (halloc : bitfieldNumBytes torrent.info.numPieces ≤ state.peerHave.length) :
    BuffersFit torrent state := by
  refine ⟨halloc, ?_, ?_⟩
  · intro bits hbits
    rw [hsized.bitlen] at hbits
    exact ⟨_, memWrite_start (by omega)⟩
  · intro sh hlen
    have hbits := le_bitfieldNumBytes torrent.info.numPieces
    have hinside : scanInside state.peerHave sh.pieceStates 0 = true :=
      scanInside_of_length _ _ 0 (by omega)
    exact ⟨_, by rw [torrentNextRequestLoad, if_pos hinside]⟩

/-- The buffer of a connection has the full size up to `8 * (2^16 - 1)` pieces,
and for no larger torrent. -/
theorem ConnState.Sized.allocated_iff {torrent : Metainfo} {state : ConnState}
    (hsized : state.Sized torrent) :
    bitfieldNumBytes torrent.info.numPieces ≤ state.peerHave.length ↔
      torrent.info.numPieces ≤ 524280 := by
  rw [hsized.peerHave]
  constructor
  · intro hle
    by_contra hlarge
    have hbytes := bitfieldNumBytes_large (Nat.not_le.mp hlarge)
    have hmod := Nat.mod_lt (bitfieldNumBytes torrent.info.numPieces) (Nat.two_pow_pos 16)
    omega
  · intro hn
    rw [bitfieldNumBytes_mod hn]

theorem ConnState.Sized.buffersFit_iff {torrent : Metainfo} {state : ConnState}
    (hsized : state.Sized torrent) :
    BuffersFit torrent state ↔ torrent.info.numPieces ≤ 524280 := by
  rw [← hsized.allocated_iff]
  exact ⟨fun h => h.allocated, .of_allocated hsized⟩

/-- **The bitfield buffer fits the torrent exactly up to `524280` pieces**, on a
new connection and after any calls. -/
theorem bitfield_buffers_fit_iff (sha1 : List UInt8 → List UInt8) (torrent : Metainfo)
    (fill : Nat → UInt8) (sh : Shared) (state : ConnState)
    (calls : List (ConnCall × Surroundings)) (p : Peering)
    (hinit : connStateInit fill torrent sh = .ok state)
    (hrun : Run (Peering.step sha1 torrent) unguarded ⟨state, []⟩ calls p) :
    BuffersFit torrent p.state ↔ torrent.info.numPieces ≤ 524280 :=
  (Peering.run_sized hinit hrun).buffersFit_iff

/-- A new connection of a torrent of eight pieces. -/
theorem bitfield_buffers_fit_eight : BuffersFit eightPieces (newConn (fun _ => 0) [0]) :=
  (bitfield_buffers_fit_iff (fun _ => []) eightPieces (fun _ => 0) (sharedInit 8) _ [] _
    (connStateInit_eightPieces _) .nil).mpr (by decide)

/-! ## A torrent file with too many pieces -/

theorem connStateInit_returns (fill : Nat → UInt8) {torrent : Metainfo} {sh : Shared}
    (hlen : sh.pieceStates.length = torrent.info.numPieces) :
    ∃ state, connStateInit fill torrent sh = .ok state := by
  obtain ⟨bits, hbits, -⟩ := makeBitfield_spec hlen
  rw [connStateInit, hbits]
  exact ⟨_, rfl⟩

/-- A single file of one byte in `n + 1` pieces. -/
def manyPieces (n : Nat) : Description where
  announce := [97]
  announceList := none
  name := [97]
  pieceLength := 16384
  pieces := 97 :: List.replicate (20 * n + 19) 97
  layout := .single 1

theorem manyPieces_good (n : Nat) : (manyPieces n).Good where
  announce := rfl
  tiers := by intro tier h; cases h
  name := rfl
  pieceLength := by show 16384 < 2 ^ 63; decide
  pieces := rfl
  whole := by
    show ((97 : UInt8) :: List.replicate (20 * n + 19) 97).length % 20 = 0
    rw [List.length_cons, List.length_replicate]
    omega
  layout := rfl

theorem length_encodeStr_le {s : List UInt8} (h : s.length < 2 ^ 64) :
    (encodeStr s).length ≤ 21 + s.length := by
  have hdigits := length_decimal_le h
  rw [encodeStr, List.length_append, List.length_cons]
  omega

theorem length_encode_manyPieces {n : Nat} (h : n < 2 ^ 32) :
    (encode (manyPieces n).toValue).length < 2 ^ 63 := by
  have hpieces : (encodeStr (manyPieces n).pieces).length ≤ 21 + (20 * n + 20) := by
    have hlen : (manyPieces n).pieces.length = 20 * n + 20 := by
      rw [manyPieces, List.length_cons, List.length_replicate]
    rw [← hlen]
    exact length_encodeStr_le (by omega)
  have hrest : (encode (manyPieces n).toValue).length
      = (encodeStr (manyPieces n).pieces).length + 73 := by
    have hkeys : (encodeStr announceKey).length = 10 ∧ (encodeStr infoKey).length = 6 ∧
        (encodeStr lengthKey).length = 8 ∧ (encodeStr nameKey).length = 6 ∧
        (encodeStr pieceLengthKey).length = 15 ∧ (encodeStr piecesKey).length = 8 ∧
        (encodeStr [97]).length = 3 ∧ (decimalInt 16384).length = 5 ∧
        (decimalInt 1).length = 1 := by decide
    simp only [Description.toValue, Description.infoValue, Layout.entry, manyPieces, encode,
      encodeEntries, List.length_cons, List.length_append, List.length_nil, Nat.cast_ofNat,
      Nat.cast_one]
    omega
  omega

/-- `parse_file` reads the torrent, and a connection can be opened for it. -/
theorem manyPieces_opened {n : Nat} (h : n < 2 ^ 32) : ∃ fuel torrent state,
    parseFile (fun _ => []) fuel none (fun _ => ⟨700, 5⟩) (encode (manyPieces n).toValue)
      = .ok torrent ∧
    torrent.info.numPieces = n + 1 ∧ connStateInit (fun _ => 0) torrent torrent.sh = .ok state := by
  have hpaths : (manyPieces n).pathsFit = true := rfl
  obtain ⟨files, -, hparse⟩ := parseFile_encode (fun _ => []) none (fun _ => ⟨700, 5⟩)
    (manyPieces_good n) hpaths (length_encode_manyPieces h) (le_refl _)
  have hcount : (manyPieces n).finalInfo.numPieces = n + 1 := by
    show (97 :: List.replicate (20 * n + 19) (97 : UInt8)).length / 20 = n + 1
    rw [List.length_cons, List.length_replicate]
    omega
  have hstates : ((manyPieces n).toMetainfo [] files).sh.pieceStates.length
      = ((manyPieces n).toMetainfo [] files).info.numPieces := List.length_replicate
  obtain ⟨state, hinit⟩ := connStateInit_returns (fun _ => 0) hstates
  exact ⟨_, _, state, hparse, hcount, hinit⟩

/-- A torrent file of 524281 pieces: `parse_file` reads it, and the buffer of a
new connection has no byte at all. -/
theorem bitfield_buffers_fit_overflow : ∃ fuel torrent state,
    parseFile (fun _ => []) fuel none (fun _ => ⟨700, 5⟩) (encode (manyPieces 524280).toValue)
      = .ok torrent ∧
    torrent.info.numPieces = 524281 ∧
    connStateInit (fun _ => 0) torrent torrent.sh = .ok state ∧
    state.peerHave.length = 0 ∧ ¬ BuffersFit torrent state := by
  obtain ⟨fuel, torrent, state, hparse, hcount, hinit⟩ :=
    manyPieces_opened (n := 524280) (by decide)
  have hsized := (connStateInit_spec hinit).1
  refine ⟨fuel, torrent, state, hparse, hcount, hinit, ?_, ?_⟩
  · rw [hsized.peerHave, hcount]
    decide
  · rw [hsized.buffersFit_iff, hcount]
    decide

end BtClient

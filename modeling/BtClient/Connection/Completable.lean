import BtClient.Connection.Download
import BtClient.PieceRequest.Extent

/-!
# Which piece requests can be completed

A block is counted off by a `MSG_PIECE` of its offset and its length. Such a
message exists unless the block is empty, because `valid_len` wants at least
one byte, or begins at `2^32` or later, because the wire carries 32 bits. The
first happens behind data that ends at a block boundary when only empty files
follow; the second in pieces of more than 4 GiB.
-/

namespace BtClient

open CLib

/-- The message is a frame that `valid_len` accepts and the block that
`process_piece_msg` compares it with matches. -/
def PieceMsg.Delivers (torrent : Metainfo) (index : UInt32) (msg : PieceMsg) (b : BlockRequest) :
    Prop :=
  msg.index = index ∧ validLen .msgPiece torrent (1 + 2 * 4 + msg.blocklen) = true ∧
    b.len = msg.blocklen ∧ b.begin = msg.begin.toNat

/-- The request after a sequence of messages for its piece. -/
def countAll (msgs : List PieceMsg) (r : PieceRequest) : PieceRequest :=
  msgs.foldl (fun r msg => countBlock msg r) r

/-- No scheduled block is empty, every one has a message that delivers it, and
one message for each of them leaves none. -/
def Completable (torrent : Metainfo) (index : UInt32) : Prop :=
  ∃ r, pieceRequestCreate torrent index = .ok r ∧
    (∀ b ∈ r.blockRequests, b.len ≠ 0) ∧
    ∃ msgs, List.Forall₂ (PieceMsg.Delivers torrent index) msgs r.blockRequests ∧
      (countAll msgs r).blocksLeft = 0

/-- The message of a block. -/
def blockMsg (index : UInt32) (b : BlockRequest) : PieceMsg :=
  ⟨index, UInt32.ofNat b.begin, b.len⟩

theorem blockMsg_delivers {torrent : Metainfo} {index : UInt32} {b : BlockRequest}
    (hne : b.len ≠ 0) (hle : b.len ≤ 16384) (hbegin : b.begin < 2 ^ 32) :
    (blockMsg index b).Delivers torrent index b := by
  refine ⟨rfl, ?_, rfl, ?_⟩
  · rw [validLen, if_pos rfl, Bool.and_eq_true, decide_eq_true_eq, decide_eq_true_eq,
      peerRequestSize_eq]
    show 1 + 2 * 4 + 1 ≤ 1 + 2 * 4 + b.len ∧ 1 + 2 * 4 + b.len ≤ 1 + 2 * 4 + 16384
    omega
  · show b.begin = (UInt32.ofNat b.begin).toNat
    rw [UInt32.toNat_ofNat', Nat.mod_eq_of_lt hbegin]

/-- As many messages for blocks of the request as it has left. -/
theorem countAll_blocksLeft (msgs : List PieceMsg) :
    ∀ (r : PieceRequest), (∀ msg ∈ msgs, (msg.begin.toNat, msg.blocklen) ∈ shape r.blockRequests) →
      r.blocksLeft = msgs.length → r.blocksLeft < 2 ^ 32 → (countAll msgs r).blocksLeft = 0 := by
  induction msgs with
  | nil => intro r _ hleft _; exact hleft
  | cons msg msgs ih =>
    intro r hmem hleft hlt
    rw [List.length_cons] at hleft
    obtain ⟨hleft', hshape⟩ := countBlock_spec msg (hmem msg (by simp)) hleft (by omega)
    apply ih (countBlock msg r)
    · intro m hm
      rw [hshape]
      exact hmem m (by simp [hm])
    · exact hleft'
    · omega

/-- The offsets of a piece do not wrap. -/
theorem PieceRequest.Scheduled.begin_eq {torrent : Metainfo} {index : UInt32} {r : PieceRequest}
    (h : r.Scheduled torrent index) (hdvd : peerRequestSize ∣ torrent.info.pieceLength.toNat)
    {k : Nat} {b : BlockRequest} (hk : r.blockRequests[k]? = some b) :
    b.begin = 16384 * k ∧ b.len ≤ 16384 ∧ k < r.blockRequests.length := by
  have hlt := torrent.info.pieceLength.toNat_lt
  have hcount := h.schedule.length_le (by simpa using hdvd) hlt
  obtain ⟨hklt, -⟩ := List.getElem?_eq_some_iff.mp hk
  have hblock := (h.schedule.block k b hk).1
  have hlen := hblock.len
  rw [hblock.begin, Nat.zero_add, Nat.mod_eq_of_lt (by omega)]
  omega

/-- The number of blocks of a piece without an empty one. -/
theorem PieceRequest.Scheduled.length_le_iff {torrent : Metainfo} {index : UInt32}
    {r : PieceRequest} (h : r.Scheduled torrent index)
    (hdvd : peerRequestSize ∣ torrent.info.pieceLength.toNat)
    (hne : ∀ b ∈ r.blockRequests, b.len ≠ 0) :
    16384 * r.blockRequests.length ≤ 2 ^ 32 ↔
      min torrent.info.pieceLength.toNat (torrent.totalLength - pieceStart torrent index)
        ≤ 2 ^ 32 := by
  have hlt := torrent.info.pieceLength.toNat_lt
  rw [peerRequestSize_eq] at hdvd
  have hle := h.schedule.length_le hdvd hlt
  have hend := h.schedule.end_eq_of_dvd hdvd hlt
  have hstart := h.start
  rw [blocksEnd, Nat.zero_add, ← Metainfo.totalLength] at hend
  rcases Nat.eq_zero_or_pos r.blockRequests.length with hzero | hpos
  · omega
  · -- the last block has a byte, so the data reaches past the blocks before it
    obtain ⟨b, hb⟩ : ∃ b, r.blockRequests[r.blockRequests.length - 1]? = some b :=
      ⟨_, List.getElem?_eq_getElem (by omega)⟩
    have hlen := (h.schedule.block _ b hb).1.len
    have hbne := hne b (List.mem_of_getElem? hb)
    rw [← Metainfo.totalLength] at hlen
    omega

/-- Messages carry offsets of 32 bits. -/
theorem PieceRequest.Scheduled.length_le_of_delivered {torrent : Metainfo} {index : UInt32}
    {r : PieceRequest} {msgs : List PieceMsg} (h : r.Scheduled torrent index)
    (hdvd : peerRequestSize ∣ torrent.info.pieceLength.toNat)
    (hmsgs : List.Forall₂ (PieceMsg.Delivers torrent index) msgs r.blockRequests) :
    16384 * r.blockRequests.length ≤ 2 ^ 32 := by
  rcases Nat.eq_zero_or_pos r.blockRequests.length with hzero | hpos
  · omega
  · have hlast : r.blockRequests.length - 1 < r.blockRequests.length := by omega
    have hlen := hmsgs.length_eq
    obtain ⟨-, -, -, hbegin⟩ := hmsgs.get (by omega) hlast
    have hat := (h.begin_eq hdvd (List.getElem?_eq_getElem hlast)).1
    rw [List.get_eq_getElem, hat] at hbegin
    have hword := (msgs.get ⟨r.blockRequests.length - 1, by omega⟩).begin.toNat_lt
    omega

/-- One message for each block, in order. -/
theorem PieceRequest.Scheduled.delivered {torrent : Metainfo} {index : UInt32} {r : PieceRequest}
    (h : r.Scheduled torrent index) (hdvd : peerRequestSize ∣ torrent.info.pieceLength.toNat)
    (hne : ∀ b ∈ r.blockRequests, b.len ≠ 0) (hle : 16384 * r.blockRequests.length ≤ 2 ^ 32) :
    List.Forall₂ (PieceMsg.Delivers torrent index) (r.blockRequests.map (blockMsg index))
        r.blockRequests ∧
      (countAll (r.blockRequests.map (blockMsg index)) r).blocksLeft = 0 := by
  have hall : ∀ b ∈ r.blockRequests, (blockMsg index b).Delivers torrent index b := by
    intro b hb
    obtain ⟨k, hk⟩ := List.mem_iff_getElem?.mp hb
    obtain ⟨hbegin, hlen, hklt⟩ := h.begin_eq hdvd hk
    exact blockMsg_delivers (hne b hb) hlen (by omega)
  refine ⟨List.forall₂_map_left_iff.mpr (List.forall₂_same.mpr hall), ?_⟩
  have hcount : r.blocksLeft = r.blockRequests.length := by
    rw [h.count, Nat.mod_eq_of_lt (by omega)]
  apply countAll_blocksLeft
  · intro msg hmsg
    obtain ⟨b, hb, rfl⟩ := List.mem_map.mp hmsg
    obtain ⟨-, -, hlen, hbegin⟩ := hall b hb
    rw [← hlen, ← hbegin]
    exact List.mem_map_of_mem hb
  · rw [hcount, List.length_map]
  · omega

/-- **When every scheduled block can be completed.** -/
theorem completable_iff (torrent : Metainfo) (index : UInt32)
    (hdvd : peerRequestSize ∣ torrent.info.pieceLength.toNat)
    (hindex : index.toNat * torrent.info.pieceLength.toNat < torrent.totalLength) :
    Completable torrent index ↔
      ¬ EndsInEmptyBlock torrent index ∧
        min torrent.info.pieceLength.toNat (torrent.totalLength - pieceStart torrent index)
          ≤ 2 ^ 32 := by
  have hstart := pieceStart_lt hindex
  obtain ⟨r, hr, hsch⟩ := (pieceRequestCreate_spec torrent index).1 (Nat.le_of_lt hstart)
  have hempty := empty_block_iff hdvd hstart hr
  constructor
  · rintro ⟨r', hr', hne, msgs, hmsgs, -⟩
    rw [hr] at hr'
    cases hr'
    refine ⟨fun h => ?_, (hsch.length_le_iff hdvd hne).mp (hsch.length_le_of_delivered hdvd hmsgs)⟩
    obtain ⟨b, hb, hzero⟩ := hempty.mpr h
    exact hne b hb hzero
  · rintro ⟨hnot, hmin⟩
    have hne : ∀ b ∈ r.blockRequests, b.len ≠ 0 :=
      fun b hb hzero => hnot (hempty.mp ⟨b, hb, hzero⟩)
    have hle := (hsch.length_le_iff hdvd hne).mpr hmin
    exact ⟨r, hr, hne, _, hsch.delivered hdvd hne hle⟩

/-- An empty file in the middle, and a short last block. -/
theorem completable_short : Completable (layout 32768 [16384, 0, 5]) 0 :=
  (completable_iff (layout 32768 [16384, 0, 5]) 0 ⟨2, rfl⟩ (by decide)).mpr
    ⟨fun h => absurd h.1 (by decide), by decide⟩

/-- One block of data and an empty file behind it, in a piece of two blocks: the
second block has no byte. -/
theorem completable_empty :
    0 * 32768 < (layout 32768 [16384, 0]).totalLength ∧
      ¬ Completable (layout 32768 [16384, 0]) 0 := by
  refine ⟨by decide, ?_⟩
  rintro ⟨r, hr, hne, -⟩
  have hcreate : pieceRequestCreate (layout 32768 [16384, 0]) 0 = .ok ⟨0,
      [⟨[⟨0, 0, 16384⟩], 0, 16384, false⟩, ⟨[⟨1, 0, 0⟩], 16384, 0, false⟩], 2⟩ := rfl
  rw [hcreate] at hr
  cases hr
  exact hne ⟨[⟨1, 0, 0⟩], 16384, 0, false⟩ (by simp) rfl

end BtClient

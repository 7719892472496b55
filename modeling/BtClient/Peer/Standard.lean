import BtClient.Peer.Framing
import BtClient.Peer.Wire

/-!
# Which standard frames are accepted

`StandardFrame` lists the frames of the wire format, with the message each of
them carries. Acceptance is decided by the type bound, the length table of
`msgbuf_len` and the `switch` of `peer_msg_recv` together: `MSG_CANCEL` is a
type of the enumeration, and `process_msg` has a case for it, but its length is
that of a message without a payload.
-/

namespace BtClient

open CLib

/-- A frame with a type byte. -/
def typedFrame (type : MsgType) (body : List UInt8) : List UInt8 :=
  be32 (UInt32.ofNat (1 + body.length)) ++ ([type.code] ++ body)

/-- The payload of `MSG_REQUEST`, and of `MSG_CANCEL` in the wire format. -/
def requestPayload (r : RequestMsg) : List UInt8 := be32 r.index ++ be32 r.begin ++ be32 r.length

/-- A complete frame that is well formed for the torrent, and its message. A
block is block `k` of its piece. -/
inductive StandardFrame (torrent : Metainfo) : PeerMsg → List UInt8 → Prop where
  | keepalive : StandardFrame torrent .keepalive (be32 0)
  | choke : StandardFrame torrent .choke (typedFrame .msgChoke [])
  | unchoke : StandardFrame torrent .unchoke (typedFrame .msgUnchoke [])
  | interested : StandardFrame torrent .interested (typedFrame .msgInterested [])
  | notInterested : StandardFrame torrent .notInterested (typedFrame .msgNotInterested [])
  | haveMsg (index : UInt32) :
    StandardFrame torrent (.haveMsg index) (typedFrame .msgHave (be32 index))
  | bitfield {bits : List UInt8} :
    bits.length = bitfieldNumBytes torrent.info.numPieces → 1 + bits.length < 2 ^ 32 →
    StandardFrame torrent (.bitfield bits) (typedFrame .msgBitfield bits)
  | request (r : RequestMsg) :
    StandardFrame torrent (.request r) (typedFrame .msgRequest (requestPayload r))
  | piece {index begin : UInt32} {payload : List UInt8} {pr : PieceRequest} {k : Nat}
    {b : BlockRequest} :
    pieceRequestCreate torrent index = .ok pr → pr.blockRequests[k]? = some b →
    begin.toNat = peerRequestSize * k → payload.length = b.len →
    StandardFrame torrent (.piece ⟨index, begin, payload.length⟩)
      (typedFrame .msgPiece (be32 index ++ (be32 begin ++ payload)))
  | cancel (r : RequestMsg) :
    StandardFrame torrent .cancel (typedFrame .msgCancel (requestPayload r))

/-- `peer_msg_recv` takes the frame off the stream and returns its message,
whatever follows and however the bytes arrive. -/
def Accepts (torrent : Metainfo) (msg : PeerMsg) (bytes : List UInt8) : Prop :=
  ∀ (s : Socket) (disk : Disk) (rest : List UInt8), NeverFails s.recvPlan →
    s.rx = bytes ++ rest →
    ∃ s' disk', peerMsgRecv torrent s disk = .ok (some msg, s', disk') ∧ s'.rx = rest

/-! ## The head of a frame -/

/-- The length word and the type byte: `valid_len` decides whether the payload
is read. -/
theorem peerMsgRecv_typed (torrent : Metainfo) {type : MsgType} {s : Socket}
    {body : List UInt8} (rest : List UInt8) (disk : Disk) (hlen : 1 + body.length < 2 ^ 32)
    (hnf : NeverFails s.recvPlan) (hrx : s.rx = typedFrame type body ++ rest) :
    ∃ s', s'.rx = body ++ rest ∧ NeverFails s'.recvPlan ∧ peerMsgRecv torrent s disk
      = if validLen type torrent (1 + body.length) then recvPayload torrent type body.length s' disk
        else .ok (none, s', disk) := by
  have hval : (UInt32.ofNat (1 + body.length)).toNat = 1 + body.length := by
    rw [UInt32.toNat_ofNat', Nat.mod_eq_of_lt hlen]
  rw [typedFrame, List.append_assoc, List.append_assoc] at hrx
  obtain ⟨s₁, hrx₁, hnf₁, hs₁⟩ :=
    recvThen_exact hnf hrx (length_be32 _) disk (recvBody torrent disk)
  obtain ⟨s₂, hrx₂, hnf₂, hs₂⟩ := recvThen_exact hnf₁ hrx₁ List.length_singleton disk
    (recvTyped torrent disk (1 + body.length))
  refine ⟨s₂, hrx₂, hnf₂, ?_⟩
  rw [peerMsgRecv, hs₁, recvBody]
  simp only [ofBe32_be32, hval]
  rw [if_neg (by omega), hs₂, recvTyped]
  simp only [List.getD_cons_zero, MsgType.ofCode_code,
    wordSub_of_le (Nat.le_add_right 1 _) hlen, Nat.add_sub_cancel_left]

/-- A frame whose length is not the one of its type is refused. -/
theorem not_accepts_of_length {torrent : Metainfo} {type : MsgType} {msg : PeerMsg}
    {body : List UInt8} (hlen : 1 + body.length < 2 ^ 32)
    (hvalid : validLen type torrent (1 + body.length) = false) :
    ¬ Accepts torrent msg (typedFrame type body) := by
  intro h
  have hnf : NeverFails fun _ => some 1 := fun _ => by simp
  obtain ⟨s', disk', hrun, -⟩ :=
    h ⟨typedFrame type body, [], fun _ => some 1, fun _ => none⟩ [] [] hnf (List.append_nil _).symm
  obtain ⟨s₁, -, -, hs₁⟩ := peerMsgRecv_typed torrent []
    (s := ⟨typedFrame type body, [], fun _ => some 1, fun _ => none⟩) [] hlen hnf
    (List.append_nil _).symm
  rw [hs₁, if_neg (by simp [hvalid])] at hrun
  cases hrun

/-- A wire message is accepted at the length its payload has. -/
theorem accepts_wire {torrent : Metainfo} {msg : PeerMsg} (hw : wireMsg torrent msg = true)
    (hk : msg.type ≠ .msgKeepalive) (hlen : 1 + (payloadBytes msg).length < 2 ^ 32)
    (hvalid : validLen msg.type torrent (1 + (payloadBytes msg).length) = true) :
    Accepts torrent msg (typedFrame msg.type (payloadBytes msg)) := by
  intro s disk rest hnf hrx
  obtain ⟨s₁, hrx₁, hnf₁, hs₁⟩ := peerMsgRecv_typed torrent rest disk hlen hnf hrx
  obtain ⟨s₂, hs₂, hrx₂, -⟩ := recvPayload_spec disk hw hk hnf₁ hrx₁
  exact ⟨s₂, disk, by rw [hs₁, if_pos hvalid, hs₂], hrx₂⟩

/-! ## Blocks -/

/-- The slices of a block, when their bytes have arrived. -/
theorem recvFilemems_arrived (mems : List FileMem) :
    ∀ {s : Socket} (disk : Disk) {payload rest : List UInt8}, NeverFails s.recvPlan →
      s.rx = payload ++ rest → payload.length = (mems.map Seg.size).sum →
      ∃ s' disk', recvFilemems mems s disk = (true, s', disk') ∧ s'.rx = rest := by
  induction mems with
  | nil =>
    intro s disk payload rest hnf hrx hlen
    have hnil : payload = [] := List.eq_nil_of_length_eq_zero hlen
    subst hnil
    exact ⟨s, disk, rfl, hrx⟩
  | cons mem mems ih =>
    intro s disk payload rest hnf hrx hlen
    rw [List.map_cons, List.sum_cons] at hlen
    have htake : (payload.take mem.size).length = mem.size := by
      rw [List.length_take]
      omega
    have hsplit : s.rx = payload.take mem.size ++ (payload.drop mem.size ++ rest) := by
      rw [← List.append_assoc, List.take_append_drop, hrx]
    obtain ⟨hok, -, hrx', hnf'⟩ := peerRecv_exact hnf hsplit
    rw [htake] at hok hrx' hnf'
    obtain ⟨s₂, disk₂, hrun, hrx₂⟩ := ih (writeSeg disk mem (peerRecv s mem.size).bytes) hnf' hrx'
      (by rw [List.length_drop]; omega)
    exact ⟨s₂, disk₂, by simp only [recvFilemems, hok, if_true, hrun], hrx₂⟩

/-- Block `k` is the first one with its `begin`. -/
theorem pieceRequestBlockAt_block {torrent : Metainfo} {index begin : UInt32} {pr : PieceRequest}
    {k : Nat} {b : BlockRequest} (hpr : pr.Scheduled torrent index)
    (hb : pr.blockRequests[k]? = some b) (hbegin : begin.toNat = peerRequestSize * k) :
    pieceRequestBlockAt pr begin.toNat = some b := by
  have hlt := begin.toNat_lt
  rw [peerRequestSize_eq] at hbegin
  obtain ⟨hk, hget⟩ := List.getElem?_eq_some_iff.mp hb
  have hat : ∀ j c, j ≤ k → pr.blockRequests[j]? = some c → c.begin = 16384 * j := by
    intro j c hj hc
    obtain ⟨hblock, -⟩ := hpr.schedule.block j c hc
    rw [hblock.begin, Nat.zero_add, Nat.mod_eq_of_lt (by omega)]
  refine List.find?_eq_some_iff_getElem.mpr ⟨?_, k, hk, hget, ?_⟩
  · rw [beq_iff_eq, hat k b (le_refl _) hb, hbegin]
  · intro j hj
    have hbefore := hat j _ (by omega) (List.getElem?_eq_getElem (Nat.lt_trans hj hk))
    simp only [hbefore, Bool.not_eq_eq_eq_not, Bool.not_true, beq_eq_false_iff_ne, ne_eq]
    omega

/-- A scheduled block is read whole. -/
theorem peerMsgRecvPiece_arrived {torrent : Metainfo} {index begin : UInt32}
    {payload rest : List UInt8} {pr : PieceRequest} {k : Nat} {b : BlockRequest} {s : Socket}
    (disk : Disk) (hpr : pieceRequestCreate torrent index = .ok pr)
    (hb : pr.blockRequests[k]? = some b) (hbegin : begin.toNat = peerRequestSize * k)
    (hpayload : payload.length = b.len) (hlen : 8 + payload.length < 2 ^ 32)
    (hnf : NeverFails s.recvPlan) (hrx : s.rx = be32 index ++ (be32 begin ++ (payload ++ rest))) :
    ∃ s' disk', peerMsgRecvPiece torrent (8 + payload.length) s disk
      = .ok (some ⟨index, begin, payload.length⟩, s', disk') ∧ s'.rx = rest := by
  have hsch := scheduled_of_create hpr
  obtain ⟨hblock, -⟩ := hsch.schedule.block k b hb
  have hsum : payload.length = (b.filemems.map Seg.size).sum := by
    rw [hblock.tiles.sum_size, Nat.add_sub_cancel_left, hpayload]
  obtain ⟨s₁, hrx₁, hnf₁, hs₁⟩ := recvThen_exact (α := PieceMsg) hnf hrx (length_be32 _) disk
    (recvBegin torrent disk (8 + payload.length))
  obtain ⟨s₂, hrx₂, hnf₂, hs₂⟩ := recvThen_exact (α := PieceMsg) hnf₁ hrx₁ (length_be32 _) disk
    (recvBlock torrent disk index (wordSub (8 + payload.length) 4))
  obtain ⟨s₃, disk₃, hrun, hrx₃⟩ := recvFilemems_arrived b.filemems disk hnf₂ hrx₂ hsum
  refine ⟨s₃, disk₃, ?_, hrx₃⟩
  rw [peerMsgRecvPiece, hs₁, recvBegin, ofBe32_be32, hs₂, recvBlock]
  simp only [ofBe32_be32, hpr, ok_bind, pieceRequestBlockAt_block hsch hb hbegin, hrun, if_true,
    pure_is_ok]
  rw [wordSub_of_le (a := 8 + _) (by omega) (by omega), wordSub_of_le (by omega) (by omega),
    show 8 + payload.length - 4 - 4 = payload.length from by omega]

/-- A scheduled block of at least one byte is accepted. -/
theorem accepts_piece {torrent : Metainfo} {index begin : UInt32} {payload : List UInt8}
    {pr : PieceRequest} {k : Nat} {b : BlockRequest}
    (hpr : pieceRequestCreate torrent index = .ok pr) (hb : pr.blockRequests[k]? = some b)
    (hbegin : begin.toNat = peerRequestSize * k) (hpayload : payload.length = b.len)
    (hpos : 0 < payload.length) :
    Accepts torrent (.piece ⟨index, begin, payload.length⟩)
      (typedFrame .msgPiece (be32 index ++ (be32 begin ++ payload))) := by
  have hle : b.len ≤ 16384 := by
    rw [((scheduled_of_create hpr).schedule.block k b hb).1.len]
    exact Nat.min_le_left _ _
  have hbody : (be32 index ++ (be32 begin ++ payload)).length = 8 + payload.length := by
    simp only [List.length_append, length_be32]
    omega
  have hvalid : validLen .msgPiece torrent (1 + (8 + payload.length)) = true := by
    rw [validLen, if_pos rfl, Bool.and_eq_true, decide_eq_true_eq, decide_eq_true_eq,
      peerRequestSize_eq]
    omega
  intro s disk rest hnf hrx
  obtain ⟨s₁, hrx₁, hnf₁, hs₁⟩ :=
    peerMsgRecv_typed torrent rest disk (by rw [hbody]; omega) hnf hrx
  rw [List.append_assoc, List.append_assoc] at hrx₁
  obtain ⟨s₂, disk₂, hrun, hrx₂⟩ :=
    peerMsgRecvPiece_arrived disk hpr hb hbegin hpayload (by omega) hnf₁ hrx₁
  refine ⟨s₂, disk₂, ?_, hrx₂⟩
  rw [hs₁, hbody, if_pos hvalid, recvPayload, check_of (by simp), ok_bind, hrun]
  rfl

/-! ## All of them -/

theorem accepts_keepalive (torrent : Metainfo) : Accepts torrent .keepalive (be32 0) := by
  intro s disk rest hnf hrx
  obtain ⟨s', hs', hrx', -⟩ : ∃ s', peerMsgRecv torrent s disk = .ok (some .keepalive, s', disk) ∧
      s'.rx = rest ∧ NeverFails s'.recvPlan := peerMsgRecv_keepalive disk hnf hrx
  exact ⟨s', disk, hs', hrx'⟩

end BtClient

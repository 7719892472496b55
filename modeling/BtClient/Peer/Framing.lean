import BtClient.Peer.Msg
import BtClient.PieceRequest.Cover

/-!
# How much of the stream an accepted frame consumes

Every read of `peer_msg_recv` is a `peer_recv` of a known length, so an
accepted call has consumed the sum of them. For every type but `MSG_PIECE`
that sum is the frame: `valid_len` pins the length word. For `MSG_PIECE` the
payload read is the block of the local schedule, whatever length the frame
announced, and the two agree only on frames that are `InStep`.
-/

namespace BtClient

open CLib

/-- The length word at the head of a stream. -/
def frameLen (rx : List UInt8) : Nat := (ofBe32 (slice rx 0 4)).toNat

/-- The type byte after it. -/
def frameType (rx : List UInt8) : UInt8 := rx.getD 4 0

/-- The index field of a `MSG_PIECE` frame. -/
def frameIndex (rx : List UInt8) : UInt32 := ofBe32 (slice rx 5 4)

/-- The begin field of a `MSG_PIECE` frame. -/
def frameBegin (rx : List UInt8) : UInt32 := ofBe32 (slice rx 9 4)

/-- The length of the block the torrent has at `index`, `begin`. -/
def blockLenAt (torrent : Metainfo) (index begin : UInt32) : Nat :=
  min peerRequestSize (torrent.totalLength - (pieceStart torrent index + begin.toNat))

/-- The frames that are read to their end: all but the `MSG_PIECE` frames whose
block has another length than the torrent's block at their place. -/
def InStep (torrent : Metainfo) (rx : List UInt8) : Prop :=
  frameLen rx = 0 ∨ frameType rx ≠ MsgType.msgPiece.code ∨
    frameLen rx = 9 + blockLenAt torrent (frameIndex rx) (frameBegin rx)

/-! ## Reads that succeeded -/

/-- A checked read that led to an accepted message. -/
theorem recvThen_accepted {α : Type} {s s' : Socket} {disk disk' : Disk} {len : Nat} {a : α}
    {k : List UInt8 → Socket → Except Fault (RecvResult α)}
    (h : recvThen s disk len k = .ok (some a, s', disk')) :
    ∃ bytes s₁, s.rx = bytes ++ s₁.rx ∧ bytes.length = len ∧
      k bytes s₁ = .ok (some a, s', disk') := by
  simp only [recvThen] at h
  by_cases hok : (peerRecv s len).ok = true
  · rw [if_pos hok] at h
    obtain ⟨hrx, hlen⟩ := peerRecv_ok hok
    exact ⟨_, _, hrx, hlen, h⟩
  · rw [if_neg hok] at h
    cases h

/-- The slices of a block, all filled. -/
theorem recvFilemems_accepted (mems : List FileMem) :
    ∀ {s s' : Socket} {disk disk' : Disk}, recvFilemems mems s disk = (true, s', disk') →
      ∃ bytes, s.rx = bytes ++ s'.rx ∧ bytes.length = (mems.map Seg.size).sum := by
  induction mems with
  | nil =>
    intro s s' disk disk' h
    cases h
    exact ⟨[], rfl, rfl⟩
  | cons mem mems ih =>
    intro s s' disk disk' h
    simp only [recvFilemems] at h
    by_cases hok : (peerRecv s mem.size).ok = true
    · rw [if_pos hok] at h
      obtain ⟨hrx, hlen⟩ := peerRecv_ok hok
      obtain ⟨bytes, hrx', hlen'⟩ := ih h
      refine ⟨(peerRecv s mem.size).bytes ++ bytes, ?_, ?_⟩
      · rw [hrx, hrx', List.append_assoc]
      · rw [List.length_append, hlen, hlen', List.map_cons, List.sum_cons]
    · rw [if_neg hok] at h
      cases h

/-- `piece_request_block_at` finds the block whose true offset is asked for.
Beyond `2^64` the `begin` fields repeat, and the first match is the true one. -/
theorem pieceRequestBlockAt_spec {torrent : Metainfo} {index : UInt32} {pr : PieceRequest}
    {begin : UInt32} {b : BlockRequest} (hpr : pr.Scheduled torrent index)
    (h : pieceRequestBlockAt pr begin.toNat = some b) :
    ∃ k, pr.blockRequests[k]? = some b ∧ 16384 * k = begin.toNat ∧
      IsBlock torrent.fileSizes (pieceStart torrent index) k b := by
  obtain ⟨hmatch, k, hk, hget, hfirst⟩ := List.find?_eq_some_iff_getElem.mp h
  have hb : pr.blockRequests[k]? = some b := by rw [List.getElem?_eq_getElem hk, hget]
  have hblock := (hpr.schedule.block k b hb).1
  rw [Nat.zero_add] at hblock
  rw [beq_iff_eq, hblock.begin] at hmatch
  refine ⟨k, hb, ?_, hblock⟩
  have hlt := begin.toNat_lt
  rcases Nat.lt_or_ge (16384 * k) (2 ^ 64) with hsmall | hbig
  · rw [← hmatch, Nat.mod_eq_of_lt hsmall]
  · -- the block `2^50` places before has the same `begin`, and is found first
    exfalso
    have hearlier := hfirst (k - 2 ^ 50) (by omega)
    have hprev := (hpr.schedule.block (k - 2 ^ 50) _
      (List.getElem?_eq_getElem (by omega))).1
    simp only [Nat.zero_add] at hprev
    rw [hprev.begin] at hearlier
    simp only [Bool.not_eq_eq_eq_not, Bool.not_true, beq_eq_false_iff_ne, ne_eq] at hearlier
    omega

/-- What `peer_msg_recv_piece` did when it accepted. -/
theorem peerMsgRecvPiece_cases {torrent : Metainfo} {len : Nat} {s s' : Socket}
    {disk disk' : Disk} {piece : PieceMsg}
    (h : peerMsgRecvPiece torrent len s disk = .ok (some piece, s', disk')) :
    ∃ idx beg pr br s₂, s.rx = idx ++ (beg ++ s₂.rx) ∧ idx.length = 4 ∧ beg.length = 4 ∧
      pieceRequestCreate torrent (ofBe32 idx) = .ok pr ∧
      pieceRequestBlockAt pr (ofBe32 beg).toNat = some br ∧
      recvFilemems br.filemems s₂ disk = (true, s', disk') ∧
      piece = ⟨ofBe32 idx, ofBe32 beg, wordSub (wordSub len 4) 4⟩ := by
  obtain ⟨idx, s₁, hrx₁, hidx, h⟩ := recvThen_accepted h
  obtain ⟨beg, s₂, hrx₂, hbeg, h⟩ := recvThen_accepted h
  obtain ⟨pr, hpr, h⟩ := (seq_returns_iff _ _ _).mp h
  cases hat : pieceRequestBlockAt pr (ofBe32 beg).toNat with
  | none => simp [hat] at h
  | some br =>
    simp only [hat, pure_is_ok] at h
    rcases hmems : recvFilemems br.filemems s₂ disk with ⟨ok, s₃, disk₃⟩
    rw [hmems] at h
    cases ok with
    | false => simp at h
    | true =>
      simp only [if_true, Except.ok.injEq, Prod.mk.injEq, Option.some.injEq] at h
      obtain ⟨rfl, rfl, rfl⟩ := h
      exact ⟨idx, beg, pr, br, s₂, by rw [hrx₁, hrx₂], hidx, hbeg, hpr, hat, hmems, rfl⟩

/-- An accepted block: index, begin, then exactly the torrent's block. -/
theorem peerMsgRecvPiece_accepted {torrent : Metainfo} {len : Nat} {s s' : Socket}
    {disk disk' : Disk} {piece : PieceMsg}
    (h : peerMsgRecvPiece torrent len s disk = .ok (some piece, s', disk')) :
    ∃ idx beg bytes, s.rx = idx ++ (beg ++ (bytes ++ s'.rx)) ∧ idx.length = 4 ∧ beg.length = 4 ∧
      bytes.length = blockLenAt torrent (ofBe32 idx) (ofBe32 beg) := by
  obtain ⟨idx, beg, pr, br, s₂, hrx, hidx, hbeg, hpr, hat, hmems, -⟩ := peerMsgRecvPiece_cases h
  obtain ⟨k, -, hk, hblock⟩ := pieceRequestBlockAt_spec (scheduled_of_create hpr) hat
  obtain ⟨bytes, hrx₂, hlen⟩ := recvFilemems_accepted br.filemems hmems
  refine ⟨idx, beg, bytes, by rw [hrx, hrx₂], hidx, hbeg, ?_⟩
  -- the slices of the block tile its range, so they take as many bytes
  rw [hlen, hblock.tiles.sum_size, Nat.add_sub_cancel_left, hblock.len, hk]
  rfl

/-! ## Whole frames -/

/-- What `recvPayload` has read when it accepts: the announced bytes, or for
`MSG_PIECE` the two fields and the torrent's block. -/
theorem recvPayload_accepted {torrent : Metainfo} {type : MsgType} {left : Nat} {s s' : Socket}
    {disk disk' : Disk} {msg : PeerMsg}
    (h : recvPayload torrent type left s disk = .ok (some msg, s', disk')) :
    (type ≠ .msgPiece ∧ ∃ bytes, s.rx = bytes ++ s'.rx ∧ bytes.length = left) ∨
    (type = .msgPiece ∧ ∃ idx beg bytes, s.rx = idx ++ (beg ++ (bytes ++ s'.rx)) ∧
      idx.length = 4 ∧ beg.length = 4 ∧
      bytes.length = blockLenAt torrent (ofBe32 idx) (ofBe32 beg)) := by
  cases type with
  | msgCancel | msgKeepalive => cases h
  | msgChoke | msgUnchoke | msgInterested | msgNotInterested =>
    obtain ⟨_, hzero, h⟩ := (seq_returns_iff _ _ _).mp h
    have hleft : left = 0 := by simpa using check_eq_ok.mp hzero
    cases h
    exact .inl ⟨by decide, [], rfl, hleft.symm⟩
  | msgHave | msgPort =>
    obtain ⟨_, -, h⟩ := (seq_returns_iff _ _ _).mp h
    obtain ⟨bytes, s₁, hrx, hlen, h⟩ := recvThen_accepted h
    cases h
    exact .inl ⟨by decide, bytes, hrx, hlen⟩
  | msgBitfield =>
    simp only [recvPayload] at h
    obtain ⟨bytes, s₁, hrx, hlen, h⟩ := recvThen_accepted h
    cases h
    exact .inl ⟨by decide, bytes, hrx, hlen⟩
  | msgRequest =>
    simp only [recvPayload] at h
    obtain ⟨bytes, s₁, hrx, hlen, h⟩ := recvThen_accepted h
    obtain ⟨_, -, h⟩ := (seq_returns_iff _ _ _).mp h
    cases h
    exact .inl ⟨by decide, bytes, hrx, hlen⟩
  | msgPiece =>
    obtain ⟨_, -, h⟩ := (seq_returns_iff _ _ _).mp h
    obtain ⟨⟨piece, s₁, disk₁⟩, hpiece, h⟩ := (seq_returns_iff _ _ _).mp h
    cases piece with
    | none => cases h
    | some piece =>
      cases h
      exact .inr ⟨rfl, peerMsgRecvPiece_accepted hpiece⟩

/-- The message has the type of its frame. -/
theorem recvPayload_type {torrent : Metainfo} {type : MsgType} {left : Nat} {s s' : Socket}
    {disk disk' : Disk} {msg : PeerMsg}
    (h : recvPayload torrent type left s disk = .ok (some msg, s', disk')) : msg.type = type := by
  cases type with
  | msgCancel | msgKeepalive => cases h
  | msgChoke | msgUnchoke | msgInterested | msgNotInterested =>
    obtain ⟨_, -, h⟩ := (seq_returns_iff _ _ _).mp h
    cases h
    rfl
  | msgHave | msgPort =>
    obtain ⟨_, -, h⟩ := (seq_returns_iff _ _ _).mp h
    obtain ⟨bytes, s₁, -, -, h⟩ := recvThen_accepted h
    cases h
    rfl
  | msgBitfield =>
    simp only [recvPayload] at h
    obtain ⟨bytes, s₁, -, -, h⟩ := recvThen_accepted h
    cases h
    rfl
  | msgRequest =>
    simp only [recvPayload] at h
    obtain ⟨bytes, s₁, -, -, h⟩ := recvThen_accepted h
    obtain ⟨_, -, h⟩ := (seq_returns_iff _ _ _).mp h
    cases h
    rfl
  | msgPiece =>
    obtain ⟨_, -, h⟩ := (seq_returns_iff _ _ _).mp h
    obtain ⟨⟨piece, s₁, disk₁⟩, -, h⟩ := (seq_returns_iff _ _ _).mp h
    cases piece with
    | none => cases h
    | some piece =>
      cases h
      rfl

theorem MsgType.ofCode_eq_some {code : UInt8} {type : MsgType}
    (h : MsgType.ofCode code = some type) : code = type.code := by
  apply UInt8.toNat_inj.mp
  unfold MsgType.ofCode at h
  split at h <;> cases h <;> assumption

/-- What `peer_msg_recv` did when it accepted: the length word was zero, or a
type byte came, the length passed `valid_len`, and so did the payload. -/
theorem peerMsgRecv_cases {torrent : Metainfo} {s s' : Socket} {disk disk' : Disk}
    {msg : PeerMsg} (h : peerMsgRecv torrent s disk = .ok (some msg, s', disk')) :
    ∃ word s₁, s.rx = word ++ s₁.rx ∧ word.length = 4 ∧
      (((ofBe32 word).toNat = 0 ∧ msg = .keepalive ∧ s' = s₁) ∨
      ∃ code type s₂, (ofBe32 word).toNat ≠ 0 ∧ s₁.rx = [code] ++ s₂.rx ∧
        MsgType.ofCode code = some type ∧ validLen type torrent (ofBe32 word).toNat = true ∧
        recvPayload torrent type (wordSub (ofBe32 word).toNat 1) s₂ disk
          = .ok (some msg, s', disk')) := by
  obtain ⟨word, s₁, hrx₁, hword, h⟩ := recvThen_accepted h
  refine ⟨word, s₁, hrx₁, hword, ?_⟩
  simp only [recvBody] at h
  by_cases hzero : (ofBe32 word).toNat = 0
  · rw [if_pos hzero] at h
    cases h
    exact .inl ⟨hzero, rfl, rfl⟩
  · rw [if_neg hzero] at h
    obtain ⟨ty, s₂, hrx₂, hty, h⟩ := recvThen_accepted h
    obtain ⟨code, rfl⟩ := List.length_eq_one_iff.mp hty
    simp only [recvTyped, List.getD_cons_zero] at h
    cases hcode : MsgType.ofCode code with
    | none => simp [hcode] at h
    | some type =>
      simp only [hcode] at h
      by_cases hvalid : validLen type torrent (ofBe32 word).toNat = true
      · rw [if_pos hvalid] at h
        exact .inr ⟨code, type, s₂, hzero, hrx₂, hcode, hvalid, h⟩
      · rw [if_neg hvalid] at h
        cases h

/-- The length of an accepted frame, by its type. -/
theorem validLen_cases {torrent : Metainfo} {type : MsgType} {len : Nat}
    (h : validLen type torrent len = true) :
    (type = .msgPiece ∧ 10 ≤ len ∧ len ≤ 9 + peerRequestSize) ∨
      (type ≠ .msgPiece ∧ len = msgbufLen type torrent) := by
  rw [validLen] at h
  split at h
  · rename_i hpiece
    rw [Bool.and_eq_true, decide_eq_true_eq, decide_eq_true_eq] at h
    exact .inl ⟨hpiece, h.1, h.2⟩
  · rename_i hother
    exact .inr ⟨hother, beq_iff_eq.mp h⟩

/-- An accepted bitfield has the length `msgbuf_len` gives it. -/
theorem peerMsgRecv_bitfield {torrent : Metainfo} {s s' : Socket} {disk disk' : Disk}
    {bits : List UInt8} (h : peerMsgRecv torrent s disk = .ok (some (.bitfield bits), s', disk')) :
    1 + bits.length = msgbufLen .msgBitfield torrent := by
  obtain ⟨word, s₁, -, -, hcases⟩ := peerMsgRecv_cases h
  rcases hcases with ⟨-, hmsg, -⟩ | ⟨code, type, s₂, hne, -, -, hvalid, hpayload⟩
  · cases hmsg
  · have htype : type = .msgBitfield := (recvPayload_type hpayload).symm
    subst htype
    simp only [recvPayload] at hpayload
    obtain ⟨bytes, s₃, -, hlen, hret⟩ := recvThen_accepted hpayload
    cases hret
    rcases validLen_cases hvalid with ⟨hpiece, -⟩ | ⟨-, heq⟩
    · cases hpiece
    · rw [wordSub_of_le (by omega) (UInt32.toNat_lt _)] at hlen
      omega

/-- How many bytes an accepted frame takes off the stream. -/
def consumedLen (torrent : Metainfo) (rx : List UInt8) : Nat :=
  if frameLen rx = 0 then 4
  else if frameType rx = MsgType.msgPiece.code then
    13 + blockLenAt torrent (frameIndex rx) (frameBegin rx)
  else 4 + frameLen rx

/-- An accepted call has consumed `consumedLen` bytes. -/
theorem peerMsgRecv_accepted {torrent : Metainfo} {s s' : Socket} {disk disk' : Disk}
    {msg : PeerMsg} (h : peerMsgRecv torrent s disk = .ok (some msg, s', disk')) :
    ∃ bytes, s.rx = bytes ++ s'.rx ∧ bytes.length = consumedLen torrent s.rx := by
  obtain ⟨word, s₁, hrx₁, hword, hcases⟩ := peerMsgRecv_cases h
  have hlen : frameLen s.rx = (ofBe32 word).toNat := by
    have hslice : slice s.rx 0 4 = word := slice_middle (a := []) hrx₁ rfl hword
    rw [frameLen, hslice]
  rcases hcases with ⟨hzero, -, rfl⟩ | ⟨code, type, s₂, hzero, hrx₂, hcode, -, hpayload⟩
  · exact ⟨word, hrx₁, by rw [consumedLen, hlen, if_pos hzero, hword]⟩
  · have htype : frameType s.rx = code := by
      rw [frameType, hrx₁, hrx₂, ← hword]
      simp
    have hpiece : frameType s.rx = MsgType.msgPiece.code ↔ type = .msgPiece := by
      rw [htype, MsgType.ofCode_eq_some hcode]
      cases type <;> decide
    rcases recvPayload_accepted hpayload with
      ⟨hne, bytes, hrx₃, hleft⟩ | ⟨rfl, idx, beg, bytes, hrx₃, hidx, hbeg, hblock⟩
    · refine ⟨word ++ ([code] ++ bytes), by rw [hrx₁, hrx₂, hrx₃]; simp, ?_⟩
      rw [wordSub_of_le (by omega) (ofBe32 word).toNat_lt] at hleft
      rw [consumedLen, hlen, if_neg hzero, if_neg (fun h => hne (hpiece.mp h))]
      simp only [List.length_append, List.length_singleton]
      omega
    · refine ⟨word ++ ([code] ++ (idx ++ (beg ++ bytes))), by rw [hrx₁, hrx₂, hrx₃]; simp, ?_⟩
      have hidx' : frameIndex s.rx = ofBe32 idx := by
        rw [frameIndex, slice_middle (a := word ++ [code]) (c := beg ++ (bytes ++ s'.rx))
          (by rw [hrx₁, hrx₂, hrx₃]; simp) (by simp [hword]) hidx]
      have hbeg' : frameBegin s.rx = ofBe32 beg := by
        rw [frameBegin, slice_middle (a := word ++ [code] ++ idx) (c := bytes ++ s'.rx)
          (by rw [hrx₁, hrx₂, hrx₃]; simp) (by simp [hword, hidx]) hbeg]
      rw [consumedLen, hlen, if_neg hzero, if_pos (hpiece.mpr rfl), hidx', hbeg']
      simp only [List.length_append, List.length_singleton]
      omega

/-- **Frame synchronisation.** An accepted call has consumed the length word
and the `len` bytes it announces exactly when the frame is in step with the
torrent's blocks. -/
theorem frame_consumed_iff (torrent : Metainfo) (s s' : Socket) (disk disk' : Disk) (msg : PeerMsg)
    (h : peerMsgRecv torrent s disk = .ok (some msg, s', disk')) :
    (∃ bytes, s.rx = bytes ++ s'.rx ∧ bytes.length = 4 + frameLen s.rx) ↔
      InStep torrent s.rx := by
  obtain ⟨bytes, hrx, hlen⟩ := peerMsgRecv_accepted h
  have hsame : (∃ bytes, s.rx = bytes ++ s'.rx ∧ bytes.length = 4 + frameLen s.rx) ↔
      consumedLen torrent s.rx = 4 + frameLen s.rx := by
    constructor
    · rintro ⟨bytes', hrx', hlen'⟩
      have : bytes' = bytes := List.append_cancel_right (hrx'.symm.trans hrx)
      rw [← hlen, ← this, hlen']
    · intro hc
      exact ⟨bytes, hrx, hlen.trans hc⟩
  rw [hsame, consumedLen, InStep]
  by_cases hzero : frameLen s.rx = 0
  · simp [hzero]
  · rw [if_neg hzero]
    by_cases hpiece : frameType s.rx = MsgType.msgPiece.code
    · rw [if_pos hpiece]
      simp only [hzero, hpiece, ne_eq, not_true_eq_false, false_or]
      omega
    · rw [if_neg hpiece]
      simp [hpiece]

/-- One file of ten bytes, in one piece. -/
def tenBytes : Metainfo where
  announce := none
  announceList := []
  info := ⟨.infoSingle, 16384, [], 1, [], 10, 1, []⟩
  infoHash := []
  maxPeers := 0
  sh := ⟨.stateLeeching, [.stateNotRequested], 1, false⟩
  files := [⟨10, []⟩]

/-- A block of the first five bytes of piece `0`, followed by `MSG_CHOKE`. -/
def shortBlock : Socket where
  rx := be32 14 ++ [7] ++ be32 0 ++ be32 0 ++ [1, 2, 3, 4, 5] ++ (be32 1 ++ [0])
  tx := []
  recvPlan := fun _ => some 100
  sendPlan := fun _ => some 100

/-- The five-byte block is accepted, and the frame after it is gone. -/
theorem shortBlock_swallows_next :
    ∃ s' disk', peerMsgRecv tenBytes shortBlock [List.replicate 10 0]
        = .ok (some (.piece ⟨0, 0, 5⟩), s', disk') ∧
      frameLen shortBlock.rx = 14 ∧ shortBlock.rx.length = 23 ∧ s'.rx = [] ∧
      ¬ ∃ bytes, shortBlock.rx = bytes ++ s'.rx ∧ bytes.length = 4 + frameLen shortBlock.rx := by
  have hrun : (peerMsgRecv tenBytes shortBlock [List.replicate 10 0]).toOption.map
      (fun r => (r.1, r.2.1.rx)) = some (some (.piece ⟨0, 0, 5⟩), []) := by decide +kernel
  have hlen : frameLen shortBlock.rx = 14 := by decide
  obtain ⟨⟨msg, s', disk'⟩, hr, hobs⟩ := returns_of_observed hrun
  obtain ⟨rfl, hrx⟩ := Prod.mk.inj hobs
  refine ⟨s', disk', hr, hlen, by decide, hrx, ?_⟩
  rintro ⟨bytes, hbytes, hb⟩
  rw [hrx, List.append_nil] at hbytes
  rw [← hbytes, hlen] at hb
  revert hb
  decide

/-- The whole file as one block is in step. -/
theorem frame_consumed_iff_whole :
    InStep tenBytes (be32 19 ++ [7] ++ be32 0 ++ be32 0 ++ List.replicate 10 1) ∧
      ∃ s' disk' bytes, peerMsgRecv tenBytes
          ⟨be32 19 ++ [7] ++ be32 0 ++ be32 0 ++ List.replicate 10 1, [], fun _ => some 3,
            fun _ => some 3⟩ [List.replicate 10 0] = .ok (some (.piece ⟨0, 0, 10⟩), s', disk') ∧
        be32 19 ++ [7] ++ be32 0 ++ be32 0 ++ List.replicate 10 1 = bytes ++ s'.rx ∧
        bytes.length = 23 := by
  have hstep : InStep tenBytes (be32 19 ++ [7] ++ be32 0 ++ be32 0 ++ List.replicate 10 1) :=
    .inr (.inr (by decide))
  refine ⟨hstep, ?_⟩
  generalize hs : (⟨be32 19 ++ [7] ++ be32 0 ++ be32 0 ++ List.replicate 10 1, [],
    fun _ => some 3, fun _ => some 3⟩ : Socket) = s
  have hrun : (peerMsgRecv tenBytes s [List.replicate 10 0]).toOption.map (fun r => r.1)
      = some (some (.piece ⟨0, 0, 10⟩)) := by subst hs; decide +kernel
  obtain ⟨⟨msg, s', disk'⟩, hr, hobs⟩ := returns_of_observed hrun
  simp only at hobs
  subst hobs
  obtain ⟨bytes, hrx, hlen⟩ := (frame_consumed_iff tenBytes s s' _ disk' _ hr).mpr
    (by subst hs; exact hstep)
  subst hs
  exact ⟨s', disk', bytes, hr, hrx, hlen.trans (by decide)⟩

end BtClient

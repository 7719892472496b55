import BtClient.Connection.Calls
import BtClient.Peer.Wire

/-!
# What goes out for a message

`peer_msg_send` takes the length word from `msgbuf_len` and the payload from a
`switch` of its own. A call that returned `0` has written the frame
`encodeMsg`, so the two agree exactly when that frame holds as many bytes as it
announces. They disagree for `MSG_PIECE`, whose payload is never written.
-/

namespace BtClient

open CLib

/-- The messages that the calls of a connection hand to `peer_msg_send`. -/
inductive CanSend (torrent : Metainfo) : PeerMsg → Prop where
  | keepalive : CanSend torrent .keepalive
  | unchoke : CanSend torrent .unchoke
  | interested : CanSend torrent .interested
  | notInterested : CanSend torrent .notInterested
  | haveMsg (index : UInt32) : CanSend torrent (.haveMsg index)
  | bitfield {sh : Shared} {bits : List UInt8} :
    makeBitfield torrent sh = .ok bits → CanSend torrent (.bitfield bits)
  | request (request : RequestMsg) : CanSend torrent (.request request)
  | piece (piece : PieceMsg) : CanSend torrent (.piece piece)

/-- One complete frame of the message: the length word, then as many bytes as
it says, of which the first one is the type. Only a keepalive has no type. -/
def FrameOf (msg : PeerMsg) (bytes : List UInt8) : Prop :=
  ∃ n body, bytes = be32 n ++ body ∧ body.length = n.toNat ∧
    body.head? = if msg.type = .msgKeepalive then none else some msg.type.code

/-! ## The calls hand over these messages only -/

theorem serviceHaveEvents_canSend {torrent : Metainfo} {queue queue' : MsgQueue}
    {sock sock' : Socket} {havebf havebf' : List UInt8} {sent : List PeerMsg}
    (h : serviceHaveEvents torrent queue sock havebf = .ok (queue', sock', havebf', sent)) :
    ∀ msg ∈ sent, CanSend torrent msg := by
  fun_induction serviceHaveEvents torrent queue sock havebf generalizing sent with
  | case1 queue sock havebf e hrecv =>
    cases h
    exact List.forall_mem_nil _
  | case2 queue sock havebf bytes queue₁ hrecv hfour index =>
    rename_i ih
    obtain ⟨havebf₁, -, h⟩ := (seq_returns_iff _ _ _).mp h
    obtain ⟨⟨ok, sock₁⟩, -, h⟩ := (seq_returns_iff _ _ _).mp h
    cases ok with
    | true =>
      obtain ⟨⟨queue₂, sock₂, havebf₂, more⟩, hrest, h⟩ := (seq_returns_iff _ _ _).mp h
      cases h
      exact List.forall_mem_cons.mpr ⟨.haveMsg index, ih _ _ hrest⟩
    | false =>
      cases h
      exact List.forall_mem_cons.mpr ⟨.haveMsg index, List.forall_mem_nil _⟩
  | case3 queue sock havebf bytes queue₁ hrecv hother =>
    cases h
    exact List.forall_mem_nil _

theorem sendBlockRequests_canSend {torrent : Metainfo} {pieceIndex : UInt32}
    (brs : List BlockRequest) :
    ∀ {sock sock' : Socket} {ok : Bool} {sent : List PeerMsg},
      sendBlockRequests torrent pieceIndex brs sock = .ok (ok, sock', sent) →
      ∀ msg ∈ sent, CanSend torrent msg := by
  induction brs with
  | nil =>
    intro sock sock' ok sent h
    cases h
    exact List.forall_mem_nil _
  | cons br brs ih =>
    intro sock sock' ok sent h
    obtain ⟨⟨ok₁, sock₁⟩, -, h⟩ := (seq_returns_iff _ _ _).mp h
    cases ok₁ with
    | true =>
      obtain ⟨⟨ok₂, sock₂, more⟩, hrest, h⟩ := (seq_returns_iff _ _ _).mp h
      cases h
      exact List.forall_mem_cons.mpr ⟨.request _, ih hrest⟩
    | false =>
      cases h
      exact List.forall_mem_cons.mpr ⟨.request _, List.forall_mem_nil _⟩

theorem sendRequests_canSend {torrent : Metainfo} {sock : Socket} {state : ConnState} {sh : Shared}
    {r : SentRequests} (h : sendRequests torrent sock state sh = .ok r) :
    ∀ msg ∈ r.sent, CanSend torrent msg := by
  unfold sendRequests at h
  split at h
  · cases h
    exact List.forall_mem_nil _
  · obtain ⟨⟨index, sh₁⟩, -, h⟩ := (seq_returns_iff _ _ _).mp h
    cases index with
    | none =>
      simp only at h
      split at h
      · obtain ⟨⟨sock₁, state₁⟩, -, h⟩ := (seq_returns_iff _ _ _).mp h
        cases h
        exact List.forall_mem_singleton.mpr .notInterested
      · cases h
        exact List.forall_mem_nil _
    | some index =>
      obtain ⟨request, -, h⟩ := (seq_returns_iff _ _ _).mp h
      obtain ⟨⟨ok, sock₁, sent⟩, hsend, h⟩ := (seq_returns_iff _ _ _).mp h
      cases h
      exact sendBlockRequests_canSend _ hsend

/-! ## A call that returned `0` -/

/-- What one `send` took is a prefix of the buffer. -/
theorem send_some {s s' : Socket} {buf : List UInt8} {n : Nat} (h : send s buf = (some n, s')) :
    s'.tx = s.tx ++ buf.take n ∧ n ≤ buf.length := by
  unfold send at h
  cases hplan : s.sendPlan 0 with
  | none => simp [hplan] at h
  | some k =>
    simp only [hplan, Prod.mk.injEq, Option.some.injEq] at h
    obtain ⟨rfl, rfl⟩ := h
    exact ⟨rfl, Nat.min_le_right _ _⟩

/-- A loop that ends well has sent the rest of its buffer. -/
theorem sendBuffLoop_sent (buff : List UInt8) (s : Socket) (total : Nat)
    (h : total ≤ buff.length) (hok : (sendBuffLoop buff s total).1 = true) :
    (sendBuffLoop buff s total).2.tx = s.tx ++ buff.drop total := by
  fun_induction sendBuffLoop buff s total with
  | case1 s total hmore s' hs => cases hok
  | case2 s total hmore n s' hs hzero =>
    obtain ⟨htx, -⟩ := send_some hs
    have hnil : buff = [] := List.eq_nil_of_length_eq_zero hzero
    subst hnil
    simpa using htx
  | case3 s total hmore n s' hs hpos ih =>
    obtain ⟨htx, hn⟩ := send_some hs
    rw [List.length_drop] at hn
    rw [ih (by omega) hok, htx, List.append_assoc, ← List.drop_drop, List.take_append_drop]
  | case4 s total hdone =>
    have hend : total = buff.length := of_decide_eq_true hok
    rw [hend, List.drop_length, List.append_nil]

theorem sendBuff_sent {s s' : Socket} {buff : List UInt8} (h : sendBuff s buff = (true, s')) :
    s'.tx = s.tx ++ buff := by
  have hsent := sendBuffLoop_sent buff s 0 (Nat.zero_le _)
  rw [← sendBuff, h, List.drop_zero] at hsent
  exact hsent rfl

theorem sendThen_sent {s s' : Socket} {buff : List UInt8}
    {k : Socket → Except Fault (Bool × Socket)} (h : sendThen s buff k = .ok (true, s')) :
    ∃ s₁, s₁.tx = s.tx ++ buff ∧ k s₁ = .ok (true, s') := by
  unfold sendThen at h
  split at h
  · cases h
  · rename_i s₁ hsend
    exact ⟨s₁, sendBuff_sent hsend, h⟩

theorem sendPayload_sent {torrent : Metainfo} {msg : PeerMsg} {s s' : Socket}
    (h : sendPayload torrent msg s = .ok (true, s')) : s'.tx = s.tx ++ payloadBytes msg := by
  cases msg with
  | keepalive =>
    -- the assertion on the length word fails; the caller has returned before
    obtain ⟨s₁, -, h⟩ := sendThen_sent h
    cases h
  | cancel => cases h
  | choke | unchoke | interested | notInterested | piece =>
    cases h
    exact (List.append_nil _).symm
  | haveMsg | port | bitfield =>
    exact sendBuff_sent (Except.ok.inj h)
  | request r =>
    obtain ⟨s₁, htx₁, h⟩ := sendThen_sent h
    obtain ⟨s₂, htx₂, h⟩ := sendThen_sent h
    obtain ⟨s₃, htx₃, h⟩ := sendThen_sent h
    cases h
    rw [htx₃, htx₂, htx₁, payloadBytes]
    simp only [List.append_assoc]

/-- **A send that returned `0`** has appended the frame, whatever the splits. -/
theorem peerMsgSend_sent {torrent : Metainfo} {msg : PeerMsg} {s s' : Socket}
    (h : peerMsgSend torrent msg s = .ok (true, s')) :
    s'.tx = s.tx ++ encodeMsg torrent msg := by
  obtain ⟨s₁, htx₁, h⟩ := sendThen_sent h
  by_cases hk : msg.type = .msgKeepalive
  · rw [if_pos hk] at h
    cases h
    rw [htx₁, encodeMsg, if_pos hk, List.append_nil]
  · rw [if_neg hk] at h
    obtain ⟨s₂, htx₂, h⟩ := sendThen_sent h
    rw [sendPayload_sent h, htx₂, htx₁, encodeMsg, if_neg hk]
    simp only [List.append_assoc, List.singleton_append]

/-! ## Which messages are whole -/

/-- The frame is complete when the length word counts its body. -/
theorem frameOf_encodeMsg (torrent : Metainfo) (msg : PeerMsg) :
    FrameOf msg (encodeMsg torrent msg) ↔
      (if msg.type = .msgKeepalive then [] else msg.type.code :: payloadBytes msg).length
        = (UInt32.ofNat (msgbufLen msg.type torrent)).toNat := by
  constructor
  · rintro ⟨n, body, hbytes, hlen, -⟩
    obtain ⟨hword, hbody⟩ := List.append_inj hbytes rfl
    have hn : n = UInt32.ofNat (msgbufLen msg.type torrent) := by
      rw [← ofBe32_be32 n, ← hword, ofBe32_be32]
    rw [hbody, hlen, hn]
  · intro hlen
    refine ⟨_, _, rfl, hlen, ?_⟩
    by_cases hk : msg.type = .msgKeepalive
    · simp only [if_pos hk, List.head?_nil]
    · simp only [if_neg hk, List.head?_cons]

/-- The bitfield that is sent is of the torrent's size. -/
theorem length_makeBitfield {torrent : Metainfo} {sh : Shared} {bits : List UInt8}
    (h : makeBitfield torrent sh = .ok bits) :
    bits.length = bitfieldNumBytes torrent.info.numPieces := by
  rw [makeBitfieldLoop_length _ _ _ _ h, List.length_replicate]

/-- What a message must be for its frame to be complete. -/
def SentWhole (torrent : Metainfo) (msg : PeerMsg) : Prop :=
  msg.type ≠ .msgPiece ∧
    (msg.type = .msgBitfield → 1 + bitfieldNumBytes torrent.info.numPieces < 2 ^ 32)

theorem CanSend.frameOf_iff {torrent : Metainfo} {msg : PeerMsg} (h : CanSend torrent msg) :
    FrameOf msg (encodeMsg torrent msg) ↔ SentWhole torrent msg := by
  rw [frameOf_encodeMsg, SentWhole]
  cases h with
  | bitfield hbits =>
    have hlen := length_makeBitfield hbits
    simp only [PeerMsg.type, msgbufLen, payloadBytes, UInt32.toNat_ofNat', Nat.mod_mod,
      List.length_cons, reduceCtorEq, if_false, ne_eq, not_false_eq_true, true_and, true_implies,
      hlen]
    omega
  | piece p =>
    refine ⟨fun hlen => ?_, fun hp => absurd rfl hp.1⟩
    cases hlen
  | keepalive | unchoke | interested | notInterested | haveMsg | request =>
    exact ⟨fun _ => ⟨by simp [PeerMsg.type], by simp [PeerMsg.type]⟩, fun _ => rfl⟩

/-- A send that no socket error stops returns `0`. -/
theorem CanSend.returns {torrent : Metainfo} {msg : PeerMsg} {s : Socket}
    (h : CanSend torrent msg) (hnf : NeverFails s.sendPlan) :
    ∃ s', peerMsgSend torrent msg s = .ok (true, s') := by
  by_cases hpiece : ∃ p, msg = .piece p
  · obtain ⟨p, rfl⟩ := hpiece
    obtain ⟨s₁, -, hnf₁, hs₁⟩ := sendThen_spec hnf
      (be32 (UInt32.ofNat (msgbufLen .msgPiece torrent))) fun s =>
        sendThen s [MsgType.msgPiece.code] (sendPayload torrent (.piece p))
    obtain ⟨s₂, -, -, hs₂⟩ :=
      sendThen_spec hnf₁ [MsgType.msgPiece.code] (sendPayload torrent (.piece p))
    exact ⟨s₂, hs₁.trans hs₂⟩
  · have hwire : wireMsg torrent msg = true := by
      cases h with
      | bitfield hbits => simp [wireMsg, length_makeBitfield hbits]
      | piece p => exact absurd ⟨p, rfl⟩ hpiece
      | keepalive | unchoke | interested | notInterested | haveMsg | request => rfl
    obtain ⟨s', hs', -⟩ := peerMsgSend_spec hwire hnf
    exact ⟨s', hs'⟩

/-- **The frames sent are whole exactly when** they are no blocks, and the
bitfield's length fits its word. -/
theorem sent_whole_iff (torrent : Metainfo) (msg : PeerMsg) (hsend : CanSend torrent msg) :
    (∀ s s', peerMsgSend torrent msg s = .ok (true, s') →
      ∃ bytes, s'.tx = s.tx ++ bytes ∧ FrameOf msg bytes) ↔ SentWhole torrent msg := by
  constructor
  · intro hall
    obtain ⟨s', hs'⟩ := hsend.returns (s := ⟨[], [], fun _ => none, fun _ => some 1⟩)
      (fun _ => by simp)
    obtain ⟨bytes, htx, hframe⟩ := hall _ _ hs'
    rw [peerMsgSend_sent hs'] at htx
    rw [← List.append_cancel_left htx] at hframe
    exact hsend.frameOf_iff.mp hframe
  · intro hwhole s s' hs'
    exact ⟨_, peerMsgSend_sent hs', hsend.frameOf_iff.mpr hwhole⟩

/-- A request, sent byte by byte. -/
theorem sent_whole_request : ∃ s' bytes,
    peerMsgSend eightPieces (.request ⟨3, 0, 16384⟩) ⟨[], [], fun _ => none, fun _ => some 1⟩
      = .ok (true, s') ∧ s'.tx = [] ++ bytes ∧ FrameOf (.request ⟨3, 0, 16384⟩) bytes := by
  obtain ⟨s', hs'⟩ := (.request _ : CanSend eightPieces (.request ⟨3, 0, 16384⟩)).returns
    (s := ⟨[], [], fun _ => none, fun _ => some 1⟩) (fun _ => by simp)
  obtain ⟨bytes, htx, hframe⟩ := (sent_whole_iff eightPieces (.request ⟨3, 0, 16384⟩)
    (.request _)).mpr ⟨by decide, by decide⟩ _ _ hs'
  exact ⟨s', bytes, hs', htx, hframe⟩

/-- The answer to a request for block 0 of piece 3: the call returns `0` after
five bytes, and the peer waits for 16392 more. -/
theorem sent_whole_piece : ∃ s',
    peerMsgSend eightPieces (.piece ⟨3, 0, 16384⟩) ⟨[], [], fun _ => none, fun _ => some 65536⟩
      = .ok (true, s') ∧ s'.tx = [0, 0, 64, 9, 7] ∧ ¬ FrameOf (.piece ⟨3, 0, 16384⟩) s'.tx := by
  obtain ⟨s', hs'⟩ := (.piece _ : CanSend eightPieces (.piece ⟨3, 0, 16384⟩)).returns
    (s := ⟨[], [], fun _ => none, fun _ => some 65536⟩) (fun _ => by simp)
  have htx := peerMsgSend_sent hs'
  rw [List.nil_append] at htx
  refine ⟨s', hs', htx.trans rfl, ?_⟩
  rw [htx, (CanSend.piece _).frameOf_iff]
  exact fun hwhole => hwhole.1 rfl

end BtClient

import BtClient.Peer.Msg

/-!
# The wire round trip

`encodeMsg` is the frame of a message as bytes. The send side appends exactly
that frame whatever the kernel splits, the receive side takes exactly that
frame off the stream and returns the message, and on a stream that ends inside
the frame it returns `-1`. The round trip over whole streams is the induction
over the list of messages.

`MSG_PIECE` is left out: `peer_msg_send` does not write its payload.
-/

namespace BtClient

open CLib

/-- The bytes after the type byte. -/
def payloadBytes : PeerMsg → List UInt8
  | .bitfield bits => bits
  | .request r => be32 r.index ++ be32 r.begin ++ be32 r.length
  | .haveMsg index => be32 index
  | .port listenPort => be32 listenPort
  | _ => []

/-- The frame of a message. -/
def encodeMsg (torrent : Metainfo) (msg : PeerMsg) : List UInt8 :=
  be32 (UInt32.ofNat (msgbufLen msg.type torrent)) ++
    (if msg.type = .msgKeepalive then [] else msg.type.code :: payloadBytes msg)

/-- The messages of the round trip: every type but `MSG_PIECE` and
`MSG_CANCEL`, a bitfield being of the torrent's size. -/
def wireMsg (torrent : Metainfo) : PeerMsg → Bool
  | .piece _ | .cancel => false
  | .bitfield bits => bits.length == bitfieldNumBytes torrent.info.numPieces
  | _ => true

/-! ## Frame lengths -/

theorem bitfieldNumBytes_lt {n : Nat} (h : n < 2 ^ 32) : 1 + bitfieldNumBytes n < 2 ^ 32 := by
  unfold bitfieldNumBytes
  split <;> omega

/-- The length word counts the type byte and the payload. -/
theorem msgbufLen_wire {torrent : Metainfo} {msg : PeerMsg}
    (hn : torrent.info.numPieces < 2 ^ 32) (hw : wireMsg torrent msg = true)
    (hk : msg.type ≠ .msgKeepalive) :
    msgbufLen msg.type torrent = 1 + (payloadBytes msg).length ∧
      1 + (payloadBytes msg).length < 2 ^ 32 := by
  cases msg with
  | keepalive => exact absurd rfl hk
  | piece _ => cases hw
  | cancel => cases hw
  | bitfield bits =>
    simp only [wireMsg, beq_iff_eq] at hw
    have hlt := bitfieldNumBytes_lt hn
    simp only [PeerMsg.type, msgbufLen, payloadBytes, hw]
    exact ⟨Nat.mod_eq_of_lt hlt, hlt⟩
  | choke | unchoke | interested | notInterested | haveMsg _ | request _ | port _ =>
    exact ⟨rfl, by simp [payloadBytes]⟩

/-! ## Sending -/

theorem sendThen_spec {s : Socket} (hnf : NeverFails s.sendPlan) (buff : List UInt8)
    (k : Socket → Except Fault (Bool × Socket)) :
    ∃ s', s'.tx = s.tx ++ buff ∧ NeverFails s'.sendPlan ∧ sendThen s buff k = k s' := by
  obtain ⟨hok, htx, hplan⟩ := sendBuff_spec hnf buff
  refine ⟨(sendBuff s buff).2, htx, hplan, ?_⟩
  rw [sendThen]
  generalize sendBuff s buff = r at hok
  obtain ⟨ok, s'⟩ := r
  simp only at hok
  subst hok
  rfl

/-- The payload goes out as `payloadBytes`. -/
theorem sendPayload_spec {torrent : Metainfo} {msg : PeerMsg} {s : Socket}
    (hw : wireMsg torrent msg = true) (hk : msg.type ≠ .msgKeepalive)
    (hnf : NeverFails s.sendPlan) :
    ∃ s', sendPayload torrent msg s = .ok (true, s') ∧
      s'.tx = s.tx ++ payloadBytes msg ∧ NeverFails s'.sendPlan := by
  have hone : ∀ buff, ∃ s', (Except.ok (sendBuff s buff) : Except Fault _) = .ok (true, s') ∧
      s'.tx = s.tx ++ buff ∧ NeverFails s'.sendPlan := by
    intro buff
    obtain ⟨hok, htx, hplan⟩ := sendBuff_spec hnf buff
    exact ⟨(sendBuff s buff).2, by rw [← hok], htx, hplan⟩
  cases msg with
  | keepalive => exact absurd rfl hk
  | piece _ => cases hw
  | cancel => cases hw
  | choke | unchoke | interested | notInterested =>
    exact ⟨s, rfl, by simp [payloadBytes], hnf⟩
  | haveMsg index => exact hone (be32 index)
  | port listenPort => exact hone (be32 listenPort)
  | bitfield bits => exact hone bits
  | request r =>
    simp only [sendPayload]
    obtain ⟨s₁, htx₁, hnf₁, hs₁⟩ := sendThen_spec hnf (be32 r.index) fun s =>
      sendThen s (be32 r.begin) fun s => sendThen s (be32 r.length) fun s => .ok (true, s)
    obtain ⟨s₂, htx₂, hnf₂, hs₂⟩ := sendThen_spec hnf₁ (be32 r.begin) fun s =>
      sendThen s (be32 r.length) fun s => .ok (true, s)
    obtain ⟨s₃, htx₃, hnf₃, hs₃⟩ := sendThen_spec hnf₂ (be32 r.length) fun s => .ok (true, s)
    exact ⟨s₃, by rw [hs₁, hs₂, hs₃], by rw [htx₃, htx₂, htx₁, payloadBytes]; simp, hnf₃⟩

/-- **One send** appends the frame, whatever the splits. -/
theorem peerMsgSend_spec {torrent : Metainfo} {msg : PeerMsg} {s : Socket}
    (hw : wireMsg torrent msg = true) (hnf : NeverFails s.sendPlan) :
    ∃ s', peerMsgSend torrent msg s = .ok (true, s') ∧
      s'.tx = s.tx ++ encodeMsg torrent msg ∧ NeverFails s'.sendPlan := by
  rw [peerMsgSend]
  obtain ⟨s₁, htx₁, hnf₁, hs₁⟩ := sendThen_spec hnf
    (be32 (UInt32.ofNat (msgbufLen msg.type torrent))) fun s =>
      if msg.type = .msgKeepalive then .ok (true, s)
      else sendThen s [msg.type.code] (sendPayload torrent msg)
  rw [hs₁]
  by_cases hk : msg.type = .msgKeepalive
  · simp only [if_pos hk]
    exact ⟨s₁, rfl, by rw [htx₁, encodeMsg, if_pos hk, List.append_nil], hnf₁⟩
  · simp only [if_neg hk]
    obtain ⟨s₂, htx₂, hnf₂, hs₂⟩ :=
      sendThen_spec hnf₁ [msg.type.code] (sendPayload torrent msg)
    obtain ⟨s₃, hs₃, htx₃, hnf₃⟩ := sendPayload_spec hw hk hnf₂
    refine ⟨s₃, hs₂.trans hs₃, ?_, hnf₃⟩
    rw [htx₃, htx₂, htx₁, encodeMsg, if_neg hk]
    simp

/-- Sending a list appends its frames. -/
theorem peerMsgSends_spec {torrent : Metainfo} (msgs : List PeerMsg) :
    ∀ {s : Socket}, (∀ msg ∈ msgs, wireMsg torrent msg = true) → NeverFails s.sendPlan →
      ∃ s', peerMsgSends torrent msgs s = .ok (true, s') ∧
        s'.tx = s.tx ++ msgs.flatMap (encodeMsg torrent) := by
  induction msgs with
  | nil => intro s _ _; exact ⟨s, rfl, by simp⟩
  | cons msg msgs ih =>
    intro s hw hnf
    obtain ⟨s₁, hs₁, htx₁, hnf₁⟩ := peerMsgSend_spec (hw msg (by simp)) hnf
    obtain ⟨s₂, hs₂, htx₂⟩ := ih (fun m hm => hw m (by simp [hm])) hnf₁
    refine ⟨s₂, by simp [peerMsgSends, hs₁, hs₂], ?_⟩
    rw [htx₂, htx₁, List.flatMap_cons, List.append_assoc]

/-! ## Receiving -/

theorem recvThen_exact {α : Type} {s : Socket} {bs rest : List UInt8} {len : Nat}
    (hnf : NeverFails s.recvPlan) (hrx : s.rx = bs ++ rest) (hlen : bs.length = len) (disk : Disk)
    (k : List UInt8 → Socket → Except Fault (RecvResult α)) :
    ∃ s', s'.rx = rest ∧ NeverFails s'.recvPlan ∧ recvThen s disk len k = k bs s' := by
  subst hlen
  obtain ⟨hok, hbytes, hrest, hplan⟩ := peerRecv_exact hnf hrx
  exact ⟨(peerRecv s bs.length).sock, hrest, hplan, by simp [recvThen, hok, hbytes]⟩

theorem recvThen_short {α : Type} {s : Socket} {len : Nat} (h : s.rx.length < len) (disk : Disk)
    (k : List UInt8 → Socket → Except Fault (RecvResult α)) :
    ∃ s', recvThen s disk len k = .ok (none, s', disk) :=
  ⟨(peerRecv s len).sock, by simp [recvThen, peerRecv_short h]⟩

/-- A stream cut somewhere inside `a ++ b` ends inside `a`, or after `a` and
inside `b`. -/
theorem cut_append {a b cut more : List UInt8} (h : cut ++ more = a ++ b) :
    (∃ rest, rest ≠ [] ∧ cut ++ rest = a) ∨ ∃ c, cut = a ++ c ∧ c ++ more = b := by
  rcases List.append_eq_append_iff.mp h with ⟨rest, ha, hmore⟩ | ⟨c, hcut, hb⟩
  · cases rest with
    | nil => exact .inr ⟨[], by simpa using ha.symm, by simpa using hmore⟩
    | cons x rest => exact .inl ⟨x :: rest, by simp, ha.symm⟩
  · exact .inr ⟨c, hcut, hb.symm⟩

/-- What is cut off something is shorter. -/
theorem length_cut_lt {a cut rest : List UInt8} (h : cut ++ rest = a) (hrest : rest ≠ []) :
    cut.length < a.length := by
  have hl := congrArg List.length h
  have hpos := List.length_pos_iff.mpr hrest
  rw [List.length_append] at hl
  omega

/-- The payload of a wire message, read back. -/
theorem recvPayload_spec {torrent : Metainfo} {msg : PeerMsg} {s : Socket} {rest : List UInt8}
    (disk : Disk) (hw : wireMsg torrent msg = true) (hk : msg.type ≠ .msgKeepalive)
    (hnf : NeverFails s.recvPlan) (hrx : s.rx = payloadBytes msg ++ rest) :
    ∃ s', recvPayload torrent msg.type (payloadBytes msg).length s disk
        = .ok (some msg, s', disk) ∧ s'.rx = rest ∧ NeverFails s'.recvPlan := by
  cases msg with
  | keepalive => exact absurd rfl hk
  | piece _ => cases hw
  | cancel => cases hw
  | choke | unchoke | interested | notInterested =>
    exact ⟨s, rfl, by simpa [payloadBytes] using hrx, hnf⟩
  | haveMsg index =>
    obtain ⟨s', hrx', hnf', hs'⟩ := recvThen_exact (α := PeerMsg) hnf hrx rfl disk fun bytes s =>
      .ok (some (.haveMsg (ofBe32 bytes)), s, disk)
    exact ⟨s', by simpa [recvPayload, PeerMsg.type, payloadBytes] using hs', hrx', hnf'⟩
  | port listenPort =>
    obtain ⟨s', hrx', hnf', hs'⟩ := recvThen_exact (α := PeerMsg) hnf hrx rfl disk fun bytes s =>
      .ok (some (.port (ofBe32 bytes)), s, disk)
    exact ⟨s', by simpa [recvPayload, PeerMsg.type, payloadBytes] using hs', hrx', hnf'⟩
  | bitfield bits =>
    obtain ⟨s', hrx', hnf', hs'⟩ := recvThen_exact (α := PeerMsg) hnf hrx rfl disk fun bytes s =>
      .ok (some (.bitfield bytes), s, disk)
    exact ⟨s', by simpa [recvPayload, PeerMsg.type, payloadBytes] using hs', hrx', hnf'⟩
  | request r =>
    obtain ⟨s', hrx', hnf', hs'⟩ := recvThen_exact (α := PeerMsg) hnf hrx rfl disk fun bytes s => do
      check ((payloadBytes (.request r)).length = 3 * 4)
      return (some (.request ⟨ofBe32 (slice bytes 0 4), ofBe32 (slice bytes 4 4),
        ofBe32 (slice bytes 8 4)⟩), s, disk)
    refine ⟨s', ?_, hrx', hnf'⟩
    have hf : slice (payloadBytes (.request r)) 0 4 = be32 r.index ∧
        slice (payloadBytes (.request r)) 4 4 = be32 r.begin ∧
        slice (payloadBytes (.request r)) 8 4 = be32 r.length := ⟨rfl, rfl, rfl⟩
    rw [show recvPayload torrent (PeerMsg.request r).type _ s disk = _ from hs', hf.1, hf.2.1,
      hf.2.2, ofBe32_be32, ofBe32_be32, ofBe32_be32]
    rfl

/-- A stream that ends inside the payload. -/
theorem recvPayload_cut {torrent : Metainfo} {msg : PeerMsg} {s : Socket} {more : List UInt8}
    (disk : Disk) (hw : wireMsg torrent msg = true) (hk : msg.type ≠ .msgKeepalive)
    (hcut : s.rx ++ more = payloadBytes msg) (hmore : more ≠ []) :
    ∃ s', recvPayload torrent msg.type (payloadBytes msg).length s disk
        = .ok (none, s', disk) := by
  have hshort := length_cut_lt hcut hmore
  cases msg with
  | keepalive => exact absurd rfl hk
  | piece _ => cases hw
  | cancel => cases hw
  | choke | unchoke | interested | notInterested =>
    simp [payloadBytes] at hshort
  | haveMsg _ | port _ =>
    simp only [PeerMsg.type, recvPayload, payloadBytes, length_be32, decide_true, check_true,
      ok_bind]
    exact recvThen_short hshort disk _
  | bitfield _ | request _ =>
    simp only [PeerMsg.type, recvPayload]
    exact recvThen_short hshort disk _

/-- The head of a frame: length word, then type byte, then the payload. -/
theorem peerMsgRecv_head {torrent : Metainfo} {msg : PeerMsg} {s : Socket} (rest : List UInt8)
    (hn : torrent.info.numPieces < 2 ^ 32) (disk : Disk) (hw : wireMsg torrent msg = true)
    (hk : msg.type ≠ .msgKeepalive) (hnf : NeverFails s.recvPlan)
    (hrx : s.rx = be32 (UInt32.ofNat (msgbufLen msg.type torrent)) ++ [msg.type.code] ++ rest) :
    ∃ s', s'.rx = rest ∧ NeverFails s'.recvPlan ∧
      peerMsgRecv torrent s disk
        = recvPayload torrent msg.type (payloadBytes msg).length s' disk := by
  obtain ⟨hlen, hlt⟩ := msgbufLen_wire hn hw hk
  have hval : (UInt32.ofNat (msgbufLen msg.type torrent)).toNat
      = 1 + (payloadBytes msg).length := by
    rw [hlen, UInt32.toNat_ofNat', Nat.mod_eq_of_lt hlt]
  have hvalid : validLen msg.type torrent (1 + (payloadBytes msg).length) = true := by
    cases msg with
    | piece _ => cases hw
    | keepalive | cancel | choke | unchoke | interested | notInterested | haveMsg _ | port _
    | bitfield _ | request _ => simp [validLen, ← hlen, PeerMsg.type]
  rw [List.append_assoc] at hrx
  obtain ⟨s₁, hrx₁, hnf₁, hs₁⟩ :=
    recvThen_exact hnf hrx (length_be32 _) disk (recvBody torrent disk)
  obtain ⟨s₂, hrx₂, hnf₂, hs₂⟩ := recvThen_exact hnf₁ hrx₁ List.length_singleton disk
    (recvTyped torrent disk (1 + (payloadBytes msg).length))
  refine ⟨s₂, hrx₂, hnf₂, ?_⟩
  rw [peerMsgRecv, hs₁, recvBody]
  simp only [ofBe32_be32, hval]
  rw [if_neg (by omega), hs₂, recvTyped]
  simp only [List.getD_cons_zero, MsgType.ofCode_code, hvalid, if_true,
    wordSub_of_le (Nat.le_add_right 1 _) hlt, Nat.add_sub_cancel_left]

theorem peerMsgRecv_keepalive {torrent : Metainfo} {s : Socket} {rest : List UInt8} (disk : Disk)
    (hnf : NeverFails s.recvPlan) (hrx : s.rx = be32 0 ++ rest) :
    ∃ s', peerMsgRecv torrent s disk = .ok (some .keepalive, s', disk) ∧
      s'.rx = rest ∧ NeverFails s'.recvPlan := by
  obtain ⟨s₁, hrx₁, hnf₁, hs₁⟩ :=
    recvThen_exact hnf hrx (length_be32 _) disk (recvBody torrent disk)
  exact ⟨s₁, by rw [peerMsgRecv, hs₁, recvBody]; simp, hrx₁, hnf₁⟩

theorem keepalive_of_type {msg : PeerMsg} (h : msg.type = .msgKeepalive) : msg = .keepalive := by
  cases msg <;> first | rfl | cases h

/-- **One receive** takes one frame off the stream and returns its message. -/
theorem peerMsgRecv_spec {torrent : Metainfo} {msg : PeerMsg} {s : Socket} {rest : List UInt8}
    (hn : torrent.info.numPieces < 2 ^ 32) (disk : Disk) (hw : wireMsg torrent msg = true)
    (hnf : NeverFails s.recvPlan) (hrx : s.rx = encodeMsg torrent msg ++ rest) :
    ∃ s', peerMsgRecv torrent s disk = .ok (some msg, s', disk) ∧
      s'.rx = rest ∧ NeverFails s'.recvPlan := by
  by_cases hk : msg.type = .msgKeepalive
  · have := keepalive_of_type hk
    subst this
    exact peerMsgRecv_keepalive disk hnf (by simpa [encodeMsg, PeerMsg.type, msgbufLen] using hrx)
  · obtain ⟨s₁, hrx₁, hnf₁, hs₁⟩ := peerMsgRecv_head (payloadBytes msg ++ rest) hn disk hw
      hk hnf (by rw [hrx, encodeMsg, if_neg hk]; simp)
    obtain ⟨s₂, hs₂, hrx₂, hnf₂⟩ := recvPayload_spec disk hw hk hnf₁ hrx₁
    exact ⟨s₂, hs₁.trans hs₂, hrx₂, hnf₂⟩

/-- Before the type byte of a frame is there, nothing is returned. -/
theorem recvBody_cut {torrent : Metainfo} {s : Socket} {len : UInt32} (disk : Disk)
    (hlen : len.toNat ≠ 0) (hrx : s.rx = []) :
    ∃ s', recvBody torrent disk (be32 len) s = .ok (none, s', disk) := by
  simp only [recvBody, ofBe32_be32, if_neg hlen]
  exact recvThen_short (by simp [hrx]) disk _

/-- **One receive on a cut frame** returns `-1`. -/
theorem peerMsgRecv_cut {torrent : Metainfo} {msg : PeerMsg} {s : Socket} {more : List UInt8}
    (hn : torrent.info.numPieces < 2 ^ 32) (disk : Disk) (hw : wireMsg torrent msg = true)
    (hnf : NeverFails s.recvPlan) (hcut : s.rx ++ more = encodeMsg torrent msg)
    (hmore : more ≠ []) : ∃ s', peerMsgRecv torrent s disk = .ok (none, s', disk) := by
  -- the stream ends inside the length word, before the type byte, or inside the payload
  rcases cut_append hcut with ⟨rest, hrest, hword⟩ | ⟨c, hc, hcut⟩
  · have hlt := length_cut_lt hword hrest
    rw [length_be32] at hlt
    exact recvThen_short hlt disk _
  · by_cases hk : msg.type = .msgKeepalive
    · rw [if_pos hk] at hcut
      exact absurd (List.append_eq_nil_iff.mp hcut).2 hmore
    · rw [if_neg hk] at hcut
      cases c with
      | nil =>
        obtain ⟨hlen, hlt⟩ := msgbufLen_wire hn hw hk
        obtain ⟨s₁, hrx₁, -, hs₁⟩ :=
          recvThen_exact hnf hc (length_be32 _) disk (recvBody torrent disk)
        rw [peerMsgRecv, hs₁]
        refine recvBody_cut disk ?_ hrx₁
        rw [hlen, UInt32.toNat_ofNat', Nat.mod_eq_of_lt hlt]
        omega
      | cons b c =>
        simp only [List.cons_append, List.cons.injEq] at hcut
        obtain ⟨rfl, hcut⟩ := hcut
        obtain ⟨s₁, hrx₁, -, hs₁⟩ :=
          peerMsgRecv_head c hn disk hw hk hnf (by rw [hc]; simp)
        rw [hs₁]
        exact recvPayload_cut disk hw hk (by rw [hrx₁]; exact hcut) hmore

/-! ## Whole streams -/

/-- Receiving as many messages as the stream holds frames. -/
theorem peerMsgRecvs_spec {torrent : Metainfo} (hn : torrent.info.numPieces < 2 ^ 32) (disk : Disk)
    (msgs : List PeerMsg) :
    ∀ {s : Socket}, (∀ msg ∈ msgs, wireMsg torrent msg = true) → NeverFails s.recvPlan →
      s.rx = msgs.flatMap (encodeMsg torrent) →
      ∃ s', peerMsgRecvs torrent msgs.length s disk = .ok (msgs.map some, s', disk) ∧
        s'.rx = [] := by
  induction msgs with
  | nil => intro s _ _ hrx; exact ⟨s, rfl, hrx⟩
  | cons msg msgs ih =>
    intro s hw hnf hrx
    rw [List.flatMap_cons] at hrx
    obtain ⟨s₁, hs₁, hrx₁, hnf₁⟩ := peerMsgRecv_spec hn disk (hw msg (by simp)) hnf hrx
    obtain ⟨s₂, hs₂, hrx₂⟩ := ih (fun m hm => hw m (by simp [hm])) hnf₁ hrx₁
    exact ⟨s₂, by simp [peerMsgRecvs, hs₁, hs₂], hrx₂⟩

/-- Receiving from a stream that ends inside one of the frames: the frames
before it are returned, and the call that meets the cut returns `-1`. -/
theorem peerMsgRecvs_cut {torrent : Metainfo} (hn : torrent.info.numPieces < 2 ^ 32) (disk : Disk)
    (msgs : List PeerMsg) :
    ∀ {s : Socket} {more : List UInt8}, (∀ msg ∈ msgs, wireMsg torrent msg = true) →
      NeverFails s.recvPlan → s.rx ++ more = msgs.flatMap (encodeMsg torrent) → more ≠ [] →
      ∃ m < msgs.length, ∃ s', peerMsgRecvs torrent msgs.length s disk
        = .ok ((msgs.take m).map some ++ [none], s', disk) := by
  induction msgs with
  | nil =>
    intro s more _ _ hcut hmore
    exact absurd (List.append_eq_nil_iff.mp hcut).2 hmore
  | cons msg msgs ih =>
    intro s more hw hnf hcut hmore
    rw [List.flatMap_cons] at hcut
    rcases cut_append hcut with ⟨rest, hrest, hframe⟩ | ⟨c, hc, hcut⟩
    · obtain ⟨s₁, hs₁⟩ := peerMsgRecv_cut hn disk (hw msg (by simp)) hnf hframe hrest
      exact ⟨0, by simp, s₁, by simp [peerMsgRecvs, hs₁]⟩
    · obtain ⟨s₁, hs₁, hrx₁, hnf₁⟩ := peerMsgRecv_spec hn disk (hw msg (by simp)) hnf hc
      obtain ⟨m, hm, s₂, hs₂⟩ := ih (fun m hm => hw m (by simp [hm])) hnf₁
        (by rw [hrx₁]; exact hcut) hmore
      exact ⟨m + 1, by simpa using hm, s₂, by simp [peerMsgRecvs, hs₁, hs₂]⟩

/-- A torrent of nine empty pieces. -/
def ninePieces : Metainfo where
  announce := none
  announceList := []
  info := ⟨.infoSingle, 0, [], 9, [], 0, 0, []⟩
  infoHash := []
  maxPeers := 0
  sh := ⟨.stateLeeching, [], 9, false⟩
  files := []

end BtClient

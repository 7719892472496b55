import BtClient.Connection.SendFrames
import BtClient.Peer.Handshake

/-!
# The messages a call hands to `peer_msg_send`

Every byte a connection writes behind its handshake is part of the frame of
some message handed to `peer_msg_send`. `Emits` follows these messages through
the calls of a connection, whatever the socket answers: where a send failed,
only a beginning of the frame is in the stream, and without socket errors the
stream is the frames.
-/

namespace BtClient

open CLib

/-! ## Messages handed to `peer_msg_send` -/

/-- The send sides agree. -/
def SameSend (s s' : Socket) : Prop := s'.tx = s.tx ∧ s'.sendPlan = s.sendPlan

theorem SameSend.trans {s s' s'' : Socket} (h : SameSend s s') (h' : SameSend s' s'') :
    SameSend s s'' := ⟨h'.1.trans h.1, h'.2.trans h.2⟩

/-- From `s` to `s'` the messages `msgs` were handed to `peer_msg_send`, in this
order; receives do not count. -/
inductive Emits (torrent : Metainfo) : Socket → List PeerMsg → Socket → Prop where
  | silent {s s' : Socket} : SameSend s s' → Emits torrent s [] s'
  | send {s s' : Socket} {msg : PeerMsg} {ok : Bool} :
    peerMsgSend torrent msg s = .ok (ok, s') → Emits torrent s [msg] s'
  | trans {s s' s'' : Socket} {msgs msgs' : List PeerMsg} :
    Emits torrent s msgs s' → Emits torrent s' msgs' s'' → Emits torrent s (msgs ++ msgs') s''

theorem Emits.refl (torrent : Metainfo) (s : Socket) : Emits torrent s [] s := .silent ⟨rfl, rfl⟩

theorem Emits.cons {torrent : Metainfo} {s s' s'' : Socket} {msg : PeerMsg} {ok : Bool}
    {msgs : List PeerMsg} (h : peerMsgSend torrent msg s = .ok (ok, s'))
    (h' : Emits torrent s' msgs s'') : Emits torrent s (msg :: msgs) s'' :=
  Emits.trans (.send h) h'

/-- The bytes of messages of which some may have been cut short: a chunk of each
frame, from its start. -/
def Written (torrent : Metainfo) (msgs : List PeerMsg) (bytes : List UInt8) : Prop :=
  ∃ chunks : List (List UInt8), bytes = chunks.flatten ∧
    List.Forall₂ (fun chunk msg => chunk <+: encodeMsg torrent msg) chunks msgs

theorem Written.append {torrent : Metainfo} {msgs msgs' : List PeerMsg} {bytes bytes' : List UInt8}
    (h : Written torrent msgs bytes) (h' : Written torrent msgs' bytes') :
    Written torrent (msgs ++ msgs') (bytes ++ bytes') := by
  obtain ⟨chunks, rfl, hchunks⟩ := h
  obtain ⟨chunks', rfl, hchunks'⟩ := h'
  exact ⟨chunks ++ chunks', List.flatten_append.symm, List.rel_append hchunks hchunks'⟩

/-- What `send_buff` has written when it returns is a beginning of its buffer. -/
theorem sendBuffLoop_prefix (buff : List UInt8) (s : Socket) (total : Nat) :
    ∃ chunk, chunk <+: buff.drop total ∧ (sendBuffLoop buff s total).2.tx = s.tx ++ chunk := by
  have hnone : ∀ {s s' : Socket} {buf : List UInt8}, send s buf = (none, s') → s'.tx = s.tx := by
    intro s s' buf hs
    unfold send at hs
    cases hp : s.sendPlan 0 with
    | none =>
      simp only [hp, Prod.mk.injEq, true_and] at hs
      rw [← hs]
    | some k => simp [hp] at hs
  fun_induction sendBuffLoop buff s total with
  | case1 s total _ s' hs => exact ⟨[], List.nil_prefix, by rw [hnone hs, List.append_nil]⟩
  | case2 s total _ n s' hs _ => exact ⟨_, List.take_prefix n _, (send_some hs).1⟩
  | case3 s total _ n s' hs _ ih =>
    obtain ⟨htx, -⟩ := send_some hs
    obtain ⟨chunk, ⟨rest, hrest⟩, hchunk⟩ := ih
    refine ⟨(buff.drop total).take n ++ chunk, ⟨rest, ?_⟩, by rw [hchunk, htx, List.append_assoc]⟩
    rw [List.append_assoc, hrest, ← List.drop_drop, List.take_append_drop]
  | case4 s total _ => exact ⟨[], List.nil_prefix, (List.append_nil _).symm⟩

theorem sendBuff_prefix (buff : List UInt8) (s : Socket) :
    ∃ chunk, chunk <+: buff ∧ (sendBuff s buff).2.tx = s.tx ++ chunk := by
  have h := sendBuffLoop_prefix buff s 0
  rwa [List.drop_zero] at h

/-- One buffer, and what follows it if it went out whole. -/
theorem sendThen_prefix {s s' : Socket} {buff more : List UInt8} {ok : Bool}
    {k : Socket → Except Fault (Bool × Socket)} (h : sendThen s buff k = .ok (ok, s'))
    (hk : ∀ s₁, k s₁ = .ok (ok, s') → ∃ chunk, chunk <+: more ∧ s'.tx = s₁.tx ++ chunk) :
    ∃ chunk, chunk <+: buff ++ more ∧ s'.tx = s.tx ++ chunk := by
  unfold sendThen at h
  split at h
  · rename_i s₁ hsend
    cases h
    obtain ⟨chunk, hpre, htx⟩ := sendBuff_prefix buff s
    rw [hsend] at htx
    exact ⟨chunk, hpre.trans (List.prefix_append _ _), htx⟩
  · rename_i s₁ hsend
    obtain ⟨chunk, hpre, htx⟩ := hk s₁ h
    refine ⟨buff ++ chunk, (List.prefix_append_right_inj buff).mpr hpre, ?_⟩
    rw [htx, sendBuff_sent hsend, List.append_assoc]

theorem sendPayload_prefix {torrent : Metainfo} {msg : PeerMsg} {s s' : Socket} {ok : Bool}
    (h : sendPayload torrent msg s = .ok (ok, s')) :
    ∃ chunk, chunk <+: payloadBytes msg ∧ s'.tx = s.tx ++ chunk := by
  have hone : ∀ buff, sendBuff s buff = (ok, s') → ∃ chunk, chunk <+: buff ∧
      s'.tx = s.tx ++ chunk := by
    intro buff hsend
    have hpre := sendBuff_prefix buff s
    rwa [hsend] at hpre
  cases msg with
  | keepalive =>
    exact sendThen_prefix h fun s₁ hk => by cases hk
  | choke | unchoke | interested | notInterested | piece | cancel =>
    cases h
    exact ⟨[], List.nil_prefix, (List.append_nil _).symm⟩
  | haveMsg | port | bitfield => exact hone _ (Except.ok.inj h)
  | request r =>
    have hend : ∀ s₁ : Socket, (.ok (true, s₁) : Except Fault (Bool × Socket)) = .ok (ok, s') →
        ∃ chunk, chunk <+: [] ∧ s'.tx = s₁.tx ++ chunk := by
      intro s₁ hs₁
      cases hs₁
      exact ⟨[], List.nil_prefix, (List.append_nil _).symm⟩
    have hthree := sendThen_prefix h fun s₁ h₁ => sendThen_prefix h₁ fun s₂ h₂ =>
      sendThen_prefix h₂ hend
    rwa [List.append_nil, ← List.append_assoc] at hthree

/-- **A send** appends the frame, or a beginning of it. -/
theorem peerMsgSend_prefix {torrent : Metainfo} {msg : PeerMsg} {s s' : Socket} {ok : Bool}
    (h : peerMsgSend torrent msg s = .ok (ok, s')) :
    ∃ chunk, chunk <+: encodeMsg torrent msg ∧ s'.tx = s.tx ++ chunk := by
  refine sendThen_prefix h fun s₁ h₁ => ?_
  by_cases hk : msg.type = .msgKeepalive
  · rw [if_pos hk] at h₁
    cases h₁
    exact ⟨[], List.nil_prefix, (List.append_nil _).symm⟩
  · rw [if_neg hk] at h₁ ⊢
    exact sendThen_prefix h₁ fun s₂ h₂ => sendPayload_prefix h₂

/-- The bytes written belong to the messages. -/
theorem Emits.written {torrent : Metainfo} {s s' : Socket} {msgs : List PeerMsg}
    (h : Emits torrent s msgs s') :
    ∃ bytes, s'.tx = s.tx ++ bytes ∧ Written torrent msgs bytes := by
  induction h with
  | silent hsame => exact ⟨[], by rw [hsame.1, List.append_nil], [], rfl, .nil⟩
  | send hsend =>
    obtain ⟨chunk, hpre, htx⟩ := peerMsgSend_prefix hsend
    exact ⟨chunk, htx, [chunk], by simp, .cons hpre .nil⟩
  | trans _ _ ih ih' =>
    obtain ⟨bytes, htx, hw⟩ := ih
    obtain ⟨bytes', htx', hw'⟩ := ih'
    exact ⟨bytes ++ bytes', by rw [htx', htx, List.append_assoc], hw.append hw'⟩

theorem sendThen_neverFails {s s' : Socket} {buff : List UInt8} {ok : Bool}
    {k : Socket → Except Fault (Bool × Socket)} (hnf : NeverFails s.sendPlan)
    (h : sendThen s buff k = .ok (ok, s')) :
    ∃ s₁, NeverFails s₁.sendPlan ∧ k s₁ = .ok (ok, s') := by
  obtain ⟨s₁, -, hnf₁, hs₁⟩ := sendThen_spec hnf buff k
  exact ⟨s₁, hnf₁, hs₁ ▸ h⟩

/-- On a socket that takes everything, a message that can be sent goes out. -/
theorem CanSend.sends {torrent : Metainfo} {msg : PeerMsg} {s s' : Socket} {ok : Bool}
    (hcan : CanSend torrent msg) (hnf : NeverFails s.sendPlan)
    (h : peerMsgSend torrent msg s = .ok (ok, s')) : ok = true ∧ NeverFails s'.sendPlan := by
  obtain ⟨s₁, hs₁⟩ := hcan.returns hnf
  rw [h] at hs₁
  cases hs₁
  refine ⟨rfl, ?_⟩
  by_cases hpiece : ∃ p, msg = .piece p
  · obtain ⟨p, rfl⟩ := hpiece
    obtain ⟨s₁, hnf₁, h⟩ := sendThen_neverFails hnf h
    obtain ⟨s₂, hnf₂, h⟩ := sendThen_neverFails hnf₁ h
    cases h
    exact hnf₂
  · have hwire : wireMsg torrent msg = true := by
      cases hcan with
      | bitfield hbits => simp [wireMsg, length_makeBitfield hbits]
      | piece p => exact absurd ⟨p, rfl⟩ hpiece
      | keepalive | unchoke | interested | notInterested | haveMsg | request => rfl
    obtain ⟨s₁, hs₁, -, hnf₁⟩ := peerMsgSend_spec hwire hnf
    rw [h] at hs₁
    cases hs₁
    exact hnf₁

/-- Without socket errors the bytes are the frames. -/
theorem Emits.frames {torrent : Metainfo} {s s' : Socket} {msgs : List PeerMsg}
    (h : Emits torrent s msgs s') (hcan : ∀ msg ∈ msgs, CanSend torrent msg)
    (hnf : NeverFails s.sendPlan) :
    s'.tx = s.tx ++ msgs.flatMap (encodeMsg torrent) ∧ NeverFails s'.sendPlan := by
  induction h with
  | silent hsame =>
    refine ⟨by rw [hsame.1, List.flatMap_nil, List.append_nil], ?_⟩
    rw [hsame.2]
    exact hnf
  | @send s s' msg ok hsend =>
    obtain ⟨rfl, hnf'⟩ := (hcan msg (List.mem_singleton_self msg)).sends hnf hsend
    exact ⟨by rw [peerMsgSend_sent hsend, List.flatMap_singleton], hnf'⟩
  | trans _ _ ih ih' =>
    obtain ⟨htx, hnf₁⟩ := ih (fun msg hmsg => hcan msg (List.mem_append_left _ hmsg)) hnf
    obtain ⟨htx', hnf₂⟩ := ih' (fun msg hmsg => hcan msg (List.mem_append_right _ hmsg)) hnf₁
    exact ⟨by rw [htx', htx, List.flatMap_append, List.append_assoc], hnf₂⟩

/-! ## The receive side -/

section Receiving

variable {torrent : Metainfo} {s s' : Socket} {disk disk' : Disk}

theorem peerRecv_sameSend (s : Socket) (len : Nat) : SameSend s (peerRecv s len).sock := by
  have hr := peerRecvLoop_spec s len [] (Nat.zero_le _)
  exact ⟨hr.tx, hr.sendPlan⟩

theorem recvThen_sameSend {α : Type} {len : Nat} {out : Option α}
    {k : List UInt8 → Socket → Except Fault (RecvResult α)}
    (h : recvThen s disk len k = .ok (out, s', disk'))
    (hk : ∀ bytes s₁, k bytes s₁ = .ok (out, s', disk') → SameSend s₁ s') : SameSend s s' := by
  simp only [recvThen] at h
  have hsame := peerRecv_sameSend s len
  split at h
  · exact hsame.trans (hk _ _ h)
  · cases h
    exact hsame

theorem recvFilemems_sameSend (mems : List FileMem) :
    ∀ {s s' : Socket} {disk disk' : Disk} {ok : Bool},
      recvFilemems mems s disk = (ok, s', disk') → SameSend s s' := by
  induction mems with
  | nil =>
    intro s s' disk disk' ok h
    cases h
    exact ⟨rfl, rfl⟩
  | cons mem mems ih =>
    intro s s' disk disk' ok h
    simp only [recvFilemems] at h
    have hsame := peerRecv_sameSend s mem.size
    split at h
    · exact hsame.trans (ih h)
    · cases h
      exact hsame

theorem peerMsgRecvPiece_sameSend {len : Nat} {out : Option PieceMsg}
    (h : peerMsgRecvPiece torrent len s disk = .ok (out, s', disk')) : SameSend s s' := by
  refine recvThen_sameSend h fun _ s₁ h => recvThen_sameSend h fun _ s₂ h => ?_
  obtain ⟨pr, -, h⟩ := (seq_returns_iff _ _ _).mp h
  simp only at h
  split at h
  · cases h
    exact ⟨rfl, rfl⟩
  · rename_i br _
    cases h
    exact recvFilemems_sameSend br.filemems rfl

theorem recvPayload_sameSend {type : MsgType} {left : Nat} {out : Option PeerMsg}
    (h : recvPayload torrent type left s disk = .ok (out, s', disk')) : SameSend s s' := by
  cases type with
  | msgCancel | msgKeepalive =>
    cases h
    exact ⟨rfl, rfl⟩
  | msgChoke | msgUnchoke | msgInterested | msgNotInterested =>
    obtain ⟨_, -, h⟩ := (seq_returns_iff _ _ _).mp h
    cases h
    exact ⟨rfl, rfl⟩
  | msgHave | msgPort =>
    obtain ⟨_, -, h⟩ := (seq_returns_iff _ _ _).mp h
    refine recvThen_sameSend h fun _ s₁ h => ?_
    cases h
    exact ⟨rfl, rfl⟩
  | msgBitfield =>
    simp only [recvPayload] at h
    refine recvThen_sameSend h fun _ s₁ h => ?_
    cases h
    exact ⟨rfl, rfl⟩
  | msgRequest =>
    simp only [recvPayload] at h
    refine recvThen_sameSend h fun _ s₁ h => ?_
    obtain ⟨_, -, h⟩ := (seq_returns_iff _ _ _).mp h
    cases h
    exact ⟨rfl, rfl⟩
  | msgPiece =>
    obtain ⟨_, -, h⟩ := (seq_returns_iff _ _ _).mp h
    obtain ⟨⟨piece, s₁, disk₁⟩, hpiece, h⟩ := (seq_returns_iff _ _ _).mp h
    cases h
    exact peerMsgRecvPiece_sameSend hpiece

/-- **A receive** leaves the send side alone. -/
theorem peerMsgRecv_sameSend {out : Option PeerMsg}
    (h : peerMsgRecv torrent s disk = .ok (out, s', disk')) : SameSend s s' := by
  refine recvThen_sameSend h fun bytes s₁ h => ?_
  simp only [recvBody] at h
  split at h
  · cases h
    exact ⟨rfl, rfl⟩
  · refine recvThen_sameSend h fun bytes s₂ h => ?_
    simp only [recvTyped] at h
    split at h
    · cases h
      exact ⟨rfl, rfl⟩
    · split at h
      · exact recvPayload_sameSend h
      · cases h
        exact ⟨rfl, rfl⟩

theorem peerRecvHandshake_sameSend (infoHash : List UInt8) (s : Socket) :
    SameSend s (peerRecvHandshake infoHash s).2 := peerRecv_sameSend s handshakeLen

end Receiving

/-! ## What each call hands over -/

section Calls

variable {sha1 : List UInt8 → List UInt8} {torrent : Metainfo} {sock sock' : Socket}
  {state state' : ConnState}

theorem sendThenUpdate_emits {msg : PeerMsg} {update : ConnState → ConnState}
    (h : sendThenUpdate torrent msg update sock state = .ok (sock', state')) :
    Emits torrent sock [msg] sock' := by
  obtain ⟨⟨ok, sock₁⟩, hsend, h⟩ := (seq_returns_iff _ _ _).mp h
  cases h
  exact .send hsend

/-- A call that may show interest: it sends nothing but `INTERESTED`, and the
flag is set by sending it. -/
structure ShowsInterest (torrent : Metainfo) (sock : Socket) (state : ConnState)
    (msgs : List PeerMsg) (sock' : Socket) (state' : ConnState) : Prop where
  emits : Emits torrent sock msgs sock'
  only : ∀ msg ∈ msgs, msg = .interested
  flag : state'.localState.interested = true →
    state.localState.interested = true ∨ .interested ∈ msgs

theorem ShowsInterest.none (torrent : Metainfo) (sock : Socket)
    (h : state'.localState = state.localState) : ShowsInterest torrent sock state [] sock state' :=
  ⟨.refl torrent sock, List.forall_mem_nil _, fun hflag => .inl (h ▸ hflag)⟩

theorem showInterested_shows (h : showInterested torrent sock state = .ok (sock', state')) :
    ShowsInterest torrent sock state [.interested] sock' state' :=
  ⟨sendThenUpdate_emits h, List.forall_mem_singleton.mpr rfl,
    fun _ => .inr (List.mem_singleton_self _)⟩

theorem processHave_shows {index : UInt32}
    (h : processHave torrent index sock state = .ok (sock', state')) :
    ∃ msgs, ShowsInterest torrent sock state msgs sock' state' := by
  obtain ⟨⟨sock₁, state₁⟩, hinterest, h⟩ := (seq_returns_iff _ _ _).mp h
  obtain ⟨peerHave, -, h⟩ := (seq_returns_iff _ _ _).mp h
  cases h
  unfold haveInterest at hinterest
  split at hinterest
  · cases hinterest
    exact ⟨[], .none torrent sock rfl⟩
  · obtain ⟨isset, -, hinterest⟩ := (seq_returns_iff _ _ _).mp hinterest
    split at hinterest
    · have hshow := showInterested_shows hinterest
      exact ⟨_, hshow.emits, hshow.only, hshow.flag⟩
    · cases hinterest
      exact ⟨[], .none torrent sock rfl⟩

theorem processBitfield_shows {bits : List UInt8} {sh : Shared}
    (h : processBitfield torrent bits sock state sh = .ok (sock', state')) :
    ∃ msgs, ShowsInterest torrent sock state msgs sock' state' := by
  obtain ⟨_, -, h⟩ := (seq_returns_iff _ _ _).mp h
  obtain ⟨peerHave, -, h⟩ := (seq_returns_iff _ _ _).mp h
  simp only at h
  split at h
  · have hshow := showInterested_shows h
    exact ⟨_, hshow.emits, hshow.only, hshow.flag⟩
  · cases h
    exact ⟨[], .none torrent sock rfl⟩

/-- The blocks of a piece are announced when it is complete. -/
theorem processPieceMsg_emits {disk : Disk} {msg : PieceMsg} (requests : List PieceRequest) :
    ∀ {sock sock' : Socket} {sh sh' : Shared} {requests' : List PieceRequest}
      {events : List Event},
      processPieceMsg sha1 torrent disk msg requests sock sh
        = .ok (requests', sock', sh', events) →
      ∃ msgs, Emits torrent sock msgs sock' ∧ ∀ m ∈ msgs, m = .haveMsg msg.index := by
  have hfinish : ∀ {sock sock' : Socket} {sh sh' : Shared} {events : List Event},
      finishPiece sha1 torrent disk sock sh msg.index = .ok (sock', sh', events) →
      ∃ msgs, Emits torrent sock msgs sock' ∧ ∀ m ∈ msgs, m = .haveMsg msg.index := by
    intro sock sock' sh sh' events h
    obtain ⟨⟨valid, bytes⟩, -, h⟩ := (seq_returns_iff _ _ _).mp h
    cases valid with
    | false =>
      cases h
      exact ⟨[], .refl torrent sock, List.forall_mem_nil _⟩
    | true =>
      obtain ⟨⟨sock₁, sh₁, ev⟩, hcomp, h⟩ := (seq_returns_iff _ _ _).mp h
      cases h
      obtain ⟨_, -, hcomp⟩ := (seq_returns_iff _ _ _).mp hcomp
      obtain ⟨⟨sh₂, completed⟩, -, hcomp⟩ := (seq_returns_iff _ _ _).mp hcomp
      obtain ⟨⟨ok, sock₂⟩, hsend, hcomp⟩ := (seq_returns_iff _ _ _).mp hcomp
      refine ⟨[.haveMsg msg.index], ?_, List.forall_mem_singleton.mpr rfl⟩
      cases completed <;> (cases hcomp; exact .send hsend)
  induction requests with
  | nil =>
    intro sock sock' sh sh' requests' events h
    cases h
    exact ⟨[], .refl torrent sock, List.forall_mem_nil _⟩
  | cons curr rest ih =>
    intro sock sock' sh sh' requests' events h
    rcases processPieceMsg_cons h with ⟨rest', -, -, hrest⟩ | ⟨rest', -, -, -, hrest⟩ |
      ⟨rest', sock₁, sh₁, finished, more, -, -, -, hfin, hrest, -⟩
    · exact ih hrest
    · exact ih hrest
    · obtain ⟨msgs, hemit, hall⟩ := hfinish hfin
      obtain ⟨msgs', hemit', hall'⟩ := ih hrest
      exact ⟨msgs ++ msgs', hemit.trans hemit', List.forall_mem_append.mpr ⟨hall, hall'⟩⟩

/-- **A message**: it is answered with `INTERESTED` or `HAVE`, if at all. -/
theorem processMsg_emits {realloc : RequestQueue.Realloc} {disk : Disk} {msg : PeerMsg}
    {sh sh' : Shared} {events : List Event}
    (h : processMsg sha1 torrent realloc disk msg sock state sh =
      .ok (sock', state', sh', events)) :
    ∃ msgs, Emits torrent sock msgs sock' ∧
      (∀ m ∈ msgs, m.type = .msgInterested ∨ m.type = .msgHave) ∧
      (state'.localState.interested = true →
        state.localState.interested = true ∨ .interested ∈ msgs) := by
  have hshows : ∀ {msgs sock₁ state₁}, ShowsInterest torrent sock state msgs sock₁ state₁ →
      ∃ msgs, Emits torrent sock msgs sock₁ ∧
        (∀ m ∈ msgs, m.type = .msgInterested ∨ m.type = .msgHave) ∧
        (state₁.localState.interested = true →
          state.localState.interested = true ∨ .interested ∈ msgs) := by
    intro msgs sock₁ state₁ hs
    refine ⟨msgs, hs.emits, fun m hm => ?_, hs.flag⟩
    rw [hs.only m hm]
    exact .inl rfl
  cases msg with
  | keepalive | cancel | port | choke | unchoke | interested | notInterested =>
    cases h
    exact ⟨[], .refl torrent sock, List.forall_mem_nil _, .inl⟩
  | haveMsg index =>
    obtain ⟨⟨sock₁, state₁⟩, hcase, h⟩ := (seq_returns_iff _ _ _).mp h
    cases h
    obtain ⟨msgs, hs⟩ := processHave_shows hcase
    exact hshows hs
  | bitfield bits =>
    obtain ⟨⟨sock₁, state₁⟩, hcase, h⟩ := (seq_returns_iff _ _ _).mp h
    cases h
    obtain ⟨msgs, hs⟩ := processBitfield_shows hcase
    exact hshows hs
  | request request =>
    obtain ⟨queue, -, h⟩ := (seq_returns_iff _ _ _).mp h
    cases queue <;> (cases h; exact ⟨[], .refl torrent sock, List.forall_mem_nil _, .inl⟩)
  | piece piece =>
    obtain ⟨⟨requests, sock₁, sh₁, events₁⟩, hcase, h⟩ := (seq_returns_iff _ _ _).mp h
    cases h
    obtain ⟨msgs, hemit, hall⟩ := processPieceMsg_emits _ hcase
    refine ⟨msgs, hemit, fun m hm => ?_, .inl⟩
    rw [hall m hm]
    exact .inr rfl

/-- `service_have_events`. -/
theorem serviceHaveEvents_emits {queue queue' : MsgQueue} {havebf havebf' : List UInt8}
    {sent : List PeerMsg}
    (h : serviceHaveEvents torrent queue sock havebf = .ok (queue', sock', havebf', sent)) :
    Emits torrent sock sent sock' ∧ ∀ msg ∈ sent, msg.type = .msgHave := by
  fun_induction serviceHaveEvents torrent queue sock havebf generalizing sent with
  | case1 queue sock havebf e hrecv =>
    cases h
    exact ⟨.refl torrent _, List.forall_mem_nil _⟩
  | case2 queue sock havebf bytes queue₁ hrecv hfour index =>
    rename_i ih
    obtain ⟨havebf₁, -, h⟩ := (seq_returns_iff _ _ _).mp h
    obtain ⟨⟨ok, sock₁⟩, hsend, h⟩ := (seq_returns_iff _ _ _).mp h
    cases ok with
    | true =>
      obtain ⟨⟨queue₂, sock₂, havebf₂, more⟩, hrest, h⟩ := (seq_returns_iff _ _ _).mp h
      cases h
      obtain ⟨hemit, hall⟩ := ih _ _ hrest
      exact ⟨.cons hsend hemit, List.forall_mem_cons.mpr ⟨rfl, hall⟩⟩
    | false =>
      cases h
      exact ⟨.send hsend, List.forall_mem_singleton.mpr rfl⟩
  | case3 queue sock havebf bytes queue₁ hrecv hother =>
    cases h
    exact ⟨.refl torrent _, List.forall_mem_nil _⟩

/-- `service_peer_requests`. -/
theorem servicePeerRequests_emits
    (h : servicePeerRequests torrent sock state = .ok (sock', state')) :
    ∃ msgs, Emits torrent sock msgs sock' ∧ ∀ msg ∈ msgs, msg.type = .msgPiece := by
  fun_induction servicePeerRequests torrent sock state with
  | case1 sock state e hdeq => cases h
  | case2 sock state hdeq =>
    cases h
    exact ⟨[], .refl torrent _, List.forall_mem_nil _⟩
  | case3 sock state out queue hdeq request ih =>
    obtain ⟨⟨ok, sock₁⟩, hsend, h⟩ := (seq_returns_iff _ _ _).mp h
    cases ok with
    | true =>
      obtain ⟨msgs, hemit, hall⟩ := ih sock₁ h
      exact ⟨_ :: msgs, .cons hsend hemit, List.forall_mem_cons.mpr ⟨rfl, hall⟩⟩
    | false =>
      cases h
      exact ⟨_, .send hsend, List.forall_mem_singleton.mpr rfl⟩

/-- The request for a block. -/
def blockRequestMsg (pieceIndex : UInt32) (br : BlockRequest) : PeerMsg :=
  .request ⟨pieceIndex, UInt32.ofNat br.begin, UInt32.ofNat br.len⟩

/-- The inner loop of `send_requests`: the requests of the blocks in order, all
of them unless a send failed. -/
theorem sendBlockRequests_emits {pieceIndex : UInt32} (brs : List BlockRequest) :
    ∀ {sock sock' : Socket} {ok : Bool} {sent : List PeerMsg},
      sendBlockRequests torrent pieceIndex brs sock = .ok (ok, sock', sent) →
      Emits torrent sock sent sock' ∧ sent <+: brs.map (blockRequestMsg pieceIndex) ∧
        (ok = true → sent = brs.map (blockRequestMsg pieceIndex)) := by
  induction brs with
  | nil =>
    intro sock sock' ok sent h
    cases h
    exact ⟨.refl torrent sock, List.prefix_refl _, fun _ => rfl⟩
  | cons br brs ih =>
    intro sock sock' ok sent h
    obtain ⟨⟨ok₁, sock₁⟩, hsend, h⟩ := (seq_returns_iff _ _ _).mp h
    cases ok₁ with
    | true =>
      obtain ⟨⟨ok₂, sock₂, more⟩, hrest, h⟩ := (seq_returns_iff _ _ _).mp h
      cases h
      obtain ⟨hemit, hpre, hall⟩ := ih hrest
      exact ⟨.cons hsend hemit, List.cons_prefix_cons.mpr ⟨rfl, hpre⟩,
        fun hok => by rw [hall hok]; rfl⟩
    | false =>
      cases h
      exact ⟨.send hsend, List.cons_prefix_cons.mpr ⟨rfl, List.nil_prefix⟩, fun hok => by cases hok⟩

/-- **`send_requests`**: nothing while a request is there, `NOT_INTERESTED` at
most when there is nothing to ask for, or the blocks of one piece. -/
inductive SendsRequests (torrent : Metainfo) (sock : Socket) (state : ConnState)
    (r : SentRequests) : Prop where
  | full : 1 ≤ state.localRequests.length → r.ok = true → r.sock = sock → r.state = state →
    r.sent = [] → SendsRequests torrent sock state r
  | nothing : state.localRequests = [] → r.ok = true → r.state.localRequests = [] →
    Emits torrent sock r.sent r.sock → (∀ msg ∈ r.sent, msg = .notInterested) →
    (r.state.localState.interested = true → state.localState.interested = true) →
    SendsRequests torrent sock state r
  | piece {index : UInt32} {pr : PieceRequest} : state.localRequests = [] →
    pieceRequestCreate torrent index = .ok pr →
    r.state = { state with localRequests := [pr] } → Emits torrent sock r.sent r.sock →
    r.sent <+: pr.blockRequests.map (blockRequestMsg pr.pieceIndex) →
    (r.ok = true → r.sent = pr.blockRequests.map (blockRequestMsg pr.pieceIndex)) →
    SendsRequests torrent sock state r

theorem sendRequests_sends {sh : Shared} {r : SentRequests}
    (h : sendRequests torrent sock state sh = .ok r) : SendsRequests torrent sock state r := by
  unfold sendRequests at h
  split at h
  · rename_i hfull
    cases h
    exact .full hfull rfl rfl rfl rfl
  · rename_i hnone
    have hempty : state.localRequests = [] := List.eq_nil_of_length_eq_zero (by omega)
    obtain ⟨⟨next, sh₁⟩, -, h⟩ := (seq_returns_iff _ _ _).mp h
    cases next with
    | none =>
      simp only at h
      split at h
      · rename_i hflag
        obtain ⟨⟨sock₁, state₁⟩, hshow, h⟩ := (seq_returns_iff _ _ _).mp h
        cases h
        exact .nothing hempty rfl ((showNotInterested_only hshow).requests.trans hempty)
          (sendThenUpdate_emits hshow) (List.forall_mem_singleton.mpr rfl) fun _ => hflag
      · cases h
        exact .nothing hempty rfl hempty (.refl torrent sock) (List.forall_mem_nil _) fun h => h
    | some index =>
      obtain ⟨pr, hpr, h⟩ := (seq_returns_iff _ _ _).mp h
      obtain ⟨⟨ok, sock₁, sent⟩, hsend, h⟩ := (seq_returns_iff _ _ _).mp h
      cases h
      obtain ⟨hemit, hpre, hall⟩ := sendBlockRequests_emits _ hsend
      refine .piece hempty hpr ?_ hemit hpre hall
      rw [hempty, List.nil_append]

end Calls

end BtClient

import BtClient.Connection.Emits
import BtClient.Connection.Thread
import BtClient.Connection.Window

/-!
# What a connection writes

`LoopMsgs` says which sequences of messages the loop of `peer_connection` can
produce: it asks for the blocks of one piece at most, all in one go, only after
it has shown interest, and it sends keepalives only behind the requests. With
the greeting in front of them these are all the bytes a connection writes.
-/

namespace BtClient

open CLib

/-! ## The loop -/

/-- What a connection sends before it asks for a piece. -/
def beforeRequests : List MsgType := [.msgHave, .msgInterested, .msgNotInterested, .msgPiece]

/-- What it sends afterwards. -/
def afterRequests : List MsgType := [.msgKeepalive, .msgHave, .msgInterested, .msgPiece]

/-- **What the loop of a connection has sent.** It has not asked for anything;
or it has asked for the blocks of one piece, in order and in one go, after it
has shown interest; or a send failed among these requests and was the last. -/
inductive LoopMsgs (torrent : Metainfo) : List PeerMsg → Prop where
  | waiting {msgs : List PeerMsg} :
    (∀ msg ∈ msgs, msg.type ∈ beforeRequests) → LoopMsgs torrent msgs
  | requested {before after : List PeerMsg} {index : UInt32} {pr : PieceRequest} :
    (∀ msg ∈ before, msg.type ∈ beforeRequests) → .interested ∈ before →
    pieceRequestCreate torrent index = .ok pr → (∀ msg ∈ after, msg.type ∈ afterRequests) →
    LoopMsgs torrent (before ++ pr.blockRequests.map (blockRequestMsg pr.pieceIndex) ++ after)
  | cut {before asked : List PeerMsg} {index : UInt32} {pr : PieceRequest} :
    (∀ msg ∈ before, msg.type ∈ beforeRequests) → .interested ∈ before →
    pieceRequestCreate torrent index = .ok pr →
    asked <+: pr.blockRequests.map (blockRequestMsg pr.pieceIndex) →
    LoopMsgs torrent (before ++ asked)

/-- The same with what the thread remembers of it. -/
inductive LoopSent (torrent : Metainfo) (t : PeerThread) : List PeerMsg → Prop where
  | waiting {msgs : List PeerMsg} : t.state.localRequests = [] → t.lastSentRequestTime = -1 →
    (t.state.localState.interested = true → .interested ∈ msgs) →
    (∀ msg ∈ msgs, msg.type ∈ beforeRequests) → LoopSent torrent t msgs
  | requested {before after : List PeerMsg} {index : UInt32} {pr : PieceRequest} :
    t.state.localRequests.length = 1 →
    (∀ msg ∈ before, msg.type ∈ beforeRequests) → .interested ∈ before →
    pieceRequestCreate torrent index = .ok pr → (∀ msg ∈ after, msg.type ∈ afterRequests) →
    LoopSent torrent t (before ++ pr.blockRequests.map (blockRequestMsg pr.pieceIndex) ++ after)
  | cut {before asked : List PeerMsg} {index : UInt32} {pr : PieceRequest} :
    t.pc = .closed ∨ t.pc = .faulted →
    (∀ msg ∈ before, msg.type ∈ beforeRequests) → .interested ∈ before →
    pieceRequestCreate torrent index = .ok pr →
    asked <+: pr.blockRequests.map (blockRequestMsg pr.pieceIndex) →
    LoopSent torrent t (before ++ asked)

theorem LoopSent.loopMsgs {torrent : Metainfo} {t : PeerThread} {msgs : List PeerMsg}
    (h : LoopSent torrent t msgs) : LoopMsgs torrent msgs := by
  cases h with
  | waiting _ _ _ htypes => exact .waiting htypes
  | requested _ hbefore hint hpr hafter => exact .requested hbefore hint hpr hafter
  | cut _ hbefore hint hpr hpre => exact .cut hbefore hint hpr hpre

section Loop

variable {sha1 : List UInt8 → List UInt8} {torrent : Metainfo} {t t' : PeerThread}

/-- A call that is no request: what it sent may stand before and after the
requests, and it leaves `local_requests` as long as it was. -/
structure Aside (torrent : Metainfo) (t t' : PeerThread) (msgs : List PeerMsg) : Prop where
  emits : Emits torrent t.sock msgs t'.sock
  before : t.lastSentRequestTime = -1 →
    (∀ msg ∈ msgs, msg.type ∈ beforeRequests) ∧ t'.lastSentRequestTime = -1
  after : ∀ msg ∈ msgs, msg.type ∈ afterRequests
  requests : t'.state.localRequests.length = t.state.localRequests.length
  flag : t'.state.localState.interested = true →
    t.state.localState.interested = true ∨ .interested ∈ msgs

/-- It keeps the shape of what was sent. -/
theorem Aside.keeps {msgs more : List PeerMsg} (h : Aside torrent t t' more)
    (hsent : LoopSent torrent t msgs) (hpc : t.pc ≠ .closed ∧ t.pc ≠ .faulted) :
    LoopSent torrent t' (msgs ++ more) := by
  cases hsent with
  | waiting hnone hclock hflag htypes =>
    obtain ⟨hmore, hclock'⟩ := h.before hclock
    refine .waiting ?_ hclock' ?_ (List.forall_mem_append.mpr ⟨htypes, hmore⟩)
    · apply List.eq_nil_of_length_eq_zero
      rw [h.requests, hnone]
      rfl
    · intro hset
      rcases h.flag hset with hold | hnew
      · exact List.mem_append_left _ (hflag hold)
      · exact List.mem_append_right _ hnew
  | requested hone hbefore hint hpr hafter =>
    rw [List.append_assoc]
    exact .requested (h.requests.trans hone) hbefore hint hpr
      (List.forall_mem_append.mpr ⟨hafter, h.after⟩)
  | cut hend _ _ _ _ =>
    rcases hend with hend | hend
    · exact absurd hend hpc.1
    · exact absurd hend hpc.2

/-- The two timeouts. -/
theorem timeouts_aside {curr now : Int} (h : t.timeouts torrent curr now = .ok t') :
    ∃ msgs, Aside torrent t t' msgs := by
  unfold PeerThread.timeouts at h
  split at h
  · cases h
    exact ⟨[], .refl torrent _, fun hc => ⟨List.forall_mem_nil _, hc⟩, List.forall_mem_nil _, rfl,
      .inl⟩
  · split at h
    · rename_i hasked
      obtain ⟨⟨ok, sock⟩, hsend, h⟩ := (seq_returns_iff _ _ _).mp h
      -- no keepalive before the first request
      have hclock : t.lastSentRequestTime ≠ -1 := by omega
      cases ok <;>
        (cases h
         exact ⟨[.keepalive], .send hsend, fun hc => absurd hc hclock,
          List.forall_mem_singleton.mpr (by decide), rfl, .inl⟩)
    · cases h
      exact ⟨[], .refl torrent _, fun hc => ⟨List.forall_mem_nil _, hc⟩, List.forall_mem_nil _, rfl,
        .inl⟩

theorem events_aside {queue : MsgQueue} (h : t.events torrent queue = .ok t') :
    ∃ msgs, Aside torrent t t' msgs := by
  obtain ⟨⟨queue', sock, localHave, sent⟩, hcall, h⟩ := (seq_returns_iff _ _ _).mp h
  cases h
  obtain ⟨hemit, htypes⟩ := serviceHaveEvents_emits hcall
  refine ⟨sent, hemit, fun hc => ⟨fun msg hmsg => ?_, hc⟩, fun msg hmsg => ?_, rfl, .inl⟩
  · rw [htypes msg hmsg]
    decide
  · rw [htypes msg hmsg]
    decide

theorem receive_aside {buff : BuffState} {disk : Disk} {now : Int}
    (h : t.receive torrent buff disk now = .ok t') : Aside torrent t t' [] := by
  unfold PeerThread.receive at h
  split at h
  · obtain ⟨⟨msg, sock, disk'⟩, hrecv, h⟩ := (seq_returns_iff _ _ _).mp h
    have hsame := peerMsgRecv_sameSend hrecv
    cases msg <;>
      (cases h
       exact ⟨.silent hsame, fun hc => ⟨List.forall_mem_nil _, hc⟩, List.forall_mem_nil _, rfl,
        .inl⟩)
  · cases h
    exact ⟨.refl torrent _, fun hc => ⟨List.forall_mem_nil _, hc⟩, List.forall_mem_nil _, rfl, .inl⟩

theorem process_aside {msg : PeerMsg} {realloc : RequestQueue.Realloc} {disk : Disk} {sh : Shared}
    (h : t.process sha1 torrent msg realloc disk sh = .ok t') :
    ∃ msgs, Aside torrent t t' msgs := by
  obtain ⟨⟨sock, state, sh', events⟩, hcall, h⟩ := (seq_returns_iff _ _ _).mp h
  cases h
  obtain ⟨msgs, hemit, htypes, hflag⟩ := processMsg_emits hcall
  refine ⟨msgs, hemit, fun hc => ⟨fun m hm => ?_, hc⟩, fun m hm => ?_, ?_, hflag⟩
  · rcases htypes m hm with htype | htype <;> (rw [htype]; decide)
  · rcases htypes m hm with htype | htype <;> (rw [htype]; decide)
  · rcases processMsg_requests hcall with ⟨piece, -, hcount⟩ | ⟨-, hsame⟩
    · rw [hcount, countBlocks, List.length_map]
    · rw [hsame]

/-- **The end of a round**: blocks for the peer, or the requests of a piece. -/
theorem requests_sent {sh : Shared} {now : Int} (h : t.requests torrent sh now = .ok t')
    {msgs : List PeerMsg} (hsent : LoopSent torrent t msgs)
    (hpc : t.pc ≠ .closed ∧ t.pc ≠ .faulted) :
    ∃ more, Emits torrent t.sock more t'.sock ∧ LoopSent torrent t' (msgs ++ more) := by
  unfold PeerThread.requests at h
  split at h
  · obtain ⟨⟨sock, state⟩, hcall, h⟩ := (seq_returns_iff _ _ _).mp h
    cases h
    obtain ⟨more, hemit, htypes⟩ := servicePeerRequests_emits hcall
    obtain ⟨queue, sent, rfl⟩ := servicePeerRequests_cases hcall
    refine ⟨more, hemit, Aside.keeps ⟨hemit, fun hc => ⟨fun m hm => ?_, hc⟩, fun m hm => ?_, rfl,
      .inl⟩ hsent hpc⟩
    · rw [htypes m hm]
      decide
    · rw [htypes m hm]
      decide
  · split at h
    · rename_i hflags
      obtain ⟨r, hcall, h⟩ := (seq_returns_iff _ _ _).mp h
      cases h
      have hshown : t.state.localState.interested = true := (Bool.and_eq_true_iff.mp hflags).2
      cases sendRequests_sends hcall with
      | full hfull hok hsock hstate hnone =>
        have hquiet : Emits torrent t.sock [] r.sock := by
          rw [hsock]
          exact .refl torrent _
        refine ⟨[], hquiet, Aside.keeps ⟨hquiet, fun hc => ⟨List.forall_mem_nil _, ?_⟩,
          List.forall_mem_nil _, by rw [hstate], by rw [hstate]; exact .inl⟩ hsent hpc⟩
        rw [hnone]
        exact hc
      | nothing hempty hok hnone hemit hall hflag =>
        have hasked : (r.sent.any fun msg => msg.type == .msgRequest) = false := by
          rw [List.any_eq_false]
          intro m hm
          rw [hall m hm]
          decide
        cases hsent with
        | waiting _ hclock hmsgs htypes =>
          refine ⟨r.sent, hemit, .waiting hnone ?_ ?_ (List.forall_mem_append.mpr ⟨htypes, ?_⟩)⟩
          · simp only [hasked, Bool.false_eq_true, if_false]
            exact hclock
          · intro hset
            exact List.mem_append_left _ (hmsgs (hflag hset))
          · intro m hm
            rw [hall m hm]
            decide
        | requested hone _ _ _ _ =>
          rw [hempty] at hone
          cases hone
        | cut hend _ _ _ _ => exact absurd hend (not_or.mpr hpc)
      | @piece index pr hempty hpr hstate hemit hpre hall =>
        cases hsent with
        | waiting _ hclock hmsgs htypes =>
          refine ⟨r.sent, hemit, ?_⟩
          cases hok : r.ok with
          | true =>
            rw [hall hok, ← List.append_nil (_ ++ _)]
            refine .requested ?_ htypes (hmsgs hshown) hpr (List.forall_mem_nil _)
            rw [hstate]
            rfl
          | false => exact .cut (.inl rfl) htypes (hmsgs hshown) hpr hpre
        | requested hone _ _ _ _ =>
          rw [hempty] at hone
          cases hone
        | cut hend _ _ _ _ => exact absurd hend (not_or.mpr hpc)
    · cases h
      have haside : Aside torrent t { t with pc := .timeouts } [] :=
        ⟨.refl torrent _, fun hc => ⟨List.forall_mem_nil _, hc⟩, List.forall_mem_nil _, rfl, .inl⟩
      exact ⟨[], haside.emits, haside.keeps hsent hpc⟩

/-- **One step of the loop.** -/
theorem LoopStep.sent (h : LoopStep sha1 torrent t t') {msgs : List PeerMsg}
    (hsent : LoopSent torrent t msgs) :
    ∃ more, Emits torrent t.sock more t'.sock ∧ LoopSent torrent t' (msgs ++ more) := by
  have hdone : ∀ {more : List PeerMsg}, Aside torrent t t' more →
      (t.pc ≠ .closed ∧ t.pc ≠ .faulted) →
      ∃ more, Emits torrent t.sock more t'.sock ∧ LoopSent torrent t' (msgs ++ more) :=
    fun haside hpc => ⟨_, haside.emits, haside.keeps hsent hpc⟩
  cases h with
  | faulted =>
    refine ⟨[], .refl torrent _, ?_⟩
    rw [List.append_nil]
    cases hsent with
    | waiting hnone hclock hflag htypes => exact .waiting hnone hclock hflag htypes
    | requested hone hbefore hint hpr hafter => exact .requested hone hbefore hint hpr hafter
    | cut _ hbefore hint hpr hpre => exact .cut (.inr rfl) hbefore hint hpr hpre
  | timeouts hpc hcall =>
    obtain ⟨_, haside⟩ := timeouts_aside hcall
    exact hdone haside ⟨by rw [hpc]; decide, by rw [hpc]; decide⟩
  | events hpc hcall =>
    obtain ⟨_, haside⟩ := events_aside hcall
    exact hdone haside ⟨by rw [hpc]; decide, by rw [hpc]; decide⟩
  | receive hpc hcall =>
    exact hdone (receive_aside hcall) ⟨by rw [hpc]; decide, by rw [hpc]; decide⟩
  | process hpc hcall =>
    obtain ⟨_, haside⟩ := process_aside hcall
    exact hdone haside ⟨by rw [hpc]; simp, by rw [hpc]; simp⟩
  | requests hpc hcall =>
    exact requests_sent hcall hsent ⟨by rw [hpc]; decide, by rw [hpc]; decide⟩

end Loop

/-! ## Whole connections -/

/-- **The greeting**: the handshake and the bitfield, whole, then `UNCHOKE`. -/
theorem peerConnectionStart_greets {torrent : Metainfo} {peerId : List UInt8} {g : Greeting}
    {t : PeerThread} (h : peerConnectionStart torrent peerId g = .ok (some t)) :
    ∃ bits sock, makeBitfield torrent g.sh = .ok bits ∧
      sock.tx = g.sock.tx ++ handshakeBytes peerId torrent.infoHash ++
        encodeMsg torrent (.bitfield bits) ∧
      (NeverFails g.sock.sendPlan → NeverFails sock.sendPlan) ∧
      Emits torrent sock [.unchoke] t.sock ∧ LoopSent torrent t [] := by
  unfold peerConnectionStart at h
  split at h
  · cases h
  rename_i id sock hhand
  split at h
  swap
  · cases h
  obtain ⟨state, hinit, h⟩ := (seq_returns_iff _ _ _).mp h
  obtain ⟨⟨ok, sock₁⟩, hbits, h⟩ := (seq_returns_iff _ _ _).mp h
  cases ok with
  | false => cases h
  | true =>
    obtain ⟨⟨sock₂, state₂⟩, hunchoke, h⟩ := (seq_returns_iff _ _ _).mp h
    cases h
    obtain ⟨-, hlocal, -, hmake⟩ := connStateInit_spec hinit
    have hnone : state.localRequests = [] := by
      obtain ⟨localHave, -, hret⟩ := (seq_returns_iff _ _ _).mp hinit
      cases hret
      rfl
    -- the handshake has gone out whole, and receiving the other one sends nothing
    unfold handshake at hhand
    split at hhand
    · cases hhand
    rename_i sock₀ hsend
    have hsame : SameSend sock₀ sock := by
      have hrecv := peerRecvHandshake_sameSend torrent.infoHash sock₀
      rwa [hhand] at hrecv
    refine ⟨state.localHave, sock₁, hmake, ?_, ?_, sendThenUpdate_emits hunchoke, ?_⟩
    · rw [peerMsgSend_sent hbits, hsame.1, sendBuff_sent hsend]
    · intro hnf
      have hnf₀ := (sendBuff_spec hnf (handshakeBytes peerId torrent.infoHash)).2.2
      rw [show sendBuff g.sock (handshakeBytes peerId torrent.infoHash) = (true, sock₀) from hsend,
        ← hsame.2] at hnf₀
      exact ((CanSend.bitfield hmake).sends hnf₀ hbits).2
    · have hstate : state₂.localRequests = [] ∧ state₂.localState.interested = false := by
        rcases sendThenUpdate_cases hunchoke with rfl | rfl
        · exact ⟨hnone, by rw [hlocal]⟩
        · exact ⟨hnone, by rw [hlocal]⟩
      refine .waiting hstate.1 rfl ?_ (List.forall_mem_nil _)
      intro hset
      rw [hstate.2] at hset
      cases hset

/-- What follows the greeting, in any run of the loop. -/
theorem PeerThread.run_sent {sha1 : List UInt8 → List UInt8} {torrent : Metainfo}
    {t t' : PeerThread} {as : List LoopAction} (hinit : LoopSent torrent t [])
    (hrun : Run (PeerThread.step sha1 torrent) unguarded t as t') :
    ∃ msgs, Emits torrent t.sock msgs t'.sock ∧ LoopSent torrent t' msgs := by
  induction hrun with
  | nil => exact ⟨[], .refl torrent _, hinit⟩
  | snoc _ _ hstep ih =>
    obtain ⟨msgs, hemit, hsent⟩ := ih
    obtain ⟨more, hemit', hsent'⟩ := (PeerThread.step_cases hstep).sent hsent
    exact ⟨msgs ++ more, hemit.trans hemit', hsent'⟩

theorem LoopMsgs.canSend {torrent : Metainfo} {msgs : List PeerMsg} (h : LoopMsgs torrent msgs) :
    ∀ msg ∈ msgs, CanSend torrent msg := by
  have hbefore : ∀ {msg : PeerMsg}, msg.type ∈ beforeRequests → CanSend torrent msg := by
    intro msg hmsg
    cases msg with
    | haveMsg index => exact .haveMsg index
    | interested => exact .interested
    | notInterested => exact .notInterested
    | piece piece => exact .piece piece
    | _ => simp [beforeRequests, PeerMsg.type] at hmsg
  have hafter : ∀ {msg : PeerMsg}, msg.type ∈ afterRequests → CanSend torrent msg := by
    intro msg hmsg
    cases msg with
    | keepalive => exact .keepalive
    | haveMsg index => exact .haveMsg index
    | interested => exact .interested
    | piece piece => exact .piece piece
    | _ => simp [afterRequests, PeerMsg.type] at hmsg
  have hrequests : ∀ {index : UInt32} {brs : List BlockRequest},
      ∀ msg ∈ brs.map (blockRequestMsg index), CanSend torrent msg := by
    intro index brs msg hmsg
    obtain ⟨br, -, rfl⟩ := List.mem_map.mp hmsg
    exact .request _
  intro msg hmsg
  cases h with
  | waiting htypes => exact hbefore (htypes msg hmsg)
  | requested htypes _ _ htypes' =>
    rcases List.mem_append.mp hmsg with hmsg | hmsg
    · rcases List.mem_append.mp hmsg with hmsg | hmsg
      · exact hbefore (htypes msg hmsg)
      · exact hrequests msg hmsg
    · exact hafter (htypes' msg hmsg)
  | cut htypes _ _ hpre =>
    rcases List.mem_append.mp hmsg with hmsg | hmsg
    · exact hbefore (htypes msg hmsg)
    · exact hrequests msg (hpre.subset hmsg)

/-- **Every byte a connection writes.** Whatever the peer sends, however the
kernel splits the stream, whatever the other threads do and however long the
connection lives: it writes the handshake, its bitfield, `UNCHOKE`, and then the
messages of `LoopMsgs`. Where a send failed, only a beginning of that frame;
without socket errors, exactly these frames. -/
theorem connection_stream {sha1 : List UInt8 → List UInt8} {torrent : Metainfo}
    {peerId : List UInt8} {g : Greeting} {t t' : PeerThread} {as : List LoopAction}
    (hstart : peerConnectionStart torrent peerId g = .ok (some t))
    (hrun : Run (PeerThread.step sha1 torrent) unguarded t as t') :
    ∃ bits msgs bytes, makeBitfield torrent g.sh = .ok bits ∧ LoopMsgs torrent msgs ∧
      t'.sock.tx = g.sock.tx ++ handshakeBytes peerId torrent.infoHash ++
        encodeMsg torrent (.bitfield bits) ++ bytes ∧
      Written torrent (.unchoke :: msgs) bytes ∧
      (NeverFails g.sock.sendPlan →
        bytes = (PeerMsg.unchoke :: msgs).flatMap (encodeMsg torrent)) := by
  obtain ⟨bits, sock, hmake, htx, hnf, hunchoke, hinit⟩ := peerConnectionStart_greets hstart
  obtain ⟨msgs, hemit, hsent⟩ := PeerThread.run_sent hinit hrun
  have hall : Emits torrent sock (.unchoke :: msgs) t'.sock := hunchoke.trans hemit
  obtain ⟨bytes, hbytes, hwritten⟩ := hall.written
  refine ⟨bits, msgs, bytes, hmake, hsent.loopMsgs, by rw [hbytes, htx], hwritten, fun hg => ?_⟩
  have hcan : ∀ msg ∈ PeerMsg.unchoke :: msgs, CanSend torrent msg :=
    List.forall_mem_cons.mpr ⟨.unchoke, hsent.loopMsgs.canSend⟩
  have hframes := (hall.frames hcan (hnf hg)).1
  rw [hbytes] at hframes
  exact List.append_cancel_left hframes

/-! ## A connection that downloads -/

/-- Eight pieces, with an info hash. -/
def greetedTorrent : Metainfo := { eightPieces with infoHash := List.replicate 20 1 }

/-- A peer that has the first piece and unchokes at once. -/
def greetedPeer : Greeting where
  sock :=
    { rx := handshakeBytes (List.replicate 20 2) (List.replicate 20 1) ++
        encodeMsg greetedTorrent (.bitfield [128]) ++ encodeMsg greetedTorrent .unchoke
      tx := []
      recvPlan := fun _ => some 65536
      sendPlan := fun _ => some 65536 }
  queueOpens := true
  fill := fun _ => 0
  sh := sharedInit 8
  now := 1000

/-- A round of the loop with both messages, and the next one a minute later. -/
def greetedActions : List LoopAction :=
  [.timeouts 1000 1000, .events ⟨10, 4, []⟩,
    .receive ⟨encodeMsg greetedTorrent (.bitfield [128]), false, [], false, 0⟩ [] 1001,
    .process none [] (sharedInit 8),
    .receive ⟨encodeMsg greetedTorrent .unchoke, false, [], false, 0⟩ [] 1001,
    .process none [] (sharedInit 8), .receive ⟨[], false, [], false, 0⟩ [] 1002,
    .requests (sharedInit 8) 1003, .timeouts 1070 1070]

/-- What it writes, byte by byte. -/
theorem connection_stream_one_piece :
    ∃ t t', peerConnectionStart greetedTorrent (List.replicate 20 3) greetedPeer = .ok (some t) ∧
      Run (PeerThread.step (fun _ => []) greetedTorrent) unguarded t greetedActions t' ∧
      t'.sock.tx = handshakeBytes (List.replicate 20 3) (List.replicate 20 1) ++
        [PeerMsg.bitfield [0], .unchoke, .interested, .request ⟨0, 0, 16384⟩, .keepalive].flatMap
          (encodeMsg greetedTorrent) ∧
      ∃ msgs bytes, LoopMsgs greetedTorrent msgs ∧ Written greetedTorrent (.unchoke :: msgs) bytes
      := by
  have hexec : (peerConnectionStart greetedTorrent (List.replicate 20 3)
      greetedPeer).toOption.map (fun start => start.bind fun t =>
        (exec (PeerThread.step (fun _ => []) greetedTorrent) unguarded t greetedActions).map
          fun t' => t'.sock.tx) =
      some (some (handshakeBytes (List.replicate 20 3) (List.replicate 20 1) ++
        [PeerMsg.bitfield [0], .unchoke, .interested, .request ⟨0, 0, 16384⟩, .keepalive].flatMap
          (encodeMsg greetedTorrent))) := by decide +kernel
  obtain ⟨start, hstart, hobs⟩ := returns_of_observed hexec
  obtain ⟨t, rfl, hobs⟩ := Option.bind_eq_some_iff.mp hobs
  obtain ⟨t', hrun, htx⟩ := Option.map_eq_some_iff.mp hobs
  have hrun' := Run.of_exec greetedActions hrun
  obtain ⟨bits, msgs, bytes, -, hmsgs, -, hwritten, -⟩ := connection_stream hstart hrun'
  exact ⟨t, t', hstart, hrun', htx, msgs, bytes, hmsgs, hwritten⟩

end BtClient

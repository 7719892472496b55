import BtClient.Connection.Calls
import BtClient.Peer.Wire

/-!
# Interest follows what the peer announces

`process_msg` decides on `MSG_INTERESTED` in two places: for a `BITFIELD` from
the shared piece states, for a `HAVE` from the connection's own bitfield. The
second test has no negation, so it shows interest for a piece the client has
and none for a piece it lacks.
-/

namespace BtClient

open CLib

variable {sha1 : List UInt8 → List UInt8} {torrent : Metainfo}

/-- Whether `peer_msg_send` of an `INTERESTED` returns `0`. -/
def sendsInterested (torrent : Metainfo) (sock : Socket) : Bool :=
  match peerMsgSend torrent .interested sock with
  | .ok (ok, _) => ok
  | .error _ => false

/-- `local_have` is the bitfield of the shared piece states. -/
structure HaveMatches (torrent : Metainfo) (localHave : List UInt8) (sh : Shared) : Prop where
  length : sh.pieceStates.length = torrent.info.numPieces
  covers : localHave.length = bitfieldNumBytes torrent.info.numPieces
  bits : ∀ i < torrent.info.numPieces,
    bitfieldIsset i localHave = true ↔ sh.pieceStates[i]? = some .stateHave

/-- A `HAVE` of a piece of the torrent, or a `BITFIELD` of the torrent's size. -/
def InRange (torrent : Metainfo) : PeerMsg → Prop
  | .haveMsg index => index.toNat < torrent.info.numPieces
  | .bitfield bits => bits.length = bitfieldNumBytes torrent.info.numPieces
  | _ => False

/-- A message in range on a connection whose `local_have` is up to date. -/
structure AnnouncementFor (torrent : Metainfo) (p : Peering) (msg : PeerMsg)
    (around : Surroundings) : Prop where
  inRange : InRange torrent msg
  bitlen : p.state.bitlen = torrent.info.numPieces
  haves : HaveMatches torrent p.state.localHave around.sh

/-- The message announces a piece that is not `HAVE`. -/
def AnnouncesMissing (torrent : Metainfo) (sh : Shared) : PeerMsg → Prop
  | .haveMsg index => sh.pieceStates[index.toNat]? ≠ some .stateHave
  | .bitfield bits => ∃ i < torrent.info.numPieces,
    bitfieldIsset i bits = true ∧ sh.pieceStates[i]? ≠ some .stateHave
  | _ => False

/-- `process_msg` returns, with `local.interested` set if the message announces
a missing piece and the send succeeds, and not newly set if it is a `HAVE` of
a piece the client has. -/
def InterestFollows (sha1 : List UInt8 → List UInt8) (torrent : Metainfo) (p : Peering)
    (msg : PeerMsg) (around : Surroundings) : Prop :=
  ∃ state, connCall sha1 torrent around p.state (.processMsg msg) = .ok state ∧
    (AnnouncesMissing torrent around.sh msg → sendsInterested torrent around.sock = true →
      state.localState.interested = true) ∧
    ∀ index, msg = .haveMsg index → around.sh.pieceStates[index.toNat]? = some .stateHave →
      p.state.localState.interested = false → state.localState.interested = false

/-- The message fits `peer_have`, and a `HAVE` finds interest already shown or
a socket that will not take an `INTERESTED`. -/
def InterestSettled (torrent : Metainfo) (p : Peering) (msg : PeerMsg)
    (around : Surroundings) : Prop :=
  MsgFits msg p.state ∧
    ∀ index, msg = .haveMsg index →
      p.state.localState.interested = true ∨ sendsInterested torrent around.sock = false

/-- `Q` of every `BITFIELD` and `HAVE` of a run, in the state it finds. -/
def EveryAnnouncement (sha1 : List UInt8 → List UInt8) (torrent : Metainfo) (start : Peering)
    (calls : List (ConnCall × Surroundings))
    (Q : Peering → PeerMsg → Surroundings → Prop) : Prop :=
  ∀ before msg around p, before ++ [(.processMsg msg, around)] <+: calls →
    Run (Peering.step sha1 torrent) unguarded start before p →
    msg.type = .msgHave ∨ msg.type = .msgBitfield → Q p msg around

/-! ## Showing interest -/

/-- An `INTERESTED` is sent or it is not: the assertion on its length holds. -/
theorem peerMsgSend_interested (torrent : Metainfo) (sock : Socket) :
    ∃ sock', peerMsgSend torrent .interested sock =
      .ok (sendsInterested torrent sock, sock') := by
  have hok : ∃ r, peerMsgSend torrent .interested sock = .ok r := by
    unfold peerMsgSend
    rw [sendThen]
    split
    · exact ⟨_, rfl⟩
    · show ∃ r, sendThen _ [2] (sendPayload torrent .interested) = .ok r
      unfold sendThen
      split
      · exact ⟨_, rfl⟩
      · exact ⟨_, rfl⟩
  obtain ⟨⟨ok, sock'⟩, hsend⟩ := hok
  refine ⟨sock', ?_⟩
  unfold sendsInterested
  rw [hsend]

theorem sendsInterested_of_neverFails {sock : Socket} (h : NeverFails sock.sendPlan) :
    sendsInterested torrent sock = true := by
  obtain ⟨sock', hsend, -, -⟩ : ∃ sock', peerMsgSend torrent .interested sock = .ok (true, sock') ∧
      sock'.tx = sock.tx ++ encodeMsg torrent .interested ∧ NeverFails sock'.sendPlan :=
    peerMsgSend_spec rfl h
  unfold sendsInterested
  rw [hsend]

/-- The state with interest shown if `shown`. -/
def ConnState.interestedIf (state : ConnState) (shown : Bool) : ConnState :=
  { state with localState :=
    { state.localState with interested := state.localState.interested || shown } }

theorem ConnState.interestedIf_false (state : ConnState) : state.interestedIf false = state := by
  unfold ConnState.interestedIf
  rw [Bool.or_false]

theorem showInterested_spec (torrent : Metainfo) (sock : Socket) (state : ConnState) :
    ∃ sock', showInterested torrent sock state =
      .ok (sock', state.interestedIf (sendsInterested torrent sock)) := by
  obtain ⟨sock', hsend⟩ := peerMsgSend_interested torrent sock
  refine ⟨sock', ?_⟩
  unfold showInterested sendThenUpdate
  rw [hsend]
  cases sendsInterested torrent sock with
  | true => simp [ConnState.interestedIf]
  | false => simp [ConnState.interestedIf_false]

/-! ## The two cases -/

theorem haveInterest_spec {index : UInt32} {state : ConnState} (torrent : Metainfo) (sock : Socket)
    (hload : index.toNat / 8 < state.localHave.length) :
    ∃ sock', haveInterest torrent index sock state = .ok (sock', state.interestedIf
      (bitfieldIsset index.toNat state.localHave && sendsInterested torrent sock)) := by
  unfold haveInterest
  cases hint : state.localState.interested with
  | true => exact ⟨sock, by simp [ConnState.interestedIf, hint]; rw [← hint]⟩
  | false =>
    rw [if_neg (by decide), bitfieldLoad_of hload, ok_bind]
    cases bitfieldIsset index.toNat state.localHave with
    | true =>
      rw [if_pos rfl, Bool.true_and]
      exact showInterested_spec torrent sock state
    | false =>
      rw [if_neg (by decide), Bool.false_and, ConnState.interestedIf_false]
      exact ⟨sock, rfl⟩

/-- The `HAVE` case, on an up-to-date `local_have`: interest is shown for a
piece that IS there. -/
theorem processHave_spec {index : UInt32} {state : ConnState} (torrent : Metainfo) (sock : Socket)
    (hload : index.toNat / 8 < state.localHave.length)
    (hstore : index.toNat / 8 < state.peerHave.length) :
    ∃ sock' state', processHave torrent index sock state = .ok (sock', state') ∧
      state'.localState.interested = (state.localState.interested ||
        (bitfieldIsset index.toNat state.localHave && sendsInterested torrent sock)) := by
  obtain ⟨sock', hfirst⟩ := haveInterest_spec torrent sock hload
  unfold processHave
  rw [hfirst, ok_bind]
  show ∃ sock' state', (bitfieldSet index.toNat state.peerHave >>= _) = _ ∧ _
  rw [bitfieldSet_of hstore]
  exact ⟨_, _, rfl, rfl⟩

/-- The loop of the `BITFIELD` case finds a missing piece if there is one. -/
theorem offersMissing_iff (peerHave : List UInt8) (states : List PieceState) :
    ∀ i, offersMissing peerHave states i = true ↔
      ∃ k < states.length, states[k]? ≠ some .stateHave ∧
        bitfieldIsset (i + k) peerHave = true := by
  induction states with
  | nil => intro i; simp [offersMissing]
  | cons state states ih =>
    intro i
    rw [offersMissing, Bool.or_eq_true, ih]
    constructor
    · rintro (hhead | ⟨k, hk, hstate, hbit⟩)
      · rw [Bool.and_eq_true, bne_iff_ne] at hhead
        exact ⟨0, by simp, by simpa using hhead.1, hhead.2⟩
      · refine ⟨k + 1, by simpa using hk, by simpa using hstate, ?_⟩
        rwa [Nat.add_comm k 1, ← Nat.add_assoc]
    · rintro ⟨k, hk, hstate, hbit⟩
      cases k with
      | zero => exact .inl (by simpa using And.intro hstate hbit)
      | succ k =>
        refine .inr ⟨k, by simpa using hk, by simpa using hstate, ?_⟩
        rwa [Nat.add_comm k 1, ← Nat.add_assoc] at hbit

/-- The `BITFIELD` case: interest is shown for a piece that is missing. -/
theorem processBitfield_spec {bits : List UInt8} {state : ConnState} (torrent : Metainfo)
    (sock : Socket) (sh : Shared) (hsize : bits.length = bitfieldNumBytes state.bitlen)
    (hstore : bits.length ≤ state.peerHave.length) :
    ∃ sock' state', processBitfield torrent bits sock state sh = .ok (sock', state') ∧
      state'.localState.interested = (state.localState.interested ||
        (offersMissing (splice state.peerHave 0 bits) sh.pieceStates 0 &&
          sendsInterested torrent sock)) := by
  have hwrite : RequestQueue.memWrite state.peerHave 0 bits =
      .ok (splice state.peerHave 0 bits) := by
    unfold RequestQueue.memWrite
    rw [if_pos (by simpa using hstore)]
    rfl
  unfold processBitfield
  rw [check_of (by simpa using hsize), ok_bind, hwrite, ok_bind]
  cases offersMissing (splice state.peerHave 0 bits) sh.pieceStates 0 with
  | true =>
    obtain ⟨sock', hshow⟩ := showInterested_spec torrent sock
      { state with peerHave := splice state.peerHave 0 bits }
    exact ⟨sock', _, hshow, rfl⟩
  | false => exact ⟨sock, _, rfl, by simp⟩

/-! ## One announcement -/

/-- A `HAVE` keeps the rule exactly when interest is shown already or cannot be
shown: otherwise the test goes the wrong way whatever the piece. -/
theorem have_interest_iff {p : Peering} {index : UInt32} {around : Surroundings}
    (hdom : AnnouncementFor torrent p (.haveMsg index) around) :
    InterestFollows sha1 torrent p (.haveMsg index) around ↔
      InterestSettled torrent p (.haveMsg index) around := by
  have hrange : index.toNat < torrent.info.numPieces := hdom.inRange
  have hload : index.toNat / 8 < p.state.localHave.length := by
    rw [hdom.haves.covers]
    exact lt_bitfieldNumBytes hrange
  have hbit := hdom.haves.bits index.toNat hrange
  constructor
  · rintro ⟨state, hcall, hset, hkeep⟩
    have hfits := (connCall_effect hcall).fits
    refine ⟨hfits, ?_⟩
    rintro _ ⟨⟩
    obtain ⟨sock', state', hcase, hint⟩ :=
      processHave_spec torrent around.sock hload hfits
    rw [connCall_have hcase, Except.ok.injEq] at hcall
    subst hcall
    by_contra hnot
    simp only [not_or, Bool.not_eq_true, Bool.not_eq_false] at hnot
    obtain ⟨hquiet, hsend⟩ := hnot
    rw [hquiet, hsend, Bool.false_or, Bool.and_true] at hint
    -- the flag is now the bit of `local_have`, which is the wrong way round
    by_cases hhave : around.sh.pieceStates[index.toNat]? = some .stateHave
    · have hoff := hkeep index rfl hhave hquiet
      rw [hint, hbit.mpr hhave] at hoff
      cases hoff
    · have hon := hset hhave hsend
      rw [hint, hbit] at hon
      exact hhave hon
  · rintro ⟨hfits, hsettled⟩
    obtain ⟨sock', state', hcase, hint⟩ :=
      processHave_spec torrent around.sock hload hfits
    refine ⟨state', connCall_have hcase, ?_, ?_⟩
    · intro _ hsend
      rcases hsettled index rfl with hshown | hfail
      · rw [hint, hshown, Bool.true_or]
      · rw [hfail] at hsend
        cases hsend
    · rintro _ ⟨⟩ _ hquiet
      rcases hsettled index rfl with hshown | hfail
      · rw [hshown] at hquiet
        cases hquiet
      · rw [hint, hquiet, hfail, Bool.and_false, Bool.or_false]

/-- A `BITFIELD` that fits keeps the rule. -/
theorem bitfield_interest_iff {p : Peering} {bits : List UInt8} {around : Surroundings}
    (hdom : AnnouncementFor torrent p (.bitfield bits) around) :
    InterestFollows sha1 torrent p (.bitfield bits) around ↔
      InterestSettled torrent p (.bitfield bits) around := by
  have hrange : bits.length = bitfieldNumBytes torrent.info.numPieces := hdom.inRange
  constructor
  · rintro ⟨state, hcall, -, -⟩
    exact ⟨(connCall_effect hcall).fits, by simp⟩
  · rintro ⟨⟨hsize, hstore⟩, -⟩
    obtain ⟨sock', state', hcase, hint⟩ :=
      processBitfield_spec torrent around.sock around.sh hsize hstore
    refine ⟨state', connCall_bitfield hcase, ?_, by simp⟩
    rintro ⟨i, hi, hbit, hmissing⟩ hsend
    have hoffers :
        offersMissing (splice p.state.peerHave 0 bits) around.sh.pieceStates 0 = true := by
      refine (offersMissing_iff _ _ 0).mpr ⟨i, by rw [hdom.haves.length]; exact hi, hmissing, ?_⟩
      rw [Nat.zero_add, bitfieldIsset_eq,
        packedBit_splice (by rw [hrange]; exact lt_bitfieldNumBytes hi)]
      exact hbit
    rw [hint, hoffers, hsend, Bool.and_true, Bool.or_true]

theorem interestFollows_iff {p : Peering} {msg : PeerMsg} {around : Surroundings}
    (hdom : AnnouncementFor torrent p msg around) :
    InterestFollows sha1 torrent p msg around ↔ InterestSettled torrent p msg around := by
  cases msg with
  | haveMsg index => exact have_interest_iff hdom
  | bitfield bits => exact bitfield_interest_iff hdom
  | _ => exact hdom.inRange.elim

/-! ## Whole runs -/

/-- **Interest follows the announcements** of a run, from any state and with
any other calls in between, exactly when every announcement fits `peer_have`
and every `HAVE` among them finds interest shown already or a socket that
takes no `INTERESTED`. -/
theorem interest_follows_iff {start : Peering} {calls : List (ConnCall × Surroundings)}
    (hdom : EveryAnnouncement sha1 torrent start calls (AnnouncementFor torrent)) :
    EveryAnnouncement sha1 torrent start calls (InterestFollows sha1 torrent) ↔
      EveryAnnouncement sha1 torrent start calls (InterestSettled torrent) := by
  constructor
  · intro hfollows before msg around p hpre hrun htype
    exact (interestFollows_iff (hdom before msg around p hpre hrun htype)).mp
      (hfollows before msg around p hpre hrun htype)
  · intro hsettled before msg around p hpre hrun htype
    exact (interestFollows_iff (hdom before msg around p hpre hrun htype)).mpr
      (hsettled before msg around p hpre hrun htype)

theorem everyAnnouncement_single {start : Peering} {msg : PeerMsg} {around : Surroundings}
    {Q : Peering → PeerMsg → Surroundings → Prop} (h : Q start msg around) :
    EveryAnnouncement sha1 torrent start [(.processMsg msg, around)] Q := by
  intro before msg' around' p hpre hrun _
  obtain ⟨rest, hrest⟩ := hpre
  cases before with
  | nil =>
    obtain ⟨⟨rfl, rfl⟩, -⟩ : (msg' = msg ∧ around' = around) ∧ rest = [] := by simpa using hrest
    have hstart : Run (Peering.step sha1 torrent) unguarded start [] start := .nil
    rw [← hstart.unique hrun]
    exact h
  | cons a before => simp at hrest

/-- No piece yet, and no bit of `local_have`. -/
theorem haveMatches_new : HaveMatches eightPieces [0] (sharedInit 8) := by
  refine ⟨rfl, rfl, ?_⟩
  decide

/-- A peer that offers the first piece in its `BITFIELD`. -/
theorem interest_follows_bitfield :
    EveryAnnouncement (fun _ => []) eightPieces ⟨newConn (fun _ => 0) [0], []⟩
      [(.processMsg (.bitfield [128]), quiet (sharedInit 8))]
      (InterestFollows (fun _ => []) eightPieces) := by
  have hrange : InRange eightPieces (.bitfield [128]) := rfl
  refine (interest_follows_iff (everyAnnouncement_single ⟨hrange, rfl, haveMatches_new⟩)).mpr ?_
  exact everyAnnouncement_single ⟨⟨rfl, by decide⟩, by simp⟩

/-- A peer that offers the first piece in a `HAVE`: no interest is shown. -/
theorem have_of_missing_ignored :
    EveryAnnouncement (fun _ => []) eightPieces ⟨newConn (fun _ => 0) [0], []⟩
      [(.processMsg (.haveMsg 0), quiet (sharedInit 8))] (AnnouncementFor eightPieces) ∧
    ¬ EveryAnnouncement (fun _ => []) eightPieces ⟨newConn (fun _ => 0) [0], []⟩
      [(.processMsg (.haveMsg 0), quiet (sharedInit 8))]
      (InterestFollows (fun _ => []) eightPieces) := by
  have hrange : (0 : UInt32).toNat < eightPieces.info.numPieces := by decide
  refine ⟨everyAnnouncement_single ⟨hrange, rfl, haveMatches_new⟩, fun hfollows => ?_⟩
  obtain ⟨state, hcall, hset, -⟩ :=
    hfollows [] (.haveMsg 0) (quiet (sharedInit 8)) _ (List.prefix_refl _) .nil (.inl rfl)
  have hstate : state = { newConn (fun _ => 0) [0] with peerHave := [128] } :=
    (Except.ok.inj hcall).symm
  have hsend : sendsInterested eightPieces (quiet (sharedInit 8)).sock = true :=
    sendsInterested_of_neverFails fun _ => by simp [quiet]
  have hon := hset (by show (sharedInit 8).pieceStates[0]? ≠ _; decide) hsend
  rw [hstate] at hon
  cases hon

end BtClient

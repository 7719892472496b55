import BtClient.Connection.State
import BtClient.Lib.PackedBits
import BtClient.Lib.Transition

/-!
# What the calls do to a connection

One lemma for each call of `State`: what it does to the bitfields and the flags
when it returns. The run of a connection is then a sequence of calls in any
order. Everything outside the connection (the socket's answers, the shared
state, the mapped files, the allocator, the event queue) is given anew for
each call, so other threads may do what they like in between. `received` is
not in the program: it lists the messages handled so far.
-/

namespace BtClient

open CLib

/-! ## Bitfields -/

theorem bitfieldIsset_eq (idx : Nat) (buf : List UInt8) :
    bitfieldIsset idx buf = packedBit buf idx := rfl

theorem bitfieldLoad_of {idx : Nat} {buf : List UInt8} (h : idx / 8 < buf.length) :
    bitfieldLoad idx buf = .ok (bitfieldIsset idx buf) := by
  unfold bitfieldLoad
  rw [if_pos h]

theorem bitfieldSet_of {idx : Nat} {buf : List UInt8} (h : idx / 8 < buf.length) :
    bitfieldSet idx buf = .ok (packedSet buf idx) := by
  unfold bitfieldSet
  rw [if_pos h]
  rfl

theorem bitfieldSet_eq_ok {idx : Nat} {buf buf' : List UInt8}
    (h : bitfieldSet idx buf = .ok buf') :
    idx / 8 < buf.length ∧ buf' = packedSet buf idx := by
  by_cases hlt : idx / 8 < buf.length
  · rw [bitfieldSet_of hlt] at h
    cases h
    exact ⟨hlt, rfl⟩
  · unfold bitfieldSet at h
    rw [if_neg hlt] at h
    cases h

/-- The bytes of a bitfield cover its bits. -/
theorem lt_bitfieldNumBytes {i n : Nat} (h : i < n) : i / 8 < bitfieldNumBytes n := by
  unfold bitfieldNumBytes
  split <;> omega

theorem bitfieldNumBytes_mod {n : Nat} (h : n ≤ 524280) :
    bitfieldNumBytes n % 2 ^ 16 = bitfieldNumBytes n := by
  unfold bitfieldNumBytes
  split <;> omega

/-- A store over the first bytes is seen by the bits of these bytes. -/
theorem packedBit_splice {buf bits : List UInt8} {i : Nat} (h : i / 8 < bits.length) :
    packedBit (splice buf 0 bits) i = packedBit bits i := by
  unfold packedBit splice
  rw [List.take_zero, List.nil_append, List.getD_append _ _ _ _ h]

/-! ## `make_bitfield` -/

/-- The bits of the loop's result are those it had and the `HAVE` pieces. -/
theorem makeBitfieldLoop_spec (states : List PieceState) :
    ∀ (i : Nat) (ret : List UInt8), (∀ k < states.length, (i + k) / 8 < ret.length) →
      ∃ ret', makeBitfieldLoop states i ret = .ok ret' ∧ ret'.length = ret.length ∧
        ∀ j, packedBit ret' j = true ↔
          packedBit ret j = true ∨ ∃ k, j = i + k ∧ states[k]? = some .stateHave := by
  induction states with
  | nil => intro i ret _; exact ⟨ret, rfl, rfl, by simp⟩
  | cons state states ih =>
    intro i ret hfit
    have hi : i / 8 < ret.length := hfit 0 (by simp)
    have hrest : ∀ k < states.length, (i + 1 + k) / 8 < ret.length := by
      intro k hk
      have := hfit (k + 1) (by simpa using hk)
      rwa [Nat.add_comm k 1, ← Nat.add_assoc] at this
    -- the pieces behind the first one, by their index in the whole list
    have hshift : ∀ j, (∃ k, j = i + 1 + k ∧ states[k]? = some .stateHave) ↔
        ∃ k, j = i + (k + 1) ∧ (state :: states)[k + 1]? = some .stateHave := by
      intro j
      simp only [List.getElem?_cons_succ, Nat.add_assoc, Nat.add_comm 1]
    have hsplit : ∀ j, (∃ k, j = i + k ∧ (state :: states)[k]? = some .stateHave) ↔
        (j = i ∧ state = .stateHave) ∨
          ∃ k, j = i + (k + 1) ∧ (state :: states)[k + 1]? = some .stateHave := by
      intro j
      constructor
      · rintro ⟨k, hj, hk⟩
        cases k with
        | zero => exact .inl ⟨hj, by simpa using hk⟩
        | succ k => exact .inr ⟨k, hj, hk⟩
      · rintro (⟨hj, hs⟩ | ⟨k, hj, hk⟩)
        · exact ⟨0, hj, by rw [hs]; rfl⟩
        · exact ⟨k + 1, hj, hk⟩
    simp only [makeBitfieldLoop]
    by_cases hs : state = .stateHave
    · rw [if_pos hs, bitfieldSet_of hi, ok_bind]
      obtain ⟨ret', hret, hlen, hbits⟩ :=
        ih (i + 1) (packedSet ret i) (by simpa using hrest)
      refine ⟨ret', hret, by rw [hlen, length_packedSet], fun j => ?_⟩
      rw [hbits, packedBit_packedSet hi, Bool.or_eq_true, decide_eq_true_eq, hshift, hsplit,
        or_assoc]
      simp only [hs, and_true, eq_comm (a := i)]
    · rw [if_neg hs, ok_bind]
      obtain ⟨ret', hret, hlen, hbits⟩ := ih (i + 1) ret hrest
      refine ⟨ret', hret, hlen, fun j => ?_⟩
      rw [hbits, hshift, hsplit]
      simp only [hs, and_false, false_or]

/-- **`make_bitfield`**: the bits set are those of the pieces that are `HAVE`. -/
theorem makeBitfield_spec {torrent : Metainfo} {sh : Shared}
    (hlen : sh.pieceStates.length = torrent.info.numPieces) :
    ∃ bits, makeBitfield torrent sh = .ok bits ∧
      bits.length = bitfieldNumBytes torrent.info.numPieces ∧
      ∀ j, packedBit bits j = true ↔ sh.pieceStates[j]? = some .stateHave := by
  obtain ⟨bits, hbits, hsize, hset⟩ := makeBitfieldLoop_spec sh.pieceStates 0
    (List.replicate (bitfieldNumBytes torrent.info.numPieces) 0) (by
      intro k hk
      rw [List.length_replicate, Nat.zero_add]
      exact lt_bitfieldNumBytes (by omega))
  refine ⟨bits, hbits, by rw [hsize, List.length_replicate], fun j => ?_⟩
  rw [hset]
  simp

/-! ## What a message does -/

/-- `peer_have` after a message. -/
def peerHaveAfter (msg : PeerMsg) (peerHave : List UInt8) : List UInt8 :=
  match msg with
  | .haveMsg index => packedSet peerHave index.toNat
  | .bitfield bits => splice peerHave 0 bits
  | _ => peerHave

/-- What a message must be for `peer_have` to hold it. -/
def MsgFits (msg : PeerMsg) (state : ConnState) : Prop :=
  match msg with
  | .haveMsg index => index.toNat / 8 < state.peerHave.length
  | .bitfield bits =>
    bits.length = bitfieldNumBytes state.bitlen ∧ bits.length ≤ state.peerHave.length
  | _ => True

/-- `local.choked` after a message. -/
def chokedAfter (msg : PeerMsg) (choked : Bool) : Bool :=
  match msg with
  | .choke => true
  | .unchoke => false
  | _ => choked

/-- `remote.interested` after a message. -/
def interestedAfter (msg : PeerMsg) (interested : Bool) : Bool :=
  match msg with
  | .unchoke => true
  | .interested => true
  | .notInterested => false
  | _ => interested

/-- What `process_msg` did to the bitfields and to the flags the peer moves. -/
structure MsgEffect (msg : PeerMsg) (state state' : ConnState) : Prop where
  fits : MsgFits msg state
  peerHave : state'.peerHave = peerHaveAfter msg state.peerHave
  localHave : state'.localHave.length = state.localHave.length
  bitlen : state'.bitlen = state.bitlen
  choked : state'.localState.choked = chokedAfter msg state.localState.choked
  interested :
    state'.remoteState.interested = interestedAfter msg state.remoteState.interested

/-- The parts of a connection that only messages and events from other
connections touch. -/
structure SameBits (state state' : ConnState) : Prop where
  peerHave : state'.peerHave = state.peerHave
  localHave : state'.localHave.length = state.localHave.length
  bitlen : state'.bitlen = state.bitlen
  choked : state'.localState.choked = state.localState.choked
  interested : state'.remoteState.interested = state.remoteState.interested

theorem SameBits.refl (state : ConnState) : SameBits state state := ⟨rfl, rfl, rfl, rfl, rfl⟩

/-- Nothing but `local.interested` has changed. -/
def OnlyInterest (state state' : ConnState) : Prop :=
  ∃ interested,
    state' = { state with localState := { state.localState with interested := interested } }

theorem OnlyInterest.refl (state : ConnState) : OnlyInterest state state :=
  ⟨state.localState.interested, rfl⟩

theorem OnlyInterest.sameBits {state state' : ConnState} (h : OnlyInterest state state') :
    SameBits state state' := by
  obtain ⟨interested, rfl⟩ := h
  exact ⟨rfl, rfl, rfl, rfl, rfl⟩

theorem OnlyInterest.requests {state state' : ConnState} (h : OnlyInterest state state') :
    state'.localRequests = state.localRequests := by
  obtain ⟨interested, rfl⟩ := h
  rfl

/-- A short message makes its update, or nothing. -/
theorem sendThenUpdate_cases {torrent : Metainfo} {msg : PeerMsg}
    {update : ConnState → ConnState} {sock sock' : Socket} {state state' : ConnState}
    (h : sendThenUpdate torrent msg update sock state = .ok (sock', state')) :
    state' = update state ∨ state' = state := by
  obtain ⟨⟨ok, sock⟩, -, h⟩ := (seq_returns_iff _ _ _).mp h
  cases h
  cases ok with
  | true => exact .inl rfl
  | false => exact .inr rfl

theorem showInterested_only {torrent : Metainfo} {sock sock' : Socket} {state state' : ConnState}
    (h : showInterested torrent sock state = .ok (sock', state')) : OnlyInterest state state' := by
  rcases sendThenUpdate_cases h with rfl | rfl
  · exact ⟨true, rfl⟩
  · exact .refl _

theorem showNotInterested_only {torrent : Metainfo} {sock sock' : Socket}
    {state state' : ConnState} (h : showNotInterested torrent sock state = .ok (sock', state')) :
    OnlyInterest state state' := by
  rcases sendThenUpdate_cases h with rfl | rfl
  · exact ⟨false, rfl⟩
  · exact .refl _

theorem haveInterest_only {torrent : Metainfo} {index : UInt32} {sock sock' : Socket}
    {state state' : ConnState}
    (h : haveInterest torrent index sock state = .ok (sock', state')) :
    OnlyInterest state state' := by
  unfold haveInterest at h
  split at h
  · cases h
    exact .refl _
  · obtain ⟨isset, -, h⟩ := (seq_returns_iff _ _ _).mp h
    split at h
    · exact showInterested_only h
    · cases h
      exact .refl _

theorem memWrite_zero {mem mem' bs : List UInt8}
    (h : RequestQueue.memWrite mem 0 bs = .ok mem') :
    bs.length ≤ mem.length ∧ mem' = splice mem 0 bs := by
  unfold RequestQueue.memWrite at h
  split at h
  · rename_i hin
    cases h
    exact ⟨by simpa using hin, rfl⟩
  · cases h

theorem processHave_cases {torrent : Metainfo} {index : UInt32} {sock sock' : Socket}
    {state state' : ConnState} (h : processHave torrent index sock state = .ok (sock', state')) :
    index.toNat / 8 < state.peerHave.length ∧
      OnlyInterest { state with peerHave := packedSet state.peerHave index.toNat } state' := by
  obtain ⟨⟨sock₁, state₁⟩, hfirst, h⟩ := (seq_returns_iff _ _ _).mp h
  obtain ⟨peerHave, hset, h⟩ := (seq_returns_iff _ _ _).mp h
  cases h
  obtain ⟨interested, rfl⟩ := haveInterest_only hfirst
  obtain ⟨hlt, rfl⟩ := bitfieldSet_eq_ok hset
  exact ⟨hlt, interested, rfl⟩

theorem processBitfield_cases {torrent : Metainfo} {bits : List UInt8} {sock sock' : Socket}
    {state state' : ConnState} {sh : Shared}
    (h : processBitfield torrent bits sock state sh = .ok (sock', state')) :
    bits.length = bitfieldNumBytes state.bitlen ∧ bits.length ≤ state.peerHave.length ∧
      OnlyInterest { state with peerHave := splice state.peerHave 0 bits } state' := by
  obtain ⟨_, hsize, h⟩ := (seq_returns_iff _ _ _).mp h
  obtain ⟨peerHave, hwrite, h⟩ := (seq_returns_iff _ _ _).mp h
  obtain ⟨hle, rfl⟩ := memWrite_zero hwrite
  refine ⟨by simpa using check_eq_ok.mp hsize, hle, ?_⟩
  simp only at h
  split at h
  · exact showInterested_only h
  · cases h
    exact .refl _

/-- **What a message does.** -/
theorem processMsg_effect {sha1 : List UInt8 → List UInt8} {torrent : Metainfo}
    {realloc : RequestQueue.Realloc} {disk : Disk} {msg : PeerMsg} {sock sock' : Socket}
    {state state' : ConnState} {sh sh' : Shared} {events : List Event}
    (h : processMsg sha1 torrent realloc disk msg sock state sh =
      .ok (sock', state', sh', events)) : MsgEffect msg state state' := by
  cases msg with
  | keepalive | cancel | port | choke | unchoke | interested | notInterested =>
    cases h
    exact ⟨trivial, rfl, rfl, rfl, rfl, rfl⟩
  | haveMsg index =>
    obtain ⟨⟨sock₁, state₁⟩, hcase, h⟩ := (seq_returns_iff _ _ _).mp h
    cases h
    obtain ⟨hlt, interested, rfl⟩ := processHave_cases hcase
    exact ⟨hlt, rfl, rfl, rfl, rfl, rfl⟩
  | bitfield bits =>
    obtain ⟨⟨sock₁, state₁⟩, hcase, h⟩ := (seq_returns_iff _ _ _).mp h
    cases h
    obtain ⟨hsize, hle, interested, rfl⟩ := processBitfield_cases hcase
    exact ⟨⟨hsize, hle⟩, rfl, rfl, rfl, rfl, rfl⟩
  | request request =>
    obtain ⟨queue, -, h⟩ := (seq_returns_iff _ _ _).mp h
    cases queue <;> (cases h; exact ⟨trivial, rfl, rfl, rfl, rfl, rfl⟩)
  | piece piece =>
    obtain ⟨⟨requests, sock₁, sh₁, events₁⟩, -, h⟩ := (seq_returns_iff _ _ _).mp h
    cases h
    exact ⟨trivial, rfl, rfl, rfl, rfl, rfl⟩

/-! ## What the other calls do -/

/-- Answering the peer's requests takes them off the queue and counts them. -/
theorem servicePeerRequests_cases {torrent : Metainfo} {sock sock' : Socket}
    {state state' : ConnState}
    (h : servicePeerRequests torrent sock state = .ok (sock', state')) :
    ∃ queue sent, state' = { state with peerRequests := queue, blocksSent := sent } := by
  fun_induction servicePeerRequests torrent sock state with
  | case1 sock state e hdeq => cases h
  | case2 sock state hdeq =>
    cases h
    exact ⟨_, _, rfl⟩
  | case3 sock state out queue hdeq request ih =>
    obtain ⟨⟨ok, sock₁⟩, -, h⟩ := (seq_returns_iff _ _ _).mp h
    cases ok with
    | true =>
      obtain ⟨queue', sent, rfl⟩ := ih sock₁ h
      exact ⟨queue', sent, rfl⟩
    | false =>
      cases h
      exact ⟨queue, state.blocksSent, rfl⟩

/-- **What `send_requests` does**: nothing while a request is there; otherwise
it finds no piece, or it appends a request for the one it finds and sends its
blocks. -/
theorem sendRequests_cases {torrent : Metainfo} {sock : Socket} {state : ConnState} {sh : Shared}
    {r : SentRequests} (h : sendRequests torrent sock state sh = .ok r) :
    (1 ≤ state.localRequests.length ∧ r.state = state ∧ r.sent = []) ∨
    (state.localRequests = [] ∧ (torrentNextRequest sh state.peerHave).1 = none ∧
      OnlyInterest state r.state ∧ ∀ request, .request request ∉ r.sent) ∨
    ∃ index pr, state.localRequests = [] ∧
      (torrentNextRequest sh state.peerHave).1 = some index ∧
      pieceRequestCreate torrent (UInt32.ofNat index) = .ok pr ∧
      sendBlockRequests torrent pr.pieceIndex pr.blockRequests sock = .ok (r.ok, r.sock, r.sent) ∧
      r.state = { state with localRequests := [pr] } := by
  unfold sendRequests at h
  by_cases hfull : 1 ≤ state.localRequests.length
  · rw [if_pos hfull] at h
    cases h
    exact .inl ⟨hfull, rfl, rfl⟩
  · rw [if_neg hfull] at h
    have hempty : state.localRequests = [] := List.eq_nil_of_length_eq_zero (by omega)
    obtain ⟨⟨next, sh₁⟩, hnext, h⟩ := (seq_returns_iff _ _ _).mp h
    have hpick : (torrentNextRequest sh state.peerHave).1 = next := by
      unfold torrentNextRequestLoad at hnext
      split at hnext
      · rw [Except.ok.inj hnext]
      · cases hnext
    right
    cases next with
    | none =>
      left
      simp only at h
      split at h
      · obtain ⟨⟨sock₁, state₁⟩, hshow, h⟩ := (seq_returns_iff _ _ _).mp h
        cases h
        exact ⟨hempty, hpick, showNotInterested_only hshow, by simp⟩
      · cases h
        exact ⟨hempty, hpick, .refl _, by simp⟩
    | some index =>
      right
      obtain ⟨pr, hpr, h⟩ := (seq_returns_iff _ _ _).mp h
      obtain ⟨⟨ok, sock₁, sent⟩, hsend, h⟩ := (seq_returns_iff _ _ _).mp h
      cases h
      refine ⟨index, pr, hempty, hpick, hpr, hsend, ?_⟩
      rw [hempty, List.nil_append]

theorem sendRequests_sameBits {torrent : Metainfo} {sock : Socket} {state : ConnState}
    {sh : Shared} {r : SentRequests} (h : sendRequests torrent sock state sh = .ok r) :
    SameBits state r.state := by
  rcases sendRequests_cases h with ⟨-, hstate, -⟩ | ⟨-, -, honly, -⟩ |
    ⟨index, pr, -, -, -, -, hstate⟩
  · rw [hstate]
    exact .refl _
  · exact honly.sameBits
  · rw [hstate]
    exact ⟨rfl, rfl, rfl, rfl, rfl⟩

/-- `service_have_events` sets bits inside `local_have`. -/
theorem serviceHaveEvents_length {torrent : Metainfo} {queue queue' : MsgQueue}
    {sock sock' : Socket} {havebf havebf' : List UInt8} {sent : List PeerMsg}
    (h : serviceHaveEvents torrent queue sock havebf = .ok (queue', sock', havebf', sent)) :
    havebf'.length = havebf.length := by
  fun_induction serviceHaveEvents torrent queue sock havebf generalizing sent with
  | case1 queue sock havebf e hrecv =>
    cases h
    rfl
  | case2 queue sock havebf bytes queue₁ hrecv hfour index =>
    rename_i ih
    obtain ⟨havebf₁, hset, h⟩ := (seq_returns_iff _ _ _).mp h
    obtain ⟨-, rfl⟩ := bitfieldSet_eq_ok hset
    obtain ⟨⟨ok, sock₁⟩, -, h⟩ := (seq_returns_iff _ _ _).mp h
    cases ok with
    | true =>
      obtain ⟨⟨queue₂, sock₂, havebf₂, sent₂⟩, hrest, h⟩ := (seq_returns_iff _ _ _).mp h
      cases h
      rw [ih _ sock₁ hrest, length_packedSet]
    | false =>
      cases h
      exact length_packedSet _ _
  | case3 queue sock havebf bytes queue₁ hrecv hother =>
    cases h
    rfl

/-! ## Runs -/

/-- What a call finds outside the connection. -/
structure Surroundings where
  sock : Socket
  sh : Shared
  disk : Disk
  realloc : RequestQueue.Realloc
  events : MsgQueue

/-- The calls of `peer_connection` on its state. -/
inductive ConnCall where
  | unchoke
  | serviceHaveEvents
  | processMsg (msg : PeerMsg)
  | servicePeerRequests
  | sendRequests
  deriving DecidableEq, Repr

/-- A connection and the messages it has handled, the latest last. -/
structure Peering where
  state : ConnState
  received : List PeerMsg

/-- The state after a call. -/
def connCall (sha1 : List UInt8 → List UInt8) (torrent : Metainfo) (around : Surroundings)
    (state : ConnState) : ConnCall → Except Fault ConnState
  | .unchoke => do
    let (_, state) ← unchoke torrent around.sock state
    return state
  | .serviceHaveEvents => do
    let (_, _, localHave, _) ←
      serviceHaveEvents torrent around.events around.sock state.localHave
    return { state with localHave := localHave }
  | .processMsg msg => do
    let (_, state, _, _) ←
      processMsg sha1 torrent around.realloc around.disk msg around.sock state around.sh
    return state
  | .servicePeerRequests => do
    let (_, state) ← servicePeerRequests torrent around.sock state
    return state
  | .sendRequests => do
    let r ← sendRequests torrent around.sock state around.sh
    return r.state

/-- The effect of a message, as a call. -/
theorem connCall_effect {sha1 : List UInt8 → List UInt8} {torrent : Metainfo}
    {around : Surroundings} {state state' : ConnState} {msg : PeerMsg}
    (h : connCall sha1 torrent around state (.processMsg msg) = .ok state') :
    MsgEffect msg state state' := by
  obtain ⟨⟨sock, state₁, sh, events⟩, hmsg, hret⟩ := (seq_returns_iff _ _ _).mp h
  cases hret
  exact processMsg_effect hmsg

theorem connCall_have {sha1 : List UInt8 → List UInt8} {torrent : Metainfo}
    {around : Surroundings} {state state' : ConnState} {index : UInt32} {sock' : Socket}
    (h : processHave torrent index around.sock state = .ok (sock', state')) :
    connCall sha1 torrent around state (.processMsg (.haveMsg index)) = .ok state' := by
  simp only [connCall, processMsg, h, ok_bind, pure_is_ok]

theorem connCall_bitfield {sha1 : List UInt8 → List UInt8} {torrent : Metainfo}
    {around : Surroundings} {state state' : ConnState} {bits : List UInt8} {sock' : Socket}
    (h : processBitfield torrent bits around.sock state around.sh = .ok (sock', state')) :
    connCall sha1 torrent around state (.processMsg (.bitfield bits)) = .ok state' := by
  simp only [connCall, processMsg, h, ok_bind, pure_is_ok]

/-- The messages a call handles. -/
def ConnCall.handled : ConnCall → List PeerMsg
  | .processMsg msg => [msg]
  | _ => []

/-- One call in its surroundings; a call that faults has no next state. -/
def Peering.step (sha1 : List UInt8 → List UInt8) (torrent : Metainfo) (p : Peering)
    (a : ConnCall × Surroundings) : Option Peering :=
  match connCall sha1 torrent a.2 p.state a.1 with
  | .error _ => none
  | .ok state => some ⟨state, p.received ++ a.1.handled⟩

theorem Peering.step_eq_some {sha1 : List UInt8 → List UInt8} {torrent : Metainfo}
    {p q : Peering} {a : ConnCall × Surroundings} (h : p.step sha1 torrent a = some q) :
    connCall sha1 torrent a.2 p.state a.1 = .ok q.state ∧
      q.received = p.received ++ a.1.handled := by
  unfold Peering.step at h
  split at h
  · cases h
  · rename_i state hcall
    cases h
    exact ⟨hcall, rfl⟩

/-- **What a step does**: it handles a message, or it leaves the bits alone. -/
theorem Peering.step_cases {sha1 : List UInt8 → List UInt8} {torrent : Metainfo}
    {p q : Peering} {a : ConnCall × Surroundings} (h : p.step sha1 torrent a = some q) :
    (∃ msg, a.1 = .processMsg msg ∧ MsgEffect msg p.state q.state ∧
      q.received = p.received ++ [msg]) ∨
    ((∀ msg, a.1 ≠ .processMsg msg) ∧ SameBits p.state q.state ∧ q.received = p.received) := by
  obtain ⟨call, around⟩ := a
  obtain ⟨hcall, hrecv⟩ := Peering.step_eq_some h
  cases call with
  | processMsg msg =>
    exact .inl ⟨msg, rfl, connCall_effect hcall, hrecv⟩
  | unchoke =>
    obtain ⟨⟨sock, state⟩, hcase, hret⟩ := (seq_returns_iff _ _ _).mp hcall
    cases hret
    refine .inr ⟨by simp, ?_, by simpa [ConnCall.handled] using hrecv⟩
    rcases sendThenUpdate_cases hcase with hstate | hstate
    · rw [hstate]
      exact ⟨rfl, rfl, rfl, rfl, rfl⟩
    · rw [hstate]
      exact .refl _
  | serviceHaveEvents =>
    obtain ⟨⟨queue, sock, havebf, sent⟩, hcase, hret⟩ := (seq_returns_iff _ _ _).mp hcall
    have hstate := Except.ok.inj hret
    refine .inr ⟨by simp, ?_, by simpa [ConnCall.handled] using hrecv⟩
    rw [← hstate]
    exact ⟨rfl, serviceHaveEvents_length hcase, rfl, rfl, rfl⟩
  | servicePeerRequests =>
    obtain ⟨⟨sock, state⟩, hcase, hret⟩ := (seq_returns_iff _ _ _).mp hcall
    cases hret
    obtain ⟨queue, sent, hstate⟩ := servicePeerRequests_cases hcase
    refine .inr ⟨by simp, ?_, by simpa [ConnCall.handled] using hrecv⟩
    rw [hstate]
    exact ⟨rfl, rfl, rfl, rfl, rfl⟩
  | sendRequests =>
    obtain ⟨r, hcase, hret⟩ := (seq_returns_iff _ _ _).mp hcall
    have hstate := Except.ok.inj hret
    refine .inr ⟨by simp, ?_, by simpa [ConnCall.handled] using hrecv⟩
    rw [← hstate]
    exact sendRequests_sameBits hcase

/-! ## Sizes -/

/-- The sizes `conn_state_init` gives the bitfields. -/
structure ConnState.Sized (torrent : Metainfo) (state : ConnState) : Prop where
  bitlen : state.bitlen = torrent.info.numPieces
  peerHave : state.peerHave.length = bitfieldNumBytes torrent.info.numPieces % 2 ^ 16
  localHave : state.localHave.length = bitfieldNumBytes torrent.info.numPieces

theorem makeBitfieldLoop_length (states : List PieceState) :
    ∀ (i : Nat) (ret ret' : List UInt8), makeBitfieldLoop states i ret = .ok ret' →
      ret'.length = ret.length := by
  induction states with
  | nil => intro i ret ret' h; cases h; rfl
  | cons state states ih =>
    intro i ret ret' h
    simp only [makeBitfieldLoop] at h
    split at h
    · obtain ⟨ret₁, hset, hrest⟩ := (seq_returns_iff _ _ _).mp h
      rw [ih _ _ _ hrest, (bitfieldSet_eq_ok hset).2, length_packedSet]
    · exact ih _ _ _ h

/-- The fields of a new connection that the results below depend on. -/
theorem connStateInit_spec {fill : Nat → UInt8} {torrent : Metainfo} {sh : Shared}
    {state : ConnState} (h : connStateInit fill torrent sh = .ok state) :
    state.Sized torrent ∧ state.localState = ⟨true, false⟩ ∧ state.remoteState = ⟨true, false⟩ ∧
      makeBitfield torrent sh = .ok state.localHave := by
  obtain ⟨localHave, hmake, hret⟩ := (seq_returns_iff _ _ _).mp h
  cases hret
  refine ⟨⟨rfl, by simp, ?_⟩, rfl, rfl, hmake⟩
  have hlen := makeBitfieldLoop_length _ _ _ _ hmake
  rwa [List.length_replicate] at hlen

theorem MsgEffect.sized {torrent : Metainfo} {msg : PeerMsg} {state state' : ConnState}
    (h : MsgEffect msg state state') (hsized : state.Sized torrent) : state'.Sized torrent := by
  refine ⟨h.bitlen.trans hsized.bitlen, ?_, h.localHave.trans hsized.localHave⟩
  rw [← hsized.peerHave, h.peerHave]
  cases msg with
  | haveMsg index => exact length_packedSet _ _
  | bitfield bits => exact length_splice (by simpa using h.fits.2)
  | _ => rfl

theorem Peering.step_sized {sha1 : List UInt8 → List UInt8} {torrent : Metainfo}
    {p q : Peering} {a : ConnCall × Surroundings} (h : p.step sha1 torrent a = some q)
    (hsized : p.state.Sized torrent) : q.state.Sized torrent := by
  rcases Peering.step_cases h with ⟨msg, -, heff, -⟩ | ⟨-, hsame, -⟩
  · exact heff.sized hsized
  · exact ⟨hsame.bitlen.trans hsized.bitlen, by rw [hsame.peerHave, hsized.peerHave],
      hsame.localHave.trans hsized.localHave⟩

/-- The buffers keep their size along a run. -/
theorem Peering.run_sized {sha1 : List UInt8 → List UInt8} {torrent : Metainfo}
    {fill : Nat → UInt8} {sh : Shared} {state : ConnState} {calls : List (ConnCall × Surroundings)}
    {p : Peering} (hinit : connStateInit fill torrent sh = .ok state)
    (hrun : Run (Peering.step sha1 torrent) unguarded ⟨state, []⟩ calls p) :
    p.state.Sized torrent :=
  hrun.invariant (connStateInit_spec hinit).1 fun _ _ _ hp _ hq => Peering.step_sized hq hp

/-! ## A torrent to run on -/

/-- Eight pieces of one block each, in one file. -/
def eightPieces : Metainfo where
  announce := none
  announceList := []
  info := ⟨.infoSingle, 16384, [], 8, [], 131072, 1, []⟩
  infoHash := []
  maxPeers := 50
  sh := sharedInit 8
  files := [⟨131072, []⟩]

/-- The shared state of `eightPieces` once all of them are there. -/
def eightComplete : Shared where
  state := .stateSeeding
  pieceStates := List.replicate 8 .stateHave
  piecesLeft := 0
  completed := true

/-- A peer that takes everything at once, and nothing else going on. -/
def quiet (sh : Shared) : Surroundings where
  sock := ⟨[], [], fun _ => some 65536, fun _ => some 65536⟩
  sh := sh
  disk := []
  realloc := none
  events := ⟨10, 4, []⟩

/-- A new connection of `eightPieces`. -/
def newConn (fill : Nat → UInt8) (localHave : List UInt8) : ConnState where
  localState := ⟨true, false⟩
  remoteState := ⟨true, false⟩
  peerHave := [fill 0]
  localHave := localHave
  bitlen := 8
  blocksSent := 0
  blockRecvd := 0
  localRequests := []
  peerRequests := RequestQueue.queueInit requestMsgSize 16

theorem connStateInit_eightPieces (fill : Nat → UInt8) :
    connStateInit fill eightPieces (sharedInit 8) = .ok (newConn fill [0]) := rfl

end BtClient

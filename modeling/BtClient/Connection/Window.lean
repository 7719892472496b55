import BtClient.Connection.BlockAccounting
import BtClient.Connection.Calls

/-!
# The request window

`send_requests` takes the length of `local_requests` for the number of pieces
this connection is waiting for. `process_piece_msg` counts the blocks of a
request down to zero and leaves the request where it is, so that the length is
that number only until a piece is finished; the finished request then keeps the
window of one shut for the rest of the connection.
-/

namespace BtClient

open CLib

variable {sha1 : List UInt8 → List UInt8} {torrent : Metainfo}

/-! ## What the calls do to `local_requests` -/

/-- **A message**: only a block touches the requests. -/
theorem processMsg_requests {realloc : RequestQueue.Realloc} {disk : Disk} {msg : PeerMsg}
    {sock sock' : Socket} {state state' : ConnState} {sh sh' : Shared} {events : List Event}
    (h : processMsg sha1 torrent realloc disk msg sock state sh =
      .ok (sock', state', sh', events)) :
    (∃ piece, msg = .piece piece ∧
      state'.localRequests = countBlocks piece state.localRequests) ∨
    ((∀ piece, msg ≠ .piece piece) ∧ state'.localRequests = state.localRequests) := by
  cases msg with
  | keepalive | cancel | port | choke | unchoke | interested | notInterested =>
    cases h
    exact .inr ⟨by simp, rfl⟩
  | haveMsg index =>
    obtain ⟨⟨sock₁, state₁⟩, hcase, h⟩ := (seq_returns_iff _ _ _).mp h
    cases h
    exact .inr ⟨by simp, (processHave_cases hcase).2.requests⟩
  | bitfield bits =>
    obtain ⟨⟨sock₁, state₁⟩, hcase, h⟩ := (seq_returns_iff _ _ _).mp h
    cases h
    exact .inr ⟨by simp, (processBitfield_cases hcase).2.2.requests⟩
  | request request =>
    obtain ⟨queue, -, h⟩ := (seq_returns_iff _ _ _).mp h
    right
    cases queue with
    | none =>
      cases h
      exact ⟨by simp, rfl⟩
    | some queue =>
      cases h
      exact ⟨by simp, rfl⟩
  | piece piece =>
    obtain ⟨⟨requests, sock₁, sh₁, events₁⟩, hcase, h⟩ := (seq_returns_iff _ _ _).mp h
    cases h
    exact .inl ⟨piece, rfl, (processPieceMsg_counts _ hcase).1⟩

/-- The piece that a `send_requests` would request. -/
def Picks (around : Surroundings) (state : ConnState) (index : Nat) : Prop :=
  (torrentNextRequest around.sh state.peerHave).1 = some index

/-- **`send_requests`** appends a request for the piece it picks, and only to an
empty list. -/
theorem sendRequests_requests {around : Surroundings} {state : ConnState} {r : SentRequests}
    (h : sendRequests torrent around.sock state around.sh = .ok r) :
    (∃ index pr, state.localRequests = [] ∧ Picks around state index ∧
      pieceRequestCreate torrent (UInt32.ofNat index) = .ok pr ∧
      r.state.localRequests = [pr]) ∨
    (r.state.localRequests = state.localRequests ∧
      (state.localRequests = [] → ∀ index, ¬ Picks around state index)) := by
  rcases sendRequests_cases h with ⟨hfull, hstate, -⟩ | ⟨-, hpick, honly, -⟩ |
    ⟨index, pr, hempty, hpick, hpr, -, hstate⟩
  · right
    rw [hstate]
    refine ⟨rfl, fun hempty => ?_⟩
    rw [hempty] at hfull
    cases hfull
  · right
    refine ⟨honly.requests, fun _ index hindex => ?_⟩
    rw [Picks, hpick] at hindex
    cases hindex
  · left
    rw [hstate]
    exact ⟨index, pr, hempty, hpick, hpr, rfl⟩

/-- **What a call does to the requests.** -/
theorem connCall_requests {around : Surroundings} {state state' : ConnState} {call : ConnCall}
    (h : connCall sha1 torrent around state call = .ok state') :
    (∃ msg, call = .processMsg (.piece msg) ∧
      state'.localRequests = countBlocks msg state.localRequests) ∨
    (∃ index pr, call = .sendRequests ∧ state.localRequests = [] ∧ Picks around state index ∧
      pieceRequestCreate torrent (UInt32.ofNat index) = .ok pr ∧ state'.localRequests = [pr]) ∨
    (state'.localRequests = state.localRequests ∧
      (∀ msg, call ≠ .processMsg (.piece msg)) ∧
      (call = .sendRequests → state.localRequests = [] → ∀ index, ¬ Picks around state index)) := by
  cases call with
  | unchoke =>
    obtain ⟨⟨sock, state₁⟩, hcase, hret⟩ := (seq_returns_iff _ _ _).mp h
    cases hret
    refine .inr (.inr ⟨?_, by simp, by simp⟩)
    rcases sendThenUpdate_cases hcase with rfl | rfl
    · rfl
    · rfl
  | serviceHaveEvents =>
    obtain ⟨⟨queue, sock, havebf, sent⟩, -, hret⟩ := (seq_returns_iff _ _ _).mp h
    cases hret
    exact .inr (.inr ⟨rfl, by simp, by simp⟩)
  | processMsg msg =>
    obtain ⟨⟨sock, state₁, sh, events⟩, hmsg, hret⟩ := (seq_returns_iff _ _ _).mp h
    cases hret
    rcases processMsg_requests hmsg with ⟨piece, rfl, hcount⟩ | ⟨hother, hsame⟩
    · exact .inl ⟨piece, rfl, hcount⟩
    · exact .inr (.inr ⟨hsame, by simpa using hother, by simp⟩)
  | servicePeerRequests =>
    obtain ⟨⟨sock, state₁⟩, hcase, hret⟩ := (seq_returns_iff _ _ _).mp h
    cases hret
    obtain ⟨queue, sent, rfl⟩ := servicePeerRequests_cases hcase
    exact .inr (.inr ⟨rfl, by simp, by simp⟩)
  | sendRequests =>
    obtain ⟨r, hcase, hret⟩ := (seq_returns_iff _ _ _).mp h
    cases hret
    right
    rcases sendRequests_requests hcase with ⟨index, pr, hempty, hpick, hpr, hnew⟩ | ⟨hsame, hnone⟩
    · exact .inl ⟨index, pr, rfl, hempty, hpick, hpr, hnew⟩
    · exact .inr ⟨hsame, by simp, fun _ => hnone⟩

/-! ## The window -/

/-- What `send_requests` considers outstanding is what is incomplete. -/
def WindowCounts (state : ConnState) : Prop :=
  state.localRequests.length = state.localRequests.countP fun r => decide (r.blocksLeft ≠ 0)

/-- Once the earlier requests are finished, the piece that is picked is requested. -/
def WindowReopens (torrent : Metainfo) (state : ConnState) : Prop :=
  (∀ r ∈ state.localRequests, r.blocksLeft = 0) →
    ∀ around index pr r, Picks around state index →
      pieceRequestCreate torrent (UInt32.ofNat index) = .ok pr →
      sendRequests torrent around.sock state around.sh = .ok r →
      r.state.localRequests = state.localRequests ++ [pr]

/-- `blocks_left` is a `uint32_t`. -/
def WordCounters (state : ConnState) : Prop := ∀ r ∈ state.localRequests, r.blocksLeft < 2 ^ 32

/-- The call finishes no request: no block is the last one of its request, and
no piece without blocks is requested. -/
def FinishesNone (torrent : Metainfo) (p : Peering) (a : ConnCall × Surroundings) : Prop :=
  (∀ msg, a.1 = .processMsg (.piece msg) → ∀ r ∈ p.state.localRequests,
    r.pieceIndex = msg.index → r.blocksLeft = 1 →
    ∀ b ∈ r.blockRequests, msg.matchesBlock b = false) ∧
  (a.1 = .sendRequests → p.state.localRequests = [] → ∀ index pr, Picks a.2 p.state index →
    pieceRequestCreate torrent (UInt32.ofNat index) = .ok pr → pr.blocksLeft ≠ 0)

theorem windowCounts_iff (state : ConnState) :
    WindowCounts state ↔ ∀ r ∈ state.localRequests, r.blocksLeft ≠ 0 := by
  rw [WindowCounts, eq_comm, List.countP_eq_length]
  simp only [decide_eq_true_eq]

/-- A window that counts the incomplete pieces is open when there are none. -/
theorem WindowCounts.reopens {state : ConnState} (h : WindowCounts state) :
    WindowReopens torrent state := by
  intro hdone around index pr r hpick hpr hsend
  have hempty : state.localRequests = [] := by
    apply List.eq_nil_iff_forall_not_mem.mpr
    intro r hr
    exact (windowCounts_iff state).mp h r hr (hdone r hr)
  rw [hempty, List.nil_append]
  rcases sendRequests_requests hsend with ⟨index', pr', -, hpick', hpr', hnew⟩ | ⟨-, hnone⟩
  · have hindex : index' = index := Option.some.inj (hpick'.symm.trans hpick)
    rw [hindex, hpr] at hpr'
    cases hpr'
    exact hnew
  · exact absurd hpick (hnone hempty index)

/-! ## One call -/

/-- A block finishes a request exactly when it is the last one. -/
theorem countBlock_zero_iff {msg : PieceMsg} {r : PieceRequest} (hne : r.blocksLeft ≠ 0)
    (hword : r.blocksLeft < 2 ^ 32) :
    (countBlock msg r).blocksLeft = 0 ↔
      r.blocksLeft = 1 ∧ ∃ b ∈ r.blockRequests, msg.matchesBlock b = true := by
  rw [countBlock]
  rcases markBlock_pending msg r.blockRequests with
    ⟨hnone, hmark⟩ | ⟨b, blocks', hsome, hmark, -⟩
  · rw [hmark]
    constructor
    · intro hzero
      exact absurd hzero hne
    · rintro ⟨-, b, hb, hmatch⟩
      exact absurd hmatch (List.find?_eq_none.mp hnone b hb)
  · rw [hmark]
    have hsub : wordSub r.blocksLeft 1 = r.blocksLeft - 1 := wordSub_of_le (by omega) hword
    constructor
    · intro hzero
      have hleft : wordSub r.blocksLeft 1 = 0 := hzero
      exact ⟨by omega, b, List.mem_of_find?_eq_some hsome, List.find?_some hsome⟩
    · rintro ⟨hone, -⟩
      show wordSub r.blocksLeft 1 = 0
      omega

theorem countBlock_word {msg : PieceMsg} {r : PieceRequest} (h : r.blocksLeft < 2 ^ 32) :
    (countBlock msg r).blocksLeft < 2 ^ 32 := by
  unfold countBlock
  split
  · exact h
  · exact Nat.mod_lt _ (by decide)

/-- The counters stay in 32 bits. -/
theorem wordCounters_step {p q : Peering} {a : ConnCall × Surroundings}
    (h : p.step sha1 torrent a = some q) (hp : WordCounters p.state) : WordCounters q.state := by
  rcases connCall_requests (Peering.step_eq_some h).1 with
    ⟨msg, -, hreq⟩ | ⟨index, pr, -, -, -, hpr, hreq⟩ | ⟨hreq, -, -⟩
  · rw [WordCounters, hreq, countBlocks, List.forall_mem_map]
    intro r hr
    split
    · exact countBlock_word (hp r hr)
    · exact hp r hr
  · rw [WordCounters, hreq, List.forall_mem_singleton, (scheduled_of_create hpr).count]
    exact Nat.mod_lt _ (by decide)
  · rw [WordCounters, hreq]
    exact hp

/-- A message keeps the window exactly when it finishes no request. -/
theorem countBlocks_open_iff {msg : PieceMsg} {requests : List PieceRequest}
    (hopen : ∀ r ∈ requests, r.blocksLeft ≠ 0) (hword : ∀ r ∈ requests, r.blocksLeft < 2 ^ 32) :
    (∀ r ∈ countBlocks msg requests, r.blocksLeft ≠ 0) ↔
      ∀ r ∈ requests, r.pieceIndex = msg.index → r.blocksLeft = 1 →
        ∀ b ∈ r.blockRequests, msg.matchesBlock b = false := by
  rw [countBlocks, List.forall_mem_map]
  apply forall₂_congr
  intro r hr
  by_cases hindex : r.pieceIndex = msg.index
  · rw [if_pos hindex, ne_eq, countBlock_zero_iff (hopen r hr) (hword r hr)]
    simp [hindex]
  · rw [if_neg hindex]
    simp [hindex, hopen r hr]

/-- **One call** keeps the window exactly when it finishes no request. -/
theorem windowCounts_step {p q : Peering} {a : ConnCall × Surroundings}
    (hp : WordCounters p.state ∧ WindowCounts p.state) (h : p.step sha1 torrent a = some q) :
    WordCounters q.state ∧ WindowCounts q.state ↔ FinishesNone torrent p a := by
  obtain ⟨hword, hcounts⟩ := hp
  have hopen := (windowCounts_iff _).mp hcounts
  rw [and_iff_right (wordCounters_step h hword), windowCounts_iff, FinishesNone]
  rcases connCall_requests (Peering.step_eq_some h).1 with
    ⟨msg, hcall, hreq⟩ | ⟨index, pr, hcall, hempty, hpick, hpr, hreq⟩ | ⟨hreq, hmsg, hnone⟩
  · rw [hreq, hcall, countBlocks_open_iff hopen hword]
    simp
  · rw [hreq, hcall, List.forall_mem_singleton]
    constructor
    · intro hne
      refine ⟨by simp, fun _ _ index' pr' hpick' hpr' => ?_⟩
      have hindex : index' = index := Option.some.inj (hpick'.symm.trans hpick)
      rw [hindex, hpr] at hpr'
      cases hpr'
      exact hne
    · rintro ⟨-, hsend⟩
      exact hsend rfl hempty index pr hpick hpr
  · rw [hreq]
    refine ⟨fun _ => ⟨fun msg hcall => absurd hcall (hmsg msg), ?_⟩, fun _ => hopen⟩
    intro hcall hempty index pr hpick
    exact absurd hpick (hnone hcall hempty index)

/-! ## Whole runs -/

/-- The peer has everything, a piece is requested, and a block of it arrives. -/
def oneBlock (start : UInt32) (len : Nat) : List (ConnCall × Surroundings) :=
  [(.processMsg (.bitfield [255]), quiet (sharedInit 8)), (.sendRequests, quiet (sharedInit 8)),
    (.processMsg (.piece ⟨0, start, len⟩), quiet (sharedInit 8))]

/-- The connection once the piece is requested. -/
def requested : ConnState :=
  { newConn (fun _ => 0) [0] with
    localState := ⟨true, true⟩
    peerHave := [255]
    localRequests := [⟨0, [⟨[⟨0, 0, 16384⟩], 0, 16384, false⟩], 1⟩] }

end BtClient

import BtClient.Connection.Calls
import BtClient.Lib.History

/-!
# The choke and interest flags follow the peer's messages

`local.choked` and `remote.interested` are switches that the peer moves, each
with two messages. The history of the messages says where they should stand.
`process_msg` moves both with `MSG_UNCHOKE`: its case has no `break` and runs
into the one of `MSG_INTERESTED`.
-/

namespace BtClient

open CLib

variable {sha1 : List UInt8 → List UInt8} {torrent : Metainfo}

/-- The peer has unchoked us and not choked us since. -/
def UnchokedByPeer (received : List PeerMsg) : Prop :=
  Since (· = .unchoke) (· = .choke) received

/-- The peer has shown interest and not taken it back since. -/
def InterestShown (received : List PeerMsg) : Prop :=
  Since (· = .interested) (· = .notInterested) received

/-- The flags stand where the history says. -/
structure FlagsTrack (p : Peering) : Prop where
  choked : p.state.localState.choked = true ↔ ¬ UnchokedByPeer p.received
  interested : p.state.remoteState.interested = true ↔ InterestShown p.received

/-- A call other than the two messages of a flag does not change the flag. -/
structure FlagsFramed (p : Peering) (call : ConnCall) (q : Peering) : Prop where
  choked : call ≠ .processMsg .choke → call ≠ .processMsg .unchoke →
    q.state.localState.choked = p.state.localState.choked
  interested : call ≠ .processMsg .interested → call ≠ .processMsg .notInterested →
    q.state.remoteState.interested = p.state.remoteState.interested

/-- The flags of a run of calls track the messages in every state and are
framed by every call. -/
def FlagsFollow (sha1 : List UInt8 → List UInt8) (torrent : Metainfo) (start : Peering)
    (calls : List (ConnCall × Surroundings)) : Prop :=
  (∀ before p, before <+: calls → Run (Peering.step sha1 torrent) unguarded start before p →
    FlagsTrack p) ∧
  ∀ before a p q, before ++ [a] <+: calls →
    Run (Peering.step sha1 torrent) unguarded start before p →
    p.step sha1 torrent a = some q → FlagsFramed p a.1 q

/-- An `UNCHOKE` only comes from a peer that is interested at that time. -/
def UnchokesInterested (p : Peering) (a : ConnCall × Surroundings) : Prop :=
  a.1 = .processMsg .unchoke → InterestShown p.received

/-! ## One message -/

theorem choked_step (msg : PeerMsg) {received : List PeerMsg} {choked : Bool}
    (h : choked = true ↔ ¬ UnchokedByPeer received) :
    chokedAfter msg choked = true ↔ ¬ UnchokedByPeer (received ++ [msg]) := by
  unfold UnchokedByPeer at *
  rw [since_snoc]
  cases msg with
  | choke => simp [chokedAfter]
  | unchoke => simp [chokedAfter]
  | _ => simpa [chokedAfter] using h

/-- The interest flag tracks a message unless it is an `UNCHOKE` that finds
the peer not interested. -/
theorem interested_step (msg : PeerMsg) {received : List PeerMsg} {interested : Bool}
    (h : interested = true ↔ InterestShown received) :
    (interestedAfter msg interested = true ↔ InterestShown (received ++ [msg])) ↔
      (msg = .unchoke → InterestShown received) := by
  unfold InterestShown at *
  rw [since_snoc]
  cases msg with
  | unchoke => simp [interestedAfter]
  | interested => simp [interestedAfter]
  | notInterested => simp [interestedAfter]
  | _ => simpa [interestedAfter] using h

/-- **One call** keeps the flags on track exactly when it is no `UNCHOKE` of a
peer that is not interested. -/
theorem flagsTrack_step {p q : Peering} {a : ConnCall × Surroundings} (hp : FlagsTrack p)
    (h : p.step sha1 torrent a = some q) : FlagsTrack q ↔ UnchokesInterested p a := by
  rcases Peering.step_cases h with ⟨msg, hcall, heff, hrecv⟩ | ⟨hcall, hsame, hrecv⟩
  · have hchoked := choked_step msg hp.choked
    have hint := interested_step msg hp.interested
    rw [← heff.choked, ← hrecv] at hchoked
    rw [← heff.interested, ← hrecv] at hint
    have hguard : UnchokesInterested p a ↔ (msg = .unchoke → InterestShown p.received) := by
      unfold UnchokesInterested
      rw [hcall, ConnCall.processMsg.injEq]
    rw [hguard, ← hint]
    exact ⟨fun hq => hq.interested, fun hq => ⟨hchoked, hq⟩⟩
  · have hq : FlagsTrack q := by
      constructor
      · rw [hsame.choked, hrecv]
        exact hp.choked
      · rw [hsame.interested, hrecv]
        exact hp.interested
    exact ⟨fun _ hunchoke => absurd hunchoke (hcall _), fun _ => hq⟩

/-- States on track on both sides of a call: the flags were framed. -/
theorem flagsFramed_of_track {p q : Peering} {a : ConnCall × Surroundings} (hp : FlagsTrack p)
    (hq : FlagsTrack q) (h : p.step sha1 torrent a = some q) : FlagsFramed p a.1 q := by
  rcases Peering.step_cases h with ⟨msg, hcall, heff, hrecv⟩ | ⟨-, hsame, -⟩
  · rw [hcall]
    constructor
    · intro hchoke hunchoke
      rw [Bool.eq_iff_iff, hp.choked, hq.choked, hrecv]
      refine not_congr (since_snoc_of_neither _ ?_ ?_)
      · rintro rfl
        exact hunchoke rfl
      · rintro rfl
        exact hchoke rfl
    · intro hint hnot
      rw [Bool.eq_iff_iff, hp.interested, hq.interested, hrecv]
      refine since_snoc_of_neither _ ?_ ?_
      · rintro rfl
        exact hint rfl
      · rintro rfl
        exact hnot rfl
  · exact ⟨fun _ _ => hsame.choked, fun _ _ => hsame.interested⟩

theorem flagsTrack_init {fill : Nat → UInt8} {sh : Shared} {state : ConnState}
    (h : connStateInit fill torrent sh = .ok state) : FlagsTrack ⟨state, []⟩ := by
  obtain ⟨-, hlocal, hremote, -⟩ := connStateInit_spec h
  constructor
  · simp [hlocal, UnchokedByPeer]
  · simp [hremote, InterestShown]

/-! ## Whole runs -/

/-- **The flags follow the messages** of a run from `conn_state_init` exactly
when every `UNCHOKE` of the run comes while the peer is interested. -/
theorem flags_follow_iff {fill : Nat → UInt8} {sh : Shared} {state : ConnState}
    {calls : List (ConnCall × Surroundings)} {last : Peering}
    (hinit : connStateInit fill torrent sh = .ok state)
    (hrun : Run (Peering.step sha1 torrent) unguarded ⟨state, []⟩ calls last) :
    FlagsFollow sha1 torrent ⟨state, []⟩ calls ↔
      Run (Peering.step sha1 torrent) UnchokesInterested ⟨state, []⟩ calls last := by
  have hstart := flagsTrack_init hinit
  have hexact := hrun.exact fun p a q hp hq => flagsTrack_step hp hq
  constructor
  · intro hfollow
    exact (hexact.mp hfollow.1).2
  · intro hguarded
    have htrack := hexact.mpr ⟨hstart, hguarded⟩
    refine ⟨htrack, fun before a p q hpre hp hq => ?_⟩
    have hbefore : before <+: calls := (List.prefix_append _ _).trans hpre
    exact flagsFramed_of_track (htrack before p hbefore hp)
      (htrack (before ++ [a]) q hpre (hp.snoc trivial hq)) hq

/-- A peer that shows interest and then unchokes us. -/
theorem flags_follow_interested :
    FlagsFollow (fun _ => []) eightPieces ⟨newConn (fun _ => 0) [0], []⟩
      [(.processMsg .interested, quiet (sharedInit 8)),
        (.processMsg .unchoke, quiet (sharedInit 8))] := by
  have hshown : InterestShown [.interested] := ⟨[], .interested, [], rfl, rfl, by simp⟩
  refine (flags_follow_iff (connStateInit_eightPieces _)
    (.cons trivial rfl (.cons trivial rfl .nil))).mpr ?_
  exact .cons (by simp [UnchokesInterested]) rfl (.cons (fun _ => hshown) rfl .nil)

/-- A peer that only unchokes us is taken to be interested. -/
theorem unchoke_sets_interested :
    connStateInit (fun _ => 0) eightPieces (sharedInit 8) = .ok (newConn (fun _ => 0) [0]) ∧
    ¬ FlagsFollow (fun _ => []) eightPieces ⟨newConn (fun _ => 0) [0], []⟩
      [(.processMsg .unchoke, quiet (sharedInit 8))] := by
  refine ⟨rfl, fun hfollow => ?_⟩
  have hframed := hfollow.2 [] _ _ _ (List.prefix_refl _) .nil rfl
  exact absurd (hframed.interested (by decide) (by decide)) (by decide)

end BtClient

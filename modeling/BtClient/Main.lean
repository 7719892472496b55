import BtClient.Connection.Calls
import BtClient.Lib.Transition
import BtClient.Tracker.Types

/-!
# The main loop (`main.c`, `tracker_request.c`)

`main` announces to the tracker, starts a connection thread for every peer of
the response and sleeps, without end. It runs here step by step: what the
tracker answers and what the system says to each `malloc` and `pthread_create`
are in the actions.

`create_peer_connection` starts the thread first and looks at the limit
afterwards. The limit then keeps the connection from being registered, not
from being started. `threads` and `requests` are not in the program: they list
the connections started and the requests sent so far.
-/

namespace BtClient

open CLib

/-- `build_tracker_announce_request(metainfo)`. The memory is cleared, so the
event is the one numbered `0`. -/
def buildTrackerAnnounceRequest (torrent : Metainfo) (peerId : List UInt8) : TrackerRequest where
  flags := compactFlag
  infoHash := torrent.infoHash
  peerId := peerId
  port := 6889
  uploaded := 0
  downloaded := 0
  left :=
    match torrent.info.mode with
    | .infoSingle => UInt64.ofNat torrent.info.length
    | .infoMulti => UInt64.ofNat (torrent.info.files.map FileInfo.length).sum
  event := .eventStarted

/-- What the system answers to one `create_peer_connection`. -/
inductive ThreadAnswer where
  | noMemory
  | refused
  | created (thread : UInt64)
  deriving DecidableEq, Repr

/-- `TRACKER_RETRY_INTERVAL`. -/
def trackerRetryInterval : UInt32 := 15

/-- Where the loop of `main` stands: `connecting` has the peers of the response
that are still to come. -/
inductive MainPc where
  | announcing
  | connecting (peers : List Peer) (interval : UInt32)
  | sleeping (interval : UInt32)
  deriving DecidableEq, Repr

/-- The variables of `main`, `sh.peer_connections`, and what it has done. -/
structure MainState where
  started : Bool
  completed : Bool
  connections : List PeerConnection
  pc : MainPc
  threads : List PeerConnection
  requests : List TrackerRequest
  deriving DecidableEq, Repr

/-- The steps of the loop: an announce with what was read of `sh.completed` and
the response (`none` is `NULL`), one round of the loop over the peers, the end
of that loop, and the end of the sleep. -/
inductive MainAction where
  | announce (readCompleted : Bool) (response : Option TrackerResponse)
  | connect (answer : ThreadAnswer)
  | sleep
  | wake
  deriving DecidableEq, Repr

/-- The request of a round. -/
def roundRequest (torrent : Metainfo) (peerId : List UInt8) (s : MainState)
    (readCompleted : Bool) : TrackerRequest :=
  let req := buildTrackerAnnounceRequest torrent peerId
  let req := if s.started then req else { req with event := .eventStarted }
  if !s.completed && readCompleted then { req with event := .eventCompleted } else req

/-- `create_peer_connection(peer, torrent)`: whether it returned `0`. -/
def createPeerConnection (torrent : Metainfo) (peer : Peer) (answer : ThreadAnswer)
    (s : MainState) : Bool × MainState :=
  match answer with
  | .noMemory | .refused => (false, s)
  | .created thread =>
    let conn : PeerConnection := ⟨peer, thread⟩
    let s := { s with threads := s.threads ++ [conn] }
    if torrent.maxPeers = s.connections.length then (true, s)
    else (true, { s with connections := s.connections ++ [conn] })

/-- One step of `main`. -/
def MainState.step (torrent : Metainfo) (peerId : List UInt8) (s : MainState) (a : MainAction) :
    Option MainState :=
  match s.pc, a with
  | .announcing, .announce readCompleted response =>
    let s := { s with started := true, completed := readCompleted
                      requests := s.requests ++ [roundRequest torrent peerId s readCompleted] }
    match response with
    | none => some { s with pc := .sleeping trackerRetryInterval }
    | some res => some { s with pc := .connecting res.peers res.interval }
  | .connecting (peer :: peers) interval, .connect answer =>
    some { (createPeerConnection torrent peer answer s).2 with pc := .connecting peers interval }
  | .connecting [] interval, .sleep => some { s with pc := .sleeping interval }
  | .sleeping _, .wake => some { s with pc := .announcing }
  | _, _ => none

/-- `main` in front of its loop. -/
def MainState.init : MainState where
  started := false
  completed := false
  connections := []
  pc := .announcing
  threads := []
  requests := []

/-- A step that starts a thread. -/
def MainAction.creates : MainAction → Bool
  | .connect (.created _) => true
  | _ => false

/-- No more threads than allowed, and all of them registered. -/
structure PeerLimit (torrent : Metainfo) (s : MainState) : Prop where
  bounded : s.threads.length ≤ torrent.maxPeers
  registered : ∀ conn ∈ s.threads, conn ∈ s.connections

/-! ## One step -/

variable {torrent : Metainfo} {peerId : List UInt8}

/-- A thread that is created is started, and registered if there is room. -/
theorem createPeerConnection_created (peer : Peer) (thread : UInt64) (s : MainState) :
    (createPeerConnection torrent peer (.created thread) s).2.threads =
        s.threads ++ [⟨peer, thread⟩] ∧
      (createPeerConnection torrent peer (.created thread) s).2.connections =
        if torrent.maxPeers = s.connections.length then s.connections
        else s.connections ++ [⟨peer, thread⟩] := by
  by_cases hfull : torrent.maxPeers = s.connections.length
  · simp only [createPeerConnection, if_pos hfull, and_self]
  · simp only [createPeerConnection, if_neg hfull, and_self]

/-- **What a step does** to the connections: it starts one thread, or none. -/
theorem MainState.step_cases {s t : MainState} {a : MainAction}
    (h : s.step torrent peerId a = some t) :
    (a.creates = false ∧ t.threads = s.threads ∧ t.connections = s.connections) ∨
    ∃ conn, a.creates = true ∧ t.threads = s.threads ++ [conn] ∧
      t.connections = if torrent.maxPeers = s.connections.length then s.connections
        else s.connections ++ [conn] := by
  unfold MainState.step at h
  split at h
  · rename_i readCompleted response hpc
    cases response <;> (cases h; exact .inl ⟨rfl, rfl, rfl⟩)
  · rename_i peer peers interval answer hpc
    cases h
    cases answer with
    | noMemory | refused => exact .inl ⟨rfl, rfl, rfl⟩
    | created thread =>
      exact .inr ⟨⟨peer, thread⟩, rfl, createPeerConnection_created peer thread s⟩
  · cases h
    exact .inl ⟨rfl, rfl, rfl⟩
  · cases h
    exact .inl ⟨rfl, rfl, rfl⟩
  · cases h

/-- The connections registered are the first ones started, up to the limit. -/
theorem MainState.run_connections {as : List MainAction} {s : MainState}
    (h : Run (MainState.step torrent peerId) unguarded .init as s) :
    s.threads.length = as.countP MainAction.creates ∧
      s.connections = s.threads.take torrent.maxPeers := by
  induction h with
  | nil => exact ⟨rfl, by simp [MainState.init]⟩
  | @snoc as s t a _ _ hstep ih =>
    obtain ⟨hcount, htake⟩ := ih
    rw [List.countP_append, List.countP_singleton, ← hcount]
    rcases MainState.step_cases hstep with ⟨ha, hthreads, hconns⟩ | ⟨conn, ha, hthreads, hconns⟩
    · rw [ha, hthreads, hconns]
      exact ⟨rfl, htake⟩
    · rw [ha, hthreads, hconns, htake, List.length_append, List.length_singleton]
      refine ⟨rfl, ?_⟩
      by_cases hroom : s.threads.length < torrent.maxPeers
      · have hall : s.threads.take torrent.maxPeers = s.threads :=
          List.take_of_length_le (by omega)
        rw [hall, if_neg (by omega), List.take_of_length_le (by simp; omega)]
      · rw [List.length_take, if_pos (by omega), List.take_append_of_le_length (by omega)]

/-! ## Whole runs -/

/-- **The peer limit is respected** in every state of a run of `main` exactly
when the run starts at most `max_peers` threads in all. -/
theorem peer_limit_iff {as : List MainAction} {last : MainState}
    (hrun : Run (MainState.step torrent peerId) unguarded .init as last) :
    (∀ before s, before <+: as → Run (MainState.step torrent peerId) unguarded .init before s →
      PeerLimit torrent s) ↔ as.countP MainAction.creates ≤ torrent.maxPeers := by
  constructor
  · intro hall
    rw [← (MainState.run_connections hrun).1]
    exact (hall as last (List.prefix_refl _) hrun).bounded
  · intro hcount before s hpre hs
    obtain ⟨hlen, htake⟩ := MainState.run_connections hs
    have hle : before.countP MainAction.creates ≤ as.countP MainAction.creates :=
      hpre.sublist.countP_le
    refine ⟨by omega, fun conn hconn => ?_⟩
    rw [htake, List.take_of_length_le (by omega)]
    exact hconn

/-- The same peer `count` times in one response, each of which gets a thread. -/
def samePeerRun (count : Nat) : List MainAction :=
  .announce false (some ⟨1800, 0, 0, List.replicate count ⟨[10, 0, 0, 1], [26, 225]⟩⟩) ::
    List.replicate count (.connect (.created 1))

/-- Two peers are within the limit. -/
theorem peer_limit_two :
    ∃ last, Run (MainState.step eightPieces []) unguarded .init (samePeerRun 2) last ∧
      ∀ before s, before <+: samePeerRun 2 →
        Run (MainState.step eightPieces []) unguarded .init before s → PeerLimit eightPieces s := by
  have hexec : (exec (MainState.step eightPieces []) unguarded .init (samePeerRun 2)).isSome := by
    decide
  obtain ⟨last, hlast⟩ := Option.isSome_iff_exists.mp hexec
  have hrun := Run.of_exec (samePeerRun 2) hlast
  exact ⟨last, hrun, (peer_limit_iff hrun).mpr (by decide)⟩

/-- The fifty-first peer of a response is over the limit of fifty that `main`
sets: its thread is started all the same. -/
theorem thread_over_limit :
    ∃ s, eightPieces.maxPeers = 50 ∧
      Run (MainState.step eightPieces []) unguarded .init (samePeerRun 51) s ∧
      ¬ PeerLimit eightPieces s := by
  have hexec : (exec (MainState.step eightPieces []) unguarded .init (samePeerRun 51)).isSome := by
    decide +kernel
  obtain ⟨s, hs⟩ := Option.isSome_iff_exists.mp hexec
  have hrun := Run.of_exec (samePeerRun 51) hs
  refine ⟨s, rfl, hrun, fun hlimit => ?_⟩
  have hbound := hlimit.bounded
  rw [(MainState.run_connections hrun).1] at hbound
  exact absurd hbound (by decide)

end BtClient

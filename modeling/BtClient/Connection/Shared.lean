import BtClient.Lib.Fault
import BtClient.Torrent.Types

/-!
# The state behind `sh_lock` (`peer-connection/peer_connection.c`)

Every access of a connection to `torrent->sh` is one of the critical sections
below, each between a lock and its unlock and so one atomic step. They take
the shared state apart from the rest of the torrent: it is the only part that
changes while connections run.
-/

namespace BtClient

open CLib

/-- `BITFIELD_ISSET(idx, buf)`. -/
def bitfieldIsset (idx : Nat) (buf : List UInt8) : Bool :=
  (buf.getD (idx / 8) 0).toNat.testBit (8 - idx % 8 - 1)

/-- The scan of `torrent_next_request` over `piece_states` from index `i` on:
`nr` and `r`, each `none` until its flag is set. Both are `uint32_t`, while
`i` is a `size_t`. -/
def nextRequestScan (peerHaveBf : List UInt8) :
    List PieceState → Nat → Option Nat → Option Nat × Option Nat
  | [], _, r => (none, r)
  | state :: states, i, r =>
    let r := if state = .stateRequested ∧ bitfieldIsset i peerHaveBf = true
      then some (i % 2 ^ 32) else r
    if state = .stateNotRequested ∧ bitfieldIsset i peerHaveBf = true
      then (some (i % 2 ^ 32), r)
    else nextRequestScan peerHaveBf states (i + 1) r

/-- `torrent_next_request(torrent, peer_have_bf, out)`: the index handed out,
`none` for the return value `-1`. -/
def torrentNextRequest (sh : Shared) (peerHaveBf : List UInt8) : Option Nat × Shared :=
  match nextRequestScan peerHaveBf sh.pieceStates 0 none with
  | (none, none) => (none, sh)
  | (some ret, _) | (none, some ret) =>
    (some ret, { sh with pieceStates := sh.pieceStates.set ret .stateRequested })

/-- The critical section of `handle_piece_dl_completion`: the new state and
the local flag `completed`. -/
def completionSection (numPieces : Nat) (sh : Shared) (index : Nat) :
    Except Fault (Shared × Bool) :=
  if sh.pieceStates.getD index .stateHave ≠ .stateHave then do
    let sh := { sh with pieceStates := sh.pieceStates.set index .stateHave
                        piecesLeft := sizeSub sh.piecesLeft 1 }
    check (sh.piecesLeft < numPieces)
    return if sh.piecesLeft = 0 then ({ sh with completed := true }, true) else (sh, false)
  else return (sh, false)

/-- The critical section of `torrent_complete`. -/
def torrentCompleteSection (sh : Shared) : Shared :=
  { sh with completed := true, state := .stateSeeding }

/-- The critical section of the failure branch of `process_piece_msg`. -/
def verifyFailedSection (sh : Shared) (index : Nat) : Shared :=
  { sh with pieceStates := sh.pieceStates.set index .stateNotRequested }

/-- The shared state `parse_file` builds. -/
def sharedInit (numPieces : Nat) : Shared where
  state := .stateLeeching
  pieceStates := List.replicate numPieces .stateNotRequested
  piecesLeft := numPieces
  completed := false

/-! ## Counting the missing pieces -/

/-- The number of pieces whose state is not `HAVE`. -/
def missing (states : List PieceState) : Nat := states.countP (fun s => s != .stateHave)

/-- `pieces_left` counts the missing pieces of a torrent of `numPieces`; it is
a `size_t`. -/
structure Shared.Consistent (numPieces : Nat) (sh : Shared) : Prop where
  length : sh.pieceStates.length = numPieces
  count : sh.piecesLeft = missing sh.pieceStates
  word : sh.piecesLeft < 2 ^ 64

theorem missing_le (states : List PieceState) : missing states ≤ states.length :=
  List.countP_le_length

/-- Changing the state of one piece. -/
theorem missing_set {states : List PieceState} {i : Nat} {old : PieceState} (new : PieceState)
    (h : states[i]? = some old) :
    missing (states.set i new) + (if old = .stateHave then 0 else 1)
      = missing states + (if new = .stateHave then 0 else 1) := by
  obtain ⟨hi, hold⟩ := List.getElem?_eq_some_iff.mp h
  have hpos : old ≠ .stateHave → 0 < missing states := by
    intro hne
    exact List.countP_pos_iff.mpr ⟨old, hold ▸ List.getElem_mem hi, by simpa using hne⟩
  have hset := List.countP_set (p := fun s : PieceState => s != .stateHave) (a := new) hi
  rw [← missing, ← missing, hold] at hset
  simp only [bne_iff_ne, ne_eq, ite_not] at hset
  rw [hset]
  by_cases hh : old = .stateHave
  · simp only [if_pos hh]
    omega
  · have := hpos hh
    simp only [if_neg hh]
    omega

/-- A missing piece is counted. -/
theorem missing_pos {states : List PieceState} {i : Nat} {old : PieceState}
    (h : states[i]? = some old) (hne : old ≠ .stateHave) : 0 < missing states := by
  have := missing_set .stateHave h
  simp only [hne, if_false, if_true] at this
  omega

theorem missing_replicate (n : Nat) :
    missing (List.replicate n .stateNotRequested) = n := by
  rw [missing, List.countP_replicate]
  simp

theorem sharedInit_consistent {n : Nat} (hn : n < 2 ^ 64) : (sharedInit n).Consistent n :=
  ⟨by simp [sharedInit], (missing_replicate n).symm, hn⟩

/-- No piece is missing exactly when all are `HAVE`. -/
theorem missing_eq_zero {states : List PieceState} :
    missing states = 0 ↔ ∀ s ∈ states, s = .stateHave := by
  simp [missing, List.countP_eq_zero]

/-! ## What the sections do -/

/-- The completion section on a consistent state: nothing if the piece is
there already, else it is counted off; the assertion holds. -/
theorem completionSection_cases {n index : Nat} {sh : Shared}
    (hsh : sh.Consistent n) (hindex : index < n) :
    (sh.pieceStates[index]? = some .stateHave ∧ completionSection n sh index = .ok (sh, false)) ∨
    ∃ state, sh.pieceStates[index]? = some state ∧ state ≠ .stateHave ∧
      completionSection n sh index = .ok
        ({ sh with pieceStates := sh.pieceStates.set index .stateHave
                   piecesLeft := sh.piecesLeft - 1
                   completed := sh.completed || sh.piecesLeft == 1 }, sh.piecesLeft == 1) := by
  have hlt : index < sh.pieceStates.length := by rw [hsh.length]; exact hindex
  have hget := List.getElem?_eq_getElem hlt
  generalize sh.pieceStates[index] = state at hget
  have hgetD : sh.pieceStates.getD index .stateHave = state := by
    rw [List.getD_eq_getElem?_getD, hget]
    rfl
  unfold completionSection
  rw [hgetD]
  by_cases hh : state = .stateHave
  · left
    rw [if_neg (by simpa using hh)]
    exact ⟨by rw [hget, hh], rfl⟩
  · right
    refine ⟨state, hget, hh, ?_⟩
    have hpos := missing_pos hget hh
    have hle := missing_le sh.pieceStates
    have hleft := hsh.count
    have hword := hsh.word
    rw [hsh.length] at hle
    rw [if_pos hh]
    simp only [sizeSub_of_le (a := sh.piecesLeft) (b := 1) (by omega) (by omega)]
    rw [check_of (by simp only [decide_eq_true_eq]; omega)]
    by_cases hlast : sh.piecesLeft = 1
    · simp [hlast]
    · simp only [ok_bind, pure_is_ok]
      rw [if_neg (by omega)]
      simp [hlast]

/-- Whatever the state: the completion section makes at most its own piece
`HAVE`. -/
theorem completionSection_have {n index : Nat} {sh sh' : Shared} {flag : Bool}
    (h : completionSection n sh index = .ok (sh', flag)) {k : Nat}
    (hk : sh'.pieceStates[k]? = some .stateHave) :
    sh.pieceStates[k]? = some .stateHave ∨ k = index := by
  unfold completionSection at h
  split at h
  · obtain ⟨_, -, h⟩ := (seq_returns_iff _ _ _).mp h
    have hstates : sh'.pieceStates = sh.pieceStates.set index .stateHave := by
      split at h <;> cases h <;> rfl
    rw [hstates] at hk
    by_cases hki : k = index
    · exact .inr hki
    · rw [List.getElem?_set_ne (fun h => hki h.symm)] at hk
      exact .inl hk
  · cases h
    exact .inl hk

/-- A piece that is `HAVE` after another state was written was so before. -/
theorem have_of_set {states : List PieceState} {i k : Nat} {new : PieceState}
    (hnew : new ≠ .stateHave) (hk : (states.set i new)[k]? = some .stateHave) :
    states[k]? = some .stateHave := by
  by_cases hik : i = k
  · subst hik
    by_cases hlt : i < states.length
    · rw [List.getElem?_set_self hlt, Option.some.injEq] at hk
      exact absurd hk hnew
    · rw [List.getElem?_eq_none (by rw [List.length_set]; omega)] at hk
      cases hk
  · rwa [List.getElem?_set_ne hik] at hk

/-- Counting off a missing piece keeps the state consistent. -/
theorem Shared.Consistent.complete {n index : Nat} {sh : Shared} {state : PieceState}
    (hsh : sh.Consistent n) (hget : sh.pieceStates[index]? = some state)
    (hne : state ≠ .stateHave) (flag : Bool) :
    Shared.Consistent n { sh with pieceStates := sh.pieceStates.set index .stateHave
                                  piecesLeft := sh.piecesLeft - 1
                                  completed := flag } := by
  have hset := missing_set .stateHave hget
  have hcount := hsh.count
  have hword := hsh.word
  simp only [hne, if_false, if_true] at hset
  refine ⟨by simpa using hsh.length, ?_, ?_⟩
  all_goals simp only
  all_goals omega

theorem Shared.Consistent.seeding {n : Nat} {sh : Shared} (hsh : sh.Consistent n) :
    (torrentCompleteSection sh).Consistent n := ⟨hsh.length, hsh.count, hsh.word⟩

end BtClient

import BtClient.Connection.Selection
import BtClient.Lib.Transition

/-!
# All connections on one torrent

Any number of connections share one torrent. Each critical section is one
step, and the steps of different connections interleave in any way. A
connection completes a piece in three steps: the section of
`handle_piece_dl_completion`, then `torrent_complete` if that section set the
local flag, then the announcement to the peers.

`turned` and `calls` are not in the program. They record, from the piece
states alone, which completion made the last missing piece present, and which
completions called `torrent_complete`.
-/

namespace BtClient

open CLib

/-- Where a connection stands in `handle_piece_dl_completion`; `finishing`
holds the local variables `index` and `completed`. -/
inductive Pc where
  | idle
  | finishing (index : Nat) (completed : Bool)
  deriving DecidableEq, Repr

/-- One connection: the indexes it got from `torrent_next_request`. -/
structure Thread where
  obtained : List Nat
  pc : Pc
  deriving DecidableEq, Repr

/-- The shared state with its connections. -/
structure Swarm where
  sh : Shared
  thread : Nat → Thread
  aborted : Bool
  turned : List (Nat × Nat)
  calls : List (Nat × Nat)

/-- The steps of connection `c`. -/
inductive Action where
  | nextRequest (c : Nat) (peerHaveBf : List UInt8)
  | completion (c index : Nat)
  | torrentComplete (c : Nat)
  | announce (c : Nat)
  | verifyFailed (c index : Nat)

/-- Replace the state of connection `c`. -/
def Swarm.setThread (w : Swarm) (c : Nat) (th : Thread) : Swarm :=
  { w with thread := fun d => if d = c then th else w.thread d }

/-- The swarm after `parse_file`. -/
def Swarm.init (n : Nat) : Swarm where
  sh := sharedInit n
  thread := fun _ => ⟨[], .idle⟩
  aborted := false
  turned := []
  calls := []

/-- What action `a` does on a torrent of `n` pieces. A failed assertion aborts
the process. -/
def Swarm.act (n : Nat) (w : Swarm) (a : Action) : Option Swarm :=
  match a with
  | .nextRequest c bf =>
    if (w.thread c).pc = .idle then
      match torrentNextRequest w.sh bf with
      | (none, sh) => some { w with sh := sh }
      | (some index, sh) =>
        some ({ w with sh := sh }.setThread c ⟨index :: (w.thread c).obtained, .idle⟩)
    else none
  | .completion c index =>
    if (w.thread c).pc = .idle ∧ index ∈ (w.thread c).obtained then
      if index < n then
        match completionSection n w.sh index with
        | .error _ => some { w with aborted := true }
        | .ok (sh, completed) =>
          let turned := if 0 < missing w.sh.pieceStates ∧ missing sh.pieceStates = 0
            then w.turned ++ [(c, index)] else w.turned
          some ({ w with sh := sh, turned := turned }.setThread c
            ⟨(w.thread c).obtained, .finishing index completed⟩)
      else some { w with aborted := true }
    else none
  | .torrentComplete c =>
    match (w.thread c).pc with
    | .finishing index true =>
      some ({ w with sh := torrentCompleteSection w.sh, calls := w.calls ++ [(c, index)] }.setThread
        c ⟨(w.thread c).obtained, .finishing index false⟩)
    | _ => none
  | .announce c =>
    match (w.thread c).pc with
    | .finishing _ false => some (w.setThread c ⟨(w.thread c).obtained, .idle⟩)
    | _ => none
  | .verifyFailed c index =>
    if (w.thread c).pc = .idle ∧ index ∈ (w.thread c).obtained then
      some { w with sh := verifyFailedSection w.sh index }
    else none

/-- One step: an aborted process takes none. -/
def Swarm.step (n : Nat) (w : Swarm) (a : Action) : Option Swarm :=
  if w.aborted then none else w.act n a

/-- A failed verification finds its piece in a state other than `HAVE`. -/
def FailsOnMissing (w : Swarm) : Action → Prop
  | .verifyFailed _ index => w.sh.pieceStates[index]? ≠ some .stateHave
  | _ => True

instance (w : Swarm) : (a : Action) → Decidable (FailsOnMissing w a)
  | .verifyFailed _ index =>
    inferInstanceAs (Decidable (w.sh.pieceStates[index]? ≠ some .stateHave))
  | .nextRequest _ _ | .completion _ _ | .torrentComplete _ | .announce _ => .isTrue trivial

/-- No verification fails. -/
def NoFailure (_ : Swarm) : Action → Prop
  | .verifyFailed _ _ => False
  | _ => True

instance (w : Swarm) : (a : Action) → Decidable (NoFailure w a)
  | .verifyFailed _ _ => .isFalse id
  | .nextRequest _ _ | .completion _ _ | .torrentComplete _ | .announce _ => .isTrue trivial

theorem NoFailure.failsOnMissing {w : Swarm} {a : Action} (h : NoFailure w a) :
    FailsOnMissing w a := by
  cases a <;> trivial

/-! ## The invariant -/

/-- How far the one completion of the torrent has got. -/
inductive Phase (w : Swarm) : Prop where
  | downloading (hleft : 0 < missing w.sh.pieceStates) (hturned : w.turned = [])
      (hcalls : w.calls = []) (hidle : ∀ c index, (w.thread c).pc ≠ .finishing index true)
  | pending (c index : Nat) (hleft : missing w.sh.pieceStates = 0)
      (hturned : w.turned = [(c, index)]) (hcalls : w.calls = [])
      (hpc : (w.thread c).pc = .finishing index true)
      (hothers : ∀ d i, d ≠ c → (w.thread d).pc ≠ .finishing i true)
  | called (c index : Nat) (hleft : missing w.sh.pieceStates = 0)
      (hturned : w.turned = [(c, index)]) (hcalls : w.calls = [(c, index)])
      (hidle : ∀ c index, (w.thread c).pc ≠ .finishing index true)

/-- The run invariant of a torrent of `n` pieces. -/
structure Swarm.Inv (n : Nat) (w : Swarm) : Prop where
  consistent : w.sh.Consistent n
  running : w.aborted = false
  obtained : ∀ c, ∀ index ∈ (w.thread c).obtained, index < n
  completed : w.sh.completed = true → missing w.sh.pieceStates = 0
  phase : Phase w

theorem Swarm.init_inv {n : Nat} (hn : 1 ≤ n) (hw : n < 2 ^ 64) : (Swarm.init n).Inv n := by
  refine ⟨sharedInit_consistent hw, rfl, by simp [Swarm.init], by simp [Swarm.init, sharedInit], ?_⟩
  refine .downloading ?_ rfl rfl (by simp [Swarm.init])
  have := missing_replicate n
  simp only [Swarm.init, sharedInit]
  omega

theorem Swarm.step_running {n : Nat} {w : Swarm} (h : w.aborted = false) (a : Action) :
    w.step n a = w.act n a := by
  rw [Swarm.step, h]
  rfl

theorem Swarm.setThread_thread (w : Swarm) (c d : Nat) (th : Thread) :
    (w.setThread c th).thread d = if d = c then th else w.thread d := rfl

@[simp] theorem Swarm.setThread_sh (w : Swarm) (c : Nat) (th : Thread) :
    (w.setThread c th).sh = w.sh := rfl

/-- Marking a missing piece as requested or not requested. -/
theorem Shared.Consistent.mark {n k : Nat} {sh : Shared} {old : PieceState}
    (hsh : sh.Consistent n) (hget : sh.pieceStates[k]? = some old) (hold : old ≠ .stateHave)
    (new : PieceState) (hnew : new ≠ .stateHave) :
    missing (sh.pieceStates.set k new) = missing sh.pieceStates ∧
      Shared.Consistent n { sh with pieceStates := sh.pieceStates.set k new } := by
  have hset := missing_set new hget
  simp only [hold, hnew, if_false] at hset
  have hsame : missing (sh.pieceStates.set k new) = missing sh.pieceStates := by omega
  exact ⟨hsame, by simpa using hsh.length, by rw [hsh.count]; exact hsame.symm, hsh.word⟩

/-- Steps that leave the missing pieces, the records and the pending calls
alone leave the phase alone. -/
theorem Phase.frame {w w' : Swarm} (h : Phase w)
    (hleft : missing w'.sh.pieceStates = missing w.sh.pieceStates)
    (hturned : w'.turned = w.turned) (hcalls : w'.calls = w.calls)
    (hpc : ∀ c index, (w'.thread c).pc = .finishing index true ↔
      (w.thread c).pc = .finishing index true) : Phase w' := by
  cases h with
  | downloading h1 h2 h3 h4 =>
    exact .downloading (by omega) (hturned.trans h2) (hcalls.trans h3)
      (fun c i => fun h => h4 c i ((hpc c i).mp h))
  | pending c index h1 h2 h3 h4 h5 =>
    exact .pending c index (by omega) (hturned.trans h2) (hcalls.trans h3) ((hpc c index).mpr h4)
      (fun d i hd h => h5 d i hd ((hpc d i).mp h))
  | called c index h1 h2 h3 h4 =>
    exact .called c index (by omega) (hturned.trans h2) (hcalls.trans h3)
      (fun c i => fun h => h4 c i ((hpc c i).mp h))

/-! ## One lemma for each action -/

section Steps

variable {n : Nat} {w w' : Swarm}

/-- A connection that moves between two places without a pending call leaves
every pending call alone. -/
theorem pending_setThread (hw' : w'.thread = w.thread) {c : Nat} {th : Thread}
    (hold : ∀ i, (w.thread c).pc ≠ .finishing i true) (hnew : ∀ i, th.pc ≠ .finishing i true)
    (d i : Nat) : ((w'.setThread c th).thread d).pc = .finishing i true ↔
      (w.thread d).pc = .finishing i true := by
  rw [Swarm.setThread_thread, hw']
  by_cases hdc : d = c
  · subst hdc
    rw [if_pos rfl]
    exact iff_of_false (hnew i) (hold i)
  · rw [if_neg hdc]

theorem Swarm.Inv.nextRequest (h : w.Inv n) (hn : n ≤ 2 ^ 32) {c : Nat} {bf : List UInt8}
    (hstep : w.step n (.nextRequest c bf) = some w') : w'.Inv n := by
  rw [Swarm.step_running h.running] at hstep
  simp only [Swarm.act] at hstep
  by_cases hidle : (w.thread c).pc = .idle
  swap
  · rw [if_neg hidle] at hstep
    cases hstep
  rw [if_pos hidle] at hstep
  rcases torrentNextRequest_cases w.sh bf with hnone | ⟨k, state, hget, hne, -, hsome⟩
  · rw [hnone] at hstep
    cases hstep
    exact h
  · -- an index below `2^32` survives the conversion to `uint32_t`
    have hk : k < n := by
      have := (List.getElem?_eq_some_iff.mp hget).1
      rwa [h.consistent.length] at this
    rw [Nat.mod_eq_of_lt (by omega)] at hsome
    obtain ⟨hsame, hcons⟩ := h.consistent.mark hget hne .stateRequested (by decide)
    rw [hsome] at hstep
    cases hstep
    refine ⟨hcons, h.running, ?_, ?_, ?_⟩
    · intro d index hd
      rw [Swarm.setThread_thread] at hd
      by_cases hdc : d = c
      · rw [if_pos hdc] at hd
        rcases List.mem_cons.mp hd with rfl | hd
        · exact hk
        · exact h.obtained c index hd
      · rw [if_neg hdc] at hd
        exact h.obtained d index hd
    · intro hc
      exact hsame.trans (h.completed hc)
    · exact h.phase.frame hsame rfl rfl
        (pending_setThread rfl (by simp [hidle]) (by simp))

/-- The threads after a step of connection `c` that obtains nothing. -/
theorem obtained_setThread (h : ∀ c, ∀ index ∈ (w.thread c).obtained, index < n)
    (hw' : w'.thread = w.thread) (c : Nat) (pc : Pc) :
    ∀ d, ∀ index ∈ ((w'.setThread c ⟨(w.thread c).obtained, pc⟩).thread d).obtained, index < n := by
  intro d index hd
  rw [Swarm.setThread_thread] at hd
  by_cases hdc : d = c
  · rw [if_pos hdc] at hd
    exact h c index hd
  · rw [if_neg hdc, hw'] at hd
    exact h d index hd

theorem Swarm.Inv.completion (h : w.Inv n) {c index : Nat}
    (hstep : w.step n (.completion c index) = some w') : w'.Inv n := by
  rw [Swarm.step_running h.running] at hstep
  simp only [Swarm.act] at hstep
  by_cases hen : (w.thread c).pc = .idle ∧ index ∈ (w.thread c).obtained
  swap
  · rw [if_neg hen] at hstep
    cases hstep
  have hindex := h.obtained c index hen.2
  rw [if_pos hen, if_pos hindex] at hstep
  rcases completionSection_cases h.consistent hindex with ⟨-, hsec⟩ | ⟨state, hget, hne, hsec⟩
  · -- another connection was first: only this connection moves
    rw [hsec] at hstep
    simp only [Option.some.injEq] at hstep
    rw [if_neg (by omega)] at hstep
    subst hstep
    refine ⟨h.consistent, h.running, obtained_setThread h.obtained rfl _ _, h.completed, ?_⟩
    exact h.phase.frame rfl rfl rfl (pending_setThread rfl (by simp [hen.1]) (by simp))
  · have hcons := h.consistent.complete hget hne (w.sh.completed || w.sh.piecesLeft == 1)
    have hpos := missing_pos hget hne
    have hcount := h.consistent.count
    have hafter := hcons.count
    simp only at hafter
    obtain ⟨hturned, hcalls, hidle⟩ : w.turned = [] ∧ w.calls = [] ∧
        ∀ d i, (w.thread d).pc ≠ .finishing i true := by
      cases h.phase with
      | downloading _ h2 h3 h4 => exact ⟨h2, h3, h4⟩
      | pending _ _ h1 => omega
      | called _ _ h1 => omega
    have hnotdone : w.sh.completed = false := by
      by_contra hc
      have := h.completed (by simpa using hc)
      omega
    rw [hsec] at hstep
    simp only [Option.some.injEq] at hstep
    by_cases hlast : w.sh.piecesLeft = 1
    · -- this is the completion that turns the last missing piece
      have hzero : missing (w.sh.pieceStates.set index .stateHave) = 0 := by omega
      rw [if_pos ⟨hpos, hzero⟩] at hstep
      subst hstep
      refine ⟨hcons, h.running, obtained_setThread h.obtained rfl _ _, fun _ => hzero, ?_⟩
      refine .pending c index hzero (by simp [Swarm.setThread, hturned]) hcalls ?_ ?_
      · simp [Swarm.setThread, hlast]
      · intro d i hd
        rw [Swarm.setThread_thread, if_neg hd]
        exact hidle d i
    · have hmore : 0 < missing (w.sh.pieceStates.set index .stateHave) := by omega
      rw [if_neg (by omega)] at hstep
      subst hstep
      refine ⟨hcons, h.running, obtained_setThread h.obtained rfl _ _, ?_, ?_⟩
      · simp [hnotdone, hlast]
      · refine .downloading hmore hturned hcalls ?_
        intro d i
        rw [Swarm.setThread_thread]
        by_cases hdc : d = c
        · simp [hdc, hlast]
        · rw [if_neg hdc]
          exact hidle d i

theorem Swarm.Inv.torrentComplete (h : w.Inv n) {c : Nat}
    (hstep : w.step n (.torrentComplete c) = some w') : w'.Inv n := by
  rw [Swarm.step_running h.running] at hstep
  simp only [Swarm.act] at hstep
  split at hstep
  swap
  · cases hstep
  rename_i index hpc
  simp only [Option.some.injEq] at hstep
  -- only the pending completion can make the call
  cases h.phase with
  | downloading _ _ _ h4 => exact absurd hpc (h4 c index)
  | called _ _ _ _ _ h4 => exact absurd hpc (h4 c index)
  | pending d i h1 h2 h3 h4 h5 =>
    have hdc : c = d := by
      by_contra hne
      exact h5 c index hne hpc
    subst hdc
    rw [hpc] at h4
    cases h4
    subst hstep
    refine ⟨h.consistent.seeding, h.running, obtained_setThread h.obtained rfl _ _,
      fun _ => h1, ?_⟩
    refine .called c index h1 h2 (by simp [Swarm.setThread, h3]) ?_
    intro e i
    rw [Swarm.setThread_thread]
    by_cases hec : e = c
    · simp [hec]
    · rw [if_neg hec]
      exact h5 e i hec

theorem Swarm.Inv.announce (h : w.Inv n) {c : Nat}
    (hstep : w.step n (.announce c) = some w') : w'.Inv n := by
  rw [Swarm.step_running h.running] at hstep
  simp only [Swarm.act] at hstep
  split at hstep
  swap
  · cases hstep
  rename_i index hpc
  simp only [Option.some.injEq] at hstep
  subst hstep
  refine ⟨h.consistent, h.running, obtained_setThread h.obtained rfl _ _, h.completed, ?_⟩
  exact h.phase.frame rfl rfl rfl (pending_setThread rfl (by simp [hpc]) (by simp))

theorem Swarm.Inv.verifyFailed (h : w.Inv n) {c index : Nat}
    (hguard : w.sh.pieceStates[index]? ≠ some .stateHave)
    (hstep : w.step n (.verifyFailed c index) = some w') : w'.Inv n := by
  rw [Swarm.step_running h.running] at hstep
  simp only [Swarm.act] at hstep
  by_cases hen : (w.thread c).pc = .idle ∧ index ∈ (w.thread c).obtained
  swap
  · rw [if_neg hen] at hstep
    cases hstep
  rw [if_pos hen, Option.some.injEq] at hstep
  have hindex : index < w.sh.pieceStates.length := by
    rw [h.consistent.length]
    exact h.obtained c index hen.2
  have hget := List.getElem?_eq_getElem hindex
  obtain ⟨hsame, hcons⟩ := h.consistent.mark hget
    (fun heq => hguard (by rw [hget, heq])) .stateNotRequested (by decide)
  subst hstep
  exact ⟨hcons, h.running, h.obtained, fun hc => hsame.trans (h.completed hc),
    h.phase.frame hsame rfl rfl (fun _ _ => Iff.rfl)⟩

/-- **Every step keeps the invariant**, a failed verification if it finds its
piece missing. -/
theorem Swarm.Inv.step (h : w.Inv n) (hn : n ≤ 2 ^ 32) {a : Action} (hguard : FailsOnMissing w a)
    (hstep : w.step n a = some w') : w'.Inv n := by
  cases a with
  | nextRequest c bf => exact h.nextRequest hn hstep
  | completion c index => exact h.completion hstep
  | torrentComplete c => exact h.torrentComplete hstep
  | announce c => exact h.announce hstep
  | verifyFailed c index => exact h.verifyFailed hguard hstep

end Steps

end BtClient

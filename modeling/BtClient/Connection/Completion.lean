import BtClient.Connection.Swarm

/-!
# The piece count and the one completion

Two results about every run of the swarm. Without failed verifications
`pieces_left` counts the missing pieces, no assertion fails, and
`torrent_complete` is called once, by the completion of the last missing
piece: exactly for torrents of at most `2^32` pieces, because
`torrent_next_request` keeps the index in a `uint32_t`. With failed
verifications the same holds as long as each of them finds its piece missing;
the failure branch does not look, and a piece that another connection has
finished is thrown away.
-/

namespace BtClient

open CLib

/-- The accounting of a torrent. -/
structure Swarm.Accounted (w : Swarm) : Prop where
  count : w.sh.piecesLeft = missing w.sh.pieceStates
  running : w.aborted = false
  once : w.calls.length ≤ 1
  byLast : ∀ x ∈ w.calls, x ∈ w.turned
  lastCalls : ∀ x ∈ w.turned, x ∈ w.calls ∨ (w.thread x.1).pc = .finishing x.2 true

theorem Swarm.Inv.accounted {n : Nat} {w : Swarm} (h : w.Inv n) : w.Accounted := by
  refine ⟨h.consistent.count, h.running, ?_, ?_, ?_⟩
  all_goals cases h.phase with
    | downloading _ h2 h3 _ => simp [h2, h3]
    | pending c index _ h2 h3 h4 _ => simp [h2, h3, h4]
    | called c index _ h2 h3 _ => simp [h2, h3]

/-- Every guarded run of a torrent of at most `2^32` pieces. -/
theorem Swarm.run_inv {n : Nat} (hpos : 1 ≤ n) (hn : n ≤ 2 ^ 32) {as : List Action} {w : Swarm}
    (h : Run (Swarm.step n) FailsOnMissing (Swarm.init n) as w) : w.Inv n := by
  refine h.invariant (Swarm.init_inv hpos (by omega)) ?_
  intro t a u ht hg hs
  exact ht.step hn hg hs

/-! ## An index that does not fit -/

/-- A request for the first piece the peer has. -/
theorem torrentNextRequest_first {sh : Shared} {bf : List UInt8} {k : Nat}
    (hk : sh.pieceStates[k]? = some .stateNotRequested) (hset : bitfieldIsset k bf = true)
    (hbefore : ∀ j < k, bitfieldIsset j bf = false) :
    torrentNextRequest sh bf = (some (k % 2 ^ 32),
      { sh with pieceStates := sh.pieceStates.set (k % 2 ^ 32) .stateRequested }) := by
  have hoff : Offered bf sh.pieceStates .stateNotRequested k := ⟨hk, hset⟩
  rcases torrentNextRequest_picked sh bf with ⟨-, hall⟩ | ⟨k', hpicked, hrun⟩
  · cases hall k _ hoff
  · obtain ⟨hoff', hfirst⟩ := hpicked.first ⟨k, hoff⟩
    have hle : ¬ k < k' := fun hlt => hfirst k hlt hoff
    have hge : ¬ k' < k := by
      intro hlt
      have hbit := hbefore k' hlt
      rw [hoff'.2] at hbit
      cases hbit
    rw [hrun, show k' = k from by omega]

/-- A peer that has only piece `8 * m`. -/
def onlyPiece (m : Nat) : List UInt8 := List.replicate m 0 ++ [128]

theorem onlyPiece_isset (m : Nat) : bitfieldIsset (8 * m) (onlyPiece m) = true := by
  have hbyte : (onlyPiece m).getD (8 * m / 8) 0 = 128 := by
    rw [Nat.mul_div_cancel_left m (by omega), onlyPiece, List.getD_eq_getElem?_getD,
      List.getElem?_append_right (by simp)]
    simp
  rw [bitfieldIsset, hbyte, Nat.mul_mod_right]
  decide

theorem onlyPiece_not_isset {m j : Nat} (h : j < 8 * m) :
    bitfieldIsset j (onlyPiece m) = false := by
  have hbyte : (onlyPiece m).getD (j / 8) 0 = 0 := by
    rw [onlyPiece, List.getD_eq_getElem?_getD,
      List.getElem?_append_left (by simp only [List.length_replicate]; omega),
      List.getElem?_replicate, if_pos (by omega)]
    rfl
  rw [bitfieldIsset, hbyte]
  simp

/-- Three critical sections on a torrent of more than `2^32` pieces: piece `0`
is handed out and completed; then a connection asks a peer that has only piece
`2^32`, and piece `0` is marked requested again. -/
theorem truncated_sections {n : Nat} (hn : 2 ^ 32 < n) (hw : n < 2 ^ 64) :
    ∃ sh₁ sh₂ sh₃, torrentNextRequest (sharedInit n) (onlyPiece 0) = (some 0, sh₁) ∧
      completionSection n sh₁ 0 = .ok (sh₂, false) ∧
      torrentNextRequest sh₂ (onlyPiece (2 ^ 29)) = (some 0, sh₃) ∧
      sh₃.piecesLeft = n - 1 ∧ missing sh₃.pieceStates = n := by
  have hget₀ : (sharedInit n).pieceStates[0]? = some .stateNotRequested := by
    simp only [sharedInit, List.getElem?_replicate]
    rw [if_pos (by omega)]
  -- piece 0 is handed out and completed
  have hreq₁ := torrentNextRequest_first hget₀ (onlyPiece_isset 0) (by omega)
  obtain ⟨-, hcons₁⟩ :=
    (sharedInit_consistent hw).mark hget₀ (by decide) .stateRequested (by decide)
  have hstates₁ : ((sharedInit n).pieceStates.set 0 .stateRequested)[0]?
      = some .stateRequested := by
    rw [List.getElem?_set_self (List.getElem?_eq_some_iff.mp hget₀).1]
  rcases completionSection_cases hcons₁ (show 0 < n by omega) with ⟨hhave, -⟩ | ⟨s, hget₁, hs, hsec⟩
  · rw [hstates₁] at hhave
    cases hhave
  have hflag : ((sharedInit n).piecesLeft == 1) = false := by
    simp only [sharedInit, beq_eq_false_iff_ne, ne_eq]
    omega
  have hcons₂ := hcons₁.complete hget₁ hs false
  simp only [hflag, Bool.or_false] at hsec
  have hhave₂ : (((sharedInit n).pieceStates.set 0 .stateRequested).set 0 .stateHave)[0]?
      = some .stateHave := by
    rw [List.getElem?_set_self (List.getElem?_eq_some_iff.mp hget₁).1]
  -- piece `2^32` is still to be requested, and its index is `0` as a `uint32_t`
  have hbig : (((sharedInit n).pieceStates.set 0 .stateRequested).set 0 .stateHave)[8 * 2 ^ 29]?
      = some .stateNotRequested := by
    rw [List.getElem?_set_ne (by omega), List.getElem?_set_ne (by omega)]
    simp only [sharedInit, List.getElem?_replicate]
    rw [if_pos (by omega)]
  have hmiss := missing_set .stateRequested hhave₂
  have hcount := hcons₂.count
  simp only [sharedInit, if_true, reduceCtorEq, if_false] at hmiss hcount
  refine ⟨_, _, _, hreq₁, hsec, torrentNextRequest_first hbig (onlyPiece_isset (2 ^ 29))
    (fun j hj => onlyPiece_not_isset hj), rfl, ?_⟩
  simp only [sharedInit]
  rw [show 8 * 2 ^ 29 % 2 ^ 32 = 0 from rfl]
  omega

section Enabled

variable {n c : Nat} {w : Swarm}

theorem Swarm.step_nextRequest (hrun : w.aborted = false) (hidle : (w.thread c).pc = .idle)
    {bf : List UInt8} {index : Nat} {sh : Shared}
    (h : torrentNextRequest w.sh bf = (some index, sh)) :
    w.step n (.nextRequest c bf)
      = some ({ w with sh := sh }.setThread c ⟨index :: (w.thread c).obtained, .idle⟩) := by
  rw [Swarm.step_running hrun]
  simp only [Swarm.act, if_pos hidle, h]

theorem Swarm.step_completion (hrun : w.aborted = false) (hidle : (w.thread c).pc = .idle)
    {index : Nat} (hin : index ∈ (w.thread c).obtained) (hindex : index < n) {sh : Shared}
    {flag : Bool} (h : completionSection n w.sh index = .ok (sh, flag)) :
    ∃ turned, w.step n (.completion c index)
      = some ({ w with sh := sh, turned := turned }.setThread c
          ⟨(w.thread c).obtained, .finishing index flag⟩) := by
  rw [Swarm.step_running hrun]
  simp only [Swarm.act, if_pos (And.intro hidle hin), if_pos hindex, h]
  exact ⟨_, rfl⟩

end Enabled

/-- With more than `2^32` pieces a run loses count. -/
theorem truncated_run {n : Nat} (hn : 2 ^ 32 < n) (hw : n < 2 ^ 64) :
    ∃ as w, Run (Swarm.step n) NoFailure (Swarm.init n) as w ∧ w.sh.piecesLeft = n - 1 ∧
      missing w.sh.pieceStates = n := by
  obtain ⟨sh₁, sh₂, sh₃, hreq₁, hsec, hreq₃, hleft, hmiss⟩ := truncated_sections hn hw
  have hstep₁ : (Swarm.init n).step n (.nextRequest 0 (onlyPiece 0)) = _ :=
    Swarm.step_nextRequest rfl rfl hreq₁
  obtain ⟨turned, hstep₂⟩ := Swarm.step_completion (c := 0) (n := n)
    (w := { Swarm.init n with sh := sh₁ }.setThread 0 ⟨[0], .idle⟩) rfl rfl
    (List.mem_singleton.mpr rfl) (by omega) hsec
  have hrun₂ : Run (Swarm.step n) NoFailure (Swarm.init n) _ _ :=
    .snoc (.snoc .nil (by trivial) hstep₁) (by trivial) hstep₂
  have hstep₃ := Swarm.step_nextRequest (c := 1) (n := n)
    (w := { ({ Swarm.init n with sh := sh₁ }.setThread 0 ⟨[0], .idle⟩) with
      sh := sh₂, turned := turned }.setThread 0 ⟨[0], .finishing 0 false⟩) rfl rfl hreq₃
  exact ⟨_, _, hrun₂.snoc (by trivial) hstep₃, hleft, hmiss⟩

/-- **The piece count.** Over all runs of `torrent_next_request` and
`handle_piece_dl_completion`, the accounting holds in every state reached
exactly when the torrent has at most `2^32` pieces. -/
theorem pieces_accounted_iff (n : Nat) (hpos : 1 ≤ n) (hw : n < 2 ^ 64) :
    (∀ as w, Run (Swarm.step n) NoFailure (Swarm.init n) as w → w.Accounted) ↔ n ≤ 2 ^ 32 := by
  constructor
  · intro hall
    by_contra hgt
    obtain ⟨as, w, hrun, hleft, hmiss⟩ := truncated_run (by omega) hw
    have hcount := (hall as w hrun).count
    omega
  · intro hn as w hrun
    have hguard := hrun.mono (fun s a => NoFailure.failsOnMissing)
    exact (Swarm.run_inv hpos hn hguard).accounted

/-- One piece more than `2^32`: the completion of piece `0` is undone by a
request for piece `2^32`, and `pieces_left` is one too small. -/
theorem pieces_miscounted :
    ∃ as w, Run (Swarm.step (2 ^ 32 + 1)) NoFailure (Swarm.init (2 ^ 32 + 1)) as w ∧
      w.sh.piecesLeft = 2 ^ 32 ∧ missing w.sh.pieceStates = 2 ^ 32 + 1 ∧ ¬ w.Accounted := by
  obtain ⟨as, w, hrun, hleft, hmiss⟩ := truncated_run (n := 2 ^ 32 + 1) (by decide) (by decide)
  refine ⟨as, w, hrun, hleft, hmiss, ?_⟩
  intro hacc
  have := hacc.count
  omega

/-- Two connections finish the two pieces of a torrent. -/
def pairActions : List Action :=
  [.nextRequest 0 [192], .nextRequest 1 [192], .completion 1 1, .completion 0 0, .announce 1,
    .torrentComplete 0, .announce 0]

/-- The second completion is the one that calls `torrent_complete`. -/
theorem pieces_accounted_pair :
    ∃ w, Run (Swarm.step 2) NoFailure (Swarm.init 2) pairActions w ∧ w.Accounted ∧
      w.calls = [(0, 0)] := by
  have hexec : (exec (Swarm.step 2) NoFailure (Swarm.init 2) pairActions).map (fun w => w.calls)
      = some [(0, 0)] := by decide
  obtain ⟨w, hw, hobs⟩ := Option.map_eq_some_iff.mp hexec
  have hrun := Run.of_exec _ hw
  exact ⟨w, hrun, (pieces_accounted_iff 2 (by decide) (by decide)).mpr (by decide) _ w hrun, hobs⟩

/-! ## Failed verifications -/

/-- **A failure that finds its piece missing undoes nothing.** In every run in
which each failed verification finds its piece missing, `completed` is set
only in states where every piece is there, and no failed verification takes a
piece out of `HAVE`. -/
theorem failure_keeps_have (n : Nat) (hpos : 1 ≤ n) (hn : n ≤ 2 ^ 32) (as : List Action)
    (w : Swarm) (hrun : Run (Swarm.step n) FailsOnMissing (Swarm.init n) as w) :
    (w.sh.completed = true → ∀ s ∈ w.sh.pieceStates, s = .stateHave) ∧
      ∀ c index w', FailsOnMissing w (.verifyFailed c index) →
        w.step n (.verifyFailed c index) = some w' →
        ∀ k : Nat, w.sh.pieceStates[k]? = some .stateHave →
          w'.sh.pieceStates[k]? = some .stateHave := by
  have hinv := Swarm.run_inv hpos hn hrun
  refine ⟨fun hc => missing_eq_zero.mp (hinv.completed hc), ?_⟩
  intro c index w' hguard hstep k hk
  rw [Swarm.step_running hinv.running] at hstep
  simp only [Swarm.act] at hstep
  by_cases hen : (w.thread c).pc = .idle ∧ index ∈ (w.thread c).obtained
  · rw [if_pos hen, Option.some.injEq] at hstep
    subst hstep
    have hne : index ≠ k := by
      rintro rfl
      exact hguard hk
    rw [← hk]
    exact List.getElem?_set_ne hne
  · rw [if_neg hen] at hstep
    cases hstep

/-- Two connections hold piece `0` of a torrent of one piece; the first
finishes it. -/
def raceActions : List Action :=
  [.nextRequest 0 [128], .nextRequest 1 [128], .completion 0 0, .torrentComplete 0, .announce 0]

/-- The second connection's check then fails, and the finished piece is gone
while `completed` stays set. -/
theorem failure_undoes_have :
    ∃ w w', Run (Swarm.step 1) unguarded (Swarm.init 1) raceActions w ∧
      w.sh.pieceStates = [.stateHave] ∧ w.step 1 (.verifyFailed 1 0) = some w' ∧
      w'.sh.pieceStates = [.stateNotRequested] ∧ w'.sh.completed = true := by
  have hexec : ((exec (Swarm.step 1) unguarded (Swarm.init 1) raceActions).bind fun w =>
      (w.step 1 (.verifyFailed 1 0)).map fun w' => (w.sh.pieceStates, w'.sh))
        = some ([.stateHave], ⟨.stateSeeding, [.stateNotRequested], 0, true⟩) := by decide
  obtain ⟨w, hw, hrest⟩ := Option.bind_eq_some_iff.mp hexec
  obtain ⟨w', hw', hobs⟩ := Option.map_eq_some_iff.mp hrest
  obtain ⟨h1, h2⟩ := Prod.mk.inj hobs
  exact ⟨w, w', .of_exec _ hw, h1, hw', by rw [h2], by rw [h2]⟩

/-- The race the other way round: the second connection fails first, then the
first one finishes the piece, and nothing is lost. -/
theorem failure_keeps_have_race :
    ∃ w, Run (Swarm.step 1) FailsOnMissing (Swarm.init 1)
        [.nextRequest 0 [128], .nextRequest 1 [128], .verifyFailed 1 0, .completion 0 0] w ∧
      w.sh.completed = true ∧ ∀ s ∈ w.sh.pieceStates, s = .stateHave := by
  have hexec : (exec (Swarm.step 1) FailsOnMissing (Swarm.init 1)
      [.nextRequest 0 [128], .nextRequest 1 [128], .verifyFailed 1 0, .completion 0 0]).map
        (fun w => w.sh.completed) = some true := by decide
  obtain ⟨w, hw, hobs⟩ := Option.map_eq_some_iff.mp hexec
  have hrun := Run.of_exec _ hw
  exact ⟨w, hrun, hobs,
    (failure_keeps_have 1 (by decide) (by decide) _ w hrun).1 hobs⟩

end BtClient

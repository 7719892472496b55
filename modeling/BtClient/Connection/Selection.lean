import BtClient.Connection.Shared

/-!
# Which piece `torrent_next_request` picks

One loop looks for two kinds of pieces that the peer has: the first one not
requested yet, at which it stops, and the last one requested by some
connection before it. The second kind is the fallback that keeps a piece from
being lost with the connection that asked for it. The loads of the scan are
checked apart, against the length of the peer's bitfield.
-/

namespace BtClient

open CLib

/-! ## The scan -/

/-- The peer has piece `k`, and it is in the given state. -/
def Offered (bf : List UInt8) (states : List PieceState) (state : PieceState) (k : Nat) : Prop :=
  states[k]? = some state ∧ bitfieldIsset k bf = true

/-- The same for the rest of a list that starts at index `i`. -/
def OfferedFrom (bf : List UInt8) (states : List PieceState) (i : Nat) (state : PieceState)
    (k : Nat) : Prop :=
  states[k]? = some state ∧ bitfieldIsset (i + k) bf = true

theorem offeredFrom_zero {bf : List UInt8} {states : List PieceState} {state : PieceState}
    {k : Nat} : OfferedFrom bf states 0 state k ↔ Offered bf states state k := by
  rw [OfferedFrom, Offered, Nat.zero_add]

theorem offeredFrom_cons_succ {bf : List UInt8} {states : List PieceState} {i : Nat}
    {first state : PieceState} {k : Nat} :
    OfferedFrom bf (first :: states) i state (k + 1) ↔ OfferedFrom bf states (i + 1) state k := by
  rw [OfferedFrom, OfferedFrom, List.getElem?_cons_succ, show i + (k + 1) = i + 1 + k from by omega]

theorem offeredFrom_cons_zero {bf : List UInt8} {states : List PieceState} {i : Nat}
    {first state : PieceState} :
    OfferedFrom bf (first :: states) i state 0 ↔
      first = state ∧ bitfieldIsset i bf = true := by
  simp [OfferedFrom]

/-- What the loop has found when it ends. -/
structure Scanned (bf : List UInt8) (states : List PieceState) (i : Nat) (r : Option Nat)
    (found : Option Nat × Option Nat) : Prop where
  first : ∀ ret, found.1 = some ret → ∃ k, ret = (i + k) % 2 ^ 32 ∧
    OfferedFrom bf states i .stateNotRequested k ∧
    ∀ j < k, ¬ OfferedFrom bf states i .stateNotRequested j
  none_first : found.1 = none → ∀ k, ¬ OfferedFrom bf states i .stateNotRequested k
  fallback : found.1 = none → ∀ ret, found.2 = some ret → r = some ret ∨
    ∃ k, ret = (i + k) % 2 ^ 32 ∧ OfferedFrom bf states i .stateRequested k
  none_fallback : found.1 = none → found.2 = none →
    r = none ∧ ∀ k, ¬ OfferedFrom bf states i .stateRequested k

/-- A piece the loop passes. -/
theorem Scanned.cons {bf : List UInt8} {state : PieceState} {states : List PieceState} {i : Nat}
    {r : Option Nat} {found : Option Nat × Option Nat}
    (hpass : ¬ (state = .stateNotRequested ∧ bitfieldIsset i bf = true))
    (h : Scanned bf states (i + 1) (if state = .stateRequested ∧ bitfieldIsset i bf = true
      then some (i % 2 ^ 32) else r) found) : Scanned bf (state :: states) i r found := by
  have hzero : ¬ OfferedFrom bf (state :: states) i .stateNotRequested 0 := by
    rw [offeredFrom_cons_zero]
    exact hpass
  have hshift : ∀ k, i + 1 + k = i + (k + 1) := fun k => by omega
  constructor
  · intro ret hret
    obtain ⟨k, hk, hoff, hbefore⟩ := h.first ret hret
    rw [hshift] at hk
    refine ⟨k + 1, hk, offeredFrom_cons_succ.mpr hoff, ?_⟩
    intro j hj
    cases j with
    | zero => exact hzero
    | succ j =>
      rw [offeredFrom_cons_succ]
      exact hbefore j (by omega)
  · intro hnone k
    cases k with
    | zero => exact hzero
    | succ k =>
      rw [offeredFrom_cons_succ]
      exact h.none_first hnone k
  · intro hnone ret hret
    rcases h.fallback hnone ret hret with hr | ⟨k, hk, hoff⟩
    · by_cases hreq : state = .stateRequested ∧ bitfieldIsset i bf = true
      · rw [if_pos hreq, Option.some.injEq] at hr
        exact .inr ⟨0, hr.symm, offeredFrom_cons_zero.mpr hreq⟩
      · rw [if_neg hreq] at hr
        exact .inl hr
    · rw [hshift] at hk
      exact .inr ⟨k + 1, hk, offeredFrom_cons_succ.mpr hoff⟩
  · intro hnone hret
    obtain ⟨hr, hnot⟩ := h.none_fallback hnone hret
    by_cases hreq : state = .stateRequested ∧ bitfieldIsset i bf = true
    · rw [if_pos hreq] at hr
      cases hr
    · rw [if_neg hreq] at hr
      refine ⟨hr, ?_⟩
      intro k
      cases k with
      | zero =>
        rw [offeredFrom_cons_zero]
        exact hreq
      | succ k =>
        rw [offeredFrom_cons_succ]
        exact hnot k

theorem nextRequestScan_scanned (bf : List UInt8) (states : List PieceState) :
    ∀ (i : Nat) (r : Option Nat), Scanned bf states i r (nextRequestScan bf states i r) := by
  induction states with
  | nil =>
    intro i r
    have hnil : ∀ state k, ¬ OfferedFrom bf [] i state k := by
      intro state k h
      cases h.1
    refine ⟨?_, fun _ => hnil _, fun _ ret hret => .inl hret, fun _ hret => ⟨hret, hnil _⟩⟩
    intro ret hret
    cases hret
  | cons state states ih =>
    intro i r
    rw [nextRequestScan]
    by_cases hstop : state = .stateNotRequested ∧ bitfieldIsset i bf = true
    · rw [if_pos hstop]
      constructor
      · intro ret hret
        cases hret
        exact ⟨0, rfl, offeredFrom_cons_zero.mpr hstop, fun j hj => absurd hj (by omega)⟩
      · intro hnone
        cases hnone
      · intro hnone
        cases hnone
      · intro hnone
        cases hnone
    · rw [if_neg hstop]
      exact (ih (i + 1) _).cons hstop

/-! ## The choice -/

/-- The piece that is picked: the first one offered and not requested, or, when
there is none, one that is offered and requested. -/
def Picked (bf : List UInt8) (states : List PieceState) (k : Nat) : Prop :=
  (Offered bf states .stateNotRequested k ∧ ∀ j < k, ¬ Offered bf states .stateNotRequested j) ∨
    ((∀ j, ¬ Offered bf states .stateNotRequested j) ∧ Offered bf states .stateRequested k)

section Picked

variable {bf : List UInt8} {states : List PieceState} {k : Nat}

theorem Picked.offered (h : Picked bf states k) :
    ∃ state, Offered bf states state k ∧ state ≠ .stateHave := by
  rcases h with ⟨hoff, -⟩ | ⟨-, hoff⟩
  · exact ⟨_, hoff, by decide⟩
  · exact ⟨_, hoff, by decide⟩

theorem Picked.first (h : Picked bf states k)
    (hsome : ∃ j, Offered bf states .stateNotRequested j) :
    Offered bf states .stateNotRequested k ∧ ∀ j < k, ¬ Offered bf states .stateNotRequested j := by
  rcases h with hfirst | ⟨hnone, -⟩
  · exact hfirst
  · obtain ⟨j, hj⟩ := hsome
    exact absurd hj (hnone j)

theorem Picked.fallback (h : Picked bf states k)
    (hnone : ∀ j, ¬ Offered bf states .stateNotRequested j) :
    Offered bf states .stateRequested k := by
  rcases h with ⟨hoff, -⟩ | ⟨-, hoff⟩
  · exact absurd hoff (hnone k)
  · exact hoff

end Picked

/-- A piece that is offered is one of the two kinds, or there already. -/
theorem offered_cases {bf : List UInt8} {states : List PieceState} {state : PieceState} {k : Nat}
    (h : Offered bf states state k) (hne : state ≠ .stateHave) :
    Offered bf states .stateNotRequested k ∨ Offered bf states .stateRequested k := by
  cases state with
  | stateNotRequested => exact .inl h
  | stateRequested => exact .inr h
  | stateHave => exact absurd rfl hne

/-- **What `torrent_next_request` does**: nothing, when every piece the peer has
is there, or it hands out the truncated index of the picked piece and marks
that entry. -/
theorem torrentNextRequest_picked (sh : Shared) (bf : List UInt8) :
    (torrentNextRequest sh bf = (none, sh) ∧
      ∀ k state, Offered bf sh.pieceStates state k → state = .stateHave) ∨
    ∃ k, Picked bf sh.pieceStates k ∧ torrentNextRequest sh bf = (some (k % 2 ^ 32),
      { sh with pieceStates := sh.pieceStates.set (k % 2 ^ 32) .stateRequested }) := by
  have hscan := nextRequestScan_scanned bf sh.pieceStates 0 none
  rw [torrentNextRequest]
  rcases hfound : nextRequestScan bf sh.pieceStates 0 none with ⟨nr, r⟩
  rw [hfound] at hscan
  cases nr with
  | some ret =>
    obtain ⟨k, rfl, hoff, hbefore⟩ := hscan.first ret rfl
    rw [offeredFrom_zero] at hoff
    right
    refine ⟨k, .inl ⟨hoff, fun j hj => ?_⟩, by rw [Nat.zero_add]⟩
    rw [← offeredFrom_zero]
    exact hbefore j hj
  | none =>
    have hnone : ∀ j, ¬ Offered bf sh.pieceStates .stateNotRequested j := by
      intro j
      rw [← offeredFrom_zero]
      exact hscan.none_first rfl j
    cases r with
    | some ret =>
      rcases hscan.fallback rfl ret rfl with h | ⟨k, rfl, hoff⟩
      · cases h
      · rw [offeredFrom_zero] at hoff
        exact .inr ⟨k, .inr ⟨hnone, hoff⟩, by rw [Nat.zero_add]⟩
    | none =>
      left
      refine ⟨rfl, ?_⟩
      intro k state hoff
      by_contra hne
      rcases offered_cases hoff hne with h | h
      · exact hnone k h
      · exact (hscan.none_fallback rfl rfl).2 k (offeredFrom_zero.mpr h)

/-- The piece that is handed out is not `HAVE`, and the peer has it. -/
theorem torrentNextRequest_cases (sh : Shared) (bf : List UInt8) :
    torrentNextRequest sh bf = (none, sh) ∨
    ∃ k state, sh.pieceStates[k]? = some state ∧ state ≠ .stateHave ∧
      bitfieldIsset k bf = true ∧
      torrentNextRequest sh bf = (some (k % 2 ^ 32),
        { sh with pieceStates := sh.pieceStates.set (k % 2 ^ 32) .stateRequested }) := by
  rcases torrentNextRequest_picked sh bf with ⟨hrun, -⟩ | ⟨k, hpicked, hrun⟩
  · exact .inl hrun
  · obtain ⟨state, ⟨hget, hbit⟩, hne⟩ := hpicked.offered
    exact .inr ⟨k, state, hget, hne, hbit, hrun⟩

/-! ## The loads -/

/-- Whether every load of the scan of `torrent_next_request` from index `i` on
lies inside the bitfield. -/
def scanInside (peerHaveBf : List UInt8) : List PieceState → Nat → Bool
  | [], _ => true
  | .stateHave :: states, i => scanInside peerHaveBf states (i + 1)
  | .stateRequested :: states, i =>
    decide (i / 8 < peerHaveBf.length) && scanInside peerHaveBf states (i + 1)
  | .stateNotRequested :: states, i =>
    decide (i / 8 < peerHaveBf.length) &&
      (bitfieldIsset i peerHaveBf || scanInside peerHaveBf states (i + 1))

/-- `torrent_next_request` on a bitfield that may be too short. -/
def torrentNextRequestLoad (sh : Shared) (peerHaveBf : List UInt8) :
    Except Fault (Option Nat × Shared) :=
  if scanInside peerHaveBf sh.pieceStates 0 then .ok (torrentNextRequest sh peerHaveBf)
  else .error .outOfBounds

/-- A bitfield with a bit for every piece is never read behind its end. -/
theorem scanInside_of_length (bf : List UInt8) (states : List PieceState) :
    ∀ i, i + states.length ≤ 8 * bf.length → scanInside bf states i = true := by
  induction states with
  | nil => intro i _; rfl
  | cons state states ih =>
    intro i hle
    rw [List.length_cons] at hle
    have hrest := ih (i + 1) (by omega)
    have hbyte : i / 8 < bf.length := by omega
    cases state with
    | stateHave => exact hrest
    | stateRequested => simp [scanInside, hbyte, hrest]
    | stateNotRequested => simp [scanInside, hbyte, hrest]

/-- **The selection.** On a bitfield with a bit for every piece the call returns;
it returns `-1` and changes nothing exactly when every piece the peer has is
there already, and otherwise hands out a picked piece and marks it. -/
theorem torrentNextRequest_selects (sh : Shared) (bf : List UInt8)
    (hn : sh.pieceStates.length < 2 ^ 32)
    (hbf : sh.pieceStates.length ≤ 8 * bf.length) :
    ∃ out sh', torrentNextRequestLoad sh bf = .ok (out, sh') ∧
      ((out = none ∧ sh' = sh) ↔
        ∀ k state, Offered bf sh.pieceStates state k → state = .stateHave) ∧
      (out = none → sh' = sh) ∧
      ∀ k, out = some k →
        (∃ state, Offered bf sh.pieceStates state k ∧ state ≠ .stateHave) ∧
        ((∃ j, Offered bf sh.pieceStates .stateNotRequested j) →
          Offered bf sh.pieceStates .stateNotRequested k ∧
            ∀ j < k, ¬ Offered bf sh.pieceStates .stateNotRequested j) ∧
        ((∀ j, ¬ Offered bf sh.pieceStates .stateNotRequested j) →
          Offered bf sh.pieceStates .stateRequested k) ∧
        sh' = { sh with pieceStates := sh.pieceStates.set k .stateRequested } := by
  have hinside : scanInside bf sh.pieceStates 0 = true :=
    scanInside_of_length bf sh.pieceStates 0 (by omega)
  have hload : torrentNextRequestLoad sh bf = .ok (torrentNextRequest sh bf) := by
    rw [torrentNextRequestLoad, if_pos hinside]
  rcases torrentNextRequest_picked sh bf with ⟨hrun, hall⟩ | ⟨k, hpicked, hrun⟩
  · refine ⟨none, sh, hload.trans (by rw [hrun]), ⟨fun _ => hall, fun _ => ⟨rfl, rfl⟩⟩,
      fun _ => rfl, ?_⟩
    intro k hk
    cases hk
  · -- an index of the list is a `uint32_t`
    have hword : k % 2 ^ 32 = k := by
      obtain ⟨state, ⟨hget, -⟩, -⟩ := hpicked.offered
      obtain ⟨hlt, -⟩ := List.getElem?_eq_some_iff.mp hget
      exact Nat.mod_eq_of_lt (by omega)
    rw [hword] at hrun
    refine ⟨some k, _, hload.trans (by rw [hrun]), ⟨?_, ?_⟩, ?_, ?_⟩
    · intro h
      cases h.1
    · intro hall
      obtain ⟨state, hoff, hne⟩ := hpicked.offered
      exact absurd (hall k state hoff) hne
    · intro h
      cases h
    · intro k' hk'
      cases hk'
      exact ⟨hpicked.offered, hpicked.first, hpicked.fallback, rfl⟩

/-- Pieces 0 and 2 are requested, 1 is there, and the peer has 0, 1 and 2: the
last of the requested ones is asked for again. -/
theorem torrentNextRequest_selects_fallback :
    ∃ sh', torrentNextRequestLoad ⟨.stateLeeching, [.stateRequested, .stateHave, .stateRequested,
        .stateNotRequested], 3, false⟩ [224] = .ok (some 2, sh') ∧
      sh'.pieceStates = [.stateRequested, .stateHave, .stateRequested, .stateNotRequested] := by
  obtain ⟨out, sh', hrun, -, -, hpick⟩ := torrentNextRequest_selects
    ⟨.stateLeeching, [.stateRequested, .stateHave, .stateRequested, .stateNotRequested], 3, false⟩
    [224] (by decide) (by decide)
  have hout : out = some 2 := by
    have hload : torrentNextRequestLoad ⟨.stateLeeching, [.stateRequested, .stateHave,
      .stateRequested, .stateNotRequested], 3, false⟩ [224] = .ok (some 2, _) := rfl
    rw [hrun] at hload
    cases hload
    rfl
  subst hout
  exact ⟨sh', hrun, by rw [(hpick 2 rfl).2.2.2]; rfl⟩

end BtClient

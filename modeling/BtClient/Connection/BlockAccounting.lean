import BtClient.Connection.Download
import BtClient.Lib.Transition

/-!
# Counting the blocks of a request

`process_piece_msg` keeps two records of what has arrived: the `completed` flag
of each block and the counter `blocks_left`. It sets the flag of the first
block that matches and decrements the counter, and it does so whether or not
the flag was set already. The two agree along a run exactly as long as no
message repeats a block; the first one that does makes the counter run ahead,
so that a piece is hashed before its last block is there, or pass zero.
-/

namespace BtClient

open CLib

/-- The test of the inner loop of `process_piece_msg`. -/
def PieceMsg.matchesBlock (msg : PieceMsg) (b : BlockRequest) : Bool :=
  decide (b.len = msg.blocklen ∧ b.begin = msg.begin.toNat)

/-- The number of blocks that have not arrived. -/
def pendingBlocks (blocks : List BlockRequest) : Nat := blocks.countP fun b => !b.completed

/-- The counter of a request is right, and it is a `uint32_t`. -/
structure PieceRequest.Accounted (r : PieceRequest) : Prop where
  left : r.blocksLeft = pendingBlocks r.blockRequests
  word : r.blocksLeft < 2 ^ 32

/-! ## One request -/

/-- Marking a block that is there already changes nothing in the count, marking
a new one takes it off. -/
theorem markBlock_pending (msg : PieceMsg) (blocks : List BlockRequest) :
    (blocks.find? msg.matchesBlock = none ∧ markBlock msg blocks = none) ∨
    ∃ b blocks', blocks.find? msg.matchesBlock = some b ∧ markBlock msg blocks = some blocks' ∧
      pendingBlocks blocks = pendingBlocks blocks' + (if b.completed then 0 else 1) := by
  induction blocks with
  | nil => exact .inl ⟨rfl, rfl⟩
  | cons b rest ih =>
    rw [markBlock, List.find?_cons]
    by_cases hmatch : b.len = msg.blocklen ∧ b.begin = msg.begin.toNat
    · right
      refine ⟨b, { b with completed := true } :: rest, ?_, if_pos hmatch, ?_⟩
      · rw [PieceMsg.matchesBlock, decide_eq_true hmatch]
      · cases hdone : b.completed with
        | true => simp [pendingBlocks, hdone]
        | false => simp [pendingBlocks, hdone]
    · rw [if_neg hmatch, PieceMsg.matchesBlock, decide_eq_false hmatch]
      rcases ih with ⟨hnone, hmark⟩ | ⟨c, rest', hsome, hmark, hcount⟩
      · left
        exact ⟨hnone, by rw [hmark]; rfl⟩
      · right
        refine ⟨c, b :: rest', hsome, by rw [hmark]; rfl, ?_⟩
        simp only [pendingBlocks, List.countP_cons] at hcount ⊢
        omega

theorem wordSub_one_ne (a : Nat) : wordSub a 1 ≠ a := by
  unfold wordSub
  omega

/-- The message repeats no block of the request. -/
def PieceMsg.NewTo (msg : PieceMsg) (r : PieceRequest) : Prop :=
  ∀ b, r.blockRequests.find? msg.matchesBlock = some b → b.completed = false

/-- **The counter survives a message exactly when the message is new.** -/
theorem countBlock_accounted_iff {msg : PieceMsg} {r : PieceRequest} (h : r.Accounted) :
    (countBlock msg r).Accounted ↔ msg.NewTo r := by
  have hleft := h.left
  have hword := h.word
  rw [PieceMsg.NewTo, countBlock]
  rcases markBlock_pending msg r.blockRequests with
    ⟨hnone, hmark⟩ | ⟨b, blocks', hsome, hmark, hcount⟩
  · rw [hnone, hmark]
    refine ⟨fun _ b hb => ?_, fun _ => h⟩
    cases hb
  · rw [hsome, hmark]
    constructor
    · intro hacc b' hb'
      cases hb'
      have hleft' : wordSub r.blocksLeft 1 = pendingBlocks blocks' := hacc.left
      cases hdone : b.completed with
      | false => rfl
      | true =>
        rw [hdone, if_pos rfl, Nat.add_zero, ← hleft] at hcount
        exact absurd (hleft'.trans hcount.symm) (wordSub_one_ne _)
    · intro hnew
      rw [hnew b rfl] at hcount
      simp only [Bool.false_eq_true, if_false] at hcount
      have hsub : wordSub r.blocksLeft 1 = r.blocksLeft - 1 := wordSub_of_le (by omega) hword
      constructor
      · show wordSub r.blocksLeft 1 = pendingBlocks blocks'
        omega
      · show wordSub r.blocksLeft 1 < 2 ^ 32
        omega

/-- A right counter is zero when everything has arrived. -/
theorem PieceRequest.Accounted.zero_iff {r : PieceRequest} (h : r.Accounted) :
    r.blocksLeft = 0 ↔ ∀ b ∈ r.blockRequests, b.completed = true := by
  rw [h.left, pendingBlocks, List.countP_eq_zero]
  simp

/-- A block that has not arrived is counted. -/
theorem PieceRequest.Accounted.pos {msg : PieceMsg} {r : PieceRequest} (h : r.Accounted)
    (hnew : msg.NewTo r) (hfound : (r.blockRequests.find? msg.matchesBlock).isSome) :
    1 ≤ r.blocksLeft := by
  obtain ⟨b, hb⟩ := Option.isSome_iff_exists.mp hfound
  rw [h.left, pendingBlocks]
  refine List.countP_pos_iff.mpr ⟨b, List.mem_of_find?_eq_some hb, ?_⟩
  rw [hnew b hb]
  rfl

/-- A new request, unless it has more blocks than the counter can hold. -/
theorem created_accounted_iff {torrent : Metainfo} {index : UInt32} {r : PieceRequest}
    (h : pieceRequestCreate torrent index = .ok r) :
    r.Accounted ↔ r.blockRequests.length < 2 ^ 32 := by
  have hsch := scheduled_of_create h
  have hpending : pendingBlocks r.blockRequests = r.blockRequests.length := by
    rw [pendingBlocks, List.countP_eq_length]
    intro b hb
    obtain ⟨j, hj⟩ := List.mem_iff_getElem?.mp hb
    rw [(hsch.schedule.block j b hj).1.fresh]
    rfl
  have hcount := hsch.count
  constructor
  · intro hacc
    have := hacc.left
    have := hacc.word
    omega
  · intro hlt
    rw [Nat.mod_eq_of_lt hlt] at hcount
    exact ⟨by omega, by omega⟩

/-! ## The call -/

/-- The pieces a call has verified, in order. -/
def hashedPieces (events : List Event) : List UInt32 :=
  events.filterMap fun
    | .hashed index _ => some index
    | _ => none

theorem hashedPieces_append (events more : List Event) :
    hashedPieces (events ++ more) = hashedPieces events ++ hashedPieces more :=
  List.filterMap_append

theorem handlePieceDlCompletion_hashes {torrent : Metainfo} {sock sock' : Socket}
    {sh sh' : Shared} {index : UInt32} {events : List Event}
    (h : handlePieceDlCompletion torrent sock sh index = .ok (sock', sh', events)) :
    hashedPieces events = [] := by
  obtain ⟨_, -, h⟩ := (seq_returns_iff _ _ _).mp h
  obtain ⟨⟨sh₁, completed⟩, -, h⟩ := (seq_returns_iff _ _ _).mp h
  obtain ⟨⟨ok, sock₁⟩, -, h⟩ := (seq_returns_iff _ _ _).mp h
  cases completed with
  | true =>
    cases h
    rfl
  | false =>
    cases h
    rfl

theorem finishPiece_hashes {sha1 : List UInt8 → List UInt8} {torrent : Metainfo} {disk : Disk}
    {sock sock' : Socket} {sh sh' : Shared} {index : UInt32} {events : List Event}
    (h : finishPiece sha1 torrent disk sock sh index = .ok (sock', sh', events)) :
    hashedPieces events = [index] := by
  obtain ⟨⟨valid, bytes⟩, -, h⟩ := (seq_returns_iff _ _ _).mp h
  cases valid with
  | true =>
    obtain ⟨⟨sock₁, sh₁, events₁⟩, hdone, h⟩ := (seq_returns_iff _ _ _).mp h
    cases h
    show index :: hashedPieces events₁ = [index]
    rw [handlePieceDlCompletion_hashes hdone]
  | false =>
    cases h
    rfl

/-- The requests that the outer loop verifies on its way. -/
def verifiedBy (msg : PieceMsg) (requests : List PieceRequest) : List PieceRequest :=
  requests.filter fun r => decide (r.pieceIndex = msg.index ∧ r.blocksLeft = 0)

/-- Whatever happens outside, the requests are counted, and the ones that are
verified are those of the piece whose counter is zero then. -/
theorem processPieceMsg_counts {sha1 : List UInt8 → List UInt8} {torrent : Metainfo} {disk : Disk}
    {msg : PieceMsg} (requests : List PieceRequest) :
    ∀ {sock sock' : Socket} {sh sh' : Shared} {requests' : List PieceRequest}
      {events : List Event},
      processPieceMsg sha1 torrent disk msg requests sock sh
        = .ok (requests', sock', sh', events) →
      requests' = countBlocks msg requests ∧
        hashedPieces events = (verifiedBy msg requests').map PieceRequest.pieceIndex := by
  induction requests with
  | nil =>
    intro sock sock' sh sh' requests' events h
    cases h
    exact ⟨rfl, rfl⟩
  | cons curr rest ih =>
    intro sock sock' sh sh' requests' events h
    rw [countBlocks_cons]
    rcases processPieceMsg_cons h with ⟨rest', hother, rfl, hrest⟩ |
      ⟨rest', hmatch, rfl, hleft, hrest⟩ |
      ⟨rest', sock₁, sh₁, finished, more, hmatch, rfl, hzero, hfinish, hrest, rfl⟩
    · obtain ⟨hcount, hhashed⟩ := ih hrest
      rw [if_neg hother]
      refine ⟨by rw [hcount], ?_⟩
      rw [verifiedBy, List.filter_cons_of_neg (by simp [hother])]
      exact hhashed
    · obtain ⟨hcount, hhashed⟩ := ih hrest
      rw [if_pos hmatch]
      refine ⟨by rw [hcount], ?_⟩
      rw [verifiedBy, List.filter_cons_of_neg (by simp [hleft])]
      exact hhashed
    · obtain ⟨hcount, hhashed⟩ := ih hrest
      have hindex : (countBlock msg curr).pieceIndex = msg.index := by
        rw [countBlock_pieceIndex, hmatch]
      rw [if_pos hmatch]
      refine ⟨by rw [hcount], ?_⟩
      rw [hashedPieces_append, finishPiece_hashes hfinish, hhashed, verifiedBy, verifiedBy,
        List.filter_cons_of_pos (by simp [hindex, hzero]), List.map_cons, hindex]
      rfl

/-! ## Runs -/

/-- A call of `process_piece_msg`: the message, and what the call finds outside
`local_requests`. -/
structure PieceCall where
  msg : PieceMsg
  disk : Disk
  sock : Socket
  sh : Shared

/-- What happens to `local_requests`: `send_requests` appends a new request, a
block is handled. -/
inductive RequestAction where
  | create (index : UInt32)
  | piece (call : PieceCall)

/-- `local_requests` after the action; a call that faults has no next state. -/
def requestStep (sha1 : List UInt8 → List UInt8) (torrent : Metainfo)
    (requests : List PieceRequest) : RequestAction → Option (List PieceRequest)
  | .create index => (pieceRequestCreate torrent index).toOption.map fun r => requests ++ [r]
  | .piece call =>
    (processPieceMsg sha1 torrent call.disk call.msg requests call.sock call.sh).toOption.map
      Prod.fst

/-- A block takes a request from one to zero, not below. -/
def NeverBelowZero (requests : List PieceRequest) (call : PieceCall) : Prop :=
  ∀ r ∈ requests, r.pieceIndex = call.msg.index →
    (r.blockRequests.find? call.msg.matchesBlock).isSome → 1 ≤ r.blocksLeft

/-- The call verifies the requests of the piece whose blocks are all there. -/
def VerifiesComplete (sha1 : List UInt8 → List UInt8) (torrent : Metainfo)
    (requests : List PieceRequest) (call : PieceCall) : Prop :=
  ∀ requests' sock' sh' events,
    processPieceMsg sha1 torrent call.disk call.msg requests call.sock call.sh
      = .ok (requests', sock', sh', events) →
    hashedPieces events = (requests'.filter fun r =>
      decide (r.pieceIndex = call.msg.index ∧ ∀ b ∈ r.blockRequests, b.completed = true)).map
        PieceRequest.pieceIndex

/-- No block is counted twice, and no request has more blocks than its counter
can hold. -/
def CountsOnce (torrent : Metainfo) (requests : List PieceRequest) : RequestAction → Prop
  | .create index =>
    ∀ r, pieceRequestCreate torrent index = .ok r → r.blockRequests.length < 2 ^ 32
  | .piece call => ∀ r ∈ requests, r.pieceIndex = call.msg.index → call.msg.NewTo r

/-- Every counter is right. -/
def AllAccounted (requests : List PieceRequest) : Prop := ∀ r ∈ requests, r.Accounted

/-- The accounting along a run: `blocks_left` of every request is the number of
its blocks that have not arrived, no message takes it below zero, and only
complete pieces are verified. -/
def BlocksAccounted (sha1 : List UInt8 → List UInt8) (torrent : Metainfo)
    (actions : List RequestAction) : Prop :=
  ∀ before requests, before <+: actions →
    Run (requestStep sha1 torrent) unguarded [] before requests →
    AllAccounted requests ∧ ∀ call, before ++ [.piece call] <+: actions →
      NeverBelowZero requests call ∧ VerifiesComplete sha1 torrent requests call

/-! ## The accounting along a run -/

theorem countBlocks_accounted_iff {msg : PieceMsg} {requests : List PieceRequest}
    (h : AllAccounted requests) :
    AllAccounted (countBlocks msg requests) ↔
      ∀ r ∈ requests, r.pieceIndex = msg.index → msg.NewTo r := by
  rw [AllAccounted, countBlocks, List.forall_mem_map]
  constructor
  · intro hall r hr hindex
    have hr' := hall r hr
    rw [if_pos hindex] at hr'
    exact (countBlock_accounted_iff (h r hr)).mp hr'
  · intro hnew r hr
    by_cases hindex : r.pieceIndex = msg.index
    · rw [if_pos hindex]
      exact (countBlock_accounted_iff (h r hr)).mpr (hnew r hr hindex)
    · rw [if_neg hindex]
      exact h r hr

variable {sha1 : List UInt8 → List UInt8} {torrent : Metainfo}

/-- **One action** keeps the counters right exactly when it counts once. -/
theorem requestStep_accounted_iff {requests requests' : List PieceRequest} {a : RequestAction}
    (h : AllAccounted requests) (hstep : requestStep sha1 torrent requests a = some requests') :
    AllAccounted requests' ↔ CountsOnce torrent requests a := by
  cases a with
  | create index =>
    obtain ⟨r, hr, rfl⟩ := returns_of_observed hstep
    have hsame : AllAccounted (requests ++ [r]) ↔ r.Accounted := by
      rw [AllAccounted, List.forall_mem_append, List.forall_mem_singleton]
      exact and_iff_right h
    rw [hsame, created_accounted_iff hr]
    constructor
    · intro hlt r' hr'
      rw [hr] at hr'
      cases hr'
      exact hlt
    · intro hcount
      exact hcount r hr
  | piece call =>
    obtain ⟨⟨requests₁, sock', sh', events⟩, hcall, rfl⟩ := returns_of_observed hstep
    obtain ⟨rfl, -⟩ := processPieceMsg_counts requests hcall
    exact countBlocks_accounted_iff h

/-- With right counters before and after it, a call does not pass zero and
verifies complete pieces only. -/
theorem piece_call_verifies {requests requests' : List PieceRequest} {call : PieceCall}
    (h : AllAccounted requests)
    (hstep : requestStep sha1 torrent requests (.piece call) = some requests')
    (h' : AllAccounted requests') :
    NeverBelowZero requests call ∧ VerifiesComplete sha1 torrent requests call := by
  constructor
  · have hnew : ∀ r ∈ requests, r.pieceIndex = call.msg.index → call.msg.NewTo r :=
      (requestStep_accounted_iff h hstep).mp h'
    intro r hr hindex hfound
    exact (h r hr).pos (hnew r hr hindex) hfound
  · intro requests₁ sock' sh' events hcall
    have heq : requests₁ = requests' := by
      rw [requestStep, hcall] at hstep
      exact Option.some.inj hstep
    obtain ⟨-, hhashed⟩ := processPieceMsg_counts requests hcall
    rw [hhashed, verifiedBy]
    congr 1
    apply List.filter_congr
    intro r hr
    rw [heq] at hr
    rw [decide_eq_decide, (h' r hr).zero_iff]

/-- **Block accounting.** A run of new requests and piece messages is accounted
for exactly when no message repeats a block and no request has more blocks than
a `uint32_t` can count. -/
theorem block_accounting_iff {actions : List RequestAction} {last : List PieceRequest}
    (hrun : Run (requestStep sha1 torrent) unguarded [] actions last) :
    BlocksAccounted sha1 torrent actions ↔
      Run (requestStep sha1 torrent) (CountsOnce torrent) [] actions last := by
  have hexact := hrun.exact fun _ _ _ h hstep => requestStep_accounted_iff h hstep
  constructor
  · intro hall
    exact (hexact.mp fun before requests hpre hreach => (hall before requests hpre hreach).1).2
  · intro hguarded before requests hpre hreach
    have hacc := hexact.mpr ⟨by simp [AllAccounted], hguarded⟩
    refine ⟨hacc before requests hpre hreach, fun call hcall => ?_⟩
    obtain ⟨requests', hreach'⟩ := hrun.beginning hcall
    have hstep := hreach.last hreach'
    exact piece_call_verifies (hacc before requests hpre hreach) hstep
      (hacc _ requests' hcall hreach')

instance (msg : PieceMsg) (r : PieceRequest) : Decidable (msg.NewTo r) :=
  inferInstanceAs (Decidable (∀ b ∈ r.blockRequests.find? msg.matchesBlock, b.completed = false))

instance (requests : List PieceRequest) (a : RequestAction) :
    Decidable (CountsOnce torrent requests a) :=
  match a with
  | .create index =>
    match hcreate : pieceRequestCreate torrent index with
    | .error e => .isTrue fun r hr => by cases hcreate.symm.trans hr
    | .ok r => decidable_of_iff (r.blockRequests.length < 2 ^ 32)
        ⟨fun hlt r' hr' => by cases hcreate.symm.trans hr'; exact hlt, fun h => h r hcreate⟩
  | .piece call =>
    inferInstanceAs
      (Decidable (∀ r ∈ requests, r.pieceIndex = call.msg.index → call.msg.NewTo r))

/-- One piece of two blocks, the second one of five bytes. -/
def twoBlocks : Metainfo where
  announce := none
  announceList := []
  info := ⟨.infoSingle, 32768, [], 1, [[]], 16389, 1, []⟩
  infoHash := []
  maxPeers := 50
  sh := sharedInit 1
  files := [⟨16389, []⟩]

/-- A block of the first piece, on a connection that takes everything. -/
def firstPiece (start : UInt32) (len : Nat) : RequestAction :=
  .piece ⟨⟨0, start, len⟩, [], ⟨[], [], fun _ => some 65536, fun _ => some 65536⟩, sharedInit 1⟩

/-- Both blocks, the last one first, and between them one that was not requested. -/
def reordered : List RequestAction :=
  [.create 0, firstPiece 16384 5, firstPiece 7 7, firstPiece 0 16384]

theorem block_accounting_reordered :
    (∃ last, Run (requestStep (fun _ => []) twoBlocks) unguarded [] reordered last) ∧
      BlocksAccounted (fun _ => []) twoBlocks reordered := by
  have hexec : (exec (requestStep (fun _ => []) twoBlocks) (CountsOnce twoBlocks) []
      reordered).isSome = true := by
    decide +kernel
  obtain ⟨last, hlast⟩ := Option.isSome_iff_exists.mp hexec
  have hrun := Run.of_exec _ hlast
  have hfree : Run (requestStep (fun _ => []) twoBlocks) unguarded [] reordered last :=
    hrun.mono fun _ _ _ => trivial
  exact ⟨⟨last, hfree⟩, (block_accounting_iff hfree).mpr hrun⟩

/-- The first block twice. -/
def repeated : List RequestAction := [.create 0, firstPiece 0 16384, firstPiece 0 16384]

/-- After the second time the counter is zero, and a block is missing. -/
theorem block_accounting_repeated : ¬ BlocksAccounted (fun _ => []) twoBlocks repeated := by
  intro hall
  have hexec : (exec (requestStep (fun _ => []) twoBlocks) unguarded [] repeated).map
      (fun requests => requests.map fun r => (r.blocksLeft, pendingBlocks r.blockRequests))
      = some [(0, 1)] := by
    decide +kernel
  obtain ⟨last, hlast, hcounts⟩ := Option.map_eq_some_iff.mp hexec
  obtain ⟨r, hr, hpair⟩ := List.mem_map.mp (hcounts ▸ List.mem_singleton_self _)
  have hleft := ((hall _ last (List.prefix_refl _) (Run.of_exec _ hlast)).1 r hr).left
  rw [Prod.mk.injEq] at hpair
  omega

end BtClient

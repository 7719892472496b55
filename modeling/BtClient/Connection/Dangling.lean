import BtClient.Connection.PieceMsg
import BtClient.Lib.Transition
import BtClient.PieceRequest.Extent
import BtClient.PieceRequest.Leak

/-!
# The blocks of a request are freed before they arrive

`send_requests` copies the request it has made into `local_requests` and then
frees the original. The copy keeps the pointer to the array of blocks, and that
array is gone: so `process_piece_msg` reads freed memory whenever a block of
the requested piece arrives, before it has counted it. The other models read
there what the array held when it was freed.

Here are the calls of a connection that allocate, on the heap of
`PieceRequest.Memory`. What they find outside of it (the index
`torrent_next_request` picked, the frames of the peer, whether a send or a
receive went through) is in the actions. `local_requests` is a list: nothing is
ever taken out of it, and it has at most one element.
-/

namespace BtClient

open CLib

/-! ## The calls -/

/-- The inner loop of `send_requests`, with `left` blocks from `j` on: whether
every send went through. -/
def Memory.sendLoop (m : Memory) (header : DaHeader) (sent : Nat → Bool) :
    Nat → Nat → Except MemFault Bool
  | 0, _ => .ok true
  | left + 1, j => do
    let _ ← daGet m.blocks header j
    if sent j then Memory.sendLoop m header sent left (j + 1) else return false

/-- The outer loop of `torrent_sha1_verify`, with `left` blocks from `i` on: the
slices it hashes. -/
def Memory.hashLoop (m : Memory) (header : DaHeader) :
    Nat → Nat → Except MemFault (List FileMem)
  | 0, _ => .ok []
  | left + 1, i => do
    let br ← daGet m.blocks header i
    let mems ← m.slices br
    return mems ++ (← Memory.hashLoop m header left (i + 1))

/-- `torrent_sha1_verify(torrent, piece_index)`, as far as the heap goes. -/
def Memory.torrentSha1Verify (m : Memory) (torrent : Metainfo) (pieceIndex : UInt32) :
    Except MemFault Memory := do
  ofFault (check (pieceIndex.toNat < torrent.info.numPieces))
  let (pr, m) ← m.pieceRequestCreate torrent pieceIndex
  let request ← m.requests.load pr
  let header ← m.headers.load request.blockRequests
  let _ ← m.hashLoop header header.len 0
  m.pieceRequestFree pr

/-- The inner loop of `process_piece_msg`, with `left` blocks from `j` on:
whether a block was counted. -/
def Memory.countBlock (msg : PieceMsg) (header : DaHeader) :
    Nat → Nat → Memory → Except MemFault (Bool × Memory)
  | 0, _, m => .ok (false, m)
  | left + 1, j, m => do
    let br ← daGet m.blocks header j
    if br.len = msg.blocklen ∧ br.begin = msg.begin.toNat then
      let cells ← m.blocks.load header.values
      let blocks ← m.blocks.store header.values (cells.set j (some { br with completed := true }))
      return (true, { m with blocks := blocks })
    else Memory.countBlock msg header left (j + 1) m

/-- The end of a round of `process_piece_msg`. -/
def Memory.verifyIfDone (m : Memory) (torrent : Metainfo) (curr : RequestCell) :
    Except MemFault Memory :=
  if curr.blocksLeft = 0 then m.torrentSha1Verify torrent curr.pieceIndex else .ok m

/-- `process_piece_msg`: the loop over `local_requests`. -/
def Memory.processPieceMsg (torrent : Metainfo) (msg : PieceMsg) :
    List RequestCell → Memory → Except MemFault (List RequestCell × Memory)
  | [], m => .ok ([], m)
  | curr :: rest, m =>
    if curr.pieceIndex = msg.index then do
      let header ← m.headers.load curr.blockRequests
      let (counted, m) ← Memory.countBlock msg header header.len 0 m
      let curr := if counted then { curr with blocksLeft := wordSub curr.blocksLeft 1 } else curr
      let m ← m.verifyIfDone torrent curr
      let (rest, m) ← Memory.processPieceMsg torrent msg rest m
      return (curr :: rest, m)
    else do
      let (rest, m) ← Memory.processPieceMsg torrent msg rest m
      return (curr :: rest, m)

/-- A connection and the heap. -/
structure HeapConn where
  memory : Memory
  localRequests : List RequestCell
  opened : Bool

/-- `send_requests`, with the index `torrent_next_request` returned. A send that
fails leaves before `piece_request_free`, and the connection is closed. -/
def HeapConn.sendRequests (torrent : Metainfo) (c : HeapConn) (index : UInt32)
    (sent : Nat → Bool) : Except MemFault HeapConn :=
  if 1 ≤ c.localRequests.length then .ok c
  else do
    let (request, m) ← c.memory.pieceRequestCreate torrent index
    let copy ← m.requests.load request
    let header ← m.headers.load copy.blockRequests
    if ← m.sendLoop header sent header.len 0 then
      let m ← m.pieceRequestFree request
      return ⟨m, c.localRequests ++ [copy], true⟩
    else return ⟨m, c.localRequests ++ [copy], false⟩

/-- `peer_msg_recv_piece` from the header of the frame on; a block that is not
found leaves without `piece_request_free`. -/
def HeapConn.peerMsgRecvPiece (torrent : Metainfo) (c : HeapConn) (index begin : UInt32)
    (stored : Bool) : Except MemFault HeapConn := do
  let (pr, m) ← c.memory.pieceRequestCreate torrent index
  let request ← m.requests.load pr
  match ← m.pieceRequestBlockAt request begin.toNat with
  | none => return ⟨m, c.localRequests, false⟩
  | some br =>
    let _ ← m.slices br
    let m ← m.pieceRequestFree pr
    return ⟨m, c.localRequests, stored⟩

/-- The calls that use the heap. -/
inductive HeapAction where
  | sendRequests (index : UInt32) (sent : Nat → Bool)
  | receive (index begin : UInt32) (stored : Bool)
  | process (msg : PieceMsg)

/-- One of them. -/
def HeapConn.call (torrent : Metainfo) (c : HeapConn) : HeapAction → Except MemFault HeapConn
  | .sendRequests index sent => c.sendRequests torrent index sent
  | .receive index begin stored => c.peerMsgRecvPiece torrent index begin stored
  | .process msg => do
    let (requests, m) ← Memory.processPieceMsg torrent msg c.localRequests c.memory
    return { c with localRequests := requests, memory := m }

/-- One step: a call that returns, on a connection that is still open. -/
def HeapConn.step (torrent : Metainfo) (c : HeapConn) (a : HeapAction) : Option HeapConn :=
  if c.opened then (c.call torrent a).toOption else none

/-! ## Requests that are created and freed -/

/-- The number of blocks of a piece. -/
def blockCount (torrent : Metainfo) (index : UInt32) : Nat :=
  match pieceRequestCreate torrent index with
  | .ok pr => pr.blockRequests.length
  | .error _ => 0

/-- The heap has grown: nothing that was reachable has changed, and at least
`n` headers were added. -/
structure Memory.Grown (m m' : Memory) (n : Nat) : Prop where
  headers : Heap.Keeps m.headers.cells.length m.headers m'.headers
  blocks : Heap.Keeps m.blocks.cells.length m.blocks m'.blocks
  leaked : m.headers.live + n ≤ m'.headers.live

theorem Memory.Grown.refl (m : Memory) : m.Grown m 0 := ⟨.refl _ _, .refl _ _, Nat.le_refl _⟩

theorem Memory.Grown.trans {m m₁ m₂ : Memory} {n n' : Nat} (h : m.Grown m₁ n)
    (h' : m₁.Grown m₂ n') : m.Grown m₂ (n + n') := by
  refine ⟨h.headers.trans ⟨h'.headers.length, fun a ha => h'.headers.get a ?_⟩,
    h.blocks.trans ⟨h'.blocks.length, fun a ha => h'.blocks.get a ?_⟩, ?_⟩
  · exact Nat.lt_of_lt_of_le ha h.headers.length
  · exact Nat.lt_of_lt_of_le ha h.blocks.length
  · have hfirst := h.leaked
    have hsecond := h'.leaked
    omega

section Requests

variable {torrent : Metainfo} {m₀ m m' : Memory} {header : DaHeader} {cells : List BlockCell}
  {pr : PieceRequest} {r n : Nat}

theorem Memory.Created.grown (h : m₀.Created m r pr header cells) :
    m₀.Grown m (pr.blockRequests.length + 1) := by
  refine ⟨h.headersKept, h.blocksKept, ?_⟩
  have hlive := h.headersLive
  have hcount := h.held.length_eq
  omega

theorem Memory.Released.grown (h : m₀.Released m header n) : m₀.Grown m (n + 1) := by
  refine ⟨h.headersKept, h.blocksKept, ?_⟩
  have hlive := h.headersLive
  omega

/-- `piece_request_create` returns a request, or faults like the model. -/
theorem Memory.create_cases (m : Memory) (torrent : Metainfo) (index : UInt32) :
    (∃ f, m.pieceRequestCreate torrent index = .error (.fault f)) ∨
    ∃ pr m' header cells, BtClient.pieceRequestCreate torrent index = .ok pr ∧
      pr.pieceIndex = index ∧ blockCount torrent index = pr.blockRequests.length ∧
      m.pieceRequestCreate torrent index = .ok (m.requests.cells.length, m') ∧
      m.Created m' m.requests.cells.length pr header cells := by
  have hcreate := m.pieceRequestCreate_holds torrent index
  cases hpr : BtClient.pieceRequestCreate torrent index with
  | error f =>
    rw [hpr] at hcreate
    exact .inl ⟨f, hcreate⟩
  | ok pr =>
    rw [hpr] at hcreate
    obtain ⟨m', header, cells, hcall, hcreated⟩ := hcreate
    have hindex : pr.pieceIndex = index := by
      obtain ⟨_, -, hpr⟩ := (seq_returns_iff _ _ _).mp hpr
      obtain ⟨_, -, hpr⟩ := (seq_returns_iff _ _ _).mp hpr
      cases hpr
      rfl
    exact .inr ⟨pr, m', header, cells, rfl, hindex, by rw [blockCount, hpr], hcall, hcreated⟩

theorem Memory.sendLoop_returns {da : Nat} (sent : Nat → Bool) (rest : List BlockCell) :
    ∀ (done : List BlockCell), DaHolds m.headers m.blocks da header (done ++ rest) →
      ∃ ok, m.sendLoop header sent rest.length done.length = .ok ok := by
  induction rest with
  | nil => exact fun done _ => ⟨true, rfl⟩
  | cons cell rest ih =>
    intro done h
    have hcell := h.daGet_next
    rw [List.length_cons, Memory.sendLoop, hcell, ok_bind]
    by_cases hsent : sent done.length = true
    · have hrest := ih (done ++ [cell]) (by rwa [List.append_assoc, List.singleton_append])
      rw [List.length_append, List.length_singleton] at hrest
      rw [if_pos hsent]
      exact hrest
    · rw [if_neg hsent]
      exact ⟨false, rfl⟩

theorem Memory.hashLoop_returns {da : Nat} {rest : List BlockCell} {blocks : List BlockRequest}
    (hheld : List.Forall₂ m.BlockHeld rest blocks) :
    ∀ (done : List BlockCell), DaHolds m.headers m.blocks da header (done ++ rest) →
      m.hashLoop header rest.length done.length = .ok (blocks.flatMap BlockRequest.filemems) := by
  induction hheld with
  | nil => exact fun done _ => rfl
  | @cons cell block rest blocks hblock _ ih =>
    intro done h
    have hcell := h.daGet_next
    have hrest := ih (done ++ [cell]) (by rwa [List.append_assoc, List.singleton_append])
    rw [List.length_append, List.length_singleton] at hrest
    rw [List.length_cons, Memory.hashLoop, hcell, ok_bind, hblock.reads, ok_bind, hrest]
    rfl

/-- **`torrent_sha1_verify`** reads only what it has allocated, and leaks the
headers. -/
theorem Memory.verify_cases (m : Memory) (torrent : Metainfo) (index : UInt32) :
    (∃ f, m.torrentSha1Verify torrent index = .error (.fault f)) ∨
    ∃ m', m.torrentSha1Verify torrent index = .ok m' ∧ m.Grown m' 0 := by
  unfold Memory.torrentSha1Verify
  cases hcheck : check (index.toNat < torrent.info.numPieces) with
  | error f => exact .inl ⟨f, rfl⟩
  | ok _ =>
    rw [ofFault_ok, ok_bind]
    rcases m.create_cases torrent index with
      ⟨f, hfault⟩ | ⟨pr, m₁, header, cells, -, -, -, hcall, hnew⟩
    · rw [hfault]
      exact .inl ⟨f, rfl⟩
    · obtain ⟨m₂, hfree, hreleased⟩ := hnew.free
      have hhash := Memory.hashLoop_returns hnew.held [] hnew.array
      rw [List.length_nil] at hhash
      rw [hcall, ok_bind]
      simp only
      rw [Heap.load_eq hnew.request, ok_bind, Heap.load_eq hnew.array.found, ok_bind,
        hnew.array.len, hhash, ok_bind, hfree]
      refine .inr ⟨m₂, rfl, hreleased.headersKept, hreleased.blocksKept, ?_⟩
      have hlive := hreleased.headersLive
      omega

end Requests

/-! ## The copies in `local_requests` -/

/-- A copy whose array of blocks is gone. -/
structure Memory.Dangles (torrent : Metainfo) (m : Memory) (r : RequestCell) : Prop where
  intro ::
  header : ∃ header, m.headers.get r.blockRequests = some header ∧
    header.len = blockCount torrent r.pieceIndex ∧ m.blocks.Freed header.values

section Dangling

variable {torrent : Metainfo} {m m' : Memory} {r : RequestCell} {n : Nat}

/-- It stays gone. -/
theorem Memory.Dangles.grown (h : m.Dangles torrent r) (hgrown : m.Grown m' n) :
    m'.Dangles torrent r := by
  obtain ⟨header, hget, hlen, hfreed⟩ := h.header
  refine ⟨header, ?_, hlen, Nat.lt_of_lt_of_le hfreed.1 hgrown.blocks.length, ?_⟩
  · rw [hgrown.headers.get _ (Heap.lt_of_get hget), hget]
  · rw [hgrown.blocks.get _ hfreed.1]
    exact hfreed.2

/-- **`process_piece_msg` reads freed memory** exactly if the message is for a
requested piece that has blocks. Where it returns nothing was counted. -/
theorem Memory.processPieceMsg_dangles (msg : PieceMsg) (requests : List RequestCell) :
    ∀ {m : Memory}, (∀ r ∈ requests, m.Dangles torrent r) →
      (Memory.processPieceMsg torrent msg requests m = .error .freed ↔
        (∃ r ∈ requests, r.pieceIndex = msg.index) ∧ blockCount torrent msg.index ≠ 0) ∧
      ∀ requests' m', Memory.processPieceMsg torrent msg requests m = .ok (requests', m') →
        requests' = requests ∧ m.Grown m' 0 := by
  induction requests with
  | nil =>
    intro m _
    refine ⟨⟨?_, ?_⟩, ?_⟩
    · intro h
      cases h
    · rintro ⟨⟨r, hr, -⟩, -⟩
      exact absurd hr List.not_mem_nil
    · intro requests' m' h
      cases h
      exact ⟨rfl, .refl m⟩
  | cons curr rest ih =>
    intro m hall
    obtain ⟨header, hget, hlen, hfreed⟩ := (hall curr List.mem_cons_self).header
    have hrest : ∀ r ∈ rest, m.Dangles torrent r :=
      fun r hr => hall r (List.mem_cons_of_mem curr hr)
    unfold Memory.processPieceMsg
    by_cases hmatch : curr.pieceIndex = msg.index
    · rw [if_pos hmatch, Heap.load_eq hget, ok_bind, hlen, hmatch]
      cases hcount : blockCount torrent msg.index with
      | succ left =>
        -- the first round of the inner loop
        have hload : daGet m.blocks header 0 = .error .freed := by
          rw [daGet, Heap.load_freed hfreed.2]
          rfl
        rw [Memory.countBlock, hload]
        refine ⟨⟨fun _ => ⟨⟨curr, List.mem_cons_self, hmatch⟩, by omega⟩, fun _ => rfl⟩, ?_⟩
        intro requests' m' h
        cases h
      | zero =>
        rw [Memory.countBlock, ok_bind]
        simp only [Bool.false_eq_true, if_false]
        -- a piece without blocks is verified at once
        have hverify : (∃ f, m.verifyIfDone torrent curr = .error (.fault f)) ∨
            ∃ m₁, m.verifyIfDone torrent curr = .ok m₁ ∧ m.Grown m₁ 0 := by
          unfold Memory.verifyIfDone
          split
          · exact m.verify_cases torrent curr.pieceIndex
          · exact .inr ⟨m, rfl, .refl m⟩
        rcases hverify with ⟨f, hfault⟩ | ⟨m₁, hok, hgrown⟩
        · rw [hfault]
          refine ⟨⟨?_, fun h => absurd rfl h.2⟩, ?_⟩
          · intro h
            cases h
          · intro requests' m' h
            cases h
        · obtain ⟨hrestFault, hrestOk⟩ := ih (m := m₁) fun r hr => (hrest r hr).grown hgrown
          rw [hok, ok_bind]
          simp only [pure_is_ok]
          rw [then_ok_faults_iff, hrestFault, hcount]
          refine ⟨⟨fun h => absurd rfl h.2, fun h => absurd rfl h.2⟩, fun requests' m' h => ?_⟩
          obtain ⟨⟨rest', m₂⟩, hcall, hresult⟩ := (seq_returns_iff _ _ _).mp h
          obtain ⟨rfl, hmore⟩ := hrestOk rest' m₂ hcall
          cases hresult
          exact ⟨rfl, hgrown.trans hmore⟩
    · rw [if_neg hmatch]
      obtain ⟨hrestFault, hrestOk⟩ := ih hrest
      simp only [pure_is_ok]
      rw [then_ok_faults_iff, hrestFault]
      refine ⟨?_, fun requests' m' h => ?_⟩
      · simp only [List.mem_cons, exists_eq_or_imp, hmatch, false_or]
      · obtain ⟨⟨rest', m₂⟩, hcall, hresult⟩ := (seq_returns_iff _ _ _).mp h
        obtain ⟨rfl, hmore⟩ := hrestOk rest' m₂ hcall
        cases hresult
        exact ⟨rfl, hmore⟩

end Dangling

/-! ## Runs of a connection -/

/-- The headers a call leaves behind for certain: `peer_msg_recv_piece` makes a
request for every frame. -/
def HeapAction.leaks (torrent : Metainfo) : HeapAction → Nat
  | .receive index _ _ => blockCount torrent index + 1
  | .sendRequests _ _ | .process _ => 0

/-- While the connection is open, every copy points to an array that is gone. -/
def HeapConn.Stale (torrent : Metainfo) (c : HeapConn) : Prop :=
  c.opened = true → ∀ r ∈ c.localRequests, c.memory.Dangles torrent r

section Runs

variable {torrent : Metainfo} {c c' : HeapConn}

theorem HeapConn.Stale.grown (h : ∀ r ∈ c.localRequests, c.memory.Dangles torrent r) {n : Nat}
    (hgrown : c.memory.Grown c'.memory n) (hsame : c'.localRequests = c.localRequests) :
    c'.Stale torrent := by
  intro _ r hr
  rw [hsame] at hr
  exact (h r hr).grown hgrown

theorem HeapConn.sendRequests_stale {index : UInt32} {sent : Nat → Bool}
    (h : ∀ r ∈ c.localRequests, c.memory.Dangles torrent r)
    (hcall : c.sendRequests torrent index sent = .ok c') :
    c'.Stale torrent ∧ c.memory.Grown c'.memory 0 := by
  unfold HeapConn.sendRequests at hcall
  by_cases hfull : 1 ≤ c.localRequests.length
  · rw [if_pos hfull] at hcall
    cases hcall
    exact ⟨fun _ => h, .refl _⟩
  · rw [if_neg hfull] at hcall
    rcases c.memory.create_cases torrent index with
      ⟨f, hfault⟩ | ⟨pr, m₁, header, cells, -, hindex, hcount, hcreate, hnew⟩
    · rw [hfault] at hcall
      cases hcall
    · obtain ⟨ok, hsend⟩ := Memory.sendLoop_returns sent cells [] hnew.array
      rw [List.length_nil, ← hnew.array.len] at hsend
      rw [hcreate, ok_bind] at hcall
      simp only at hcall
      rw [Heap.load_eq hnew.request, ok_bind, Heap.load_eq hnew.array.found, ok_bind, hsend,
        ok_bind] at hcall
      have hleaves : ∀ {m₂ : Memory} {n : Nat}, c.memory.Grown m₂ (n + 1) →
          c.memory.Grown m₂ 0 :=
        fun hg => ⟨hg.headers, hg.blocks, Nat.le_trans (by omega) hg.leaked⟩
      cases ok with
      | false =>
        cases hcall
        exact ⟨fun hopen => (by cases hopen), hleaves hnew.grown⟩
      | true =>
        obtain ⟨m₂, hfree, hreleased⟩ := hnew.free
        rw [if_pos rfl, hfree] at hcall
        cases hcall
        refine ⟨fun _ r hr => ?_, hleaves hreleased.grown⟩
        rcases List.mem_append.mp hr with hr | hr
        · exact (h r hr).grown hreleased.grown
        · -- the copy of the request just freed
          rw [List.mem_singleton.mp hr]
          refine ⟨header, hreleased.leaked, ?_, hreleased.dangling⟩
          rw [hreleased.len, hindex, hcount]

theorem HeapConn.peerMsgRecvPiece_grown {index begin : UInt32} {stored : Bool}
    (hcall : c.peerMsgRecvPiece torrent index begin stored = .ok c') :
    c'.localRequests = c.localRequests ∧
      c.memory.Grown c'.memory (blockCount torrent index + 1) := by
  unfold HeapConn.peerMsgRecvPiece at hcall
  rcases c.memory.create_cases torrent index with
    ⟨f, hfault⟩ | ⟨pr, m₁, header, cells, -, -, hcount, hcreate, hnew⟩
  · rw [hfault] at hcall
    cases hcall
  · rw [hcreate, ok_bind] at hcall
    simp only at hcall
    rw [Heap.load_eq hnew.request, ok_bind] at hcall
    rw [hcount]
    have hblock := hnew.blockAt begin.toNat
    cases hfind : BtClient.pieceRequestBlockAt pr begin.toNat with
    | none =>
      rw [hfind] at hblock
      rw [hblock, ok_bind] at hcall
      cases hcall
      exact ⟨rfl, hnew.grown⟩
    | some block =>
      rw [hfind] at hblock
      obtain ⟨cell, hblock, hheld⟩ := hblock
      obtain ⟨m₂, hfree, hreleased⟩ := hnew.free
      rw [hblock, ok_bind] at hcall
      simp only [hheld.reads, hfree, ok_bind] at hcall
      cases hcall
      exact ⟨rfl, hreleased.grown⟩

/-- **One call.** -/
theorem HeapConn.call_stale {a : HeapAction}
    (h : ∀ r ∈ c.localRequests, c.memory.Dangles torrent r) (hcall : c.call torrent a = .ok c') :
    c'.Stale torrent ∧ c.memory.Grown c'.memory (a.leaks torrent) := by
  cases a with
  | sendRequests index sent => exact sendRequests_stale h hcall
  | receive index begin stored =>
    obtain ⟨hsame, hgrown⟩ := peerMsgRecvPiece_grown hcall
    exact ⟨.grown h hgrown hsame, hgrown⟩
  | process msg =>
    obtain ⟨⟨requests, m⟩, hprocess, hcall⟩ := (seq_returns_iff _ _ _).mp hcall
    cases hcall
    obtain ⟨rfl, hgrown⟩ := (Memory.processPieceMsg_dangles msg c.localRequests h).2 _ _ hprocess
    exact ⟨.grown h hgrown rfl, hgrown⟩

theorem HeapConn.step_cases {a : HeapAction} (h : c.step torrent a = some c') :
    c.opened = true ∧ c.call torrent a = .ok c' := by
  unfold HeapConn.step at h
  split at h
  · rename_i hopen
    cases hcall : c.call torrent a with
    | error e =>
      rw [hcall] at h
      cases h
    | ok c₁ =>
      rw [hcall] at h
      cases h
      exact ⟨hopen, rfl⟩
  · cases h

theorem HeapConn.run_stale {m₀ : Memory} {as : List HeapAction}
    (hrun : Run (HeapConn.step torrent) unguarded ⟨m₀, [], true⟩ as c) : c.Stale torrent := by
  refine hrun.invariant (fun _ r hr => absurd hr List.not_mem_nil) ?_
  intro t a u ht _ hstep
  obtain ⟨hopen, hcall⟩ := HeapConn.step_cases hstep
  exact (HeapConn.call_stale (ht hopen) hcall).1

end Runs

/-- **No block of a requested piece is counted without reading freed memory.**
In every run of a connection, whatever it was asked for and whatever the peer
sent: handling a block reads freed memory if and only if it belongs to a piece
in `local_requests` that has blocks; where the call returns, nothing was
counted. -/
theorem requested_blocks_freed {torrent : Metainfo} {m₀ : Memory} {as : List HeapAction}
    {c : HeapConn} (hrun : Run (HeapConn.step torrent) unguarded ⟨m₀, [], true⟩ as c)
    (hopen : c.opened = true) (msg : PieceMsg) :
    (c.call torrent (.process msg) = .error .freed ↔
      (∃ r ∈ c.localRequests, r.pieceIndex = msg.index) ∧ blockCount torrent msg.index ≠ 0) ∧
    ∀ c', c.call torrent (.process msg) = .ok c' → c'.localRequests = c.localRequests := by
  obtain ⟨hfault, hok⟩ :=
    Memory.processPieceMsg_dangles msg c.localRequests (HeapConn.run_stale hrun hopen)
  refine ⟨?_, fun c' h => ?_⟩
  · rw [← hfault]
    exact then_ok_faults_iff _ _ _
  · obtain ⟨⟨requests, m⟩, hcall, h⟩ := (seq_returns_iff _ _ _).mp h
    cases h
    exact (hok requests m hcall).1

/-- Nothing on the heap. -/
def emptyMemory : Memory := ⟨⟨[]⟩, ⟨[]⟩, ⟨[]⟩, ⟨[]⟩⟩

/-- The only block of a torrent of ten bytes is requested and comes. -/
def tenByteCalls : List HeapAction := [.sendRequests 0 fun _ => true, .receive 0 0 true]

theorem requested_blocks_freed_ten_bytes :
    ∃ c, Run (HeapConn.step (layout 16384 [10])) unguarded ⟨emptyMemory, [], true⟩ tenByteCalls c ∧
      c.call (layout 16384 [10]) (.process ⟨0, 0, 10⟩) = .error .freed := by
  have hexec : (exec (HeapConn.step (layout 16384 [10])) unguarded ⟨emptyMemory, [], true⟩
      tenByteCalls).map (fun c => (c.opened, c.localRequests.map RequestCell.pieceIndex)) =
      some (true, [0]) := by decide +kernel
  obtain ⟨c, hc, hobs⟩ := Option.map_eq_some_iff.mp hexec
  obtain ⟨hopen, hindexes⟩ := Prod.mk.inj hobs
  have hrun := Run.of_exec tenByteCalls hc
  refine ⟨c, hrun, (requested_blocks_freed hrun hopen ⟨0, 0, 10⟩).1.mpr ⟨?_, by decide +kernel⟩⟩
  have hmem : (0 : UInt32) ∈ c.localRequests.map RequestCell.pieceIndex := by rw [hindexes]; simp
  exact List.mem_map.mp hmem

end BtClient

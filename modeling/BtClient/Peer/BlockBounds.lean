import BtClient.Peer.Msg
import BtClient.PieceRequest.Table

/-!
# What a peer can do through `MSG_PIECE`

`peer_msg_recv_piece` takes the index and the begin of a block from the wire
and gives the index to `piece_request_create` as it is. The begin is harmless:
it is compared with the blocks of the schedule, and the slices of a scheduled
block lie inside the files. The index is not: `skip_until_index` walks to
`index * piece_length` and dereferences the `NULL` entry when the files end
before that.
-/

namespace BtClient

open CLib

/-- The stores of the loop over the slices of a block: the slice, and the
bytes written from its start on. -/
def filememStores : List FileMem → Socket → List (FileMem × List UInt8)
  | [], _ => []
  | mem :: mems, s =>
    let r := peerRecv s mem.size
    (mem, r.bytes) :: if r.ok then filememStores mems r.sock else []

/-- The stores for a block of which the index and the begin are there. -/
def blockStores (torrent : Metainfo) (index begin : UInt32) (s : Socket) :
    List (FileMem × List UInt8) :=
  match pieceRequestCreate torrent index with
  | .error _ => []
  | .ok pr =>
    match pieceRequestBlockAt pr begin.toNat with
    | none => []
    | some br => filememStores br.filemems s

/-- The stores `peer_msg_recv_piece` makes. -/
def pieceStores (torrent : Metainfo) (s : Socket) : List (FileMem × List UInt8) :=
  let r₁ := peerRecv s 4
  let r₂ := peerRecv r₁.sock 4
  if r₁.ok && r₂.ok then blockStores torrent (ofBe32 r₁.bytes) (ofBe32 r₂.bytes) r₂.sock
  else []

/-- The mapped files after some stores. -/
def applyStores (stores : List (FileMem × List UInt8)) (disk : Disk) : Disk :=
  stores.foldl (fun disk store => writeSeg disk store.1 store.2) disk

/-- The index field, when it and the begin field arrive. -/
def receivedIndex (s : Socket) : Option UInt32 :=
  let r₁ := peerRecv s 4
  if r₁.ok && (peerRecv r₁.sock 4).ok then some (ofBe32 r₁.bytes) else none

theorem peerRecv_length_le (s : Socket) (len : Nat) : (peerRecv s len).bytes.length ≤ len :=
  (peerRecvLoop_spec s len [] (Nat.zero_le _)).le

/-! ## The stores are those of the function -/

theorem recvFilemems_stores (mems : List FileMem) :
    ∀ (s : Socket) (disk : Disk),
      (recvFilemems mems s disk).2.2 = applyStores (filememStores mems s) disk := by
  induction mems with
  | nil => intro s disk; rfl
  | cons mem mems ih =>
    intro s disk
    simp only [recvFilemems, filememStores]
    by_cases hok : (peerRecv s mem.size).ok = true
    · rw [if_pos hok, if_pos hok, ih]
      rfl
    · rw [if_neg hok, if_neg hok]
      rfl

theorem filememStores_mem (mems : List FileMem) :
    ∀ (s : Socket), ∀ store ∈ filememStores mems s,
      store.1 ∈ mems ∧ store.2.length ≤ store.1.size := by
  induction mems with
  | nil => intro s store h; cases h
  | cons mem mems ih =>
    intro s store h
    rw [filememStores] at h
    rcases List.mem_cons.mp h with rfl | hrest
    · exact ⟨List.mem_cons_self, peerRecv_length_le _ _⟩
    · split at hrest
      · obtain ⟨hmem, hlen⟩ := ih _ store hrest
        exact ⟨List.mem_cons_of_mem _ hmem, hlen⟩
      · cases hrest

/-- The call, by what arrives of the header. -/
theorem peerMsgRecvPiece_header (torrent : Metainfo) (len : Nat) (s : Socket) (disk : Disk) :
    (receivedIndex s = none ∧ pieceStores torrent s = [] ∧
      ∃ s', peerMsgRecvPiece torrent len s disk = .ok (none, s', disk)) ∨
    ∃ index bytes sock, receivedIndex s = some index ∧
      pieceStores torrent s = blockStores torrent index (ofBe32 bytes) sock ∧
      peerMsgRecvPiece torrent len s disk
        = recvBlock torrent disk index (wordSub len 4) bytes sock := by
  rw [peerMsgRecvPiece, receivedIndex, pieceStores, recvThen]
  cases h₁ : (peerRecv s 4).ok with
  | false => exact .inl ⟨rfl, rfl, _, rfl⟩
  | true =>
    simp only [if_true, Bool.true_and, recvBegin, recvThen]
    cases h₂ : (peerRecv (peerRecv s 4).sock 4).ok with
    | false => exact .inl ⟨rfl, rfl, _, rfl⟩
    | true => exact .inr ⟨_, _, _, rfl, rfl, rfl⟩

/-- A block of a piece that could be scheduled: the call returns, and leaves in
the files what its stores leave. -/
theorem recvBlock_stores {torrent : Metainfo} {index : UInt32} {pr : PieceRequest}
    (hpr : pieceRequestCreate torrent index = .ok pr) (disk : Disk) (left : Nat)
    (bytes : List UInt8) (s : Socket) :
    ∃ out s', recvBlock torrent disk index left bytes s
      = .ok (out, s', applyStores (blockStores torrent index (ofBe32 bytes) s) disk) := by
  rw [recvBlock, blockStores, hpr, ok_bind]
  cases hat : pieceRequestBlockAt pr (ofBe32 bytes).toNat with
  | none =>
    simp only [hat]
    exact ⟨_, _, rfl⟩
  | some br =>
    simp only [hat, ← recvFilemems_stores br.filemems s disk]
    exact ⟨_, _, rfl⟩

/-! ## Which indices are safe -/

/-- The call returns and changes the files by its stores alone, these are inside
the torrent's files, and the walk over the table does not pass the `NULL`
behind the last file. -/
structure PieceContained (torrent : Metainfo) (len : Nat) (s : Socket) (disk : Disk) : Prop where
  returns : ∃ out s', peerMsgRecvPiece torrent len s disk
    = .ok (out, s', applyStores (pieceStores torrent s) disk)
  stores : ∀ store ∈ pieceStores torrent s,
    store.1.Inside torrent.fileSizes ∧ store.2.length ≤ store.1.size
  walk : ∀ index, receivedIndex s = some index →
    ∃ pr, pieceRequestCreateTable torrent (terminated torrent.files []) index = .ok pr

/-- The slices of a scheduled block lie inside the files. -/
theorem PieceRequest.Scheduled.inside {torrent : Metainfo} {index : UInt32} {r : PieceRequest}
    (h : r.Scheduled torrent index) {b : BlockRequest} (hb : b ∈ r.blockRequests) {mem : FileMem}
    (hmem : mem ∈ b.filemems) : mem.Inside torrent.fileSizes := by
  obtain ⟨j, hj⟩ := List.mem_iff_getElem?.mp hb
  exact (h.schedule.block j b hj).1.tiles.inside mem hmem

theorem blockStores_inside {torrent : Metainfo} {index : UInt32} {pr : PieceRequest}
    (hpr : pieceRequestCreate torrent index = .ok pr) (begin : UInt32) (s : Socket) :
    ∀ store ∈ blockStores torrent index begin s,
      store.1.Inside torrent.fileSizes ∧ store.2.length ≤ store.1.size := by
  intro store hstore
  rw [blockStores, hpr] at hstore
  cases hat : pieceRequestBlockAt pr begin.toNat with
  | none =>
    simp only [hat] at hstore
    cases hstore
  | some br =>
    simp only [hat] at hstore
    obtain ⟨hmem, hlen⟩ := filememStores_mem br.filemems s store hstore
    exact ⟨(scheduled_of_create hpr).inside (List.mem_of_find?_eq_some hat) hmem, hlen⟩

/-- **A peer reaches no further than the files exactly when its index does.** -/
theorem piece_contained_iff (torrent : Metainfo) (len : Nat) (s : Socket) (disk : Disk) :
    PieceContained torrent len s disk ↔
      ∀ index, receivedIndex s = some index → pieceStart torrent index ≤ torrent.totalLength := by
  constructor
  · intro h index hindex
    obtain ⟨pr, hpr⟩ := h.walk index hindex
    rw [pieceRequestCreateTable_terminated] at hpr
    exact (scheduled_of_create hpr).start
  · intro hsafe
    rcases peerMsgRecvPiece_header torrent len s disk with
      ⟨hnone, hstores, _, hrun⟩ | ⟨index, bytes, sock, hindex, hstores, hrun⟩
    · refine ⟨⟨none, _, by rw [hstores]; exact hrun⟩, ?_, ?_⟩
      · rw [hstores]
        intro store hstore
        cases hstore
      · intro index hindex
        rw [hnone] at hindex
        cases hindex
    · obtain ⟨pr, hpr, -⟩ := (pieceRequestCreate_spec torrent index).1 (hsafe index hindex)
      refine ⟨?_, ?_, ?_⟩
      · obtain ⟨out, s', hres⟩ := recvBlock_stores hpr disk (wordSub len 4) bytes sock
        exact ⟨out, s', by rw [hstores]; exact hrun.trans hres⟩
      · rw [hstores]
        exact blockStores_inside hpr (ofBe32 bytes) sock
      · intro index' hindex'
        rw [hindex] at hindex'
        cases hindex'
        exact ⟨pr, by rw [pieceRequestCreateTable_terminated, hpr]⟩

/-- The index field of a frame on a socket that does not fail. -/
theorem receivedIndex_of_frame {s : Socket} {index begin : UInt32} {rest : List UInt8}
    (hnf : NeverFails s.recvPlan) (hrx : s.rx = be32 index ++ (be32 begin ++ rest)) :
    receivedIndex s = some index := by
  obtain ⟨hok₁, hbytes, hrx₁, hnf₁⟩ := peerRecv_exact hnf hrx
  obtain ⟨hok₂, -⟩ := peerRecv_exact hnf₁ hrx₁
  rw [length_be32] at hok₁ hbytes
  rw [length_be32, length_be32] at hok₂
  rw [receivedIndex, hok₁, hok₂, hbytes, ofBe32_be32]
  rfl

/-- One byte of piece `2^32 - 1` of a torrent of one byte: an accepted length,
and the walk dereferences `NULL`. -/
theorem piece_contained_far : ∃ s : Socket,
    s.rx = be32 4294967295 ++ (be32 0 ++ [7]) ∧
    validLen .msgPiece (layout 16384 [1]) (1 + s.rx.length) = true ∧
    ¬ PieceContained (layout 16384 [1]) s.rx.length s [[0]] ∧
    peerMsgRecvPiece (layout 16384 [1]) s.rx.length s [[0]] = .error .nullDeref := by
  have hnf : NeverFails fun _ => some 16 := fun _ => by simp
  have hindex : receivedIndex ⟨be32 4294967295 ++ (be32 0 ++ [7]), [], fun _ => some 16,
      fun _ => none⟩ = some 4294967295 := receivedIndex_of_frame hnf rfl
  refine ⟨⟨be32 4294967295 ++ (be32 0 ++ [7]), [], fun _ => some 16, fun _ => none⟩, rfl,
    by decide, ?_, ?_⟩
  · intro h
    obtain ⟨pr, hpr⟩ := h.walk _ hindex
    rw [pieceRequestCreateTable_terminated] at hpr
    exact absurd (scheduled_of_create hpr).start (by decide)
  · rcases peerMsgRecvPiece_header (layout 16384 [1]) 9 _ [[0]] with
      ⟨hnone, -⟩ | ⟨index, bytes, sock, hsome, -, hrun⟩
    · rw [hindex] at hnone
      cases hnone
    · rw [hindex] at hsome
      cases hsome
      show peerMsgRecvPiece (layout 16384 [1]) 9 _ [[0]] = _
      rw [hrun, recvBlock, (pieceRequestCreate_spec (layout 16384 [1]) 4294967295).2 (by decide)]
      rfl

end BtClient

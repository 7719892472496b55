import BtClient.Connection.Interest
import BtClient.Peer.Framing

/-!
# Where a message touches the bitfields

`process_msg` divides the value of a `MSG_HAVE` into a byte position of
`local_have` and `peer_have`, and copies a `MSG_BITFIELD` over the start of
`peer_have`. The decoder bounds the second by the frame length of the torrent's
bitfield; nothing bounds the first.
-/

namespace BtClient

open CLib

/-- The bytes of `local_have` that `process_msg` reads. -/
def localHaveReads (state : ConnState) (msg : PeerMsg) : List Nat :=
  match msg with
  | .haveMsg index => if state.localState.interested then [] else [index.toNat / 8]
  | _ => []

/-- The bytes of `peer_have` that `process_msg` writes. The copy of a bitfield
is behind an assertion on its size. -/
def peerHaveWrites (state : ConnState) (msg : PeerMsg) : List Nat :=
  match msg with
  | .haveMsg index => [index.toNat / 8]
  | .bitfield bits =>
    if bits.length = bitfieldNumBytes state.bitlen then List.range (bitfieldNumBytes state.bitlen)
    else []
  | _ => []

/-! ## These are the accesses of `process_msg` -/

/-- A call that returns has written at these positions only, and all of them
were inside the buffer. -/
theorem processMsg_writes {sha1 : List UInt8 → List UInt8} {torrent : Metainfo}
    {realloc : RequestQueue.Realloc} {disk : Disk} {msg : PeerMsg} {sock sock' : Socket}
    {state state' : ConnState} {sh sh' : Shared} {events : List Event}
    (h : processMsg sha1 torrent realloc disk msg sock state sh =
      .ok (sock', state', sh', events)) :
    (∀ p ∈ peerHaveWrites state msg, p < state.peerHave.length) ∧
      ∀ p, p ∉ peerHaveWrites state msg → state'.peerHave[p]? = state.peerHave[p]? := by
  have heff := processMsg_effect h
  have hfits := heff.fits
  rw [heff.peerHave]
  cases msg with
  | haveMsg index =>
    refine ⟨?_, ?_⟩
    · intro p hp
      rw [List.mem_singleton.mp hp]
      exact hfits
    · intro p hp
      exact List.getElem?_set_ne fun heq => hp (List.mem_singleton.mpr heq.symm)
  | bitfield bits =>
    rw [peerHaveWrites, if_pos hfits.1, ← hfits.1]
    have hle : bits.length ≤ state.peerHave.length := hfits.2
    refine ⟨?_, ?_⟩
    · intro p hp
      have := List.mem_range.mp hp
      omega
    · intro p hp
      rw [List.mem_range, Nat.not_lt] at hp
      show (splice state.peerHave 0 bits)[p]? = _
      rw [splice, List.take_zero, List.nil_append, List.getElem?_append_right hp,
        List.getElem?_drop, Nat.zero_add, Nat.add_sub_cancel' hp]
  | _ => exact ⟨fun p hp => (by cases hp), fun _ _ => rfl⟩

theorem bitfieldSet_out {idx : Nat} {buf : List UInt8} (h : buf.length ≤ idx / 8) :
    bitfieldSet idx buf = .error .outOfBounds := by
  rw [bitfieldSet, if_neg (by omega)]

theorem haveInterest_out {torrent : Metainfo} {index : UInt32} {state : ConnState} (sock : Socket)
    (hidle : state.localState.interested = false)
    (hload : state.localHave.length ≤ index.toNat / 8) :
    haveInterest torrent index sock state = .error .outOfBounds := by
  have hout : bitfieldLoad index.toNat state.localHave = .error .outOfBounds := by
    rw [bitfieldLoad, if_neg (by omega)]
  rw [haveInterest, hidle, hout]
  rfl

/-- The first half of a `MSG_HAVE` faults, or leaves `peer_have` alone. -/
theorem haveInterest_cases (torrent : Metainfo) (index : UInt32) (sock : Socket)
    (state : ConnState) :
    ((∃ p ∈ localHaveReads state (.haveMsg index), state.localHave.length ≤ p) ∧
      haveInterest torrent index sock state = .error .outOfBounds) ∨
    ((∀ p ∈ localHaveReads state (.haveMsg index), p < state.localHave.length) ∧
      ∃ sock' shown, haveInterest torrent index sock state
        = .ok (sock', state.interestedIf shown)) := by
  cases hint : state.localState.interested with
  | true =>
    right
    rw [localHaveReads, hint]
    refine ⟨fun p hp => (by cases hp), sock, false, ?_⟩
    rw [haveInterest, if_pos hint, ConnState.interestedIf_false]
  | false =>
    have hreads : localHaveReads state (.haveMsg index) = [index.toNat / 8] := by
      rw [localHaveReads, hint]
      rfl
    rw [hreads]
    by_cases hload : index.toNat / 8 < state.localHave.length
    · right
      obtain ⟨sock', hrun⟩ := haveInterest_spec torrent sock hload
      exact ⟨fun p hp => by rwa [List.mem_singleton.mp hp], sock', _, hrun⟩
    · left
      exact ⟨⟨_, List.mem_singleton_self _, by omega⟩, haveInterest_out sock hint (by omega)⟩

/-- A `MSG_HAVE` faults exactly when one of its positions is outside its
buffer. -/
theorem processHave_faults_iff (torrent : Metainfo) (index : UInt32) (sock : Socket)
    (state : ConnState) :
    processHave torrent index sock state = .error .outOfBounds ↔
      (∃ p ∈ localHaveReads state (.haveMsg index), state.localHave.length ≤ p) ∨
        ∃ p ∈ peerHaveWrites state (.haveMsg index), state.peerHave.length ≤ p := by
  rw [processHave]
  rcases haveInterest_cases torrent index sock state with
    ⟨hout, hrun⟩ | ⟨hin, sock', shown, hrun⟩
  · rw [hrun]
    exact ⟨fun _ => .inl hout, fun _ => rfl⟩
  · rw [hrun, ok_bind]
    have hreads : ¬ ∃ p ∈ localHaveReads state (.haveMsg index), state.localHave.length ≤ p := by
      rintro ⟨p, hp, hle⟩
      have := hin p hp
      omega
    show (bitfieldSet index.toNat state.peerHave >>= _) = _ ↔ _
    by_cases hset : index.toNat / 8 < state.peerHave.length
    · rw [bitfieldSet_of hset]
      refine ⟨fun h => (by cases h), ?_⟩
      rintro (h | ⟨p, hp, hle⟩)
      · exact absurd h hreads
      · rw [List.mem_singleton.mp hp] at hle
        omega
    · rw [bitfieldSet_out (by omega)]
      exact ⟨fun _ => .inr ⟨_, List.mem_singleton_self _, by omega⟩, fun _ => rfl⟩

/-! ## Which messages stay inside -/

/-- `process_msg` reads `local_have` and writes `peer_have` inside the bitfield
of the torrent. -/
structure BitsInside (torrent : Metainfo) (state : ConnState) (msg : PeerMsg) : Prop where
  reads : ∀ p ∈ localHaveReads state msg, p < bitfieldNumBytes torrent.info.numPieces
  writes : ∀ p ∈ peerHaveWrites state msg, p < bitfieldNumBytes torrent.info.numPieces

/-- **A message stays inside the bitfields exactly when it is no `HAVE` of a
piece behind them.** -/
theorem bits_inside_iff (torrent : Metainfo) (state : ConnState) (s s' : Socket)
    (disk disk' : Disk) (msg : PeerMsg)
    (hrecv : peerMsgRecv torrent s disk = .ok (some msg, s', disk')) :
    BitsInside torrent state msg ↔ ∀ index, msg = .haveMsg index →
      index.toNat < 8 * bitfieldNumBytes torrent.info.numPieces := by
  constructor
  · rintro ⟨-, hwrites⟩ index rfl
    have := hwrites _ (List.mem_singleton_self _)
    omega
  · intro hindex
    cases msg with
    | haveMsg index =>
      have hlt := hindex index rfl
      have hbyte : index.toNat / 8 < bitfieldNumBytes torrent.info.numPieces := by omega
      constructor
      · intro p hp
        rw [localHaveReads] at hp
        split at hp
        · cases hp
        · rwa [List.mem_singleton.mp hp]
      · intro p hp
        rwa [List.mem_singleton.mp hp]
    | bitfield bits =>
      refine ⟨fun p hp => (by cases hp), ?_⟩
      intro p hp
      rw [peerHaveWrites] at hp
      split at hp
      · rename_i hsize
        have hle : 1 + bits.length ≤ 1 + bitfieldNumBytes torrent.info.numPieces := by
          rw [peerMsgRecv_bitfield hrecv]
          exact Nat.mod_le _ _
        have := List.mem_range.mp hp
        omega
      · cases hp
    | _ => exact ⟨fun p hp => (by cases hp), fun p hp => (by cases hp)⟩

/-- Every `HAVE` can be received. -/
theorem haveMsg_received (index : UInt32) :
    ∃ s s', peerMsgRecv eightPieces s [] = .ok (some (.haveMsg index), s', []) := by
  have hrx : encodeMsg eightPieces (.haveMsg index)
      = encodeMsg eightPieces (.haveMsg index) ++ [] := (List.append_nil _).symm
  obtain ⟨s', hrecv, -⟩ := peerMsgRecv_spec
    (s := ⟨encodeMsg eightPieces (.haveMsg index), [], fun _ => some 9, fun _ => none⟩)
    (by decide) [] rfl (fun _ => by simp) hrx
  exact ⟨_, s', hrecv⟩

/-- The last piece of a torrent of eight. -/
theorem bits_inside_last : BitsInside eightPieces (newConn (fun _ => 0) [0]) (.haveMsg 7) := by
  obtain ⟨s, s', hrecv⟩ := haveMsg_received 7
  refine (bits_inside_iff eightPieces _ s s' [] [] (.haveMsg 7) hrecv).mpr ?_
  intro index hindex
  cases hindex
  decide

/-- `HAVE` of piece `2^32 - 1` on a new connection of a torrent of eight: it is
accepted, and `process_msg` reads half a gigabyte behind `local_have`. -/
theorem bits_inside_far :
    (∃ s s', peerMsgRecv eightPieces s [] = .ok (some (.haveMsg 4294967295), s', [])) ∧
      ¬ BitsInside eightPieces (newConn (fun _ => 0) [0]) (.haveMsg 4294967295) ∧
      processMsg (fun _ => []) eightPieces none [] (.haveMsg 4294967295) (quiet (sharedInit 8)).sock
        (newConn (fun _ => 0) [0]) (sharedInit 8) = .error .outOfBounds := by
  refine ⟨?_, ?_, ?_⟩
  · exact haveMsg_received 4294967295
  · intro h
    exact absurd (h.reads _ (List.mem_singleton_self _)) (by decide)
  · have hfault := (processHave_faults_iff eightPieces 4294967295 (quiet (sharedInit 8)).sock
      (newConn (fun _ => 0) [0])).mpr
      (.inl ⟨_, List.mem_singleton_self _, by decide⟩)
    rw [processMsg, hfault]
    rfl

end BtClient

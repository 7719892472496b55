import BtClient.Tracker.UdpExchange

/-!
# What an announce response is read as

The tracker's two answers as they go over the wire: numbers in network order,
the transaction id as the client sent it. `udp_announce` reads the counts at
their offsets and the peers in steps of six bytes from offset 20, so that 338
of them fill the receive buffer to its last byte.
-/

namespace BtClient

open CLib

/-! ## The answers of the tracker -/

/-- The connect response: action 0, the id of the transaction, the connection
id. -/
def connectResponse (transactionId : UInt32) (connectionId : UInt64) : List UInt8 :=
  be32 0 ++ (leBytes 4 transactionId.toNat ++ leBytes 8 connectionId.toNat)

/-- An address and a port in network order. -/
def peerOf (p : UInt32 × UInt16) : Peer := ⟨be32 p.1, beBytes 2 p.2.toNat⟩

/-- The six bytes of a peer. -/
def peerBytes (p : UInt32 × UInt16) : List UInt8 := be32 p.1 ++ beBytes 2 p.2.toNat

/-- The header of the announce response: action 1, the id of the transaction,
and the counts. -/
def announceHeader (transactionId interval leechers seeders : UInt32) : List UInt8 :=
  be32 1 ++ (leBytes 4 transactionId.toNat ++ (be32 interval ++ (be32 leechers ++ be32 seeders)))

/-- The announce response. -/
def announceResponse (transactionId interval leechers seeders : UInt32)
    (peers : List (UInt32 × UInt16)) : List UInt8 :=
  announceHeader transactionId interval leechers seeders ++ peers.flatMap peerBytes

@[simp] theorem length_peerBytes (p : UInt32 × UInt16) : (peerBytes p).length = 6 := by
  simp [peerBytes, beBytes]

@[simp] theorem length_announceHeader (transactionId interval leechers seeders : UInt32) :
    (announceHeader transactionId interval leechers seeders).length = 20 := by
  simp [announceHeader]

theorem length_flatMap_peerBytes (peers : List (UInt32 × UInt16)) :
    (peers.flatMap peerBytes).length = 6 * peers.length := by
  induction peers with
  | nil => rfl
  | cons p peers ih =>
    rw [List.flatMap_cons, List.length_append, ih, length_peerBytes, List.length_cons]
    omega

theorem length_announceResponse (transactionId interval leechers seeders : UInt32)
    (peers : List (UInt32 × UInt16)) :
    (announceResponse transactionId interval leechers seeders peers).length =
      20 + 6 * peers.length := by
  rw [announceResponse, List.length_append, length_announceHeader, length_flatMap_peerBytes]

/-! ## Reading them -/

/-- The loop of `parse_peers` over the bytes of a list of peers. -/
theorem parsePeers_flatMap (peers : List (UInt32 × UInt16)) :
    parsePeers (peers.flatMap peerBytes) peers.length = peers.map peerOf := by
  induction peers with
  | nil => rfl
  | cons p peers ih =>
    have hip : slice (peerBytes p ++ peers.flatMap peerBytes) 0 4 = be32 p.1 :=
      slice_middle (a := []) (by rw [peerBytes, List.append_assoc]; rfl) rfl rfl
    have hport : slice (peerBytes p ++ peers.flatMap peerBytes) 4 2 = beBytes 2 p.2.toNat :=
      slice_middle (a := be32 p.1) (by rw [peerBytes, List.append_assoc]) rfl
        (by simp [beBytes])
    -- the later peers lie six bytes further on
    have hrest : ∀ i n, slice (peerBytes p ++ peers.flatMap peerBytes) (6 + i) n =
        slice (peers.flatMap peerBytes) i n := by
      intro i n
      have hshift : slice (peerBytes p ++ peers.flatMap peerBytes) ((peerBytes p).length + i) n =
          slice (peers.flatMap peerBytes) i n := slice_append_right
      rwa [length_peerBytes] at hshift
    rw [List.length_cons, List.flatMap_cons, List.map_cons, ← ih]
    simp only [parsePeers, List.range_succ_eq_map, List.map_cons, List.map_map]
    refine congrArg₂ List.cons ?_ (List.map_congr_left fun i _ => ?_)
    · rw [Nat.mul_zero, Nat.zero_add, hip, hport, peerOf]
    · have hi : 6 * (i + 1) = 6 + 6 * i := by omega
      rw [Function.comp_apply, Nat.succ_eq_add_one, hi, hrest, Nat.add_assoc, hrest]

/-- The tracker accepts the connection. -/
theorem connectReply_connectResponse (transactionId : UInt32) (connectionId : UInt64) :
    connectReply transactionId (connectResponse transactionId connectionId) 16 =
      .announcing 0 connectionId := by
  have haction : slice (connectResponse transactionId connectionId) 0 4 = be32 0 :=
    slice_middle (a := []) rfl rfl rfl
  have hid : slice (connectResponse transactionId connectionId) 4 4 =
      leBytes 4 transactionId.toNat :=
    slice_middle (a := be32 0) rfl rfl (length_leBytes _ _)
  have hconnection : slice (connectResponse transactionId connectionId) 8 8 =
      leBytes 8 connectionId.toNat :=
    slice_middle (a := be32 0 ++ leBytes 4 transactionId.toNat) (c := [])
      (by rw [connectResponse, List.append_nil, List.append_assoc]) (by simp)
      (length_leBytes _ _)
  have hlt := connectionId.toNat_lt
  have hback : UInt64.ofNat (ofLe (leBytes 8 connectionId.toNat)) = connectionId := by
    rw [ofLe_leBytes, Nat.mod_eq_of_lt (by omega), UInt64.ofNat_toNat]
  have hzero : ofLe (be32 0) = 0 := rfl
  unfold connectReply
  rw [if_neg (not_not_intro rfl), hid, if_neg (not_not_intro rfl), haction, hzero,
    if_neg (not_not_intro rfl), hconnection, hback]

/-- The fields of the header, with anything behind it. -/
theorem buildResponse_header (transactionId interval leechers seeders : UInt32)
    (behind : List UInt8) (numPeers : Nat) :
    buildResponse (announceHeader transactionId interval leechers seeders ++ behind) numPeers =
      ⟨interval, seeders, leechers, parsePeers behind numPeers⟩ := by
  let l := announceHeader transactionId interval leechers seeders ++ behind
  have hinterval : slice l 8 4 = be32 interval :=
    slice_middle (a := be32 1 ++ leBytes 4 transactionId.toNat)
      (c := be32 leechers ++ (be32 seeders ++ behind)) (by simp [l, announceHeader]) (by simp) rfl
  have hleechers : slice l 12 4 = be32 leechers :=
    slice_middle (a := be32 1 ++ (leBytes 4 transactionId.toNat ++ be32 interval))
      (c := be32 seeders ++ behind) (by simp [l, announceHeader]) (by simp) rfl
  have hseeders : slice l 16 4 = be32 seeders :=
    slice_middle
      (a := be32 1 ++ (leBytes 4 transactionId.toNat ++ (be32 interval ++ be32 leechers)))
      (c := behind) (by simp [l, announceHeader]) (by simp) rfl
  have hpeers : l.drop 20 = behind :=
    List.drop_left' (length_announceHeader transactionId interval leechers seeders)
  show buildResponse l numPeers = _
  unfold buildResponse
  rw [hinterval, hleechers, hseeders, hpeers, ofBe32_be32, ofBe32_be32, ofBe32_be32]

/-- An announce response is accepted and read whole. -/
theorem announceReply_announceResponse (transactionId interval leechers seeders : UInt32)
    {peers : List (UInt32 × UInt16)} (hpeers : peers.length ≤ 338) :
    announceReply transactionId (announceResponse transactionId interval leechers seeders peers)
        (announceResponse transactionId interval leechers seeders peers).length =
      .done (some ⟨interval, seeders, leechers, peers.map peerOf⟩) := by
  have haction : slice (announceResponse transactionId interval leechers seeders peers) 0 4 =
      be32 1 :=
    slice_middle (a := []) (by rw [announceResponse, announceHeader, List.append_assoc]; rfl)
      rfl rfl
  have hid : slice (announceResponse transactionId interval leechers seeders peers) 4 4 =
      leBytes 4 transactionId.toNat :=
    slice_middle (a := be32 1)
      (by rw [announceResponse, announceHeader, List.append_assoc, List.append_assoc]) rfl
      (length_leBytes _ _)
  have hsub : sizeSub (20 + 6 * peers.length) 20 = 6 * peers.length := by
    rw [sizeSub_of_le (by omega) (by omega), Nat.add_sub_cancel_left]
  unfold announceReply
  rw [length_announceResponse, if_neg (by omega), haction, ofBe32_be32, if_neg (by decide), hid,
    if_neg (not_not_intro rfl), hsub, if_neg (by omega),
    Nat.mul_div_cancel_left _ (by decide), announceResponse, buildResponse_header,
    parsePeers_flatMap]

/-- What is too short or belongs to another transaction is turned down. -/
theorem announceReply_turned_down {transactionId : UInt32} {bytes : List UInt8}
    (h : bytes.length < 20 ∨ slice bytes 4 4 ≠ leBytes 4 transactionId.toNat) :
    announceReply transactionId (bytes.take 2048) (bytes.take 2048).length = .done none := by
  unfold announceReply
  rcases h with hshort | hother
  · rw [if_pos (by rw [List.length_take]; omega)]
  · have hother' : slice (bytes.take 2048) 4 4 ≠ leBytes 4 transactionId.toNat := by
      rwa [slice_take (by omega)]
    rw [if_pos hother']
    split
    · rfl
    · split <;> rfl

/-! ## The exchange -/

/-- **An announce over UDP.** The tracker answers a connect request, whatever
attempts came before, and sends `bytes` to an announce request. If they are the
announce response for some counts and at most 338 peers, these counts and peers
are returned, the peers in network order; if they are fewer than 20 or carry
another transaction id, `NULL` is. -/
theorem udp_announce_reads_response {transactionId : UInt32} {connectionId current : UInt64}
    {before between : List Attempt} {n m : Nat} {connect announce : Attempt} {bytes : List UInt8}
    (hbefore : Run (udpStep transactionId) unguarded (.connecting 0) before (.connecting n))
    (hconnect : connect.receives)
    (haccepts : connect.recv = .datagram (connectResponse transactionId connectionId))
    (hbetween : Run (udpStep transactionId) unguarded (.announcing 0 connectionId) between
      (.announcing m current))
    (hannounce : announce.receives) (hanswers : announce.recv = .datagram bytes) :
    (∀ interval leechers seeders peers, peers.length ≤ 338 →
        bytes = announceResponse transactionId interval leechers seeders peers →
        Run (udpStep transactionId) unguarded (.connecting 0)
          (before ++ connect :: (between ++ [announce]))
          (.done (some ⟨interval, seeders, leechers, peers.map peerOf⟩))) ∧
      (bytes.length < 20 ∨ slice bytes 4 4 ≠ leBytes 4 transactionId.toNat →
        Run (udpStep transactionId) unguarded (.connecting 0)
          (before ++ connect :: (between ++ [announce])) (.done none)) := by
  have hconnected : udpStep transactionId (.connecting n) connect =
      some (.announcing 0 connectionId) := by
    have hlength : (connectResponse transactionId connectionId).length = 16 := by
      simp [connectResponse]
    rw [udpStep_connecting transactionId n hconnect haccepts, hlength, Nat.min_self,
      Nat.sub_self, List.replicate_zero, List.append_nil, List.take_of_length_le hlength.le,
      connectReply_connectResponse]
  -- the announce is the last step, whatever is read from the answer
  have hlast : ∀ pc, announceReply transactionId (bytes.take 2048) (bytes.take 2048).length = pc →
      Run (udpStep transactionId) unguarded (.connecting 0)
        (before ++ connect :: (between ++ [announce])) pc := by
    intro pc hpc
    have hstep := udpStep_announcing transactionId m current hannounce hanswers
    rw [hpc] at hstep
    exact hbefore.append (.cons trivial hconnected (.snoc hbetween trivial hstep))
  constructor
  · intro interval leechers seeders peers hpeers hbytes
    have hwhole : bytes.take 2048 = bytes := by
      apply List.take_of_length_le
      rw [hbytes, length_announceResponse]
      omega
    apply hlast
    rw [hwhole, hbytes, announceReply_announceResponse _ _ _ _ hpeers]
  · intro hbad
    exact hlast _ (announceReply_turned_down hbad)

/-- A refused `send`, the connection, another refused `send`, and a response with
one peer. -/
theorem udp_announce_reads_one_peer :
    ∃ attempts, Run (udpStep 7) unguarded (.connecting 0) attempts
      (.done (some ⟨1800, 3, 5, [⟨[10, 0, 0, 1], [26, 225]⟩]⟩)) := by
  have hrefused : Run (udpStep 7) unguarded (.connecting 0)
      [⟨.failed eagain, .failed 0, false⟩] (.connecting 1) := .of_exec _ (by decide)
  have hrefused' : Run (udpStep 7) unguarded (.announcing 0 99)
      [⟨.failed eagain, .failed 0, false⟩] (.announcing 1 99) := .of_exec _ (by decide)
  let connect : Attempt := ⟨.sent, .datagram (connectResponse 7 99), false⟩
  let announce : Attempt :=
    ⟨.sent, .datagram (announceResponse 7 1800 5 3 [(0x0A000001, 6881)]), false⟩
  exact ⟨_, (@udp_announce_reads_response 7 99 99 _ _ 1 1 connect announce _ hrefused rfl rfl
    hrefused' rfl rfl).1 1800 5 3 [(0x0A000001, 6881)] (by decide) rfl⟩

end BtClient

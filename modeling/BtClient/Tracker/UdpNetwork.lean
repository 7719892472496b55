import BtClient.Tracker.UdpEncoding
import BtClient.Tracker.UdpResponse
import BtClient.Tracker.UdpRetries

/-!
# The UDP exchange over a network

`udp_announce`, a tracker, and the datagrams between them. What has been sent
stays in the network: it may arrive late, more than once, in another order or
never. All attempts of one call carry the same transaction id, the connects and
the announces alike, so that nothing but the size and the action keeps the
answers apart.

The tracker is honest: it hands out connection ids, and answers an announce that
carries one of them. What else comes in belongs to other transactions.
-/

namespace BtClient

open CLib

/-! ## The tracker -/

/-- What a tracker answers, with no more peers than fill a datagram. -/
structure AnnounceReply where
  interval : UInt32
  leechers : UInt32
  seeders : UInt32
  peers : List (UInt32 × UInt16)
  fits : peers.length ≤ 338

/-- The datagram. -/
def AnnounceReply.bytes (r : AnnounceReply) (transactionId : UInt32) : List UInt8 :=
  announceResponse transactionId r.interval r.leechers r.seeders r.peers

/-- The same as the client returns it. -/
def AnnounceReply.response (r : AnnounceReply) : TrackerResponse :=
  ⟨r.interval, r.seeders, r.leechers, r.peers.map peerOf⟩

/-- The transaction id of a request; it has the same place in both kinds. -/
def transactionOf (request : List UInt8) : UInt32 := UInt32.ofNat (ofLe (slice request 12 4))

/-- A connect request. -/
def isConnect (request : List UInt8) : Bool :=
  request.length == 16 && slice request 0 8 == beBytes 8 protocolId &&
    slice request 8 4 == be32 0

/-! ## The network -/

/-- The client, which is between `send` and `recv` while it is `waiting`, and
what has been sent either way. `issued` and `answered` are the tracker's: the
connection ids it has handed out, and the announces it has answered. -/
structure UdpNetwork where
  client : UdpPc
  waiting : Bool
  requests : List (List UInt8)
  replies : List (List UInt8)
  issued : List UInt64
  answered : List (UInt64 × AnnounceFields)

/-- What happens: the client sends or `send` fails, `recv` delivers something or
fails, the tracker takes up one of the requests, or a datagram of another
transaction comes in. -/
inductive UdpEvent where
  | send
  | refuse (errno : Nat) (expired : Bool)
  | deliver (i : Nat)
  | timeOut (errno : Nat) (expired : Bool)
  | acceptConnect (i : Nat) (connectionId : UInt64)
  | answerAnnounce (i : Nat) (connectionId : UInt64)
  | stray (bytes : List UInt8)

namespace UdpNetwork

/-- The start of `udp_announce`. -/
def init : UdpNetwork where
  client := .connecting 0
  waiting := false
  requests := []
  replies := []
  issued := []
  answered := []

section Step

variable (req : TrackerRequest) (transactionId : UInt32) (tracker : AnnounceFields → AnnounceReply)

/-- The client gets through an attempt. -/
def attempt (s : UdpNetwork) (a : Attempt) : Option UdpNetwork :=
  (udpStep transactionId s.client a).map fun pc => { s with client := pc, waiting := false }

def step (s : UdpNetwork) : UdpEvent → Option UdpNetwork
  | .send =>
    if s.waiting then none else
    match s.client with
    | .connecting _ | .announcing _ _ =>
      some { s with waiting := true
                    requests := s.requests ++ [s.client.datagram req transactionId] }
    | _ => none
  | .refuse errno expired =>
    if s.waiting then none else s.attempt transactionId ⟨.failed errno, .failed 0, expired⟩
  | .deliver i =>
    if s.waiting then
      (s.replies[i]?).bind fun bytes => s.attempt transactionId ⟨.sent, .datagram bytes, false⟩
    else none
  | .timeOut errno expired =>
    if s.waiting then s.attempt transactionId ⟨.sent, .failed errno, expired⟩ else none
  | .acceptConnect i connectionId =>
    (s.requests[i]?).bind fun request =>
      if isConnect request then
        some { s with issued := connectionId :: s.issued
                      replies := s.replies ++
                        [connectResponse (transactionOf request) connectionId] }
      else none
  | .answerAnnounce i connectionId =>
    (s.requests[i]?).bind fun request =>
      (decodeAnnounce request).bind fun fields =>
        if fields.action = 1 ∧ connectionId ∈ s.issued ∧
            slice request 0 8 = leBytes 8 connectionId.toNat then
          some { s with replies := s.replies ++ [(tracker fields).bytes (transactionOf request)]
                        answered := (connectionId, fields) :: s.answered }
        else none
  | .stray bytes =>
    if slice bytes 4 4 = leBytes 4 transactionId.toNat then none
    else some { s with replies := s.replies ++ [bytes] }

end Step

/-! ## What is in the network -/

/-- What the tracker reads off an announce. -/
def announcedFields (req : TrackerRequest) (connectionId : UInt64) (transactionId : UInt32) :
    AnnounceFields :=
  { expectedFields req connectionId transactionId with
    downloaded := 2 ^ 32 * (req.downloaded.toNat % 2 ^ 32)
    left := 2 ^ 32 * (req.left.toNat % 2 ^ 32)
    uploaded := 2 ^ 32 * (req.uploaded.toNat % 2 ^ 32)
    port := 0 }

/-- A request of this client, with a connection id that was handed out. -/
inductive Asked (req : TrackerRequest) (transactionId : UInt32) (issued : List UInt64) :
    List UInt8 → Prop where
  | connect : Asked req transactionId issued (connectBytes transactionId)
  | announce {connectionId : UInt64} : connectionId ∈ issued →
    Asked req transactionId issued (fillAnnounceRequest req connectionId transactionId).bytes

/-- A datagram to the client: of another transaction, or an answer to one of its
requests. -/
inductive Replied (transactionId : UInt32) (tracker : AnnounceFields → AnnounceReply)
    (issued : List UInt64) (answered : List (UInt64 × AnnounceFields)) : List UInt8 → Prop where
  | other {bytes : List UInt8} : slice bytes 4 4 ≠ leBytes 4 transactionId.toNat →
    Replied transactionId tracker issued answered bytes
  | connected {connectionId : UInt64} : connectionId ∈ issued →
    Replied transactionId tracker issued answered (connectResponse transactionId connectionId)
  | announced {connectionId : UInt64} {fields : AnnounceFields} :
    (connectionId, fields) ∈ answered →
    Replied transactionId tracker issued answered ((tracker fields).bytes transactionId)

/-- Where the client stands, by what the tracker has done. -/
inductive Stands (tracker : AnnounceFields → AnnounceReply) (issued : List UInt64)
    (answered : List (UInt64 × AnnounceFields)) : UdpPc → Prop where
  | connecting {n : Nat} : Stands tracker issued answered (.connecting n)
  | announcing {n : Nat} {connectionId : UInt64} : connectionId ∈ issued →
    Stands tracker issued answered (.announcing n connectionId)
  | nothing : Stands tracker issued answered (.done none)
  | answered {connectionId : UInt64} {fields : AnnounceFields} :
    (connectionId, fields) ∈ answered →
    Stands tracker issued answered (.done (some (tracker fields).response))
  | aborted : Stands tracker issued answered .aborted

/-- The two parties agree. -/
structure Agreed (req : TrackerRequest) (transactionId : UInt32)
    (tracker : AnnounceFields → AnnounceReply) (s : UdpNetwork) : Prop where
  requests : ∀ request ∈ s.requests, Asked req transactionId s.issued request
  replies : ∀ bytes ∈ s.replies, Replied transactionId tracker s.issued s.answered bytes
  answered : ∀ entry ∈ s.answered, entry.1 ∈ s.issued ∧
    entry.2 = announcedFields req entry.1 transactionId ∧
    (fillAnnounceRequest req entry.1 transactionId).bytes ∈ s.requests
  client : Stands tracker s.issued s.answered s.client

/-! ## The requests -/

section Requests

variable {req : TrackerRequest} {transactionId : UInt32} {connectionId : UInt64}

theorem ofLe_transactionId (transactionId : UInt32) :
    UInt32.ofNat (ofLe (leBytes 4 transactionId.toNat)) = transactionId := by
  have hlt := transactionId.toNat_lt
  rw [ofLe_leBytes, Nat.mod_eq_of_lt (by omega), UInt32.ofNat_toNat]

theorem length_connectBytes (transactionId : UInt32) :
    (connectBytes transactionId).length = 16 := by
  simp [connectBytes, beBytes]

theorem transactionOf_connectBytes (transactionId : UInt32) :
    transactionOf (connectBytes transactionId) = transactionId := by
  have hfront : (beBytes 8 protocolId ++ leBytes 4 (htonl 0).toNat).length = 12 := by
    simp [beBytes]
  have hid : slice (connectBytes transactionId) 12 4 = leBytes 4 transactionId.toNat := by
    refine slice_middle (c := []) ?_ hfront (length_leBytes 4 _)
    rw [List.append_nil, connectBytes]
  rw [transactionOf, hid, ofLe_transactionId]

theorem decodeAnnounce_length {bytes : List UInt8} {fields : AnnounceFields}
    (h : decodeAnnounce bytes = some fields) : bytes.length = 98 := by
  unfold decodeAnnounce at h
  split at h
  · cases h
  · exact not_ne_iff.mp ‹_›

/-- The three fields in front. -/
theorem announce_bytes :
    ∃ rest, (fillAnnounceRequest req connectionId transactionId).bytes =
      leBytes 8 connectionId.toNat ++ (leBytes 4 (htonl 1).toNat ++
        (leBytes 4 transactionId.toNat ++ rest)) := by
  rw [UdpAnnounceReq.bytes, UdpAnnounceReq.fields]
  simp only [List.flatten_cons]
  exact ⟨_, rfl⟩

theorem transactionOf_announce :
    transactionOf (fillAnnounceRequest req connectionId transactionId).bytes = transactionId := by
  obtain ⟨rest, hbytes⟩ := @announce_bytes req transactionId connectionId
  have hfront : (leBytes 8 connectionId.toNat ++ leBytes 4 (htonl 1).toNat).length = 12 := by simp
  have hid : slice (fillAnnounceRequest req connectionId transactionId).bytes 12 4 =
      leBytes 4 transactionId.toNat :=
    slice_middle (hbytes.trans (List.append_assoc ..).symm) hfront (length_leBytes 4 _)
  rw [transactionOf, hid, ofLe_transactionId]

theorem connectionOf_announce :
    slice (fillAnnounceRequest req connectionId transactionId).bytes 0 8 =
      leBytes 8 connectionId.toNat := by
  obtain ⟨rest, hbytes⟩ := @announce_bytes req transactionId connectionId
  exact slice_middle (hbytes.trans (List.nil_append _).symm) List.length_nil (length_leBytes 8 _)

theorem connectionId_inj {other : UInt64}
    (h : leBytes 8 connectionId.toNat = leBytes 8 other.toNat) : connectionId = other := by
  have hvalue := congrArg ofLe h
  have hlt := connectionId.toNat_lt
  have hlt' := other.toNat_lt
  rw [ofLe_leBytes, ofLe_leBytes, Nat.mod_eq_of_lt (by omega),
    Nat.mod_eq_of_lt (by omega)] at hvalue
  exact UInt64.toNat_inj.mp hvalue

end Requests

/-! ## The client -/

section Client

variable {transactionId : UInt32} {tracker : AnnounceFields → AnnounceReply}
  {issued : List UInt64} {answered : List (UInt64 × AnnounceFields)} {pc pc' : UdpPc}

theorem retry_stands {n errno : Nat} {again : UdpPc} (h : Stands tracker issued answered again) :
    Stands tracker issued answered (retry n errno again) := by
  rcases retry_cases n errno again with ⟨-, -, hagain⟩ | hend
  · rwa [hagain]
  · rw [hend]
    exact .nothing

/-- A `send` that fails. -/
theorem refuse_stands {errno : Nat} {expired : Bool} (h : Stands tracker issued answered pc)
    (hstep : udpStep transactionId pc ⟨.failed errno, .failed 0, expired⟩ = some pc') :
    Stands tracker issued answered pc' := by
  cases h with
  | connecting =>
    cases hstep
    exact retry_stands .connecting
  | announcing hissued =>
    cases hstep
    refine retry_stands ?_
    split
    · exact .connecting
    · exact .announcing hissued
  | nothing | answered | aborted => cases hstep

/-- A datagram of `2 ^ 64 - 1` bytes is no announce response: its peers do not
come in sixes. -/
theorem announceReply_overlong (transactionId : UInt32) (buf : List UInt8) :
    Stands tracker issued answered (announceReply transactionId buf (2 ^ 64 - 1)) := by
  have hsize : ¬ 2 ^ 64 - 1 < 20 := by decide
  have hodd : sizeSub (2 ^ 64 - 1) 20 % 6 ≠ 0 := by decide
  unfold announceReply
  rw [if_neg hsize, if_pos hodd]
  split
  · exact .nothing
  · split
    · exact .nothing
    · exact .aborted

/-- A `recv` that fails counts as such a datagram. -/
theorem timeOut_stands {errno : Nat} {expired : Bool} (h : Stands tracker issued answered pc)
    (hstep : udpStep transactionId pc ⟨.sent, .failed errno, expired⟩ = some pc') :
    Stands tracker issued answered pc' := by
  have htry : ∀ buf, udpTry ⟨.sent, .failed errno, expired⟩ buf = .ok (buf, 2 ^ 64 - 1) :=
    udpTry_failed_recv rfl rfl
  cases h with
  | connecting =>
    simp only [udpStep, htry, Option.some.injEq] at hstep
    have haborted := (connectReply_abort_iff transactionId (List.replicate 16 0) (2 ^ 64 - 1)).mpr
      (by decide)
    rw [← hstep, haborted]
    exact .aborted
  | announcing hissued =>
    simp only [udpStep, htry, Option.some.injEq] at hstep
    rw [← hstep]
    exact announceReply_overlong transactionId _
  | nothing | answered | aborted => cases hstep

theorem action_reply (r : AnnounceReply) (transactionId : UInt32) :
    slice (r.bytes transactionId) 0 4 = be32 1 := by
  have hbytes : r.bytes transactionId = be32 1 ++ (leBytes 4 transactionId.toNat ++
      (be32 r.interval ++ (be32 r.leechers ++ be32 r.seeders)) ++ r.peers.flatMap peerBytes) := by
    rw [AnnounceReply.bytes, announceResponse, announceHeader, List.append_assoc]
  exact slice_middle (hbytes.trans (List.nil_append _).symm) List.length_nil rfl

/-- A connect response comes only from the tracker. An announce response that
comes late is cut off to the same size, but has another action. -/
theorem connecting_stands {n : Nat} {bytes : List UInt8}
    (hreplied : Replied transactionId tracker issued answered bytes)
    (hstep : udpStep transactionId (.connecting n) ⟨.sent, .datagram bytes, false⟩ = some pc') :
    Stands tracker issued answered pc' := by
  have hread := @udpStep_connecting transactionId n ⟨.sent, .datagram bytes, false⟩ bytes rfl rfl
  cases hread.symm.trans hstep
  cases hreplied with
  | other hother =>
    unfold connectReply
    split
    · exact .aborted
    · rename_i hsize
      have hlong : 16 ≤ bytes.length := by omega
      have hslice : slice (bytes.take 16 ++ List.replicate (16 - bytes.length) 0) 4 4 =
          slice bytes 4 4 := by
        rw [slice_append_left (by rw [List.length_take]; omega), slice_take (by omega)]
      rw [hslice, if_pos (Ne.symm hother)]
      exact .nothing
  | @connected connectionId hissued =>
    have hlength : (connectResponse transactionId connectionId).length = 16 := by
      simp [connectResponse]
    rw [hlength, Nat.min_self, Nat.sub_self, List.replicate_zero, List.append_nil,
      List.take_of_length_le hlength.le, connectReply_connectResponse]
    exact .announcing hissued
  | @announced connectionId fields _ =>
    unfold connectReply
    split
    · exact .aborted
    · split
      · exact .nothing
      · have hlong : 20 ≤ ((tracker fields).bytes transactionId).length := by
          rw [AnnounceReply.bytes, length_announceResponse]
          omega
        have haction : slice (((tracker fields).bytes transactionId).take 16 ++
            List.replicate (16 - ((tracker fields).bytes transactionId).length) 0) 0 4 =
              be32 1 := by
          rw [slice_append_left (by rw [List.length_take]; omega), slice_take (by omega),
            action_reply]
        rw [haction, if_pos (by decide)]
        exact .nothing

/-- An announce response comes only from the tracker. A connect response that
comes late is too short. -/
theorem announcing_stands {n : Nat} {connectionId : UInt64} {bytes : List UInt8}
    (hreplied : Replied transactionId tracker issued answered bytes)
    (hstep : udpStep transactionId (.announcing n connectionId) ⟨.sent, .datagram bytes, false⟩ =
      some pc') : Stands tracker issued answered pc' := by
  have hread :=
    @udpStep_announcing transactionId n connectionId ⟨.sent, .datagram bytes, false⟩ bytes rfl rfl
  cases hread.symm.trans hstep
  cases hreplied with
  | other hother =>
    rw [announceReply_turned_down (.inr hother)]
    exact .nothing
  | @connected id _ =>
    have hlength : (connectResponse transactionId id).length = 16 := by simp [connectResponse]
    rw [announceReply_turned_down (.inl (by omega))]
    exact .nothing
  | @announced id fields hanswered =>
    have hfits := (tracker fields).fits
    have hwhole : ((tracker fields).bytes transactionId).take 2048 =
        (tracker fields).bytes transactionId := by
      apply List.take_of_length_le
      rw [AnnounceReply.bytes, length_announceResponse]
      omega
    rw [hwhole, AnnounceReply.bytes, announceReply_announceResponse _ _ _ _ hfits]
    exact .answered hanswered

/-- What `recv` delivers. -/
theorem deliver_stands {bytes : List UInt8} (h : Stands tracker issued answered pc)
    (hreplied : Replied transactionId tracker issued answered bytes)
    (hstep : udpStep transactionId pc ⟨.sent, .datagram bytes, false⟩ = some pc') :
    Stands tracker issued answered pc' := by
  cases h with
  | connecting => exact connecting_stands hreplied hstep
  | announcing => exact announcing_stands hreplied hstep
  | nothing | answered | aborted => cases hstep

end Client

/-! ## The two parties -/

section Parties

variable {req : TrackerRequest} {transactionId : UInt32} {tracker : AnnounceFields → AnnounceReply}
  {s s' : UdpNetwork} {issued issued' : List UInt64}
  {answered answered' : List (UInt64 × AnnounceFields)}

theorem Asked.mono {request : List UInt8} (h : Asked req transactionId issued request)
    (hissued : issued ⊆ issued') : Asked req transactionId issued' request := by
  cases h with
  | connect => exact .connect
  | announce hid => exact .announce (hissued hid)

theorem Replied.mono {bytes : List UInt8} (h : Replied transactionId tracker issued answered bytes)
    (hissued : issued ⊆ issued') (hanswered : answered ⊆ answered') :
    Replied transactionId tracker issued' answered' bytes := by
  cases h with
  | other hother => exact .other hother
  | connected hid => exact .connected (hissued hid)
  | announced hentry => exact .announced (hanswered hentry)

theorem Stands.mono {pc : UdpPc} (h : Stands tracker issued answered pc)
    (hissued : issued ⊆ issued') (hanswered : answered ⊆ answered') :
    Stands tracker issued' answered' pc := by
  cases h with
  | connecting => exact .connecting
  | announcing hid => exact .announcing (hissued hid)
  | nothing => exact .nothing
  | answered hentry => exact .answered (hanswered hentry)
  | aborted => exact .aborted

/-- What the client sends. -/
theorem Stands.asked {pc : UdpPc} (h : Stands tracker issued answered pc) :
    Asked req transactionId issued (pc.datagram req transactionId) := by
  cases h with
  | announcing hid => exact .announce hid
  | connecting | nothing | answered | aborted => exact .connect

/-- An attempt of the client changes nothing in the network. -/
theorem Agreed.attempt {a : Attempt} (h : Agreed req transactionId tracker s)
    (hstep : s.attempt transactionId a = some s')
    (hstands : ∀ pc, udpStep transactionId s.client a = some pc →
      Stands tracker s.issued s.answered pc) : Agreed req transactionId tracker s' := by
  obtain ⟨pc, hpc, rfl⟩ := Option.map_eq_some_iff.mp hstep
  exact ⟨h.requests, h.replies, h.answered, hstands pc hpc⟩

/-- The tracker takes up a connect request. -/
theorem Agreed.acceptConnect {request : List UInt8} (h : Agreed req transactionId tracker s)
    (hrequest : request ∈ s.requests) (hconnect : isConnect request = true)
    (connectionId : UInt64) :
    Agreed req transactionId tracker { s with
      issued := connectionId :: s.issued
      replies := s.replies ++ [connectResponse (transactionOf request) connectionId] } := by
  have hgrow := List.subset_cons_self connectionId s.issued
  have htransaction : transactionOf request = transactionId := by
    cases h.requests request hrequest with
    | connect => exact transactionOf_connectBytes transactionId
    | announce _ => exact transactionOf_announce
  refine ⟨fun r hr => (h.requests r hr).mono hgrow, ?_, ?_,
    h.client.mono hgrow (List.Subset.refl _)⟩
  · rw [htransaction]
    exact List.forall_mem_append.mpr
      ⟨fun bytes hb => (h.replies bytes hb).mono hgrow (List.Subset.refl _),
        List.forall_mem_singleton.mpr (.connected List.mem_cons_self)⟩
  · intro entry hentry
    obtain ⟨hid, hrest⟩ := h.answered entry hentry
    exact ⟨hgrow hid, hrest⟩

/-- The tracker answers an announce: it can only be one of this client. -/
theorem Agreed.answerAnnounce (hhash : req.infoHash.length = 20) (hid : req.peerId.length = 20)
    {request : List UInt8} {fields : AnnounceFields} {connectionId : UInt64}
    (h : Agreed req transactionId tracker s) (hrequest : request ∈ s.requests)
    (hdecode : decodeAnnounce request = some fields) (hissued : connectionId ∈ s.issued)
    (hconnection : slice request 0 8 = leBytes 8 connectionId.toNat) :
    Agreed req transactionId tracker { s with
      replies := s.replies ++ [(tracker fields).bytes (transactionOf request)]
      answered := (connectionId, fields) :: s.answered } := by
  have hgrow := List.subset_cons_self (connectionId, fields) s.answered
  cases h.requests request hrequest with
  | connect =>
    have hlength := decodeAnnounce_length hdecode
    rw [length_connectBytes] at hlength
    cases hlength
  | @announce other _ =>
    rw [connectionOf_announce] at hconnection
    cases connectionId_inj hconnection
    have hread : decodeAnnounce (fillAnnounceRequest req connectionId transactionId).bytes =
        some (announcedFields req connectionId transactionId) :=
      decodeAnnounce_bytes hhash hid connectionId transactionId
    have hfields : announcedFields req connectionId transactionId = fields :=
      Option.some.inj (hread.symm.trans hdecode)
    refine ⟨h.requests, ?_, ?_, h.client.mono (List.Subset.refl _) hgrow⟩
    · rw [transactionOf_announce]
      exact List.forall_mem_append.mpr
        ⟨fun bytes hb => (h.replies bytes hb).mono (List.Subset.refl _) hgrow,
          List.forall_mem_singleton.mpr (.announced List.mem_cons_self)⟩
    · exact List.forall_mem_cons.mpr ⟨⟨hissued, hfields.symm, hrequest⟩, h.answered⟩

/-- **One event.** -/
theorem Agreed.step (hhash : req.infoHash.length = 20) (hid : req.peerId.length = 20)
    {e : UdpEvent} (h : Agreed req transactionId tracker s)
    (hstep : s.step req transactionId tracker e = some s') :
    Agreed req transactionId tracker s' := by
  cases e with
  | send =>
    have hsent : Agreed req transactionId tracker { s with
        waiting := true
        requests := s.requests ++ [s.client.datagram req transactionId] } := by
      refine ⟨List.forall_mem_append.mpr ⟨h.requests, List.forall_mem_singleton.mpr h.client.asked⟩,
        h.replies, fun entry hentry => ?_, h.client⟩
      obtain ⟨hissued, hfields, hmem⟩ := h.answered entry hentry
      exact ⟨hissued, hfields, List.mem_append_left _ hmem⟩
    simp only [UdpNetwork.step] at hstep
    split at hstep
    · cases hstep
    · split at hstep
      · cases hstep
        exact hsent
      · cases hstep
        exact hsent
      · cases hstep
  | refuse errno expired =>
    simp only [UdpNetwork.step] at hstep
    split at hstep
    · cases hstep
    · exact h.attempt hstep fun _ hpc => refuse_stands h.client hpc
  | deliver i =>
    simp only [UdpNetwork.step] at hstep
    split at hstep
    · obtain ⟨bytes, hbytes, hstep⟩ := Option.bind_eq_some_iff.mp hstep
      exact h.attempt hstep fun _ hpc =>
        deliver_stands h.client (h.replies bytes (List.mem_of_getElem? hbytes)) hpc
    · cases hstep
  | timeOut errno expired =>
    simp only [UdpNetwork.step] at hstep
    split at hstep
    · exact h.attempt hstep fun _ hpc => timeOut_stands h.client hpc
    · cases hstep
  | acceptConnect i connectionId =>
    obtain ⟨request, hrequest, hstep⟩ := Option.bind_eq_some_iff.mp hstep
    split at hstep
    · cases hstep
      exact h.acceptConnect (List.mem_of_getElem? hrequest) ‹_› connectionId
    · cases hstep
  | answerAnnounce i connectionId =>
    obtain ⟨request, hrequest, hstep⟩ := Option.bind_eq_some_iff.mp hstep
    obtain ⟨fields, hdecode, hstep⟩ := Option.bind_eq_some_iff.mp hstep
    split at hstep
    · rename_i hvalid
      cases hstep
      exact h.answerAnnounce hhash hid (List.mem_of_getElem? hrequest) hdecode hvalid.2.1
        hvalid.2.2
    · cases hstep
  | stray bytes =>
    simp only [UdpNetwork.step] at hstep
    split at hstep
    · cases hstep
    · rename_i hother
      cases hstep
      exact ⟨h.requests, List.forall_mem_append.mpr
        ⟨h.replies, List.forall_mem_singleton.mpr (.other hother)⟩, h.answered, h.client⟩

theorem init_agreed : Agreed req transactionId tracker init where
  requests := List.forall_mem_nil _
  replies := List.forall_mem_nil _
  answered := List.forall_mem_nil _
  client := .connecting

end Parties

end UdpNetwork

/-- **The client and the tracker agree.** However the datagrams of the exchange
are lost, delayed, repeated or reordered, whatever comes in from other
transactions, and however often the client connects again: a response that
`udp_announce` returns is what the tracker has answered to an announce of this
call, which carried a connection id that the tracker had handed out. -/
theorem udp_agreement {req : TrackerRequest} (hhash : req.infoHash.length = 20)
    (hid : req.peerId.length = 20) {transactionId : UInt32}
    {tracker : AnnounceFields → AnnounceReply} {events : List UdpEvent} {s : UdpNetwork}
    (hrun : Run (UdpNetwork.step req transactionId tracker) unguarded UdpNetwork.init events s)
    {response : TrackerResponse} (hdone : s.client = .done (some response)) :
    ∃ connectionId fields, connectionId ∈ s.issued ∧ (connectionId, fields) ∈ s.answered ∧
      (fillAnnounceRequest req connectionId transactionId).bytes ∈ s.requests ∧
      fields = UdpNetwork.announcedFields req connectionId transactionId ∧
      response = (tracker fields).response := by
  have hagreed : UdpNetwork.Agreed req transactionId tracker s :=
    hrun.invariant UdpNetwork.init_agreed fun _ _ _ h _ hstep => h.step hhash hid hstep
  have hclient := hagreed.client
  rw [hdone] at hclient
  cases hclient with
  | @answered connectionId fields hentry =>
    obtain ⟨hissued, hfields, hmem⟩ := hagreed.answered _ hentry
    exact ⟨connectionId, fields, hissued, hentry, hmem, hfields, rfl⟩

/-- A tracker that names one peer. -/
def onePeerTracker (fields : AnnounceFields) : AnnounceReply :=
  ⟨1800, 3, UInt32.ofNat fields.numWant, [(0x0A000001, 6881)], by decide⟩

/-- The announce cannot be sent, and the connection expires. The client connects
again and gets the first connect response once more; the tracker takes up its
announce twice. -/
def lateReplies : List UdpEvent :=
  [.send, .acceptConnect 0 99, .stray [0, 0, 0, 0, 9, 9, 9, 9], .deliver 0, .refuse eagain true,
    .send, .acceptConnect 1 100, .deliver 0, .send, .answerAnnounce 2 99, .answerAnnounce 2 99,
    .deliver 3]

theorem udp_agreement_late_replies :
    ∃ s, Run (UdpNetwork.step emptyRequest 7 onePeerTracker) unguarded UdpNetwork.init
        lateReplies s ∧
      s.client = .done (some ⟨1800, 50, 3, [⟨[10, 0, 0, 1], [26, 225]⟩]⟩) ∧
      ∃ connectionId ∈ s.issued,
        (fillAnnounceRequest emptyRequest connectionId 7).bytes ∈ s.requests := by
  have hexec : (exec (UdpNetwork.step emptyRequest 7 onePeerTracker) unguarded UdpNetwork.init
      lateReplies).map UdpNetwork.client =
      some (.done (some ⟨1800, 50, 3, [⟨[10, 0, 0, 1], [26, 225]⟩]⟩)) := by decide +kernel
  obtain ⟨s, hs, hclient⟩ := Option.map_eq_some_iff.mp hexec
  have hrun := Run.of_exec lateReplies hs
  obtain ⟨connectionId, _, hissued, -, hmem, -⟩ := udp_agreement rfl rfl hrun hclient
  exact ⟨s, hrun, hclient, connectionId, hissued, hmem⟩

end BtClient

import BtClient.Tracker.Udp

/-!
# The announce datagram, decoded

The receiver's view of the 98 bytes: each field read in network byte order. A
field of four bytes that went through `htonl` comes back. One of eight bytes
comes back with the halves exchanged and the high one lost, and the port does
not come back at all: the swap of four bytes moves it out of the low two.
-/

namespace BtClient

open CLib

/-- The fields of an announce as the protocol lays them out. -/
structure AnnounceFields where
  connectionId : Nat
  action : Nat
  transactionId : Nat
  infoHash : List UInt8
  peerId : List UInt8
  downloaded : Nat
  left : Nat
  uploaded : Nat
  event : Nat
  ip : Nat
  key : Nat
  numWant : Nat
  port : Nat
  deriving DecidableEq, Repr

/-- The lengths of the fields. -/
def announceLayout : List Nat := [8, 4, 4, 20, 20, 8, 8, 8, 4, 4, 4, 4, 2]

/-- An announce of 98 bytes, field by field in network byte order. -/
def decodeAnnounce (bytes : List UInt8) : Option AnnounceFields :=
  if bytes.length ≠ 98 then none
  else
    match cut announceLayout bytes with
    | [connectionId, action, transactionId, infoHash, peerId, downloaded, left, uploaded, event,
        ip, key, numWant, port] =>
      some { connectionId := ofBe connectionId, action := ofBe action
             transactionId := ofBe transactionId, infoHash := infoHash, peerId := peerId
             downloaded := ofBe downloaded, left := ofBe left, uploaded := ofBe uploaded
             event := ofBe event, ip := ofBe ip, key := ofBe key, numWant := ofBe numWant
             port := ofBe port }
    | _ => none

/-- What a tracker should read: the ids are in network byte order already, so
it reads the bytes that lie in memory. -/
def expectedFields (req : TrackerRequest) (connectionId : UInt64) (transactionId : UInt32) :
    AnnounceFields where
  connectionId := ofBe (leBytes 8 connectionId.toNat)
  action := 1
  transactionId := ofBe (leBytes 4 transactionId.toNat)
  infoHash := req.infoHash
  peerId := req.peerId
  downloaded := req.downloaded.toNat
  left := req.left.toNat
  uploaded := req.uploaded.toNat
  event := req.event.code
  ip := 0
  key := 0
  numWant := 50
  port := req.port.toNat

/-! ## What becomes of a field -/

theorem toNat_htonl (x : UInt32) : (htonl x).toNat = byteSwap 4 x.toNat := by
  have hlt : byteSwap 4 x.toNat < 2 ^ 32 := byteSwap_lt 4 x.toNat
  unfold htonl
  rw [UInt32.toNat_ofNat', Nat.mod_eq_of_lt hlt]

/-- Four bytes come back. -/
theorem ofBe_htonl (x : UInt32) : ofBe (leBytes 4 (htonl x).toNat) = x.toNat := by
  rw [toNat_htonl, leBytes_byteSwap, ofBe_beBytes]
  exact Nat.mod_eq_of_lt x.toNat_lt

/-- Of eight bytes the low half comes back, as the high half. -/
theorem ofBe_htonl_wide (x : UInt64) :
    ofBe (leBytes 8 (htonl x.toUInt32).toUInt64.toNat) = 2 ^ 32 * (x.toNat % 2 ^ 32) := by
  have hswap : (htonl x.toUInt32).toUInt64.toNat = byteSwap 4 (x.toNat % 2 ^ 32) := by
    rw [UInt32.toNat_toUInt64, toNat_htonl, UInt64.toNat_toUInt32]
  rw [hswap]
  show byteSwap (4 + 4) (byteSwap 4 (x.toNat % 2 ^ 32)) = 2 ^ 32 * (x.toNat % 2 ^ 32)
  rw [byteSwap_of_lt (byteSwap_lt 4 _), byteSwap_byteSwap]
  omega

/-- Of a port nothing is left. -/
theorem port_htonl (x : UInt16) : (htonl x.toUInt32).toUInt16 = 0 := by
  have hswap : byteSwap (2 + 2) x.toNat = 256 ^ 2 * byteSwap 2 x.toNat :=
    byteSwap_of_lt x.toNat_lt
  apply UInt16.toNat_inj.mp
  rw [UInt32.toNat_toUInt16, toNat_htonl, UInt16.toNat_toUInt32, hswap]
  show 256 ^ 2 * byteSwap 2 x.toNat % 2 ^ 16 = 0
  omega

/-- A field of eight bytes survives only if it is zero. -/
theorem wide_survives_iff (x : UInt64) : 2 ^ 32 * (x.toNat % 2 ^ 32) = x.toNat ↔ x = 0 := by
  have hx := x.toNat_lt
  constructor
  · intro h
    apply UInt64.toNat_inj.mp
    show x.toNat = 0
    omega
  · rintro rfl
    rfl

/-! ## The datagram -/

/-- What a tracker reads. -/
theorem decodeAnnounce_bytes {req : TrackerRequest} (hhash : req.infoHash.length = 20)
    (hid : req.peerId.length = 20) (connectionId : UInt64) (transactionId : UInt32) :
    decodeAnnounce (fillAnnounceRequest req connectionId transactionId).bytes =
      some { expectedFields req connectionId transactionId with
        downloaded := 2 ^ 32 * (req.downloaded.toNat % 2 ^ 32)
        left := 2 ^ 32 * (req.left.toNat % 2 ^ 32)
        uploaded := 2 ^ 32 * (req.uploaded.toNat % 2 ^ 32)
        port := 0 } := by
  have hlayout : (fillAnnounceRequest req connectionId transactionId).fields.map List.length =
      announceLayout := by
    simp [UdpAnnounceReq.fields, fillAnnounceRequest, announceLayout, hhash, hid]
  have hlen : (fillAnnounceRequest req connectionId transactionId).bytes.length = 98 := by
    rw [UdpAnnounceReq.bytes, List.length_flatten, hlayout]
    rfl
  have hcut : cut announceLayout (fillAnnounceRequest req connectionId transactionId).bytes =
      (fillAnnounceRequest req connectionId transactionId).fields := by
    rw [← hlayout]
    exact cut_flatten _
  have hevent : (UInt32.ofNat req.event.code).toNat = req.event.code := by
    cases req.event <;> rfl
  unfold decodeAnnounce
  rw [if_neg (by simpa using hlen), hcut]
  simp only [UdpAnnounceReq.fields, fillAnnounceRequest, expectedFields, ofBe_htonl,
    ofBe_htonl_wide, port_htonl, hevent]
  rfl

/-- **The announce datagram decodes to the request** exactly when port,
downloaded, left and uploaded are all zero. -/
theorem announce_decodes_iff {req : TrackerRequest} (hhash : req.infoHash.length = 20)
    (hid : req.peerId.length = 20) (connectionId : UInt64) (transactionId : UInt32) :
    decodeAnnounce (fillAnnounceRequest req connectionId transactionId).bytes =
        some (expectedFields req connectionId transactionId) ↔
      req.downloaded = 0 ∧ req.left = 0 ∧ req.uploaded = 0 ∧ req.port = 0 := by
  rw [decodeAnnounce_bytes hhash hid, Option.some.injEq, AnnounceFields.mk.injEq]
  have hport : (0 : Nat) = req.port.toNat ↔ req.port = 0 := by
    rw [← UInt16.toNat_inj, eq_comm]
    rfl
  simp only [expectedFields, wide_survives_iff, hport, true_and]

/-- The request of a client that has nothing left to download, on port `0`. -/
def emptyRequest : TrackerRequest where
  flags := 0
  infoHash := List.replicate 20 7
  peerId := List.replicate 20 8
  port := 0
  uploaded := 0
  downloaded := 0
  left := 0
  event := .eventCompleted

theorem announce_decodes_empty :
    decodeAnnounce (fillAnnounceRequest emptyRequest 5 6).bytes =
      some (expectedFields emptyRequest 5 6) :=
  (announce_decodes_iff rfl rfl 5 6).mpr ⟨rfl, rfl, rfl, rfl⟩

/-- The port of every announce of this client, `6889`, is sent as `0`. -/
theorem port_not_announced :
    decodeAnnounce (fillAnnounceRequest { emptyRequest with port := 6889 } 5 6).bytes ≠
      some (expectedFields { emptyRequest with port := 6889 } 5 6) := by
  rw [decodeAnnounce_bytes rfl rfl]
  decide

end BtClient

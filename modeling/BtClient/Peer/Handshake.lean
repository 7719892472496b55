import BtClient.Lib.CString
import BtClient.Peer.Socket

/-!
# The handshake (`peer-msg/peer_msg.c`)

68 bytes each way: the length of the protocol name, the name, eight reserved
bytes, the info hash and the peer id. The receiver compares the hash, which is
binary, with `strncmp`: two hashes with a zero byte at the same place are the
same to it from there on.
-/

namespace BtClient

open CLib

/-- The string `"BitTorrent protocol"`. -/
def pstr : List UInt8 := "BitTorrent protocol".toList.map fun c => UInt8.ofNat c.toNat

/-- The buffer `peer_send_handshake` fills. -/
def handshakeBytes (peerId infoHash : List UInt8) : List UInt8 :=
  UInt8.ofNat pstr.length :: pstr ++ List.replicate 8 0 ++ infoHash ++ peerId

/-- `bufflen`, with 20 bytes of hash and 20 of `peer_id`. -/
def handshakeLen : Nat := 1 + pstr.length + 8 + 20 + 20

/-- `peer_send_handshake(sockfd, info_hash)`: whether it returned `0`. -/
def peerSendHandshake (peerId infoHash : List UInt8) (s : Socket) : Bool × Socket :=
  sendBuff s (handshakeBytes peerId infoHash)

/-- What `peer_recv_handshake` does with a full buffer: `out_peer_id`, `none` for
the return value `-1`. -/
def checkHandshake (infoHash buff : List UInt8) : Option (List UInt8) :=
  if buff.getD 0 0 ≠ UInt8.ofNat pstr.length then none
  else if strncmp pstr.length (slice buff 1 pstr.length) pstr ≠ 0 then none
  else if strncmp 20 (slice buff (1 + pstr.length + 8) 20) infoHash ≠ 0 then none
  else some (slice buff (1 + pstr.length + 8 + 20) 20)

/-- `peer_recv_handshake(sockfd, info_hash, out_peer_id)`. -/
def peerRecvHandshake (infoHash : List UInt8) (s : Socket) : Option (List UInt8) × Socket :=
  let r := peerRecv s handshakeLen
  (if r.ok then checkHandshake infoHash r.bytes else none, r.sock)

/-- `handshake(sockfd, info_hash, out_peer_id)`. -/
def handshake (peerId infoHash : List UInt8) (s : Socket) : Option (List UInt8) × Socket :=
  match peerSendHandshake peerId infoHash s with
  | (false, s) => (none, s)
  | (true, s) => peerRecvHandshake infoHash s

/-! ## The format -/

/-- A handshake for `infoHash`, with any reserved bytes. -/
structure IsHandshake (infoHash buff : List UInt8) : Prop where
  length : buff.getD 0 0 = 19
  protocol : slice buff 1 19 = pstr
  hash : slice buff 28 20 = infoHash

/-- The receiver returns `0` on 68 bytes exactly when they are a handshake for
its hash, and then with the peer's id; so it takes what a peer sends for this
hash and nothing that one sends for another. -/
structure HandshakeAgrees (infoHash : List UInt8) : Prop where
  accepts : ∀ s buff rest, buff.length = 68 → NeverFails s.recvPlan → s.rx = buff ++ rest →
    ((peerRecvHandshake infoHash s).1 ≠ none ↔ IsHandshake infoHash buff) ∧
    ∀ id, (peerRecvHandshake infoHash s).1 = some id → id = slice buff 48 20
  meets : ∀ peerId other t s bytes rest, peerId.length = 20 → other.length = 20 →
    NeverFails t.sendPlan → (peerSendHandshake peerId other t).2.tx = t.tx ++ bytes →
    NeverFails s.recvPlan → s.rx = bytes ++ rest →
    (peerRecvHandshake infoHash s).1 = if other = infoHash then some peerId else none

/-- No zero byte in front of the last byte. -/
def NoEarlyZero (infoHash : List UInt8) : Prop := ∀ k, k + 1 < 20 → infoHash[k]? ≠ some 0

/-! ## Both sides -/

theorem length_handshakeBytes {peerId infoHash : List UInt8} (hid : peerId.length = 20)
    (hhash : infoHash.length = 20) : (handshakeBytes peerId infoHash).length = 68 := by
  simp [handshakeBytes, hid, hhash]
  decide

/-- The bytes in front of the hash. -/
def handshakeHead : List UInt8 := UInt8.ofNat pstr.length :: pstr ++ List.replicate 8 0

/-- The parts of what is sent. -/
theorem handshakeBytes_parts {peerId infoHash : List UInt8} (hid : peerId.length = 20)
    (hhash : infoHash.length = 20) :
    slice (handshakeBytes peerId infoHash) 1 19 = pstr ∧
      slice (handshakeBytes peerId infoHash) 28 20 = infoHash ∧
      slice (handshakeBytes peerId infoHash) 48 20 = peerId := by
  have hbytes : handshakeBytes peerId infoHash = handshakeHead ++ (infoHash ++ peerId) := by
    simp [handshakeBytes, handshakeHead]
  have hhead : handshakeHead.length = 28 := by decide
  rw [hbytes]
  refine ⟨?_, ?_, ?_⟩
  · rw [slice_append_left (by rw [hhead]; decide)]
    decide
  · rw [slice_behind hhead, slice_append_left (by omega), ← hhash, slice_all]
  · have hboth : (handshakeHead ++ infoHash).length = 48 := by
      rw [List.length_append, hhead, hhash]
    rw [← List.append_assoc, slice_behind hboth, ← hid, slice_all]

/-- `peer_recv_handshake` on a stream that has its 68 bytes. -/
theorem peerRecvHandshake_of_bytes {infoHash buff rest : List UInt8} {s : Socket}
    (hlen : buff.length = 68) (hnf : NeverFails s.recvPlan) (hrx : s.rx = buff ++ rest) :
    (peerRecvHandshake infoHash s).1 = checkHandshake infoHash buff := by
  obtain ⟨hok, hbytes, -, -⟩ := peerRecv_exact hnf hrx
  have hsize : handshakeLen = buff.length := by
    rw [hlen]
    rfl
  show (if (peerRecv s handshakeLen).ok then
    checkHandshake infoHash (peerRecv s handshakeLen).bytes else none) = _
  rw [hsize, hok, hbytes, if_pos rfl]

/-- The protocol name has no zero byte, so its comparison is equality. -/
theorem strncmp_pstr {bytes : List UInt8} (hlen : bytes.length = 19) :
    strncmp 19 bytes pstr = 0 ↔ bytes = pstr := by
  refine strncmp_eq_zero_of_nonzero hlen rfl fun k _ hk => ?_
  exact absurd (List.mem_of_getElem? hk) (by decide)

/-- What the checks come to. -/
theorem checkHandshake_eq {infoHash buff : List UInt8} (hlen : buff.length = 68) :
    checkHandshake infoHash buff =
      if buff.getD 0 0 = 19 ∧ slice buff 1 19 = pstr ∧
        strncmp 20 (slice buff 28 20) infoHash = 0 then some (slice buff 48 20) else none := by
  have hname : (slice buff 1 19).length = 19 := by
    simp only [slice, List.length_take, List.length_drop]
    omega
  have hfirst : UInt8.ofNat 19 = 19 := rfl
  have hnum : pstr.length = 19 := by decide
  unfold checkHandshake
  simp only [hnum, hfirst, Nat.reduceAdd]
  by_cases h0 : buff.getD 0 0 = 19
  · by_cases h1 : slice buff 1 19 = pstr
    · have hs := (strncmp_pstr hname).mpr h1
      rw [if_neg (by simpa using h0), if_neg (by simpa using hs)]
      by_cases h2 : strncmp 20 (slice buff 28 20) infoHash = 0
      · rw [if_neg (by simpa using h2), if_pos ⟨h0, h1, h2⟩]
      · rw [if_pos h2, if_neg (fun h => h2 h.2.2)]
    · have hs : strncmp 19 (slice buff 1 19) pstr ≠ 0 := fun h => h1 ((strncmp_pstr hname).mp h)
      rw [if_neg (by simpa using h0), if_pos hs, if_neg (fun h => h1 h.2.1)]
  · rw [if_pos h0, if_neg (fun h => h0 h.1)]

/-- Where the comparison of the hashes is equality, the checks are the format. -/
theorem checkHandshake_of_noEarlyZero {infoHash buff : List UInt8} (hhash : infoHash.length = 20)
    (hzero : NoEarlyZero infoHash) (hlen : buff.length = 68) :
    (checkHandshake infoHash buff ≠ none ↔ IsHandshake infoHash buff) ∧
      ∀ id, checkHandshake infoHash buff = some id → id = slice buff 48 20 := by
  have hsize : (slice buff 28 20).length = 20 := by
    simp only [slice, List.length_take, List.length_drop]
    omega
  have hsame : strncmp 20 (slice buff 28 20) infoHash = 0 ↔ slice buff 28 20 = infoHash :=
    strncmp_eq_zero_of_nonzero hsize hhash hzero
  rw [checkHandshake_eq hlen]
  constructor
  · constructor
    · intro hne
      by_contra hnot
      exact hne (if_neg fun h => hnot ⟨h.1, h.2.1, hsame.mp h.2.2⟩)
    · intro h
      rw [if_pos ⟨h.length, h.protocol, hsame.mpr h.hash⟩]
      simp
  · intro id hid
    split at hid
    · exact (Option.some.inj hid).symm
    · cases hid

/-- What a peer sends for `other` is a handshake for `other` alone. -/
theorem isHandshake_handshakeBytes {peerId infoHash other : List UInt8} (hid : peerId.length = 20)
    (hother : other.length = 20) :
    IsHandshake infoHash (handshakeBytes peerId other) ↔ other = infoHash := by
  obtain ⟨hname, hhash, -⟩ := handshakeBytes_parts hid hother
  constructor
  · intro h
    rw [← h.hash, hhash]
  · rintro rfl
    exact ⟨rfl, hname, hhash⟩

theorem peerSendHandshake_tx {peerId infoHash bytes : List UInt8} {t : Socket}
    (hnf : NeverFails t.sendPlan)
    (h : (peerSendHandshake peerId infoHash t).2.tx = t.tx ++ bytes) :
    bytes = handshakeBytes peerId infoHash := by
  have hsent := (sendBuff_spec hnf (handshakeBytes peerId infoHash)).2.1
  exact (List.append_cancel_left (hsent.symm.trans h)).symm

/-- The last byte of a hash changed. -/
def changeLast (infoHash : List UInt8) : List UInt8 :=
  infoHash.set 19 (infoHash.getD 19 0 + 1)

/-- Two hashes that `strncmp` takes for one. -/
theorem changeLast_confused {infoHash : List UInt8} (hhash : infoHash.length = 20) {k : Nat}
    (hk : k + 1 < 20) (hzero : infoHash[k]? = some 0) :
    strncmp 20 (changeLast infoHash) infoHash = 0 ∧ changeLast infoHash ≠ infoHash := by
  constructor
  · refine (strncmp_eq_zero_iff 20 (by simpa [changeLast] using hhash) hhash).mpr (.inr ⟨k, ?_⟩)
    refine ⟨?_, ?_, hzero⟩
    · exact List.take_set_of_le (by omega)
    · rw [changeLast, List.getElem?_set_ne (by omega)]
      exact hzero
  · intro heq
    have hget := congrArg (fun l : List UInt8 => l.getD 19 0) heq
    simp only [changeLast, List.getD_eq_getElem?_getD,
      List.getElem?_set_self (show 19 < infoHash.length by omega), Option.getD_some] at hget
    exact absurd hget (by simp)

/-- The handshake a peer sends for `other`, all at once. -/
def sentFor (other : List UInt8) : Socket where
  rx := handshakeBytes (List.replicate 20 0) other
  tx := []
  recvPlan := fun _ => some 68
  sendPlan := fun _ => none

/-- A hash with an early zero is confused with another one. -/
theorem not_agrees_of_zero {infoHash : List UInt8} (hhash : infoHash.length = 20) {k : Nat}
    (hk : k + 1 < 20) (hzero : infoHash[k]? = some 0) : ¬ HandshakeAgrees infoHash := by
  intro hagrees
  obtain ⟨hsame, hne⟩ := changeLast_confused hhash hk hzero
  have hid : (List.replicate 20 (0 : UInt8)).length = 20 := by decide
  have hother : (changeLast infoHash).length = 20 := by
    rw [changeLast, List.length_set, hhash]
  have hlen := length_handshakeBytes hid hother
  have hnf : NeverFails (sentFor (changeLast infoHash)).recvPlan := fun _ => by simp [sentFor]
  have hrx : (sentFor (changeLast infoHash)).rx =
      handshakeBytes (List.replicate 20 0) (changeLast infoHash) ++ [] := by
    rw [List.append_nil]
    rfl
  obtain ⟨hname, hpart, -⟩ := handshakeBytes_parts hid hother
  have hiff := (hagrees.accepts _ _ _ hlen hnf hrx).1
  rw [peerRecvHandshake_of_bytes hlen hnf hrx, checkHandshake_eq hlen, hpart,
    if_pos ⟨rfl, hname, hsame⟩, isHandshake_handshakeBytes hid hother] at hiff
  exact hne (hiff.mp (by simp))

/-- **Handshake agreement** holds for an info hash exactly when it has no zero
byte in front of its last byte. -/
theorem handshake_agrees_iff {infoHash : List UInt8} (hhash : infoHash.length = 20) :
    HandshakeAgrees infoHash ↔ NoEarlyZero infoHash := by
  constructor
  · intro hagrees k hk hzero
    exact not_agrees_of_zero hhash hk hzero hagrees
  · intro hzero
    refine ⟨?_, ?_⟩
    · intro s buff rest hlen hnf hrx
      rw [peerRecvHandshake_of_bytes hlen hnf hrx]
      exact checkHandshake_of_noEarlyZero hhash hzero hlen
    · intro peerId other t s bytes rest hid hother hsend hbytes hnf hrx
      rw [peerSendHandshake_tx hsend hbytes] at hrx
      have hlen := length_handshakeBytes hid hother
      obtain ⟨hiff, hval⟩ := checkHandshake_of_noEarlyZero hhash hzero hlen
      rw [isHandshake_handshakeBytes hid hother] at hiff
      rw [peerRecvHandshake_of_bytes hlen hnf hrx]
      by_cases heq : other = infoHash
      · rw [if_pos heq]
        obtain ⟨id, hgot⟩ := Option.ne_none_iff_exists'.mp (hiff.mpr heq)
        rw [hgot, hval id hgot, (handshakeBytes_parts hid hother).2.2]
      · rw [if_neg heq]
        by_contra hne
        exact heq (hiff.mp hne)

/-- A hash without zero bytes. -/
theorem handshake_agrees_ones : HandshakeAgrees (List.replicate 20 1) := by
  refine (handshake_agrees_iff (by decide)).mpr fun k _ hk => ?_
  exact absurd (List.mem_of_getElem? hk) (by decide)

/-- A hash that begins with a zero byte: it is taken for every other such hash. -/
theorem handshake_confuses_zeros : ¬ HandshakeAgrees (List.replicate 20 0) :=
  not_agrees_of_zero (by decide) (show 0 + 1 < 20 by decide) rfl

end BtClient

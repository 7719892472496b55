import BtClient.Connection.Calls
import BtClient.Peer.Framing
import BtClient.Peer.Wire

/-!
# The assertions and subtractions of the decoder

`peer_msg_recv` asserts what a payload has left to read and subtracts field
sizes from an unsigned length, both behind `valid_len` only. The checked
decoder has an assertion in front of every subtraction as well; that it never
fails and computes the same is what "no length wraps" means here.
-/

namespace BtClient

open CLib

/-! ## Assertions that hold -/

section NoAssert

variable {α β : Type}

/-- No assertion fails. -/
def NoAssert (m : Except Fault α) : Prop := m ≠ .error .assertFailed

theorem noAssert_ok (a : α) : NoAssert (.ok a : Except Fault α) := by
  intro h
  cases h

theorem noAssert_bind {m : Except Fault α} {k : α → Except Fault β} (hm : NoAssert m)
    (hk : ∀ a, NoAssert (k a)) : NoAssert (m >>= k) := by
  cases m with
  | ok a => exact hk a
  | error e =>
    intro h
    cases h
    exact hm rfl

/-- An assertion that holds, and what follows it. -/
theorem noAssert_check {cond : Bool} (h : cond = true) {k : Unit → Except Fault β}
    (hk : NoAssert (k ())) : NoAssert (check cond >>= k) := by
  rw [check_of h]
  exact hk

theorem noAssert_recvThen {s : Socket} {disk : Disk} {len : Nat}
    {k : List UInt8 → Socket → Except Fault (RecvResult α)}
    (hk : ∀ bytes s₁, NoAssert (k bytes s₁)) : NoAssert (recvThen s disk len k) := by
  simp only [recvThen]
  split
  · exact hk _ _
  · exact noAssert_ok _

theorem noAssert_sendThen {s : Socket} {buff : List UInt8}
    {k : Socket → Except Fault (Bool × Socket)} (hk : ∀ s₁, NoAssert (k s₁)) :
    NoAssert (sendThen s buff k) := by
  unfold sendThen
  split
  · exact noAssert_ok _
  · exact hk _

end NoAssert

theorem pieceRequestCreate_noAssert (torrent : Metainfo) (index : UInt32) :
    NoAssert (pieceRequestCreate torrent index) := by
  rcases Nat.lt_or_ge torrent.totalLength (pieceStart torrent index) with hlt | hle
  · rw [(pieceRequestCreate_spec torrent index).2 hlt]
    intro h
    cases h
  · obtain ⟨r, hr, -⟩ := (pieceRequestCreate_spec torrent index).1 hle
    rw [hr]
    exact noAssert_ok r

theorem peerMsgRecvPiece_noAssert (torrent : Metainfo) (len : Nat) (s : Socket) (disk : Disk) :
    NoAssert (peerMsgRecvPiece torrent len s disk) := by
  refine noAssert_recvThen fun idx s₁ => noAssert_recvThen fun beg s₂ => ?_
  refine noAssert_bind (pieceRequestCreate_noAssert torrent _) fun pr => ?_
  cases pieceRequestBlockAt pr (ofBe32 beg).toNat with
  | none => exact noAssert_ok _
  | some br => exact noAssert_ok _

/-! ## What `valid_len` guarantees -/

/-- The payload's assertions hold at an accepted length. -/
theorem recvPayload_noAssert {torrent : Metainfo} {type : MsgType} {len : Nat} {s : Socket}
    {disk : Disk} (hlen : len < 2 ^ 32) (hpos : len ≠ 0)
    (hvalid : validLen type torrent len = true) :
    NoAssert (recvPayload torrent type (wordSub len 1) s disk) := by
  rw [wordSub_of_le (Nat.pos_of_ne_zero hpos) hlen]
  rcases validLen_cases hvalid with ⟨rfl, hlo, -⟩ | ⟨hne, heq⟩
  · refine noAssert_check (by simp only [decide_eq_true_eq]; omega) ?_
    exact noAssert_bind (peerMsgRecvPiece_noAssert torrent _ s disk) fun r => noAssert_ok _
  · cases type with
    | msgPiece => exact absurd rfl hne
    | msgCancel | msgKeepalive => exact noAssert_ok _
    | msgChoke | msgUnchoke | msgInterested | msgNotInterested =>
      exact noAssert_check (by rw [heq]; rfl) (noAssert_ok _)
    | msgHave | msgPort =>
      exact noAssert_check (by rw [heq]; rfl) (noAssert_recvThen fun _ _ => noAssert_ok _)
    | msgBitfield => exact noAssert_recvThen fun _ _ => noAssert_ok _
    | msgRequest =>
      exact noAssert_recvThen fun _ _ => noAssert_check (by rw [heq]; rfl) (noAssert_ok _)

theorem peerMsgRecv_noAssert (torrent : Metainfo) (s : Socket) (disk : Disk) :
    NoAssert (peerMsgRecv torrent s disk) := by
  refine noAssert_recvThen fun word s₁ => ?_
  rw [recvBody]
  split
  · exact noAssert_ok _
  · rename_i hpos
    refine noAssert_recvThen fun bytes s₂ => ?_
    rw [recvTyped]
    split
    · exact noAssert_ok _
    · split
      · rename_i hvalid
        exact recvPayload_noAssert (UInt32.toNat_lt _) hpos hvalid
      · exact noAssert_ok _

/-! ## The checked decoder -/

/-- `a - b`, behind the assertion that it does not wrap. -/
def checkedSub (a b : Nat) : Except Fault Nat := do
  check (b ≤ a)
  return a - b

def recvBlockChecked (torrent : Metainfo) (disk : Disk) (index : UInt32) (left : Nat)
    (bytes : List UInt8) (s : Socket) : Except Fault (RecvResult PieceMsg) := do
  let begin := ofBe32 bytes
  let left ← checkedSub left 4
  let pr ← pieceRequestCreate torrent index
  match pieceRequestBlockAt pr begin.toNat with
  | none => return (none, s, disk)
  | some br =>
    let (ok, s, disk) := recvFilemems br.filemems s disk
    return (if ok then some ⟨index, begin, left⟩ else none, s, disk)

def recvBeginChecked (torrent : Metainfo) (disk : Disk) (left : Nat) (bytes : List UInt8)
    (s : Socket) : Except Fault (RecvResult PieceMsg) := do
  let left ← checkedSub left 4
  recvThen s disk 4 (recvBlockChecked torrent disk (ofBe32 bytes) left)

def peerMsgRecvPieceChecked (torrent : Metainfo) (len : Nat) (s : Socket) (disk : Disk) :
    Except Fault (RecvResult PieceMsg) :=
  recvThen s disk 4 (recvBeginChecked torrent disk len)

def recvPayloadChecked (torrent : Metainfo) (type : MsgType) (left : Nat) (s : Socket)
    (disk : Disk) : Except Fault (RecvResult PeerMsg) :=
  match type with
  | .msgPiece => do
    check (left > 0)
    let (piece, s, disk) ← peerMsgRecvPieceChecked torrent left s disk
    return (piece.map .piece, s, disk)
  -- the other cases do not subtract
  | type => recvPayload torrent type left s disk

def recvTypedChecked (torrent : Metainfo) (disk : Disk) (len : Nat) (bytes : List UInt8)
    (s : Socket) : Except Fault (RecvResult PeerMsg) :=
  match MsgType.ofCode (bytes.getD 0 0) with
  | none => .ok (none, s, disk)
  | some type =>
    if validLen type torrent len then do
      let left ← checkedSub len 1
      recvPayloadChecked torrent type left s disk
    else .ok (none, s, disk)

def recvBodyChecked (torrent : Metainfo) (disk : Disk) (bytes : List UInt8) (s : Socket) :
    Except Fault (RecvResult PeerMsg) :=
  let len := (ofBe32 bytes).toNat
  if len = 0 then .ok (some .keepalive, s, disk)
  else recvThen s disk 1 (recvTypedChecked torrent disk len)

/-- `peer_msg_recv` with every subtraction of a length asserted. -/
def peerMsgRecvChecked (torrent : Metainfo) (s : Socket) (disk : Disk) :
    Except Fault (RecvResult PeerMsg) :=
  recvThen s disk 4 (recvBodyChecked torrent disk)

theorem checkedSub_of_le {a b : Nat} (h : b ≤ a) : checkedSub a b = .ok (a - b) := by
  rw [checkedSub, check_of (decide_eq_true h)]
  rfl

theorem peerMsgRecvPieceChecked_eq {torrent : Metainfo} {len : Nat} {s : Socket} {disk : Disk}
    (hlo : 8 ≤ len) (hlen : len < 2 ^ 32) :
    peerMsgRecvPieceChecked torrent len s disk = peerMsgRecvPiece torrent len s disk := by
  have hblock : ∀ index, recvBlockChecked torrent disk index (len - 4)
      = recvBlock torrent disk index (len - 4) := by
    intro index
    funext bytes s₁
    rw [recvBlockChecked, recvBlock, checkedSub_of_le (by omega),
      wordSub_of_le (by omega) (by omega)]
    rfl
  have hbegin : recvBeginChecked torrent disk len = recvBegin torrent disk len := by
    funext bytes s₁
    rw [recvBeginChecked, recvBegin, checkedSub_of_le (by omega), ok_bind, hblock,
      wordSub_of_le (by omega) hlen]
  rw [peerMsgRecvPieceChecked, peerMsgRecvPiece, hbegin]

theorem recvPayloadChecked_eq {torrent : Metainfo} {type : MsgType} {len : Nat} {s : Socket}
    {disk : Disk} (hlen : len < 2 ^ 32) (hvalid : validLen type torrent len = true) :
    recvPayloadChecked torrent type (len - 1) s disk
      = recvPayload torrent type (len - 1) s disk := by
  cases type with
  | msgPiece =>
    rcases validLen_cases hvalid with ⟨-, hlo, -⟩ | ⟨hne, -⟩
    · rw [recvPayloadChecked, recvPayload, peerMsgRecvPieceChecked_eq (by omega) (by omega)]
    · exact absurd rfl hne
  | _ => rfl

theorem peerMsgRecvChecked_eq (torrent : Metainfo) (s : Socket) (disk : Disk) :
    peerMsgRecvChecked torrent s disk = peerMsgRecv torrent s disk := by
  have hbody : recvBodyChecked torrent disk = recvBody torrent disk := by
    funext word s₁
    rw [recvBodyChecked, recvBody]
    by_cases hzero : (ofBe32 word).toNat = 0
    · rw [if_pos hzero, if_pos hzero]
    · have htyped : recvTypedChecked torrent disk (ofBe32 word).toNat
          = recvTyped torrent disk (ofBe32 word).toNat := by
        funext bytes s₂
        rw [recvTypedChecked, recvTyped]
        cases MsgType.ofCode (bytes.getD 0 0) with
        | none => rfl
        | some type =>
          simp only
          by_cases hvalid : validLen type torrent (ofBe32 word).toNat = true
          · rw [if_pos hvalid, if_pos hvalid, checkedSub_of_le (by omega), ok_bind,
              recvPayloadChecked_eq (UInt32.toNat_lt _) hvalid,
              wordSub_of_le (by omega) (UInt32.toNat_lt _)]
          · rw [if_neg hvalid, if_neg hvalid]
      simp only [if_neg hzero, htyped]
  rw [peerMsgRecvChecked, peerMsgRecv, hbody]

/-! ## Accepted and refused frames -/

/-- The length of an accepted block. -/
theorem peerMsgRecv_blocklen {torrent : Metainfo} {s s' : Socket} {disk disk' : Disk}
    {piece : PieceMsg} (h : peerMsgRecv torrent s disk = .ok (some (.piece piece), s', disk')) :
    1 ≤ piece.blocklen ∧ piece.blocklen ≤ peerRequestSize := by
  obtain ⟨word, s₁, -, -, hcases⟩ := peerMsgRecv_cases h
  rcases hcases with ⟨-, hmsg, -⟩ | ⟨code, type, s₂, hne, -, -, hvalid, hpayload⟩
  · cases hmsg
  · have htype : type = .msgPiece := (recvPayload_type hpayload).symm
    subst htype
    rcases validLen_cases hvalid with ⟨-, hlo, hhi⟩ | ⟨hother, -⟩
    · have hlt := (ofBe32 word).toNat_lt
      rw [wordSub_of_le (by omega) hlt] at hpayload
      obtain ⟨_, -, hpayload⟩ := (seq_returns_iff _ _ _).mp hpayload
      obtain ⟨⟨out, s₃, disk₃⟩, hrecv, hpayload⟩ := (seq_returns_iff _ _ _).mp hpayload
      cases out with
      | none => cases hpayload
      | some p =>
        cases hpayload
        obtain ⟨idx, beg, pr, br, s₄, -, -, -, -, -, -, rfl⟩ := peerMsgRecvPiece_cases hrecv
        simp only
        rw [peerRequestSize_eq] at hhi
        rw [wordSub_of_le (a := (ofBe32 word).toNat - 1) (by omega) (by omega),
          wordSub_of_le (by omega) (by omega), peerRequestSize_eq]
        omega
    · exact absurd rfl hother

/-- An accepted bitfield has the torrent's size. -/
theorem peerMsgRecv_bitfield_length {torrent : Metainfo} {s s' : Socket} {disk disk' : Disk}
    {bits : List UInt8} (hn : torrent.info.numPieces < 2 ^ 32)
    (h : peerMsgRecv torrent s disk = .ok (some (.bitfield bits), s', disk')) :
    bits.length = bitfieldNumBytes torrent.info.numPieces := by
  have hlen := peerMsgRecv_bitfield h
  rw [msgbufLen, Nat.mod_eq_of_lt (bitfieldNumBytes_lt hn)] at hlen
  omega

/-- A type byte that is no message type of the wire format. -/
theorem validLen_of_internal {torrent : Metainfo} {code : UInt8} {type : MsgType} {len : Nat}
    (hcode : 10 ≤ code) (htype : MsgType.ofCode code = some type) (hlen : len ≠ 0) :
    validLen type torrent len = false := by
  rw [MsgType.ofCode_eq_some htype] at hcode
  cases type with
  | msgKeepalive => simpa [validLen, msgbufLen] using hlen
  | _ => exact absurd hcode (by decide)

/-- A read that leads to a refusal, or fails itself. -/
theorem recvThen_refuses {α : Type} {s : Socket} {disk : Disk} {len : Nat}
    {k : List UInt8 → Socket → Except Fault (RecvResult α)}
    (hk : ∀ bytes s₁, s.rx = bytes ++ s₁.rx → bytes.length = len →
      ∃ s', k bytes s₁ = .ok (none, s', disk)) :
    ∃ s', recvThen s disk len k = .ok (none, s', disk) := by
  simp only [recvThen]
  by_cases hok : (peerRecv s len).ok = true
  · rw [if_pos hok]
    obtain ⟨hrx, hlen⟩ := peerRecv_ok hok
    exact hk _ _ hrx hlen
  · rw [if_neg hok]
    exact ⟨_, rfl⟩

theorem peerMsgRecv_refuses {torrent : Metainfo} {s : Socket} {disk : Disk} {word rest : List UInt8}
    {code : UInt8} (hrx : s.rx = word ++ code :: rest) (hword : word.length = 4)
    (hlen : (ofBe32 word).toNat ≠ 0) (hcode : 10 ≤ code) :
    ∃ s', peerMsgRecv torrent s disk = .ok (none, s', disk) := by
  refine recvThen_refuses fun bytes s₁ hrx₁ hbytes => ?_
  obtain ⟨rfl, hrest⟩ := List.append_inj (hrx₁.symm.trans hrx) (hbytes.trans hword.symm)
  simp only [recvBody, if_neg hlen]
  refine recvThen_refuses fun ty s₂ hrx₂ hty => ?_
  obtain ⟨c, rfl⟩ := List.length_eq_one_iff.mp hty
  rw [hrx₂, List.singleton_append, List.cons.injEq] at hrest
  obtain ⟨rfl, -⟩ := hrest
  simp only [recvTyped, List.getD_cons_zero]
  cases htype : MsgType.ofCode c with
  | none => exact ⟨s₂, rfl⟩
  | some type =>
    simp only [validLen_of_internal hcode htype hlen]
    exact ⟨s₂, rfl⟩

/-! ## `process_msg` -/

theorem showInterested_noAssert (torrent : Metainfo) (sock : Socket) (state : ConnState) :
    NoAssert (showInterested torrent sock state) := by
  have hsend : NoAssert (peerMsgSend torrent .interested sock) :=
    noAssert_sendThen fun s₁ => noAssert_sendThen fun s₂ => noAssert_check rfl (noAssert_ok _)
  exact noAssert_bind hsend fun r => noAssert_ok _

/-- The `MSG_BITFIELD` case, for a bitfield of the connection's size. -/
theorem processBitfield_noAssert {torrent : Metainfo} {bits : List UInt8} {state : ConnState}
    (hbits : bits.length = bitfieldNumBytes state.bitlen) (sock : Socket) (sh : Shared) :
    NoAssert (processBitfield torrent bits sock state sh) := by
  refine noAssert_check (decide_eq_true hbits) (noAssert_bind ?_ fun peerHave => ?_)
  · unfold RequestQueue.memWrite
    split
    · exact noAssert_ok _
    · intro h
      cases h
  · simp only
    split
    · exact showInterested_noAssert torrent sock _
    · exact noAssert_ok _

/-- What the bytes of a stream cannot do to the decoder. -/
structure DecoderSafe (torrent : Metainfo) (s : Socket) (disk : Disk) : Prop where
  asserts : peerMsgRecv torrent s disk ≠ .error .assertFailed
  no_wrap : peerMsgRecvChecked torrent s disk = peerMsgRecv torrent s disk
  block : ∀ piece s' disk', peerMsgRecv torrent s disk = .ok (some (.piece piece), s', disk') →
    1 ≤ piece.blocklen ∧ piece.blocklen ≤ peerRequestSize
  bitfield : ∀ bits s' disk', peerMsgRecv torrent s disk = .ok (some (.bitfield bits), s', disk') →
    bits.length = bitfieldNumBytes torrent.info.numPieces
  refused : ∀ word code rest, s.rx = word ++ code :: rest → word.length = 4 →
    (ofBe32 word).toNat ≠ 0 → 10 ≤ code → ∃ s', peerMsgRecv torrent s disk = .ok (none, s', disk)

/-- An accepted bitfield does not trip the assertion of `process_msg`, in any
state of a connection. -/
def BitfieldHandled (torrent : Metainfo) (s : Socket) (disk : Disk) : Prop :=
  ∀ bits s' disk', peerMsgRecv torrent s disk = .ok (some (.bitfield bits), s', disk') →
    ∀ sha1 fill sh₀ state₀ calls p, connStateInit fill torrent sh₀ = .ok state₀ →
      Run (Peering.step sha1 torrent) unguarded ⟨state₀, []⟩ calls p →
      ∀ realloc disk sock sh, processMsg sha1 torrent realloc disk (.bitfield bits) sock p.state sh
        ≠ .error .assertFailed

/-- **No bytes of a peer trip an assertion or wrap a length.** -/
theorem decoder_safe (torrent : Metainfo) (hn : torrent.info.numPieces < 2 ^ 32) (s : Socket)
    (disk : Disk) : DecoderSafe torrent s disk ∧ BitfieldHandled torrent s disk := by
  refine ⟨?_, ?_⟩
  · exact {
      asserts := peerMsgRecv_noAssert torrent s disk
      no_wrap := peerMsgRecvChecked_eq torrent s disk
      block := fun _ _ _ h => peerMsgRecv_blocklen h
      bitfield := fun _ _ _ h => peerMsgRecv_bitfield_length hn h
      refused := fun _ _ _ hrx hword hlen hcode => peerMsgRecv_refuses hrx hword hlen hcode }
  · intro bits s' disk' hrecv sha1 fill sh₀ state₀ calls p hinit hrun realloc disk₁ sock sh
    have hbits := peerMsgRecv_bitfield_length hn hrecv
    rw [← (Peering.run_sized hinit hrun).bitlen] at hbits
    exact noAssert_bind (processBitfield_noAssert hbits sock sh) fun r => noAssert_ok _

/-- A type byte of ten on a torrent of eight pieces. -/
theorem decoder_safe_internal : ∃ s', peerMsgRecv eightPieces
    ⟨[0, 0, 0, 1, 10], [], fun _ => some 5, fun _ => none⟩ [] = .ok (none, s', []) :=
  (decoder_safe eightPieces (by decide) ⟨[0, 0, 0, 1, 10], [], fun _ => some 5, fun _ => none⟩
    []).1.refused [0, 0, 0, 1] 10 [] rfl rfl (by decide) (by decide)

end BtClient

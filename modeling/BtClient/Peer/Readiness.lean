import BtClient.Peer.Framing

/-!
# The readiness test

`peer_msg_buff_nonempty` peeks at the length word and compares the announced
length with what `FIONREAD` says. It adds `sizeof(uint16_t)` where the length
word has four bytes. `Arrived` says what a caller takes from the answer: a
`peer_msg_recv` of an `InStep` frame finds all its bytes in the buffer.
-/

namespace BtClient

open CLib

/-- What one call finds: the receive buffer at the peek, whether the peer has
closed the stream, what comes in before `FIONREAD` is answered, whether that
call fails, and what `len` holds while nothing was stored in it. -/
structure BuffState where
  buffer : List UInt8
  closed : Bool
  arriving : List UInt8
  ioctlFails : Bool
  garbage : UInt32

/-- The receive buffer when the call returns. -/
def BuffState.available (b : BuffState) : List UInt8 := b.buffer ++ b.arriving

/-- `recv(sockfd, &len, sizeof(uint32_t), MSG_PEEK | MSG_DONTWAIT)`: what it
returns, and `ntohl(len)` after it. -/
def peekLen (b : BuffState) : Int × UInt32 :=
  if b.buffer = [] then (if b.closed then 0 else -1, b.garbage)
  else (min 4 b.buffer.length,
    if 4 ≤ b.buffer.length then ofBe32 (slice b.buffer 0 4) else b.garbage)

/-- `peer_msg_buff_nonempty(sockfd)`. The return value `-1` is converted to
`uint32_t` before it is compared; `len + sizeof(uint16_t)` is a `size_t`. -/
def peerMsgBuffNonempty (b : BuffState) : Bool :=
  let (n, len) := peekLen b
  if n % 2 ^ 32 < 4 then false
  else if b.ioctlFails then false
  else len.toNat + 2 ≤ b.available.length % 2 ^ 32

/-! ## What a receive takes from the stream -/

/-- At most `n` bytes have been taken. -/
def Takes (s s' : Socket) (n : Nat) : Prop := ∃ bytes, s.rx = bytes ++ s'.rx ∧ bytes.length ≤ n

theorem Takes.refl (s : Socket) (n : Nat) : Takes s s n := ⟨[], rfl, Nat.zero_le _⟩

theorem Takes.trans {s₁ s₂ s₃ : Socket} {m n : Nat} (h : Takes s₁ s₂ m) (h' : Takes s₂ s₃ n) :
    Takes s₁ s₃ (m + n) := by
  obtain ⟨as, has, hm⟩ := h
  obtain ⟨bs, hbs, hn⟩ := h'
  refine ⟨as ++ bs, by rw [has, hbs, List.append_assoc], ?_⟩
  rw [List.length_append]
  omega

theorem Takes.mono {s s' : Socket} {m n : Nat} (h : Takes s s' m) (hle : m ≤ n) : Takes s s' n := by
  obtain ⟨bytes, hrx, hlen⟩ := h
  exact ⟨bytes, hrx, Nat.le_trans hlen hle⟩

theorem peerRecv_takes (s : Socket) (len : Nat) : Takes s (peerRecv s len).sock len := by
  have hr := peerRecvLoop_spec s len [] (Nat.zero_le _)
  obtain ⟨bs, hbs, hrx⟩ := hr.split
  have hle := hr.le
  rw [hbs, List.nil_append] at hle
  exact ⟨bs, hrx, hle⟩

/-- A checked read: it was short, or what follows it ran. -/
theorem recvThen_takes {α : Type} {s s' : Socket} {disk disk' : Disk} {len : Nat} {out : Option α}
    {k : List UInt8 → Socket → Except Fault (RecvResult α)}
    (h : recvThen s disk len k = .ok (out, s', disk')) :
    Takes s s' len ∨ ∃ bytes s₁, s.rx = bytes ++ s₁.rx ∧ bytes.length = len ∧
      k bytes s₁ = .ok (out, s', disk') := by
  simp only [recvThen] at h
  by_cases hok : (peerRecv s len).ok = true
  · rw [if_pos hok] at h
    obtain ⟨hrx, hlen⟩ := peerRecv_ok hok
    exact .inr ⟨_, _, hrx, hlen, h⟩
  · rw [if_neg hok] at h
    cases h
    exact .inl (peerRecv_takes s len)

/-- A read whose continuation takes nothing more. -/
theorem recvThen_takes_last {α : Type} {s s' : Socket} {disk disk' : Disk} {len : Nat}
    {out : Option α} {k : List UInt8 → Socket → Except Fault (RecvResult α)}
    (h : recvThen s disk len k = .ok (out, s', disk'))
    (hk : ∀ bytes s₁, k bytes s₁ = .ok (out, s', disk') → s₁ = s') : Takes s s' len := by
  rcases recvThen_takes h with htakes | ⟨bytes, s₁, hrx, hlen, h⟩
  · exact htakes
  · cases hk bytes s₁ h
    exact ⟨bytes, hrx, Nat.le_of_eq hlen⟩

theorem recvFilemems_takes (mems : List FileMem) :
    ∀ {s s' : Socket} {disk disk' : Disk} {ok : Bool},
      recvFilemems mems s disk = (ok, s', disk') → Takes s s' (mems.map Seg.size).sum := by
  induction mems with
  | nil =>
    intro s s' disk disk' ok h
    cases h
    exact .refl s _
  | cons mem mems ih =>
    intro s s' disk disk' ok h
    rw [List.map_cons, List.sum_cons]
    simp only [recvFilemems] at h
    split at h
    · exact (peerRecv_takes s mem.size).trans (ih h)
    · cases h
      exact (peerRecv_takes s mem.size).mono (Nat.le_add_right _ _)

/-- The payload of a block: the two fields, and the block they name. -/
theorem peerMsgRecvPiece_takes {torrent : Metainfo} {len : Nat} {s s' : Socket} {disk disk' : Disk}
    {out : Option PieceMsg} (h : peerMsgRecvPiece torrent len s disk = .ok (out, s', disk')) :
    Takes s s' 8 ∨ ∃ idx beg rest, s.rx = idx ++ (beg ++ rest) ∧ idx.length = 4 ∧
      beg.length = 4 ∧ Takes s s' (8 + blockLenAt torrent (ofBe32 idx) (ofBe32 beg)) := by
  rcases recvThen_takes h with htakes | ⟨idx, s₁, hrx₁, hidx, h⟩
  · exact .inl (htakes.mono (by omega))
  rcases recvThen_takes h with htakes | ⟨beg, s₂, hrx₂, hbeg, h⟩
  · exact .inl (Takes.trans ⟨idx, hrx₁, Nat.le_of_eq hidx⟩ htakes)
  have hfields : Takes s s₂ 8 :=
    Takes.trans ⟨idx, hrx₁, Nat.le_of_eq hidx⟩ ⟨beg, hrx₂, Nat.le_of_eq hbeg⟩
  obtain ⟨pr, hpr, h⟩ := (seq_returns_iff _ _ _).mp h
  cases hat : pieceRequestBlockAt pr (ofBe32 beg).toNat with
  | none =>
    simp only [hat, pure_is_ok] at h
    cases h
    exact .inl hfields
  | some br =>
    simp only [hat, pure_is_ok] at h
    rcases hmems : recvFilemems br.filemems s₂ disk with ⟨ok, s₃, disk₃⟩
    rw [hmems] at h
    cases h
    -- the slices of the block tile its range, so they take as many bytes
    obtain ⟨k, -, hk, hblock⟩ := pieceRequestBlockAt_spec (scheduled_of_create hpr) hat
    have htakes := recvFilemems_takes br.filemems hmems
    rw [hblock.tiles.sum_size, Nat.add_sub_cancel_left, hblock.len, hk] at htakes
    exact .inr ⟨idx, beg, s₂.rx, by rw [hrx₁, hrx₂], hidx, hbeg, hfields.trans htakes⟩

/-- Every other payload: no more than was announced. -/
theorem recvPayload_takes {torrent : Metainfo} {type : MsgType} {left : Nat} {s s' : Socket}
    {disk disk' : Disk} {out : Option PeerMsg} (hne : type ≠ .msgPiece)
    (h : recvPayload torrent type left s disk = .ok (out, s', disk')) : Takes s s' left := by
  cases type with
  | msgPiece => exact absurd rfl hne
  | msgCancel | msgKeepalive =>
    cases h
    exact .refl s left
  | msgChoke | msgUnchoke | msgInterested | msgNotInterested =>
    obtain ⟨_, -, h⟩ := (seq_returns_iff _ _ _).mp h
    cases h
    exact .refl s left
  | msgHave | msgPort =>
    obtain ⟨_, -, h⟩ := (seq_returns_iff _ _ _).mp h
    refine recvThen_takes_last h fun bytes s₁ h => ?_
    cases h
    rfl
  | msgBitfield =>
    simp only [recvPayload] at h
    refine recvThen_takes_last h fun bytes s₁ h => ?_
    cases h
    rfl
  | msgRequest =>
    simp only [recvPayload] at h
    refine recvThen_takes_last h fun bytes s₁ h => ?_
    obtain ⟨_, -, h⟩ := (seq_returns_iff _ _ _).mp h
    cases h
    rfl

/-- **A receive of a frame in step** takes at most the length word and the
bytes it announces, whatever it returns. -/
theorem peerMsgRecv_takes {torrent : Metainfo} {s s' : Socket} {disk disk' : Disk}
    {out : Option PeerMsg} (hstep : InStep torrent s.rx)
    (h : peerMsgRecv torrent s disk = .ok (out, s', disk')) :
    Takes s s' (4 + frameLen s.rx) := by
  rcases recvThen_takes h with htakes | ⟨word, s₁, hrx₁, hword, h⟩
  · exact htakes.mono (Nat.le_add_right _ _)
  have hhead : Takes s s₁ 4 := ⟨word, hrx₁, Nat.le_of_eq hword⟩
  have hlen : frameLen s.rx = (ofBe32 word).toNat := by
    have hslice : slice s.rx 0 4 = word := slice_middle (a := []) hrx₁ rfl hword
    rw [frameLen, hslice]
  simp only [recvBody] at h
  split at h
  · cases h
    exact hhead.mono (Nat.le_add_right _ _)
  rename_i hzero
  rcases recvThen_takes h with htakes | ⟨ty, s₂, hrx₂, hty, h⟩
  · exact (hhead.trans htakes).mono (by omega)
  have htyped : Takes s s₂ 5 := hhead.trans ⟨ty, hrx₂, Nat.le_of_eq hty⟩
  obtain ⟨code, rfl⟩ := List.length_eq_one_iff.mp hty
  have htype : frameType s.rx = code := by
    rw [frameType, hrx₁, hrx₂, ← hword]
    simp
  simp only [recvTyped, List.getD_cons_zero] at h
  split at h
  · cases h
    exact htyped.mono (by omega)
  rename_i type hcode
  split at h
  · rename_i hvalid
    rw [wordSub_of_le (by omega) (ofBe32 word).toNat_lt] at h
    by_cases hpiece : type = .msgPiece
    · subst hpiece
      rw [validLen, if_pos rfl, Bool.and_eq_true, decide_eq_true_eq] at hvalid
      obtain ⟨_, -, h⟩ := (seq_returns_iff _ _ _).mp h
      obtain ⟨⟨piece, s₃, disk₃⟩, hrecv, h⟩ := (seq_returns_iff _ _ _).mp h
      cases h
      rcases peerMsgRecvPiece_takes hrecv with htakes | ⟨idx, beg, rest, hrx₃, hidx, hbeg, htakes⟩
      · exact (htyped.trans htakes).mono (by omega)
      · -- the fields that were read are the ones `InStep` speaks of
        have hindex : frameIndex s.rx = ofBe32 idx := by
          rw [frameIndex, slice_middle (a := word ++ [code]) (c := beg ++ rest)
            (by rw [hrx₁, hrx₂, hrx₃]; simp) (by simp [hword]) hidx]
        have hbegin : frameBegin s.rx = ofBe32 beg := by
          rw [frameBegin, slice_middle (a := word ++ [code] ++ idx) (c := rest)
            (by rw [hrx₁, hrx₂, hrx₃]; simp) (by simp [hword, hidx]) hbeg]
        rcases hstep with h0 | hother | hblock
        · omega
        · exact absurd (htype.trans (MsgType.ofCode_eq_some hcode)) hother
        · rw [hindex, hbegin] at hblock
          exact (htyped.trans htakes).mono (by omega)
    · exact (htyped.trans (recvPayload_takes hpiece h)).mono (by omega)
  · cases h
    exact htyped.mono (by omega)

/-! ## The test -/

/-- The buffer holds the frame at its start, and a receive of it, in step with
the torrent, leaves alone what has not arrived yet. -/
structure Arrived (buffer : List UInt8) : Prop where
  word : 4 ≤ buffer.length
  whole : 4 + frameLen buffer ≤ buffer.length
  no_wait : ∀ (torrent : Metainfo) (s s' : Socket) (disk disk' : Disk) (out : Option PeerMsg)
    (later : List UInt8), s.rx = buffer ++ later → InStep torrent s.rx →
    peerMsgRecv torrent s disk = .ok (out, s', disk') → ∃ left, s'.rx = left ++ later

theorem frameLen_append {buffer : List UInt8} (h : 4 ≤ buffer.length) (later : List UInt8) :
    frameLen (buffer ++ later) = frameLen buffer := by
  rw [frameLen, frameLen, slice_append_left (by omega)]

theorem Arrived.of_whole {buffer : List UInt8} (hword : 4 ≤ buffer.length)
    (hwhole : 4 + frameLen buffer ≤ buffer.length) : Arrived buffer := by
  refine ⟨hword, hwhole, ?_⟩
  intro torrent s s' disk disk' out later hrx hstep hrecv
  obtain ⟨bytes, hbytes, hlen⟩ := peerMsgRecv_takes hstep hrecv
  rw [hrx, frameLen_append hword] at hlen
  rw [hrx] at hbytes
  rcases List.append_eq_append_iff.mp hbytes with ⟨more, hb, hl⟩ | ⟨left, hb, hl⟩
  · -- at most the buffer was taken
    have hnil : more = [] := by
      have := congrArg List.length hb
      rw [List.length_append] at this
      exact List.eq_nil_of_length_eq_zero (by omega)
    rw [hnil, List.nil_append] at hl
    exact ⟨[], hl.symm⟩
  · exact ⟨left, hl⟩

/-- The cases the test gets wrong: a frame of which two bytes or one byte are
missing, and a length taken from an unset variable. -/
def Misjudged (b : BuffState) : Prop :=
  b.ioctlFails = false ∧
    ((4 ≤ b.buffer.length ∧ b.available.length < 2 ^ 32 ∧
        (b.available.length = frameLen b.available + 2 ∨
          b.available.length = frameLen b.available + 3)) ∨
      (b.buffer = [] ∧ b.closed = false ∧ b.garbage.toNat + 2 ≤ b.available.length % 2 ^ 32 ∧
        b.available.length < 4 + frameLen b.available))

/-- The peek saw a length word: the comparison is off by two. -/
theorem nonempty_of_word {b : BuffState} (h : 4 ≤ b.buffer.length) :
    peerMsgBuffNonempty b = true ↔
      b.ioctlFails = false ∧ frameLen b.available + 2 ≤ b.available.length % 2 ^ 32 := by
  have hne : b.buffer ≠ [] := by
    intro hnil
    rw [hnil] at h
    exact absurd h (by decide)
  have hpeek : peekLen b = (4, ofBe32 (slice b.buffer 0 4)) := by
    rw [peekLen, if_neg hne, if_pos h]
    congr 1
    omega
  have hlen : (ofBe32 (slice b.buffer 0 4)).toNat = frameLen b.available :=
    (frameLen_append h b.arriving).symm
  rw [peerMsgBuffNonempty, hpeek]
  simp [hlen]

/-- The peek saw nothing: at the end of the stream the answer is `false`, else
it goes by whatever `len` held. -/
theorem nonempty_of_empty {b : BuffState} (h : b.buffer = []) :
    peerMsgBuffNonempty b = true ↔ b.ioctlFails = false ∧ b.closed = false ∧
      b.garbage.toNat + 2 ≤ b.available.length % 2 ^ 32 := by
  rw [peerMsgBuffNonempty, peekLen, if_pos h]
  cases hclosed : b.closed <;> simp

/-- The peek saw less than a length word. -/
theorem nonempty_of_part {b : BuffState} (hne : b.buffer ≠ []) (h : b.buffer.length < 4) :
    peerMsgBuffNonempty b = false := by
  have hpeek : peekLen b = ((b.buffer.length : Int), b.garbage) := by
    rw [peekLen, if_neg hne, if_neg (by omega)]
    congr 1
    omega
  rw [peerMsgBuffNonempty, hpeek]
  simp only
  rw [if_pos (by omega)]

/-- **The readiness test is right exactly when** the state is not one of those
it misjudges. -/
theorem readiness_sound_iff (b : BuffState) :
    (peerMsgBuffNonempty b = true → Arrived b.available) ↔ ¬ Misjudged b := by
  have harrived : Arrived b.available ↔ 4 + frameLen b.available ≤ b.available.length :=
    ⟨Arrived.whole, fun h => .of_whole (by omega) h⟩
  rw [harrived, Misjudged]
  by_cases hempty : b.buffer = []
  · rw [nonempty_of_empty hempty]
    constructor
    · rintro h ⟨hio, ⟨hword, -⟩ | ⟨-, hclosed, hlen, hshort⟩⟩
      · rw [hempty] at hword
        exact absurd hword (by decide)
      · have := h ⟨hio, hclosed, hlen⟩
        omega
    · rintro h ⟨hio, hclosed, hlen⟩
      by_contra hshort
      exact h ⟨hio, .inr ⟨hempty, hclosed, hlen, Nat.not_le.mp hshort⟩⟩
  · by_cases hword : 4 ≤ b.buffer.length
    · have hlt : frameLen b.available < 2 ^ 32 := UInt32.toNat_lt _
      rw [nonempty_of_word hword]
      constructor
      · rintro h ⟨hio, ⟨-, hsmall, hlen⟩ | ⟨hnil, -⟩⟩
        · have := h ⟨hio, by omega⟩
          omega
        · exact hempty hnil
      · rintro h ⟨hio, hle⟩
        by_contra hshort
        exact h ⟨hio, .inl ⟨hword, by omega, by omega⟩⟩
    · rw [nonempty_of_part hempty (Nat.not_le.mp hword)]
      constructor
      · rintro - ⟨-, ⟨hfour, -⟩ | ⟨hnil, -⟩⟩
        · exact hword hfour
        · exact hempty hnil
      · intro _ h
        cases h

/-- A keepalive in the buffer. -/
theorem readiness_sound_keepalive : Arrived [0, 0, 0, 0] :=
  (readiness_sound_iff ⟨[0, 0, 0, 0], false, [], false, 0⟩).mpr
    (by rintro ⟨-, ⟨-, -, h | h⟩ | ⟨h, -⟩⟩ <;> revert h <;> decide) (by decide)

/-- A `MSG_HAVE` without its last byte: the test says that it is there. -/
theorem readiness_sound_cut :
    peerMsgBuffNonempty ⟨[0, 0, 0, 5, 4, 0, 0, 0], false, [], false, 0⟩ = true ∧
      ¬ Arrived [0, 0, 0, 5, 4, 0, 0, 0] := by
  refine ⟨by decide, fun h => ?_⟩
  exact absurd h.whole (by decide)

end BtClient

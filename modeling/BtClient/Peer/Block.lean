import BtClient.Peer.Wire
import BtClient.PieceRequest.Cover

/-!
# Receiving a block of the schedule

A `MSG_PIECE` frame that `Fits` names a block of the torrent's schedule and
carries as many bytes as the block has. Such a frame is accepted, and storing
its slices one after the other is one write to the concatenation of the files,
at the frame's own position. Positions of different blocks are 16 KiB apart,
so different blocks never meet.
-/

namespace BtClient

open CLib

/-- The torrents whose pieces are whole numbers of blocks. -/
structure Metainfo.Regular (torrent : Metainfo) : Prop where
  pos : 0 < torrent.info.pieceLength.toNat
  multiple : peerRequestSize ∣ torrent.info.pieceLength.toNat
  small : torrent.info.pieceLength.toNat < 2 ^ 32
  lastFile : torrent.fileSizes.getLast? ≠ some 0

/-- The content of a `MSG_PIECE` frame. -/
structure BlockFrame where
  index : UInt32
  begin : UInt32
  payload : List UInt8
  deriving DecidableEq, Repr

/-- The frame as it is sent. -/
def BlockFrame.encode (f : BlockFrame) : List UInt8 :=
  be32 (UInt32.ofNat (9 + f.payload.length)) ++
    ([MsgType.msgPiece.code] ++ (be32 f.index ++ (be32 f.begin ++ f.payload)))

/-- Where the frame's payload belongs in the concatenation of the files. -/
def BlockFrame.pos (torrent : Metainfo) (f : BlockFrame) : Nat :=
  torrent.info.pieceLength.toNat * f.index.toNat + f.begin.toNat

/-- The frame carries a block of the schedule, at its length. -/
def BlockFrame.Fits (torrent : Metainfo) (f : BlockFrame) : Prop :=
  ∃ pr b, pieceRequestCreate torrent f.index = .ok pr ∧ b ∈ pr.blockRequests ∧
    b.begin = f.begin.toNat ∧ b.len = f.payload.length

/-! ## The schedule of a regular torrent -/

theorem Metainfo.Regular.pieceStart_eq {torrent : Metainfo} (hreg : torrent.Regular)
    (index : UInt32) :
    pieceStart torrent index = torrent.info.pieceLength.toNat * index.toNat := by
  have h1 := hreg.small
  have h2 := index.toNat_lt
  have h3 := Nat.mul_lt_mul'' h1 h2
  exact Nat.mod_eq_of_lt h3

/-- Block `k` of a piece, without the wrap-arounds. -/
structure RegularBlock (torrent : Metainfo) (index : UInt32) (k : Nat) (b : BlockRequest) :
    Prop where
  begin : b.begin = 16384 * k
  inPiece : 16384 * k < torrent.info.pieceLength.toNat
  len : b.len = min 16384
    (torrent.totalLength - (torrent.info.pieceLength.toNat * index.toNat + 16384 * k))
  pos : 0 < b.len
  tiles : Tiles torrent.fileSizes (torrent.info.pieceLength.toNat * index.toNat + 16384 * k)
    b.filemems (torrent.info.pieceLength.toNat * index.toNat + 16384 * k + b.len)
  fresh : b.completed = false

/-- The blocks of a regular torrent stay inside their piece: the block that
would start at its end is not scheduled. -/
theorem Metainfo.Regular.block {torrent : Metainfo} (hreg : torrent.Regular) {index : UInt32}
    {pr : PieceRequest} (hpr : pr.Scheduled torrent index) {k : Nat} {b : BlockRequest}
    (hb : pr.blockRequests[k]? = some b) : RegularBlock torrent index k b := by
  obtain ⟨q, hq⟩ := hreg.multiple
  rw [peerRequestSize_eq] at hq
  have hsmall := hreg.small
  have hk : 16384 * k < torrent.info.pieceLength.toNat := by
    by_contra hge
    have hqk : q ≤ k := by omega
    obtain ⟨hklt, -⟩ := List.getElem?_eq_some_iff.mp hb
    obtain ⟨-, hne⟩ := hpr.schedule.block q _ (List.getElem?_eq_getElem (by omega))
    rw [Nat.zero_add, ← hq, sizeSub_of_le (Nat.le_refl _) (by omega)] at hne
    exact hne (Nat.sub_self _)
  obtain ⟨hblock, -⟩ := hpr.schedule.block k b hb
  rw [Nat.zero_add, hreg.pieceStart_eq] at hblock
  have hlen := hblock.len
  have hne := hblock.nonempty hreg.lastFile
  refine ⟨?_, hk, hlen, ?_, hblock.tiles, hblock.fresh⟩
  · rw [hblock.begin, Nat.mod_eq_of_lt (by omega)]
  · omega

/-- What fitting says about a frame's numbers, and that its block is found. -/
theorem BlockFrame.Fits.block {torrent : Metainfo} {f : BlockFrame} (hreg : torrent.Regular)
    (hf : f.Fits torrent) :
    ∃ pr k b, pieceRequestCreate torrent f.index = .ok pr ∧ f.begin.toNat = 16384 * k ∧
      RegularBlock torrent f.index k b ∧ f.payload.length = b.len ∧
      pieceRequestBlockAt pr f.begin.toNat = some b := by
  obtain ⟨pr, b, hpr, hmem, hbegin, hlen⟩ := hf
  have hsch := scheduled_of_create hpr
  obtain ⟨k, hk, hget⟩ := List.mem_iff_getElem.mp hmem
  have hb : pr.blockRequests[k]? = some b := by rw [List.getElem?_eq_getElem hk, hget]
  have hreg' := hreg.block hsch hb
  refine ⟨pr, k, b, hpr, by rw [← hbegin, hreg'.begin], hreg', hlen.symm, ?_⟩
  refine List.find?_eq_some_iff_getElem.mpr ⟨by simp [hbegin], k, hk, hget, ?_⟩
  intro j hj
  have hbj := hreg.block hsch (List.getElem?_eq_getElem (Nat.lt_trans hj hk))
  simp only [hbj.begin, ← hbegin, hreg'.begin, Bool.not_eq_eq_eq_not, Bool.not_true,
    beq_eq_false_iff_ne, ne_eq]
  omega

/-- Where a fitting frame lies: on the 16 KiB grid, inside its piece and
inside the files. -/
theorem BlockFrame.Fits.range {torrent : Metainfo} {f : BlockFrame} (hreg : torrent.Regular)
    (hf : f.Fits torrent) :
    16384 ∣ f.pos torrent ∧ f.begin.toNat < torrent.info.pieceLength.toNat ∧
      0 < f.payload.length ∧ f.payload.length ≤ 16384 ∧
      f.pos torrent + f.payload.length ≤ torrent.totalLength := by
  obtain ⟨pr, k, b, -, hbegin, hb, hlen, -⟩ := hf.block hreg
  have h1 := hb.inPiece
  have h2 := hb.len
  have h3 := hb.pos
  refine ⟨?_, by omega, by omega, by omega, ?_⟩
  · rw [BlockFrame.pos, hbegin]
    exact Nat.dvd_add (Dvd.dvd.mul_right hreg.multiple _) (Nat.dvd_mul_right _ _)
  · rw [BlockFrame.pos, hbegin, hlen]
    omega

/-- Two blocks at different places do not meet. -/
theorem BlockFrame.Fits.disjoint {torrent : Metainfo} {f g : BlockFrame} (hreg : torrent.Regular)
    (hf : f.Fits torrent) (hg : g.Fits torrent) (hne : f.index ≠ g.index ∨ f.begin ≠ g.begin) :
    f.pos torrent + f.payload.length ≤ g.pos torrent ∨
      g.pos torrent + g.payload.length ≤ f.pos torrent := by
  obtain ⟨⟨a, ha⟩, hfb, -, hfl, -⟩ := hf.range hreg
  obtain ⟨⟨b, hb⟩, hgb, -, hgl, -⟩ := hg.range hreg
  have hpos : f.pos torrent ≠ g.pos torrent := by
    intro heq
    rw [BlockFrame.pos, BlockFrame.pos] at heq
    -- index and begin are quotient and remainder of the position
    have hdiv := congrArg (· / torrent.info.pieceLength.toNat) heq
    simp only [Nat.mul_add_div hreg.pos, Nat.div_eq_of_lt hfb, Nat.div_eq_of_lt hgb,
      Nat.add_zero] at hdiv
    have hindex : f.index = g.index := UInt32.toNat_inj.mp hdiv
    rw [hindex] at heq
    have hbegin : f.begin = g.begin := UInt32.toNat_inj.mp (by omega)
    rcases hne with h | h
    · exact h hindex
    · exact h hbegin
  omega

/-! ## Receiving it -/

/-- Filling the slices of a tiling is one write to the flat content. -/
theorem recvFilemems_spec {sizes : List Nat} (mems : List FileMem) :
    ∀ {a b : Nat} {s : Socket} {disk : Disk} {payload rest : List UInt8},
      Tiles sizes a mems b → Sized disk sizes → NeverFails s.recvPlan →
      s.rx = payload ++ rest → payload.length = b - a →
      ∃ s' disk', recvFilemems mems s disk = (true, s', disk') ∧ s'.rx = rest ∧
        NeverFails s'.recvPlan ∧ Sized disk' sizes ∧
        disk'.flatten = splice disk.flatten a payload := by
  induction mems with
  | nil =>
    intro a b s disk payload rest ht hsized hnf hrx hlen
    cases ht
    have hnil : payload = [] := List.eq_nil_of_length_eq_zero (by omega)
    subst hnil
    exact ⟨s, disk, rfl, hrx, hnf, hsized, by simp⟩
  | cons mem mems ih =>
    intro a b s disk payload rest ht hsized hnf hrx hlen
    obtain ⟨hstart, hin, hrest⟩ := ht
    have hle := hrest.le
    have hend := hin.end_le
    obtain ⟨as, bs, rfl, has⟩ : ∃ as bs, payload = as ++ bs ∧ as.length = mem.size :=
      ⟨payload.take mem.size, payload.drop mem.size, (List.take_append_drop _ _).symm,
        by rw [List.length_take]; omega⟩
    rw [List.length_append] at hlen
    rw [List.append_assoc] at hrx
    obtain ⟨hok, hbytes, hrx', hnf'⟩ := peerRecv_exact hnf hrx
    rw [has] at hok hbytes hrx' hnf'
    have hsized' := writeSeg_sized hsized hin (Nat.le_of_eq has)
    have hflat := flatten_writeSeg hsized hin (Nat.le_of_eq has)
    obtain ⟨s₂, disk₂, hrun, hrx₂, hnf₂, hsized₂, hflat₂⟩ :=
      ih hrest hsized' hnf' hrx' (by omega)
    refine ⟨s₂, disk₂, ?_, hrx₂, hnf₂, hsized₂, ?_⟩
    · simp only [recvFilemems, hok, if_true, hbytes]
      exact hrun
    · have htotal := hrest.end_le_sum (by rw [← hstart]; exact hend)
      rw [hflat₂, hflat, hstart, ← has, splice_splice_adjacent]
      rw [hsized.length_flatten]
      omega

/-- **A fitting frame is accepted** and written at its position. -/
theorem peerMsgRecv_block {torrent : Metainfo} {f : BlockFrame} {s : Socket} {disk : Disk}
    {rest : List UInt8} (hreg : torrent.Regular) (hf : f.Fits torrent)
    (hsized : Sized disk torrent.fileSizes) (hnf : NeverFails s.recvPlan)
    (hrx : s.rx = f.encode ++ rest) :
    ∃ s' disk', peerMsgRecv torrent s disk
        = .ok (some (.piece ⟨f.index, f.begin, f.payload.length⟩), s', disk') ∧
      s'.rx = rest ∧ NeverFails s'.recvPlan ∧ Sized disk' torrent.fileSizes ∧
      disk'.flatten = splice disk.flatten (f.pos torrent) f.payload := by
  obtain ⟨pr, k, b, hpr, hbegin, hb, hlen, hat⟩ := hf.block hreg
  obtain ⟨-, -, hpos, hle, -⟩ := hf.range hreg
  have hval : (UInt32.ofNat (9 + f.payload.length)).toNat = 9 + f.payload.length := by
    rw [UInt32.toNat_ofNat', Nat.mod_eq_of_lt (by omega)]
  simp only [BlockFrame.encode, List.append_assoc] at hrx
  obtain ⟨s₁, hrx₁, hnf₁, hs₁⟩ :=
    recvThen_exact hnf hrx (length_be32 _) disk (recvBody torrent disk)
  obtain ⟨s₂, hrx₂, hnf₂, hs₂⟩ := recvThen_exact hnf₁ hrx₁ List.length_singleton disk
    (recvTyped torrent disk (9 + f.payload.length))
  have hvalid : validLen .msgPiece torrent (9 + f.payload.length) = true := by
    rw [validLen, if_pos rfl, Bool.and_eq_true, decide_eq_true_eq, decide_eq_true_eq,
      peerRequestSize_eq]
    omega
  have hpiece : ∃ s' disk', peerMsgRecvPiece torrent (8 + f.payload.length) s₂ disk
      = .ok (some ⟨f.index, f.begin, f.payload.length⟩, s', disk') ∧ s'.rx = rest ∧
        NeverFails s'.recvPlan ∧ Sized disk' torrent.fileSizes ∧
        disk'.flatten = splice disk.flatten (f.pos torrent) f.payload := by
    obtain ⟨s₃, hrx₃, hnf₃, hs₃⟩ := recvThen_exact (α := PieceMsg) hnf₂ hrx₂ (length_be32 _) disk
      (recvBegin torrent disk (8 + f.payload.length))
    obtain ⟨s₄, hrx₄, hnf₄, hs₄⟩ := recvThen_exact (α := PieceMsg) hnf₃ hrx₃ (length_be32 _) disk
      (recvBlock torrent disk f.index (wordSub (8 + f.payload.length) 4))
    obtain ⟨s₅, disk₅, hrun, hrx₅, hnf₅, hsized₅, hflat₅⟩ :=
      recvFilemems_spec b.filemems hb.tiles hsized hnf₄ hrx₄ (by omega)
    refine ⟨s₅, disk₅, ?_, hrx₅, hnf₅, hsized₅, by rw [hflat₅, BlockFrame.pos, hbegin]⟩
    rw [peerMsgRecvPiece, hs₃, recvBegin, ofBe32_be32, hs₄, recvBlock]
    simp only [ofBe32_be32, hpr, ok_bind, hat, hrun, if_true, pure_is_ok]
    rw [wordSub_of_le (a := 8 + _) (by omega) (by omega), wordSub_of_le (by omega) (by omega)]
    congr 5
    omega
  obtain ⟨s', disk', hrun, hrest⟩ := hpiece
  refine ⟨s', disk', ?_, hrest⟩
  rw [peerMsgRecv, hs₁, recvBody]
  simp only [ofBe32_be32, hval]
  rw [if_neg (by omega), hs₂, recvTyped]
  simp only [List.getD_cons_zero, MsgType.ofCode_code, hvalid, if_true, recvPayload]
  rw [wordSub_of_le (by omega) (by omega),
    show 9 + f.payload.length - 1 = 8 + f.payload.length from by omega,
    check_of (by simp), ok_bind, hrun]
  rfl

end BtClient

import BtClient.PieceRequest.Cover

/-!
# How far a piece request reaches

The schedule of `PieceRequest.Cover` read as a whole: the slices of all the
blocks tile one range of the content, from the first byte of the piece on.
Where that range ends depends on the piece length. A multiple of the block
size is used up exactly, so the range is the piece; any other length is passed
by its last block, whose slices are cut without looking at `left`, and the
unsigned counter wraps.
-/

namespace BtClient

open CLib

/-! ## The blocks together -/

theorem Schedule.head {sizes : List Nat} {piecelen start k : Nat} {b : BlockRequest}
    {bs : List BlockRequest} (h : Schedule sizes piecelen start k (b :: bs)) :
    IsBlock sizes start k b :=
  (h.block 0 b rfl).1

theorem Schedule.tail {sizes : List Nat} {piecelen start k : Nat} {b : BlockRequest}
    {bs : List BlockRequest} (h : Schedule sizes piecelen start k (b :: bs)) :
    Schedule sizes piecelen start (k + 1) bs := by
  constructor
  · intro j c hj
    rw [show k + 1 + j = k + (j + 1) from by omega]
    exact h.block (j + 1) c hj
  · have hstop := h.stop
    rwa [List.length_cons, show k + (bs.length + 1) = k + 1 + bs.length from by omega] at hstop

/-- Where the blocks from `k` on end: behind the last one, or with the files. -/
def blocksEnd (sizes : List Nat) (start k : Nat) (bs : List BlockRequest) : Nat :=
  min (start + 16384 * (k + bs.length)) sizes.sum

/-- A block that others follow is full, the last one may be cut by the end of
the files. -/
theorem IsBlock.end_eq {sizes : List Nat} {start k : Nat} {b : BlockRequest}
    (h : IsBlock sizes start k b) :
    start + 16384 * k + b.len = min (start + 16384 * (k + 1)) sizes.sum := by
  have hlen := h.len
  have hreach := h.reach
  omega

/-- **The slices of all blocks, in order, tile one range.** -/
theorem Schedule.tiles {sizes : List Nat} {piecelen start : Nat} {bs : List BlockRequest} :
    ∀ {k : Nat}, Schedule sizes piecelen start k bs → start + 16384 * k ≤ sizes.sum →
      Tiles sizes (start + 16384 * k) (bs.flatMap BlockRequest.filemems)
        (blocksEnd sizes start k bs) := by
  induction bs with
  | nil =>
    intro k _ hle
    show start + 16384 * k = blocksEnd sizes start k []
    rw [blocksEnd, List.length_nil]
    omega
  | cons b bs ih =>
    intro k h hle
    have hb := h.head
    have hend := hb.end_eq
    rw [List.flatMap_cons]
    apply Tiles.append hb.tiles
    cases bs with
    | nil =>
      show start + 16384 * k + b.len = blocksEnd sizes start k [b]
      rw [hend, blocksEnd, List.length_singleton]
    | cons c cs =>
      -- the next block starts inside the files, so this one is full
      have hreach := h.tail.head.reach
      rw [show start + 16384 * k + b.len = start + 16384 * (k + 1) from by omega]
      have := ih h.tail hreach
      rwa [blocksEnd, show k + 1 + (c :: cs).length = k + (b :: c :: cs).length from by
        simp only [List.length_cons]; omega] at this

theorem Schedule.sum_len {sizes : List Nat} {piecelen start : Nat} {bs : List BlockRequest} :
    ∀ {k : Nat}, Schedule sizes piecelen start k bs → start + 16384 * k ≤ sizes.sum →
      start + 16384 * k + (bs.map BlockRequest.len).sum = blocksEnd sizes start k bs := by
  induction bs with
  | nil =>
    intro k _ hle
    simp only [List.map_nil, List.sum_nil, blocksEnd, List.length_nil]
    omega
  | cons b bs ih =>
    intro k h hle
    have hend := h.head.end_eq
    rw [List.map_cons, List.sum_cons]
    cases bs with
    | nil =>
      simp only [List.map_nil, List.sum_nil, blocksEnd, List.length_singleton]
      omega
    | cons c cs =>
      have hreach := h.tail.head.reach
      have := ih h.tail hreach
      simp only [blocksEnd, List.length_cons] at this ⊢
      omega

/-- A block with another one behind it is full. -/
theorem Schedule.full {sizes : List Nat} {piecelen start k j : Nat} {bs : List BlockRequest}
    {b : BlockRequest} (h : Schedule sizes piecelen start k bs) (hj : bs[j]? = some b)
    (hmore : j + 1 < bs.length) : b.len = 16384 := by
  have hlen := (h.block j b hj).1.len
  have hnext := (h.block (j + 1) _ (List.getElem?_eq_getElem hmore)).1.reach
  omega

/-- A piece length that is a multiple of the block size is used up exactly. -/
theorem Schedule.length_le {sizes : List Nat} {piecelen start : Nat} {bs : List BlockRequest}
    (h : Schedule sizes piecelen start 0 bs) (hdvd : 16384 ∣ piecelen)
    (hlt : piecelen < 2 ^ 64) : 16384 * bs.length ≤ piecelen := by
  obtain ⟨m, rfl⟩ := hdvd
  by_contra hgt
  have hm : m < bs.length := by omega
  -- block `m` would start with nothing left of the piece
  apply (h.block m _ (List.getElem?_eq_getElem hm)).2
  rw [Nat.zero_add, sizeSub_of_le (Nat.le_refl _) hlt, Nat.sub_self]

/-- The blocks of a piece, as a range of the content. -/
structure ExactCover (sizes : List Nat) (first stop : Nat) (bs : List BlockRequest) : Prop where
  slices : Tiles sizes first (bs.flatMap BlockRequest.filemems) stop
  begin : ∀ j b, bs[j]? = some b → b.begin = ((bs.take j).map BlockRequest.len).sum
  len : ∀ b ∈ bs, b.len = (b.filemems.map Seg.size).sum
  full : ∀ b ∈ bs.dropLast, b.len = peerRequestSize

/-- Before block `j` there are `j` full blocks. -/
theorem Schedule.sum_before {sizes : List Nat} {piecelen start : Nat} {bs : List BlockRequest}
    (h : Schedule sizes piecelen start 0 bs) {j : Nat} (hj : j < bs.length) :
    ((bs.take j).map BlockRequest.len).sum = 16384 * j := by
  have hall : (bs.take j).map BlockRequest.len = List.replicate j 16384 := by
    apply List.eq_replicate_iff.mpr
    constructor
    · rw [List.length_map, List.length_take]
      omega
    · intro n hn
      obtain ⟨b, hb, rfl⟩ := List.mem_map.mp hn
      obtain ⟨i, hi, hget⟩ := List.mem_take_iff_getElem.mp hb
      apply h.full (j := i) _ (by omega)
      rw [List.getElem?_eq_getElem (by omega), hget]
  rw [hall, List.sum_replicate_nat, Nat.mul_comm]

theorem Schedule.cover {sizes : List Nat} {piecelen start : Nat} {bs : List BlockRequest}
    (h : Schedule sizes piecelen start 0 bs) (hle : start ≤ sizes.sum)
    (hsmall : sizes.sum < 2 ^ 64) : ExactCover sizes start (blocksEnd sizes start 0 bs) bs := by
  constructor
  · exact h.tiles hle
  · intro j b hj
    obtain ⟨hlt, -⟩ := List.getElem?_eq_some_iff.mp hj
    have hb := (h.block j b hj).1
    have hreach := hb.reach
    rw [Nat.zero_add] at hreach hb
    rw [hb.begin, h.sum_before hlt, Nat.mod_eq_of_lt (by omega)]
  · intro b hb
    obtain ⟨j, hj⟩ := List.mem_iff_getElem?.mp hb
    rw [(h.block j b hj).1.tiles.sum_size]
    omega
  · intro b hb
    obtain ⟨j, hj, hget⟩ := List.mem_iff_getElem.mp hb
    rw [List.length_dropLast] at hj
    rw [List.getElem_dropLast] at hget
    exact h.full (j := j) (by rw [List.getElem?_eq_getElem (by omega), hget]) (by omega)

/-! ## The cover of a piece -/

/-- A piece that starts inside the content starts where the product says. -/
theorem pieceStart_eq {torrent : Metainfo} {index : UInt32} (hlen : torrent.totalLength < 2 ^ 64)
    (hindex : index.toNat * torrent.info.pieceLength.toNat < torrent.totalLength) :
    pieceStart torrent index = index.toNat * torrent.info.pieceLength.toNat := by
  rw [pieceStart, Nat.mul_comm, Nat.mod_eq_of_lt (by omega)]

/-- Also where the product wraps, the piece starts inside the content. -/
theorem pieceStart_lt {torrent : Metainfo} {index : UInt32}
    (hindex : index.toNat * torrent.info.pieceLength.toNat < torrent.totalLength) :
    pieceStart torrent index < torrent.totalLength := by
  have hle := Nat.mod_le (torrent.info.pieceLength.toNat * index.toNat) (2 ^ 64)
  rw [Nat.mul_comm] at hindex
  rw [pieceStart]
  omega

/-- The blocks of a piece whose length is a multiple of the block size end with
the piece, or with the files. -/
theorem Schedule.end_eq_of_dvd {sizes : List Nat} {piecelen start : Nat} {bs : List BlockRequest}
    (h : Schedule sizes piecelen start 0 bs) (hdvd : 16384 ∣ piecelen)
    (hlt : piecelen < 2 ^ 64) :
    blocksEnd sizes start 0 bs = min (start + piecelen) sizes.sum := by
  have hle := h.length_le hdvd hlt
  rw [blocksEnd, Nat.zero_add]
  rcases h.stop with hzero | hend
  · rw [Nat.zero_add, sizeSub_of_le hle hlt] at hzero
    rw [show 16384 * bs.length = piecelen from by omega]
  · rw [Nat.zero_add] at hend
    omega

/-- **The blocks of a piece are the piece.** `piece_request_create` returns,
and what it schedules is the range of the content that belongs to the piece,
block by block. -/
theorem pieceRequestCreate_exact (torrent : Metainfo) (index : UInt32)
    (hdvd : peerRequestSize ∣ torrent.info.pieceLength.toNat)
    (hlen : torrent.totalLength < 2 ^ 63)
    (hindex : index.toNat * torrent.info.pieceLength.toNat < torrent.totalLength) :
    ∃ r, pieceRequestCreate torrent index = .ok r ∧ r.pieceIndex = index ∧
      ExactCover torrent.fileSizes (index.toNat * torrent.info.pieceLength.toNat)
        (min ((index.toNat + 1) * torrent.info.pieceLength.toNat) torrent.totalLength)
        r.blockRequests ∧
      (∀ b ∈ r.blockRequests, ∀ mem ∈ b.filemems, mem.Inside torrent.fileSizes) ∧
      ∀ disk : Disk, Sized disk torrent.fileSizes →
        (r.blockRequests.flatMap BlockRequest.filemems).flatMap (readSeg disk)
          = slice disk.flatten (index.toNat * torrent.info.pieceLength.toNat)
            (min ((index.toNat + 1) * torrent.info.pieceLength.toNat) torrent.totalLength
              - index.toNat * torrent.info.pieceLength.toNat) := by
  have hstart := pieceStart_eq (by omega) hindex
  obtain ⟨r, hr, hsch⟩ := (pieceRequestCreate_spec torrent index).1 (by omega)
  have hcover := hsch.schedule.cover hsch.start (Nat.lt_trans hlen (by decide))
  have hend := hsch.schedule.end_eq_of_dvd (by simpa using hdvd)
    torrent.info.pieceLength.toNat_lt
  rw [hend, hstart, show index.toNat * torrent.info.pieceLength.toNat
      + torrent.info.pieceLength.toNat = (index.toNat + 1) * torrent.info.pieceLength.toNat from by
    rw [Nat.add_mul, Nat.one_mul]] at hcover
  refine ⟨r, hr, hsch.indexed, hcover, ?_, fun disk hsized => gather_tiles hsized hcover.slices⟩
  intro b hb mem hmem
  exact hcover.slices.inside mem (List.mem_flatMap.mpr ⟨b, hb, hmem⟩)

/-- A torrent of which only the layout counts. -/
def layout (pieceLength : UInt64) (sizes : List UInt64) : Metainfo where
  announce := none
  announceList := []
  info := ⟨.infoMulti, pieceLength, [], 0, [], 0, sizes.length, []⟩
  infoHash := []
  maxPeers := 0
  sh := ⟨.stateLeeching, [], 0, false⟩
  files := sizes.map (⟨·, []⟩)

/-- The second piece starts and ends inside a file and has an empty file
between two others. -/
theorem pieceRequestCreate_exact_across :
    ∃ r, pieceRequestCreate (layout 32768 [40000, 0, 20000, 9000]) 1 = .ok r ∧
      ExactCover [40000, 0, 20000, 9000] 32768 65536 r.blockRequests := by
  obtain ⟨r, hr, -, hcover, -⟩ := pieceRequestCreate_exact
    (layout 32768 [40000, 0, 20000, 9000]) 1 ⟨2, by decide⟩ (by decide) (by decide)
  exact ⟨r, hr, hcover⟩

/-! ## The remaining-bytes counter -/

/-- The subtractions `*left -= mem.size` for the slices, one after the other;
none of them wraps. -/
def LeftLasts : Nat → List FileMem → Prop
  | _, [] => True
  | left, mem :: mems => mem.size ≤ left ∧ LeftLasts (sizeSub left mem.size) mems

/-- These are the subtractions the `do … while` makes. -/
theorem fillBlock_left (files : List DlFile) :
    ∀ (w : Walk) (curr : Nat), (fillBlock files w curr).2.2.left
      = (fillBlock files w curr).1.foldl (fun left mem => sizeSub left mem.size) w.left := by
  induction files with
  | nil => intro w curr; rfl
  | cons f rest ih =>
    intro w curr
    simp only [fillBlock]
    split
    · rfl
    · split
      · rw [ih, List.foldl_cons]
      · rfl

theorem leftLasts_iff (mems : List FileMem) :
    ∀ {left : Nat}, left < 2 ^ 64 → (LeftLasts left mems ↔ (mems.map Seg.size).sum ≤ left) := by
  induction mems with
  | nil => intro left _; simp [LeftLasts]
  | cons mem mems ih =>
    intro left hleft
    rw [LeftLasts, List.map_cons, List.sum_cons]
    constructor
    · rintro ⟨hle, hrest⟩
      rw [sizeSub_of_le hle hleft, ih (by omega)] at hrest
      omega
    · intro hsum
      have hle : mem.size ≤ left := by omega
      refine ⟨hle, ?_⟩
      rw [sizeSub_of_le hle hleft, ih (by omega)]
      omega

/-- The walks at which the loop of `piece_request_create` calls
`next_block_request`, from `w` on. -/
inductive Visits (files : List DlFile) (piecelen : Nat) (w : Walk) : Walk → Prop where
  | start : Visits files piecelen w w
  | next {v v' : Walk} {b : BlockRequest} : Visits files piecelen w v →
    nextBlockRequest files piecelen v = some (b, v') → Visits files piecelen w v'

/-- `left` never wraps while the blocks of the piece are cut. -/
def LeftNeverWraps (torrent : Metainfo) (index : UInt32) : Prop :=
  ∀ cur offset, skipUntilIndex torrent index = .ok (cur, offset) →
    ∀ w b w', Visits torrent.files torrent.info.pieceLength.toNat
        ⟨cur, offset, torrent.info.pieceLength.toNat⟩ w →
      nextBlockRequest torrent.files torrent.info.pieceLength.toNat w = some (b, w') →
      LeftLasts w.left b.filemems

/-- No byte behind the piece is scheduled. -/
def StaysInPiece (torrent : Metainfo) (index : UInt32) : Prop :=
  ∃ r, pieceRequestCreate torrent index = .ok r ∧
    (∀ b ∈ r.blockRequests, b.begin + b.len ≤ torrent.info.pieceLength.toNat) ∧
    (r.blockRequests.map BlockRequest.len).sum ≤ torrent.info.pieceLength.toNat

/-- The piece is a whole number of blocks, or the files end no later than it. -/
def FitsBlocks (torrent : Metainfo) (index : UInt32) : Prop :=
  peerRequestSize ∣ torrent.info.pieceLength.toNat ∨
    torrent.totalLength ≤ pieceStart torrent index + torrent.info.pieceLength.toNat

/-- The walk has taken whole blocks of the piece, or all the files. -/
structure Taken (sizes : List Nat) (piecelen start : Nat) (w : Walk) : Prop where
  walk : WalkOk sizes w
  taken : ∃ n, w.pos sizes = start + n ∧ n ≤ piecelen ∧ w.left = piecelen - n ∧
    (16384 ∣ n ∨ w.file = sizes.length)

/-- Where the piece fits its blocks, a block takes no more than `left`. -/
theorem Taken.len_le {sizes : List Nat} {piecelen start : Nat} {w w' : Walk} {b : BlockRequest}
    (h : Taken sizes piecelen start w) (hb : NextBlock sizes piecelen w b w')
    (hfits : 16384 ∣ piecelen ∨ sizes.sum ≤ start + piecelen) : b.len ≤ w.left := by
  obtain ⟨n, hpos, hle, hleft, hwhole⟩ := h.taken
  have hlen := hb.len
  have hmore := hb.more
  have hfile := hb.file
  rcases hfits with hdvd | hend
  · rcases hwhole with hn | hlast
    · omega
    · omega
  · omega

theorem Taken.next {sizes : List Nat} {piecelen start : Nat} {w w' : Walk} {b : BlockRequest}
    (h : Taken sizes piecelen start w) (hb : NextBlock sizes piecelen w b w')
    (hfits : 16384 ∣ piecelen ∨ sizes.sum ≤ start + piecelen) :
    Taken sizes piecelen start w' := by
  have hle := h.len_le hb hfits
  obtain ⟨n, hpos, hn, hleft, hwhole⟩ := h.taken
  have hpos' := hb.pos
  have hlen := hb.len
  have hfile := hb.file
  have hleft' : w'.left = w.left - b.len := by rw [hb.left, sizeSub_of_le hle h.walk.2]
  refine ⟨hb.walk, n + b.len, by omega, by omega, by omega, ?_⟩
  by_cases hfull : b.len < 16384
  · exact .inr (hb.short hfull)
  · left
    rcases hwhole with hdvd | hlast
    · omega
    · omega

theorem Taken.visits {files : List DlFile} {piecelen start : Nat} {w v : Walk}
    (h : Taken (sizesOf files) piecelen start w)
    (hfits : 16384 ∣ piecelen ∨ (sizesOf files).sum ≤ start + piecelen)
    (hv : Visits files piecelen w v) : Taken (sizesOf files) piecelen start v := by
  induction hv with
  | start => exact h
  | next _ hnext ih =>
    rcases nextBlockRequest_spec piecelen ih.walk with ⟨hnone, -⟩ | ⟨b, v', hsome, hb⟩
    · rw [hnone] at hnext
      cases hnext
    · rw [hsome] at hnext
      cases hnext
      exact ih.next hb hfits

/-- `skip_until_index` stops at the first byte of the piece. -/
theorem skipUntilIndex_place {torrent : Metainfo} {index : UInt32} {cur offset : Nat}
    (h : skipUntilIndex torrent index = .ok (cur, offset)) :
    PlaceOk torrent.fileSizes cur offset ∧
      bufBase torrent.fileSizes cur + offset = pieceStart torrent index := by
  have hskip := skipLoop_spec torrent.files torrent.files 0 (pieceStart torrent index)
    (by simp) (Nat.zero_le _)
  simp only [bufBase, List.take_zero, List.sum_nil, Nat.zero_add] at hskip
  change skipLoop torrent.files 0 (pieceStart torrent index) = _ at h
  rcases Nat.lt_or_ge (sizesOf torrent.files).sum (pieceStart torrent index) with hlt | hle
  · rw [hskip.2 hlt] at h
    cases h
  · obtain ⟨c, o, hco, hplace, hpos⟩ := hskip.1 hle
    rw [hco] at h
    cases h
    exact ⟨hplace, hpos⟩

/-- Before the end of the content there is a file. -/
theorem PlaceOk.file_lt {sizes : List Nat} {file offset : Nat} (h : PlaceOk sizes file offset)
    (hpos : bufBase sizes file + offset < sizes.sum) : file < sizes.length := by
  by_contra hge
  have hle := h.1
  have hbase := bufBase_length sizes
  rw [show sizes.length = file from by omega] at hbase
  omega

/-- The walk with which the blocks start. -/
theorem taken_start {torrent : Metainfo} {index : UInt32} {cur offset : Nat}
    (h : skipUntilIndex torrent index = .ok (cur, offset)) :
    Taken torrent.fileSizes torrent.info.pieceLength.toNat (pieceStart torrent index)
      ⟨cur, offset, torrent.info.pieceLength.toNat⟩ := by
  obtain ⟨hplace, hpos⟩ := skipUntilIndex_place h
  exact ⟨⟨hplace, torrent.info.pieceLength.toNat_lt⟩, 0, hpos, Nat.zero_le _, rfl, .inl ⟨0, rfl⟩⟩

theorem leftNeverWraps_of_fits {torrent : Metainfo} {index : UInt32}
    (hfits : FitsBlocks torrent index) : LeftNeverWraps torrent index := by
  rw [FitsBlocks, peerRequestSize_eq] at hfits
  intro cur offset hskip w b w' hvisits hnext
  have htaken := (taken_start hskip).visits hfits hvisits
  rcases nextBlockRequest_spec torrent.info.pieceLength.toNat htaken.walk with
    ⟨hnone, -⟩ | ⟨c, v, hsome, hb⟩
  · rw [hnone] at hnext
    cases hnext
  · rw [hsome] at hnext
    cases hnext
    rw [leftLasts_iff _ htaken.walk.2, hb.tiles.sum_size, Nat.add_sub_cancel_left]
    exact htaken.len_le hb hfits

/-- How many bytes a piece request asks for. -/
theorem PieceRequest.Scheduled.sum_len {torrent : Metainfo} {index : UInt32} {r : PieceRequest}
    (h : r.Scheduled torrent index) :
    (r.blockRequests.map BlockRequest.len).sum
      = min (16384 * r.blockRequests.length)
        (torrent.totalLength - pieceStart torrent index) := by
  have hsum := h.schedule.sum_len h.start
  have hle := h.start
  rw [Metainfo.totalLength] at hle ⊢
  rw [blocksEnd, Nat.zero_add] at hsum
  omega

/-- A block ends within the bytes the request asks for. -/
theorem PieceRequest.Scheduled.block_end_le {torrent : Metainfo} {index : UInt32}
    {r : PieceRequest} (h : r.Scheduled torrent index) {b : BlockRequest}
    (hb : b ∈ r.blockRequests) :
    b.begin + b.len ≤ (r.blockRequests.map BlockRequest.len).sum := by
  obtain ⟨j, hj⟩ := List.mem_iff_getElem?.mp hb
  obtain ⟨hlt, -⟩ := List.getElem?_eq_some_iff.mp hj
  have hblock := (h.schedule.block j b hj).1
  rw [Nat.zero_add] at hblock
  have hbegin := hblock.begin
  have hlen := hblock.len
  have hreach := hblock.reach
  have hmod := Nat.mod_le (16384 * j) (2 ^ 64)
  have hle := h.start
  rw [h.sum_len]
  rw [Metainfo.totalLength] at hle ⊢
  omega

/-- A piece with a broken last block and more data behind it takes the whole
of that block. -/
theorem PieceRequest.Scheduled.fits_of_sum_le {torrent : Metainfo} {index : UInt32}
    {r : PieceRequest} (h : r.Scheduled torrent index)
    (hsum : (r.blockRequests.map BlockRequest.len).sum ≤ torrent.info.pieceLength.toNat) :
    FitsBlocks torrent index := by
  rw [FitsBlocks, peerRequestSize_eq]
  by_contra hfits
  obtain ⟨hdvd, hmore⟩ := not_or.mp hfits
  rw [h.sum_len] at hsum
  have hlt : 16384 * r.blockRequests.length < torrent.info.pieceLength.toNat := by omega
  rcases h.schedule.stop with hzero | hend
  · rw [Nat.zero_add, sizeSub_of_le (by omega) torrent.info.pieceLength.toNat_lt] at hzero
    omega
  · rw [Metainfo.totalLength] at hmore
    omega

/-- **When a piece request stays inside its piece.** -/
theorem stays_in_piece_iff (torrent : Metainfo) (index : UInt32)
    (hindex : index.toNat * torrent.info.pieceLength.toNat < torrent.totalLength) :
    LeftNeverWraps torrent index ∧ StaysInPiece torrent index ↔ FitsBlocks torrent index := by
  have hstart := pieceStart_lt hindex
  obtain ⟨r, hr, hsch⟩ := (pieceRequestCreate_spec torrent index).1 (by omega)
  constructor
  · rintro ⟨-, r', hr', -, hsum⟩
    rw [hr] at hr'
    cases hr'
    exact hsch.fits_of_sum_le hsum
  · intro hfits
    have hsum : (r.blockRequests.map BlockRequest.len).sum ≤ torrent.info.pieceLength.toNat := by
      rw [hsch.sum_len]
      rcases hfits with hdvd | hend
      · have := hsch.schedule.length_le (by simpa using hdvd) torrent.info.pieceLength.toNat_lt
        omega
      · omega
    refine ⟨leftNeverWraps_of_fits hfits, r, hr, ?_, hsum⟩
    intro b hb
    have := hsch.block_end_le hb
    omega

/-- One byte more than a block, and data behind it: the piece takes all the
files and its counter wraps. -/
theorem stays_in_piece_passed :
    0 * 16385 < (layout 16385 [40000]).totalLength ∧
      ¬ (LeftNeverWraps (layout 16385 [40000]) 0 ∧ StaysInPiece (layout 16385 [40000]) 0) := by
  refine ⟨by decide, ?_⟩
  rintro ⟨-, r, hr, -, hsum⟩
  have hcreate : pieceRequestCreate (layout 16385 [40000]) 0 = .ok ⟨0,
      [⟨[⟨0, 0, 16384⟩], 0, 16384, false⟩, ⟨[⟨0, 16384, 16384⟩], 16384, 16384, false⟩,
        ⟨[⟨0, 32768, 7232⟩], 32768, 7232, false⟩], 3⟩ := rfl
  rw [hcreate] at hr
  cases hr
  exact absurd hsum (by decide)

/-- The last piece of the same torrent has nothing behind it. -/
theorem stays_in_piece_last :
    LeftNeverWraps (layout 16385 [40000]) 2 ∧ StaysInPiece (layout 16385 [40000]) 2 :=
  (stays_in_piece_iff (layout 16385 [40000]) 2 (by decide)).mpr (.inr (by decide))

/-! ## Empty files at the end -/

/-- A full block does not pass empty files at the end of the list. -/
theorem fillBlock_before_empty {files : List DlFile}
    (hlast : (sizesOf files).getLast? = some 0) :
    ∀ (suffix : List DlFile) (w : Walk) (curr : Nat), files.drop w.file = suffix →
      WalkOk (sizesOf files) w → curr < peerRequestSize →
      ¬ (fillBlock suffix w curr).2.1 < peerRequestSize →
      (fillBlock suffix w curr).2.2.file < files.length := by
  intro suffix
  induction suffix with
  | nil =>
    intro w curr _ _ hcurr hfull
    exact absurd hcurr hfull
  | cons f rest ih =>
    intro w curr hdrop hok hcurr hfull
    obtain ⟨hget, hrest, hlt⟩ := drop_eq_cons hdrop
    simp only [fillBlock] at hfull ⊢
    by_cases hbig : sizeSub f.size.toNat w.offset > peerRequestSize - curr
    · rw [if_pos hbig]
      exact hlt
    · rw [if_neg hbig] at hfull ⊢
      by_cases hmore : curr + sizeSub f.size.toNat w.offset < peerRequestSize
      · rw [if_pos hmore] at hfull ⊢
        exact ih ⟨w.file + 1, 0, _⟩ _ hrest (walkOk_next hget _) hmore hfull
      · rw [if_neg hmore]
        -- the last slice has bytes, so its file is not the last one
        show w.file + 1 < files.length
        by_contra hend
        have hidx : w.file = (sizesOf files).length - 1 := by
          rw [length_sizesOf]
          omega
        rw [List.getLast?_eq_getElem?, ← hidx, hget] at hlast
        have hzero : f.size.toNat = 0 := Option.some.inj hlast
        have hoff := hok.offset_le hget
        rw [sizeSub_of_le hoff f.size.toNat_lt] at hmore
        omega

theorem nextBlockRequest_before_empty {files : List DlFile} {piecelen : Nat} {w w' : Walk}
    {b : BlockRequest} (hlast : (sizesOf files).getLast? = some 0)
    (hok : WalkOk (sizesOf files) w) (h : nextBlockRequest files piecelen w = some (b, w'))
    (hfull : ¬ b.len < peerRequestSize) : w'.file < files.length := by
  rw [nextBlockRequest] at h
  cases hdrop : files.drop w.file with
  | nil =>
    rw [hdrop] at h
    cases h
  | cons f rest =>
    rw [hdrop] at h
    by_cases hleft : w.left = 0
    · simp only [if_pos hleft] at h
      cases h
    · simp only [if_neg hleft, Option.some.injEq, Prod.mk.injEq] at h
      obtain ⟨rfl, rfl⟩ := h
      exact fillBlock_before_empty hlast _ w 0 hdrop hok (by decide) hfull

/-- Data that ends at a block boundary before the piece does, with an empty file
behind it: the walk has a file left and nothing to take from it. -/
theorem blockLoop_empty_block {files : List DlFile} {piecelen : Nat}
    (hlast : (sizesOf files).getLast? = some 0) :
    ∀ (fuel : Nat) (w : Walk) (bs : List BlockRequest), WalkOk (sizesOf files) w →
      w.file < files.length → 16384 ∣ (sizesOf files).sum - w.pos (sizesOf files) →
      (sizesOf files).sum - w.pos (sizesOf files) < w.left →
      blockLoop files piecelen fuel w = .ok bs → ∃ b ∈ bs, b.len = 0 := by
  intro fuel
  induction fuel with
  | zero => intro w bs _ _ _ _ h; cases h
  | succ fuel ih =>
    intro w bs hok hfile hdvd hleft h
    rcases nextBlockRequest_spec piecelen hok with ⟨-, hend⟩ | ⟨b, w', hsome, hb⟩
    · omega
    · rw [blockLoop, hsome] at h
      obtain ⟨bs', hbs', hres⟩ := (seq_returns_iff _ _ _).mp h
      cases hres
      have hlen := hb.len
      by_cases hempty : b.len = 0
      · exact ⟨b, by simp, hempty⟩
      · have hfull : b.len = 16384 := by omega
        have hpos := hb.pos
        have hleft' : w'.left = w.left - 16384 := by
          rw [hb.left, hfull, sizeSub_of_le (by omega) hok.2]
        obtain ⟨c, hc, hzero⟩ := ih w' bs' hb.walk
          (nextBlockRequest_before_empty hlast hok hsome (by rw [peerRequestSize_eq]; omega))
          (by omega) (by omega) hbs'
        exact ⟨c, by simp [hc], hzero⟩

/-- The data behind the start of the piece ends at a block boundary before the
piece does, and the last file is empty. -/
def EndsInEmptyBlock (torrent : Metainfo) (index : UInt32) : Prop :=
  torrent.fileSizes.getLast? = some 0 ∧
    peerRequestSize ∣ torrent.totalLength - pieceStart torrent index ∧
    torrent.totalLength < pieceStart torrent index + torrent.info.pieceLength.toNat

/-- **When a schedule has an empty block.** -/
theorem empty_block_iff {torrent : Metainfo} {index : UInt32} {r : PieceRequest}
    (hdvd : peerRequestSize ∣ torrent.info.pieceLength.toNat)
    (hstart : pieceStart torrent index < torrent.totalLength)
    (h : pieceRequestCreate torrent index = .ok r) :
    (∃ b ∈ r.blockRequests, b.len = 0) ↔ EndsInEmptyBlock torrent index := by
  have hsch := scheduled_of_create h
  have hlt := torrent.info.pieceLength.toNat_lt
  rw [peerRequestSize_eq] at hdvd
  rw [EndsInEmptyBlock, peerRequestSize_eq]
  constructor
  · rintro ⟨b, hb, hzero⟩
    obtain ⟨k, hk⟩ := List.mem_iff_getElem?.mp hb
    obtain ⟨hklt, -⟩ := List.getElem?_eq_some_iff.mp hk
    obtain ⟨hblock, -⟩ := hsch.schedule.block k b hk
    have hcount := hsch.schedule.length_le hdvd hlt
    have hlen := hblock.len
    have hreach := hblock.reach
    have hend : torrent.totalLength = pieceStart torrent index + 16384 * k := by
      rw [Metainfo.totalLength]
      omega
    refine ⟨?_, by omega, by omega⟩
    by_contra hlast
    have := hblock.nonempty hlast
    rw [Metainfo.totalLength] at hend
    omega
  · rintro ⟨hlast, hblocks, hmore⟩
    rw [pieceRequestCreate] at h
    obtain ⟨⟨cur, offset⟩, hskip, h⟩ := (seq_returns_iff _ _ _).mp h
    obtain ⟨bs, hbs, hres⟩ := (seq_returns_iff _ _ _).mp h
    cases hres
    obtain ⟨hplace, hpos⟩ := skipUntilIndex_place hskip
    have hwalk : Walk.pos torrent.fileSizes ⟨cur, offset, torrent.info.pieceLength.toNat⟩
        = pieceStart torrent index := hpos
    have hfile := hplace.file_lt (by rw [hpos]; exact hstart)
    rw [Metainfo.fileSizes, length_sizesOf] at hfile
    rw [Metainfo.totalLength] at hblocks hmore hstart
    refine blockLoop_empty_block hlast _ _ bs (taken_start hskip).walk hfile ?_ ?_ hbs
    · rw [← Metainfo.fileSizes, hwalk]
      exact hblocks
    · rw [← Metainfo.fileSizes, hwalk]
      show _ < torrent.info.pieceLength.toNat
      omega

end BtClient

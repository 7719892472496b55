import BtClient.DlFile.Complete

/-!
# The files of a torrent get their names

`parse_file` opens the files of a torrent one after the other and
`torrent_complete` completes them in the same order. Every path `parse_file`
assembles begins with `./`, so no completion aborts, whatever the names in the
torrent are. As long as no two files end up with the same path, each path
leads at the end to the file that was opened for it: none is overwritten on
the way, by the completion of another file or by its creation.
-/

namespace BtClient

open CLib

/-- The path a file ends up with. -/
def finalPath (path : List UInt8) : List UInt8 := before incompleteSuffix (path ++ incompleteSuffix)

/-- The file after `dl_file_complete`. -/
def DlFile.completed (file : DlFile) : DlFile :=
  { file with path := before incompleteSuffix file.path }

/-- The files `dl_file_complete` does not abort on. -/
structure DlFile.Completable (file : DlFile) : Prop extends file.PathFits where
  marked : incompleteSuffix <:+: file.path
  behind : ¬ incompleteSuffix <+: file.path

theorem DlFile.Completable.first {file : DlFile} (h : file.Completable) :
    FirstOccurrence incompleteSuffix file.path file.completed.path :=
  firstOccurrence_before h.marked

theorem dlFileComplete_completed {file : DlFile} (h : file.Completable) (renamed : Bool)
    (names : Names) :
    dlFileComplete renamed file names =
      .ok (file.completed, callRename renamed names file.path file.completed.path) := by
  refine dlFileComplete_returns h.toPathFits h.first (fun hnil => h.behind ?_) renamed names
  have hoccurs := h.first.occurs
  rwa [hnil, List.nil_append] at hoccurs

/-! ## The loop of `torrent_complete` -/

/-- The names after the files were completed. -/
def completedNames (renamed : Nat → Bool) : Nat → List DlFile → Names → Names
  | _, [], names => names
  | i, file :: files, names =>
    completedNames renamed (i + 1) files
      (callRename (renamed i) names file.path file.completed.path)

theorem completeLoop_returns (renamed : Nat → Bool) (rest : List DlFile) :
    ∀ (done : List DlFile) (names : Names), (∀ file ∈ rest, file.Completable) →
      completeLoop renamed rest.length done.length (done ++ rest) names =
        .ok (done ++ rest.map DlFile.completed, completedNames renamed done.length rest names) := by
  induction rest with
  | nil =>
    intro done names _
    rfl
  | cons file rest ih =>
    intro done names h
    have hget : (done ++ file :: rest)[done.length]? = some file := by simp
    have hset : (done ++ file :: rest).set done.length file.completed =
        done ++ [file.completed] ++ rest := by
      rw [List.set_append_right _ _ (Nat.le_refl _), Nat.sub_self, List.set_cons_zero,
        List.append_assoc, List.singleton_append]
    have hrest := ih (done ++ [file.completed])
      (callRename (renamed done.length) names file.path file.completed.path)
      (fun other hother => h other (List.mem_cons_of_mem file hother))
    rw [List.length_append, List.length_singleton] at hrest
    rw [List.length_cons, completeLoop, hget, deref, ok_bind,
      dlFileComplete_completed (h file List.mem_cons_self), ok_bind]
    dsimp only
    rw [hset, hrest, List.append_assoc, completedNames]
    rfl

/-- **`torrent_complete` returns** if the assertion holds of each file. -/
theorem torrentComplete_returns {torrent : Metainfo}
    (hcount : torrent.files.length = torrent.info.filesCount)
    (h : ∀ file ∈ torrent.files, file.Completable) (renamed : Nat → Bool) (names : Names) :
    torrentComplete renamed torrent names =
      .ok ({ torrent with sh := torrentCompleteSection torrent.sh
                          files := torrent.files.map DlFile.completed },
        completedNames renamed 0 torrent.files names) := by
  have hloop := completeLoop_returns renamed torrent.files [] names h
  rw [List.nil_append, List.nil_append, List.length_nil] at hloop
  rw [torrentComplete, ← hcount, hloop]
  rfl

/-! ## The paths `parse_file` assembles -/

/-- A string that begins with `./`. -/
structure DotSlash (path : List UInt8) : Prop where
  begins : [46, 47] <+: path
  text : 0 ∉ path

theorem DotSlash.append {path more : List UInt8} (h : DotSlash path) (hmore : 0 ∉ more) :
    DotSlash (path ++ more) := by
  refine ⟨h.begins.trans (List.prefix_append path more), fun hmem => ?_⟩
  exact (List.mem_append.mp hmem).elim h.text hmore

/-- The suffix has another second byte. -/
theorem DotSlash.not_incomplete {path : List UInt8} (h : DotSlash path) :
    ¬ incompleteSuffix <+: path := by
  intro hbegin
  have hdot : [46, 47] <+: incompleteSuffix :=
    List.prefix_of_prefix_length_le h.begins hbegin (by decide)
  revert hdot
  decide

theorem appendComponents_dotSlash (components : List (List UInt8)) :
    ∀ {path text : List UInt8}, DotSlash path → (∀ component ∈ components, 0 ∉ component) →
      appendComponents components path = .ok text → DotSlash text := by
  induction components with
  | nil =>
    intro path text hpath _ h
    cases h
    exact hpath
  | cons component components ih =>
    intro path text hpath htexts h
    have hcomponent : 0 ∉ component := htexts component List.mem_cons_self
    cases components with
    | nil =>
      obtain ⟨rfl, -⟩ := strcat_ok h
      exact hpath.append hcomponent
    | cons next rest =>
      rw [appendComponents] at h
      · simp only [seq_returns_iff] at h
        obtain ⟨first, hfirst, second, hsecond, h⟩ := h
        obtain ⟨rfl, -⟩ := strcat_ok hfirst
        obtain ⟨rfl, -⟩ := strcat_ok hsecond
        refine ih ?_ (fun other hother => htexts other (List.mem_cons_of_mem _ hother)) h
        exact (hpath.append hcomponent).append (by decide)
      · simp

theorem dlFileCreateAndOpen_completable {size : Nat} {path : List UInt8} {file : DlFile}
    (hpath : DotSlash path) (h : dlFileCreateAndOpen size path = .ok file) :
    file.Completable := by
  rw [dlFileCreateAndOpen, seq_returns_iff] at h
  obtain ⟨newpath, hcat, hfile⟩ := h
  obtain ⟨rfl, hfits⟩ := strcat_ok hcat
  cases hfile
  have hnew : DotSlash (path ++ incompleteSuffix) := hpath.append incompleteSuffix_text
  exact ⟨⟨hnew.text, hfits⟩, (List.suffix_append path incompleteSuffix).isInfix,
    hnew.not_incomplete⟩

/-- The texts `parse_info` took from the torrent are strings. -/
structure Info.Texts (info : Info) : Prop where
  name : 0 ∉ info.name
  paths : ∀ file ∈ info.files, ∀ component ∈ file.path, 0 ∉ component

theorem readText_text {item : BencodeType} {text : List UInt8} (h : item.readText = .ok text) :
    0 ∉ text := by
  rw [BencodeType.readText, seq_returns_iff] at h
  obtain ⟨⟨len, str⟩, -, h⟩ := h
  obtain ⟨bytes, -, htext⟩ := (seq_returns_iff _ _ _).mp h
  cases htext
  intro hmem
  simpa using List.mem_takeWhile_imp hmem

theorem parseInfoFile_texts {item : BencodeType} {file : FileInfo}
    (h : parseInfoFile item = .ok file) : ∀ component ∈ file.path, 0 ∉ component := by
  simp only [parseInfoFile, seq_returns_iff] at h
  obtain ⟨_, -, _, -, length, -, dict, -, _, -, items, -, path, hpath, hfile⟩ := h
  cases hfile
  exact mapM_forall (fun item _ text htext => readText_text htext) hpath

theorem parseInfo_texts {parsed : HashTable BencodeType} {info : Info}
    (h : parseInfo parsed = .ok info) : info.Texts := by
  obtain ⟨⟨item, hname⟩, ⟨-, hnone⟩ | ⟨-, items, hfiles, -⟩⟩ := parseInfo_cases h
  · refine ⟨readText_text hname, ?_⟩
    rw [hnone]
    exact fun file hfile => absurd hfile List.not_mem_nil
  · refine ⟨readText_text hname, ?_⟩
    exact mapM_forall (fun item _ file hfile => parseInfoFile_texts hfile) hfiles

theorem dotSlash_name {name path : List UInt8} (hname : 0 ∉ name)
    (h : strcat [46, 47] name = .ok path) : DotSlash path := by
  obtain ⟨rfl, -⟩ := strcat_ok h
  exact ⟨List.prefix_append _ name, fun hmem => (List.mem_append.mp hmem).elim (by decide) hname⟩

theorem createFile_completable {name : List UInt8} {info : FileInfo} {file : DlFile}
    (hname : 0 ∉ name) (hpath : ∀ component ∈ info.path, 0 ∉ component)
    (h : createFile name info = .ok file) : file.Completable := by
  simp only [createFile, seq_returns_iff] at h
  obtain ⟨first, hfirst, second, hsecond, path, happend, hopen⟩ := h
  have hdir : DotSlash second := by
    obtain ⟨rfl, -⟩ := strcat_ok hsecond
    exact (dotSlash_name hname hfirst).append (by decide)
  exact dlFileCreateAndOpen_completable (appendComponents_dotSlash _ hdir hpath happend) hopen

theorem openFiles_completable {info info' : Info} {files : List DlFile} (htexts : info.Texts)
    (hcount : info.mode = .infoMulti → info.files.length = info.filesCount)
    (h : openFiles info = .ok (info', files)) :
    files.length = info'.filesCount ∧ ∀ file ∈ files, file.Completable := by
  obtain ⟨hmode, rfl, hfs⟩ | ⟨-, -, hone, path, file, hpath, hfile, rfl⟩ := openFiles_cases h
  · refine ⟨(mapM_length hfs).trans (hcount hmode), ?_⟩
    refine mapM_forall (fun entry hentry file hfile => ?_) hfs
    exact createFile_completable htexts.name (htexts.paths entry hentry) hfile
  · refine ⟨hone.symm, List.forall_mem_singleton.mpr ?_⟩
    exact dlFileCreateAndOpen_completable (dotSlash_name htexts.name hpath) hfile

/-- **No completion aborts.** Of a torrent `parse_file` returned, all files can
be completed, whatever names they have and whichever renames go through; each
gets the path before the first `.incomplete`. -/
theorem parseFile_torrentComplete {sha1 : List UInt8 → List UInt8} {fuel : Nat}
    {input : Option Bool} {seeds : Nat → TableSeed} {contents : List UInt8} {torrent : Metainfo}
    (h : parseFile sha1 fuel input seeds contents = .ok torrent) (renamed : Nat → Bool)
    (names : Names) :
    torrentComplete renamed torrent names =
      .ok ({ torrent with sh := torrentCompleteSection torrent.sh
                          files := torrent.files.map DlFile.completed },
        completedNames renamed 0 torrent.files names) := by
  obtain ⟨infoDict, info, hinfo, hopen⟩ := parseFile_cases h
  obtain ⟨hcount, hfiles⟩ :=
    openFiles_completable (parseInfo_texts hinfo) (parseInfo_filesCount hinfo) hopen
  exact torrentComplete_returns hcount hfiles renamed names

/-! ## Names over a whole run -/

/-- The names after files were created for the paths, every call going through. -/
def createdNames : List (List UInt8) → Names → Names
  | [], names => names
  | path :: paths, names =>
    createdNames paths ((names.openCreate path).rename path (path ++ incompleteSuffix))

/-- The files that were opened for the paths. -/
def openedFiles : List (List UInt8) → Names → List Nat
  | [], _ => []
  | path :: paths, names =>
    names.opened path ::
      openedFiles paths ((names.openCreate path).rename path (path ++ incompleteSuffix))

theorem createLoop_cases (answers : Nat → OpenAnswers) (hrenamed : ∀ i, (answers i).renamed = true)
    (requests : List (Nat × List UInt8)) :
    ∀ {i : Nat} {names created : Names} {files : List DlFile},
      createLoop answers i requests names = .ok (files.map some, created) →
      (∀ file ∈ files, file.path.length < 512) ∧
        files.map DlFile.path = requests.map (fun request => request.2 ++ incompleteSuffix) ∧
        created = createdNames (requests.map Prod.snd) names := by
  induction requests with
  | nil =>
    intro i names created files h
    obtain ⟨hfiles, rfl⟩ := Prod.mk.inj (Except.ok.inj h)
    obtain rfl : files = [] := List.map_eq_nil_iff.mp hfiles.symm
    exact ⟨fun file hfile => absurd hfile List.not_mem_nil, rfl, rfl⟩
  | cons request requests ih =>
    intro i names created files h
    obtain ⟨size, path⟩ := request
    rw [createLoop, seq_returns_iff] at h
    obtain ⟨⟨opened, names'⟩, hopen, h⟩ := h
    obtain ⟨⟨rest, names''⟩, hrest, hres⟩ := (seq_returns_iff _ _ _).mp h
    obtain ⟨hfiles, rfl⟩ := Prod.mk.inj (Except.ok.inj hres)
    cases files with
    | nil => cases hfiles
    | cons file files =>
      obtain ⟨rfl, rfl⟩ := List.cons.inj hfiles
      obtain ⟨hfits, rfl, rfl⟩ := dlFileCreateAndOpenIn_cases hopen
      obtain ⟨hall, hpaths, rfl⟩ := ih hrest
      refine ⟨List.forall_mem_cons.mpr ⟨hfits, hall⟩, ?_, ?_⟩
      · rw [List.map_cons, List.map_cons, hpaths]
      · rw [hrenamed i, callRename, if_pos rfl]
        rfl

/-- Only the paths and their incomplete names change. -/
theorem createdNames_ne {name : List UInt8} (paths : List (List UInt8)) :
    ∀ (names : Names), (∀ path ∈ paths, name ≠ path ∧ name ≠ path ++ incompleteSuffix) →
      (createdNames paths names).entry name = names.entry name := by
  induction paths with
  | nil => intro names _; rfl
  | cons path paths ih =>
    intro names h
    obtain ⟨⟨hpath, hincomplete⟩, hrest⟩ := List.forall_mem_cons.mp h
    rw [createdNames, ih _ hrest, Directory.rename_ne hpath hincomplete,
      Directory.openCreate_ne hpath]

/-- The suffix once more does not change where a file ends up. -/
theorem finalPath_append_suffix (path : List UInt8) :
    finalPath (path ++ incompleteSuffix) = finalPath path :=
  (firstOccurrence_incomplete (path ++ incompleteSuffix)).unique
    ((firstOccurrence_incomplete path).append incompleteSuffix)

theorem finalPath_eq_self_iff {path : List UInt8} :
    finalPath path = path ↔ ¬ incompleteSuffix <:+: path :=
  (firstOccurrence_incomplete path).eq_text_iff incompleteSuffix_unbordered
    incompleteSuffix_ne_nil

/-- **Creation loses no file**: where the final paths differ, each incomplete
name leads to the file opened for its path. -/
theorem createdNames_entry (paths : List (List UInt8)) :
    ∀ (names : Names), (paths.map finalPath).Nodup →
      List.Forall₂ (fun path ino =>
        (createdNames paths names).entry (path ++ incompleteSuffix) = some ino)
        paths (openedFiles paths names) := by
  induction paths with
  | nil => intro names _; exact .nil
  | cons path paths ih =>
    intro names hfinal
    obtain ⟨hhead, hrest⟩ := List.nodup_cons.mp hfinal
    refine .cons ?_ (ih _ hrest)
    have hkeep : ∀ other ∈ paths, path ++ incompleteSuffix ≠ other ∧
        path ++ incompleteSuffix ≠ other ++ incompleteSuffix := by
      intro other hother
      have hne : finalPath path ≠ finalPath other := fun heq =>
        hhead (heq ▸ List.mem_map_of_mem hother)
      refine ⟨fun heq => hne ?_, fun heq => hne ?_⟩
      · rw [← finalPath_append_suffix, heq]
      · rw [List.append_cancel_right heq]
    rw [createdNames, createdNames_ne paths _ hkeep]
    exact Directory.rename_new Directory.openCreate_self

/-- Only the paths before and after completion change. -/
theorem completedNames_ne {name : List UInt8} (renamed : Nat → Bool) (files : List DlFile) :
    ∀ (i : Nat) (names : Names),
      (∀ file ∈ files, name ≠ file.path ∧ name ≠ file.completed.path) →
      (completedNames renamed i files names).entry name = names.entry name := by
  induction files with
  | nil => intro i names _; rfl
  | cons file files ih =>
    intro i names h
    obtain ⟨⟨hpath, hfinal⟩, hrest⟩ := List.forall_mem_cons.mp h
    rw [completedNames, ih _ _ hrest, callRename]
    split
    · exact Directory.rename_ne hpath hfinal
    · rfl

/-- A completed path is not the path of a file that is still to be completed. -/
theorem DlFile.Completable.path_ne {file other : DlFile} (h : file.Completable)
    (hother : other.Completable) : other.path ≠ file.completed.path := by
  intro heq
  have hnot := h.first.not_infix incompleteSuffix_ne_nil
  rw [← heq] at hnot
  exact hnot hother.marked

/-- **Completion loses no file**: where the final paths differ, each leads to
the file that the incomplete name led to. -/
theorem completedNames_entry {files : List DlFile} {inos : List Nat} :
    ∀ {names : Names} (i : Nat), (∀ file ∈ files, file.Completable) →
      (files.map fun file => file.completed.path).Nodup →
      List.Forall₂ (fun file ino => names.entry file.path = some ino) files inos →
      List.Forall₂ (fun file ino =>
        (completedNames (fun _ => true) i files names).entry file.completed.path = some ino)
        files inos := by
  induction files generalizing inos with
  | nil =>
    intro names i _ _ h
    cases h
    exact .nil
  | cons file files ih =>
    intro names i hall hfinal h
    obtain ⟨hfile, hfiles⟩ := List.forall_mem_cons.mp hall
    obtain ⟨hhead, hrest⟩ := List.nodup_cons.mp hfinal
    have hdiffer : ∀ other ∈ files, file.completed.path ≠ other.completed.path :=
      fun other hother heq => hhead (List.mem_map.mpr ⟨other, hother, heq.symm⟩)
    -- the rename of this file leaves the others alone
    have hkeep : ∀ other ∈ files,
        (names.rename file.path file.completed.path).entry other.path = names.entry other.path := by
      intro other hother
      have hpath : other.path ≠ file.path := by
        intro heq
        refine hdiffer other hother ?_
        rw [DlFile.completed, DlFile.completed, heq]
      exact Directory.rename_ne hpath (hfile.path_ne (hfiles other hother))
    cases h with
    | cons hentry hentries =>
      refine .cons ?_ (ih (i + 1) hfiles hrest ?_)
      · rw [completedNames, completedNames_ne _ files]
        · exact Directory.rename_new hentry
        · exact fun other hother =>
            ⟨(hfile.path_ne (hfiles other hother)).symm, hdiffer other hother⟩
      · refine ((List.forall₂_and_left _ _).mpr ⟨hkeep, hentries⟩).imp ?_
        intro other ino hother
        exact hother.1.trans hother.2

section Run

variable {answers : Nat → OpenAnswers} {requests : List (Nat × List UInt8)} {torrent : Metainfo}
  {names created : Names}

theorem completed_paths {files : List DlFile} {paths : List (List UInt8)}
    (h : files.map DlFile.path = paths.map (· ++ incompleteSuffix)) :
    (files.map fun file => file.completed.path) = paths.map finalPath :=
  calc (files.map fun file => file.completed.path)
      = (files.map DlFile.path).map (before incompleteSuffix) := by
        rw [List.map_map]
        rfl
    _ = paths.map finalPath := by
        rw [h, List.map_map]
        rfl

theorem completable_of_paths {files : List DlFile} {paths : List (List UInt8)}
    (h : files.map DlFile.path = paths.map (· ++ incompleteSuffix))
    (hpaths : ∀ path ∈ paths, DotSlash path) (hfits : ∀ file ∈ files, file.path.length < 512) :
    ∀ file ∈ files, file.Completable := by
  intro file hfile
  have hmem : file.path ∈ paths.map (· ++ incompleteSuffix) := h ▸ List.mem_map_of_mem hfile
  obtain ⟨path, hpath, heq⟩ := List.mem_map.mp hmem
  have hnew : DotSlash file.path := heq ▸ (hpaths path hpath).append incompleteSuffix_text
  refine ⟨⟨hnew.text, hfits file hfile⟩, ?_, hnew.not_incomplete⟩
  rw [← heq]
  exact (List.suffix_append path incompleteSuffix).isInfix

/-- The files `./a/b` and `./a/c`, opened. -/
def partsTorrent : Metainfo where
  announce := none
  announceList := []
  info := ⟨.infoMulti, 16384, [97], 0, [], 0, 2, []⟩
  infoHash := []
  maxPeers := 0
  sh := sharedInit 0
  files := [⟨4, [46, 47, 97, 47, 98] ++ incompleteSuffix⟩,
    ⟨6, [46, 47, 97, 47, 99] ++ incompleteSuffix⟩]

end Run

end BtClient

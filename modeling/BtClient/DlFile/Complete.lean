import BtClient.DlFile.Model
import BtClient.FileParser.Table

/-!
# A finished file gets its name

The name a file ends with is the text before the first `.incomplete` in its
path with the suffix. The suffix begins with the only dot it has, so it does
not overlap itself and no occurrence crosses the end of the path: the file
gets its path back unless that contains `.incomplete`, and `dl_file_complete`
aborts where it begins with it.

The second half follows the files of a torrent through `torrent_complete`.
-/

namespace BtClient

open CLib

theorem incompleteSuffix_text : 0 ∉ incompleteSuffix := by decide

theorem incompleteSuffix_ne_nil : incompleteSuffix ≠ [] := by decide

theorem incompleteSuffix_unbordered : Unbordered incompleteSuffix :=
  unbordered_cons (by decide)

/-! ## `dl_file_create_and_open` -/

/-- What a call that returned a file did. -/
theorem dlFileCreateAndOpenIn_cases {answers : OpenAnswers} {names names' : Names} {size : Nat}
    {path : List UInt8} {file : DlFile}
    (h : dlFileCreateAndOpenIn answers names size path = .ok (some file, names')) :
    (path ++ incompleteSuffix).length < 512 ∧
      file = { size := UInt64.ofNat size, path := path ++ incompleteSuffix } ∧
      names' = callRename answers.renamed (names.openCreate path) path
        (path ++ incompleteSuffix) := by
  rw [dlFileCreateAndOpenIn] at h
  obtain ⟨newpath, hcat, h⟩ := (seq_returns_iff _ _ _).mp h
  obtain ⟨rfl, hfits⟩ := strcat_ok hcat
  -- every early return is one without a file
  split at h
  · cases h
  · split at h
    · cases h
    · obtain ⟨-, -, h⟩ := (seq_returns_iff _ _ _).mp h
      split at h
      · cases h
      · split at h
        · cases h
        · cases h
          exact ⟨hfits, rfl, rfl⟩

/-- The file is the one of the model without a file system. -/
theorem dlFileCreateAndOpenIn_file {answers : OpenAnswers} {names names' : Names} {size : Nat}
    {path : List UInt8} {file : DlFile}
    (h : dlFileCreateAndOpenIn answers names size path = .ok (some file, names')) :
    dlFileCreateAndOpen size path = .ok file := by
  obtain ⟨hfits, rfl, -⟩ := dlFileCreateAndOpenIn_cases h
  rw [List.length_append] at hfits
  exact dlFileCreateAndOpen_fits hfits

/-! ## `dl_file_complete` -/

section Complete

variable {file : DlFile} {front : List UInt8}

/-- The path in the struct is a string that fits the buffer of
`dl_file_complete`. -/
structure DlFile.PathFits (file : DlFile) : Prop where
  text : 0 ∉ file.path
  fits : file.path.length < 512

theorem DlFile.PathFits.copied (h : file.PathFits) :
    ∃ oldpath, strncpy 512 (file.path ++ [0]) = .ok oldpath ∧
      stringAt oldpath 0 = .ok file.path :=
  ⟨_, strncpy_fits h.text h.fits [], stringAt_append h.text [] _⟩

theorem DlFile.PathFits.found (h : file.PathFits)
    (hfirst : FirstOccurrence incompleteSuffix file.path front) :
    strstr incompleteSuffix (file.path ++ [0]) = .ok (some front.length) :=
  strstr_first incompleteSuffix_text [] h.text hfirst

/-- Overwriting the first byte of an occurrence leaves the text before it. -/
theorem stringAt_cut {path : List UInt8} (htext : 0 ∉ path)
    (hfirst : FirstOccurrence incompleteSuffix path front) :
    stringAt ((path ++ [0]).set front.length 0) 0 = .ok front := by
  obtain ⟨behind, rfl⟩ := hfirst.occurs
  have hset : (front ++ incompleteSuffix ++ behind ++ [0]).set front.length 0 =
      front ++ 0 :: (incompleteSuffix.tail ++ behind ++ [0]) := by
    rw [List.append_assoc, List.append_assoc, List.set_append_right _ _ (Nat.le_refl _),
      Nat.sub_self]
    rfl
  have hfront : 0 ∉ front := fun hmem => htext (by simp [hmem])
  rw [hset]
  exact stringAt_append hfront [] _

/-- **`dl_file_complete` returns** where something stands before the first
`.incomplete`: that is the new path, and the file is renamed to it. -/
theorem dlFileComplete_returns (h : file.PathFits)
    (hfirst : FirstOccurrence incompleteSuffix file.path front) (hne : front ≠ [])
    (renamed : Bool) (names : Names) :
    dlFileComplete renamed file names =
      .ok ({ file with path := front }, callRename renamed names file.path front) := by
  obtain ⟨oldpath, hcopy, hold⟩ := h.copied
  have hpos : decide (0 < front.length) = true := decide_eq_true (List.length_pos_of_ne_nil hne)
  simp only [dlFileComplete, hcopy, h.found hfirst, ok_bind, Option.isSome_some, Option.getD_some,
    hpos, Bool.and_self, check_true, stringAt_cut h.text hfirst, hold, pure_is_ok]

/-- Where nothing stands before it, the assertion fails. -/
theorem dlFileComplete_aborts (h : file.PathFits) (hbegin : incompleteSuffix <+: file.path)
    (renamed : Bool) (names : Names) :
    dlFileComplete renamed file names = .error .assertFailed := by
  obtain ⟨oldpath, hcopy, -⟩ := h.copied
  simp only [dlFileComplete, hcopy, h.found (firstOccurrence_nil hbegin), ok_bind]
  rfl

/-- So it does where there is no `.incomplete` in the path. -/
theorem dlFileComplete_missing (h : file.PathFits) (hnot : ¬ incompleteSuffix <:+: file.path)
    (renamed : Bool) (names : Names) :
    dlFileComplete renamed file names = .error .assertFailed := by
  obtain ⟨oldpath, hcopy, -⟩ := h.copied
  simp only [dlFileComplete, hcopy, strstr_none incompleteSuffix_text [] h.text hnot, ok_bind]
  rfl

/-- A file is completed once: a second call aborts. -/
theorem dlFileComplete_twice (h : file.PathFits)
    (hfirst : FirstOccurrence incompleteSuffix file.path front) (renamed : Bool) (names : Names) :
    dlFileComplete renamed { file with path := front } names = .error .assertFailed := by
  have hfront : front <+: file.path := (List.prefix_append front _).trans hfirst.occurs
  refine dlFileComplete_missing ⟨?_, ?_⟩ (hfirst.not_infix incompleteSuffix_ne_nil) renamed names
  · exact fun hmem => h.text (hfront.subset hmem)
  · exact Nat.lt_of_le_of_lt hfront.length_le h.fits

end Complete

/-! ## Both, one after the other -/

section Name

variable {path : List UInt8}

theorem pathFits_incomplete {size : UInt64} (htext : 0 ∉ path)
    (hfits : (path ++ incompleteSuffix).length < 512) :
    DlFile.PathFits { size := size, path := path ++ incompleteSuffix } := by
  refine ⟨fun hmem => ?_, hfits⟩
  exact (List.mem_append.mp hmem).elim htext incompleteSuffix_text

/-- There is an occurrence in the path with its suffix. -/
theorem firstOccurrence_incomplete (path : List UInt8) :
    FirstOccurrence incompleteSuffix (path ++ incompleteSuffix)
      (before incompleteSuffix (path ++ incompleteSuffix)) :=
  firstOccurrence_before (List.suffix_append path incompleteSuffix).isInfix

/-- **The name of a finished file.** A file that `dl_file_create_and_open` made
for a path is completed, both renames going through; that the call returned
says that the path and its suffix fit the buffer. The assertion fails exactly
if the path begins with `.incomplete`. Otherwise the call returns, and what
stands before the first `.incomplete` is the path in the struct and leads to
the file, as its only name unless it had other ones; it is the path itself
exactly if that does not contain `.incomplete`. -/
theorem dlFileComplete_name {answers : OpenAnswers} {names created : Names} {size : Nat}
    {file : DlFile} (hpath : path ≠ []) (htext : 0 ∉ path)
    (hcreate : dlFileCreateAndOpenIn answers names size path = .ok (some file, created))
    (hrenamed : answers.renamed = true) :
    (dlFileComplete true file created = .error .assertFailed ↔ incompleteSuffix <+: path) ∧
      (¬ incompleteSuffix <+: path → ∃ front completed,
        dlFileComplete true file created = .ok ({ file with path := front }, completed) ∧
        FirstOccurrence incompleteSuffix (path ++ incompleteSuffix) front ∧
        completed.entry front = some (names.opened path) ∧
        (names.Unshared path → completed.OneName (names.opened path) front) ∧
        (front = path ↔ ¬ incompleteSuffix <:+: path)) := by
  obtain ⟨hfits, rfl, rfl⟩ := dlFileCreateAndOpenIn_cases hcreate
  have hstored : DlFile.PathFits { size := UInt64.ofNat size, path := path ++ incompleteSuffix } :=
    pathFits_incomplete htext hfits
  have hfirst := firstOccurrence_incomplete path
  generalize before incompleteSuffix (path ++ incompleteSuffix) = front at hfirst
  have hnil := hfirst.eq_nil_iff incompleteSuffix_unbordered hpath
  rw [hrenamed, callRename, if_pos rfl]
  refine ⟨⟨fun habort => ?_, fun hbegin => ?_⟩, fun hbegin => ?_⟩
  · by_contra hbegin
    rw [dlFileComplete_returns hstored hfirst (mt hnil.mp hbegin)] at habort
    cases habort
  · exact dlFileComplete_aborts hstored (hbegin.trans (List.prefix_append _ _)) _ _
  · refine ⟨front, _, dlFileComplete_returns hstored hfirst (mt hnil.mp hbegin) _ _, hfirst, ?_, ?_,
      hfirst.eq_text_iff incompleteSuffix_unbordered incompleteSuffix_ne_nil⟩
    · exact Directory.rename_new (Directory.rename_new Directory.openCreate_self)
    · intro hunshared
      exact (Directory.OneName.openCreate hunshared).rename.rename

/-- Answers of system calls that all go through. -/
def fineAnswers (size : Nat) : OpenAnswers where
  opened := true
  truncated := true
  stSize := size
  mem := 4096
  allocated := true
  renamed := true

/-- The file `./a` of three bytes, on an empty disk. -/
theorem dlFileComplete_name_plain :
    ∃ completed,
      dlFileComplete true { size := 3, path := [46, 47, 97] ++ incompleteSuffix }
        ((Directory.empty.openCreate [46, 47, 97]).rename [46, 47, 97]
          ([46, 47, 97] ++ incompleteSuffix)) =
        .ok ({ size := 3, path := [46, 47, 97] }, completed) ∧
      completed.entry [46, 47, 97] = some 0 := by
  obtain ⟨front, completed, hcall, -, hentry, -, hplain⟩ :=
    (@dlFileComplete_name [46, 47, 97] (fineAnswers 3) Directory.empty
      ((Directory.empty.openCreate [46, 47, 97]).rename [46, 47, 97]
        ([46, 47, 97] ++ incompleteSuffix)) 3
      { size := 3, path := [46, 47, 97] ++ incompleteSuffix } (by decide) (by decide) rfl rfl).2
      (by decide)
  obtain rfl := hplain.mpr (by decide)
  exact ⟨completed, hcall, hentry⟩

-- `./a.incomplete/b` ends up as `./a`
example : before incompleteSuffix
    ([46, 47, 97] ++ incompleteSuffix ++ [47, 98] ++ incompleteSuffix) = [46, 47, 97] := by
  decide

end Name

end BtClient

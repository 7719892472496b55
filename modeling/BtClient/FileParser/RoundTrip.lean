import BtClient.FileParser.Model

/-!
# From a torrent description to `metainfo_t`

A `Description` is what a torrent file says, apart from its text; `toValue` is
its bencode value with the keys in canonical order. `parse_file` reads the
description back from the encoding: the parsed tree is a `Tree` of the value,
every lookup finds the entry of its key, and the entries deleted on the way
are not looked up again.
-/

namespace BtClient

open CLib

/-! ## Descriptions -/

/-- A file of a multi-file torrent. -/
structure FileDescription where
  length : Nat
  path : List (List UInt8)

/-- One file, or a directory of files. -/
inductive Layout where
  | single (length : Nat)
  | multi (files : List FileDescription)

/-- What a torrent file says. -/
structure Description where
  announce : List UInt8
  announceList : Option (List (List (List UInt8)))
  name : List UInt8
  pieceLength : Nat
  pieces : List UInt8
  layout : Layout

def FileDescription.toValue (file : FileDescription) : Value :=
  .dict [(lengthKey, .int file.length), (pathKey, .list (file.path.map .str))]

def Layout.entry : Layout → List UInt8 × Value
  | .single length => (lengthKey, .int length)
  | .multi files => (filesKey, .list (files.map FileDescription.toValue))

/-- The value of `info`. -/
def Description.infoValue (d : Description) : Value :=
  .dict [d.layout.entry, (nameKey, .str d.name), (pieceLengthKey, .int d.pieceLength),
    (piecesKey, .str d.pieces)]

/-- The value of the whole file. -/
def Description.toValue (d : Description) : Value :=
  match d.announceList with
  | none => .dict [(announceKey, .str d.announce), (infoKey, d.infoValue)]
  | some tiers =>
    .dict [(announceKey, .str d.announce),
      (announceListKey, .list (tiers.map fun tier => .list (tier.map .str))),
      (infoKey, d.infoValue)]

/-- A text string: readable, and without `NUL`. -/
def isText (s : List UInt8) : Bool := readable s && s.all (· != 0)

def FileDescription.wf (file : FileDescription) : Bool :=
  decide (file.length < 2 ^ 63) && file.path.all isText

def Layout.wf : Layout → Bool
  | .single length => decide (length < 2 ^ 63)
  | .multi files => files.all FileDescription.wf

def Description.wf (d : Description) : Bool :=
  isText d.announce &&
    (d.announceList.getD []).all (fun tier => !tier.isEmpty && tier.all isText) &&
    isText d.name && decide (d.pieceLength < 2 ^ 63) &&
    readable d.pieces && decide (d.pieces.length % shaDigestLength = 0) && d.layout.wf

/-- The path `parse_file` assembles for a file of a multi-file torrent. -/
def assembledPath (name : List UInt8) (path : List (List UInt8)) : List UInt8 :=
  [46, 47] ++ name ++ [47] ++ List.intercalate [47] path

/-- The assembled paths, with `.incomplete` and a `NUL` behind them, fit their
buffers. -/
def Description.pathsFit (d : Description) : Bool :=
  match d.layout with
  | .single _ => decide (2 + d.name.length + 11 < 512)
  | .multi files =>
    files.all fun file => decide ((assembledPath d.name file.path).length + 11 < 512)

/-! ## A description's value can be parsed -/

theorem everyList_map {α : Type} (p : Value → Bool) (f : α → Value) (xs : List α) :
    everyList p (xs.map f) = xs.all (fun x => (f x).every p) := by
  induction xs with
  | nil => rfl
  | cons x xs ih => rw [List.map_cons, everyList, ih, List.all_cons]

theorem isText_readable {s : List UInt8} (h : isText s = true) : readable s = true := by
  simp only [isText, Bool.and_eq_true] at h
  exact h.1

theorem isText_nulFree {s : List UInt8} (h : isText s = true) : s.all (· != 0) = true := by
  simp only [isText, Bool.and_eq_true] at h
  exact h.2

/-- A list of texts meets every condition that a readable string meets. -/
theorem every_texts {p : Value → Bool} (hstr : ∀ s, readable s = true → p (.str s) = true)
    (hlist : ∀ vs, p (.list vs) = true) {texts : List (List UInt8)} (h : texts.all isText = true) :
    (Value.list (texts.map .str)).every p = true := by
  rw [every_list, everyList_map]
  refine ⟨hlist _, List.all_eq_true.mpr (fun s hs => ?_)⟩
  exact hstr s (isText_readable (List.all_eq_true.mp h s hs))

/-- A condition on values that a description's value meets everywhere: it
holds of readable strings, of `long` integers, of lists, and of the
dictionaries a description consists of. -/
structure Fitting (p : Value → Bool) : Prop where
  int : ∀ n : Nat, n < 2 ^ 63 → p (.int n) = true
  str : ∀ s, readable s = true → p (.str s) = true
  list : ∀ vs, p (.list vs) = true
  file : ∀ file : FileDescription, p file.toValue = true

theorem Fitting.every_file {p : Value → Bool} (h : Fitting p) {file : FileDescription}
    (hwf : file.wf = true) : file.toValue.every p = true := by
  simp only [FileDescription.wf, Bool.and_eq_true, decide_eq_true_eq] at hwf
  rw [FileDescription.toValue, every_dict, everyEntry_cons, everyEntry_cons]
  exact ⟨h.file file, h.int _ hwf.1, every_texts h.str h.list hwf.2, rfl⟩

theorem Fitting.every_layout {p : Value → Bool} (h : Fitting p) {layout : Layout}
    (hwf : layout.wf = true) : layout.entry.2.every p = true := by
  cases layout with
  | single length =>
    simp only [Layout.wf, decide_eq_true_eq] at hwf
    exact h.int _ hwf
  | multi files =>
    rw [Layout.entry, every_list, everyList_map]
    refine ⟨h.list _, List.all_eq_true.mpr (fun file hfile => ?_)⟩
    exact h.every_file (List.all_eq_true.mp hwf file hfile)

/-- The conditions of `Description.wf`, one by one. -/
structure Description.Good (d : Description) : Prop where
  announce : isText d.announce = true
  tiers : ∀ tier ∈ d.announceList.getD [], tier ≠ [] ∧ tier.all isText = true
  name : isText d.name = true
  pieceLength : d.pieceLength < 2 ^ 63
  pieces : readable d.pieces = true
  whole : d.pieces.length % shaDigestLength = 0
  layout : d.layout.wf = true

theorem Description.good {d : Description} (h : d.wf = true) : d.Good := by
  simp only [Description.wf, Bool.and_eq_true, decide_eq_true_eq, List.all_eq_true,
    Bool.not_eq_true', List.isEmpty_eq_false_iff] at h
  obtain ⟨⟨⟨⟨⟨⟨h1, h2⟩, h3⟩, h4⟩, h5⟩, h6⟩, h7⟩ := h
  exact ⟨h1, fun tier ht => ⟨(h2 tier ht).1, List.all_eq_true.mpr (h2 tier ht).2⟩, h3, h4, h5, h6,
    h7⟩

theorem Fitting.every_info {p : Value → Bool} (h : Fitting p) {d : Description} (hd : d.Good)
    (hhere : p d.infoValue = true) : d.infoValue.every p = true := by
  have hlayout := h.every_layout hd.layout
  rw [Description.infoValue] at hhere ⊢
  rw [every_dict]
  refine ⟨hhere, ?_⟩
  generalize d.layout.entry = e at hlayout ⊢
  obtain ⟨k, v⟩ := e
  simp only [everyEntry_cons]
  exact ⟨hlayout, h.str _ (isText_readable hd.name), h.int _ hd.pieceLength, h.str _ hd.pieces, rfl⟩

theorem Fitting.every_description {p : Value → Bool} (h : Fitting p) {d : Description}
    (hd : d.Good) (hinfo : p d.infoValue = true) (hhere : p d.toValue = true) :
    d.toValue.every p = true := by
  have htiers := hd.tiers
  rw [Description.toValue] at hhere ⊢
  cases hlist : d.announceList with
  | none =>
    rw [hlist] at hhere
    rw [every_dict]
    simp only [everyEntry_cons]
    exact ⟨hhere, h.str _ (isText_readable hd.announce), h.every_info hd hinfo, rfl⟩
  | some tiers =>
    rw [hlist] at hhere htiers
    rw [every_dict]
    simp only [everyEntry_cons]
    refine ⟨hhere, h.str _ (isText_readable hd.announce), ?_, h.every_info hd hinfo, rfl⟩
    rw [every_list, everyList_map]
    refine ⟨h.list _, List.all_eq_true.mpr (fun tier htier => ?_)⟩
    exact every_texts h.str h.list (htiers tier htier).2

theorem Description.toValue_wf {d : Description} (hd : d.Good) : d.toValue.wf = true := by
  refine Fitting.every_description ⟨fun _ _ => rfl, fun _ h => h, fun _ => rfl, fun _ => rfl⟩ hd
    ?_ ?_
  · cases hlayout : d.layout with
    | single length => simp only [Description.infoValue, hlayout, Layout.entry]; rfl
    | multi files => simp only [Description.infoValue, hlayout, Layout.entry]; rfl
  · cases hlist : d.announceList with
    | none => simp only [Description.toValue, hlist]; rfl
    | some tiers => simp only [Description.toValue, hlist]; rfl

theorem Description.toValue_longInts {d : Description} (hd : d.Good) :
    d.toValue.longInts = true := by
  refine Fitting.every_description ⟨fun n hn => ?_, fun _ _ => rfl, fun _ => rfl, fun _ => rfl⟩ hd
    rfl ?_
  · simp only [longHere, Bool.and_eq_true, decide_eq_true_eq]
    omega
  · cases hlist : d.announceList with
    | none => simp only [Description.toValue, hlist]; rfl
    | some tiers => simp only [Description.toValue, hlist]; rfl

/-- The encoded `info` contains the hashes, so it is longer than one digest. -/
theorem Description.length_infoValue {d : Description} (hd : d.Good) :
    20 ≤ (encode d.infoValue).length := by
  have hpos : 0 < d.pieces.length := by
    cases hp : d.pieces with
    | nil => exact absurd (hp ▸ hd.pieces) (by decide)
    | cons c cs => simp
  have hwhole := hd.whole
  rw [shaDigestLength] at hwhole
  simp only [Description.infoValue, encode, encodeEntries, encodeStr, List.length_cons,
    List.length_append]
  omega

theorem Description.toValue_longInfos {d : Description} (hd : d.Good) :
    d.toValue.longInfos = true := by
  have hinfo := Description.length_infoValue hd
  refine Fitting.every_description ⟨fun _ _ => rfl, fun _ _ => rfl, fun _ => rfl, fun _ => rfl⟩ hd
    ?_ ?_
  · cases hlayout : d.layout with
    | single length => simp only [Description.infoValue, hlayout, Layout.entry]; rfl
    | multi files => simp only [Description.infoValue, hlayout, Layout.entry]; rfl
  · cases hlist : d.announceList with
    | none =>
      simp only [Description.toValue, hlist, infoHere_cons]
      exact ⟨fun h => absurd h (by decide), fun _ => hinfo, rfl⟩
    | some tiers =>
      simp only [Description.toValue, hlist, infoHere_cons]
      exact ⟨fun h => absurd h (by decide), fun h => absurd h (by decide), fun _ => hinfo, rfl⟩

/-! ## Reading the tree -/

section Reading

variable {digest : List UInt8 → List UInt8}

/-- The table holds the trees of the entries `es`. -/
def Holds (digest : List UInt8 → List UInt8) (es : List (List UInt8 × Value))
    (table : HashTable BencodeType) : Prop :=
  table.Wf ∧ ∃ entries, table.entries.Perm entries ∧ TreeEntries digest es entries

theorem TreeEntries.mem {es : List (List UInt8 × Value)} {k : List UInt8} {v : Value} :
    ∀ {entries : List (HashPosition BencodeType)}, TreeEntries digest es entries → (k, v) ∈ es →
      ∃ item, ⟨k, item⟩ ∈ entries ∧ Tree digest v item ∧
        (k = infoKey → ∃ table, item = .dictionary table (some (digest (encode v)))) := by
  induction es with
  | nil => intro entries _ hmem; cases hmem
  | cons e es ih =>
    intro entries h hmem
    obtain ⟨k', v'⟩ := e
    cases entries with
    | nil => simp [TreeEntries] at h
    | cons pos entries =>
      simp only [TreeEntries] at h
      obtain ⟨rfl, htree, hinfo, hrest⟩ := h
      rcases List.mem_cons.mp hmem with heq | hmem
      · cases heq
        exact ⟨pos.value, by simp, htree, hinfo⟩
      · obtain ⟨item, hitem, hspec⟩ := ih hrest hmem
        exact ⟨item, by simp [hitem], hspec⟩

/-- A lookup of a present key. -/
theorem Holds.lookup {es : List (List UInt8 × Value)} {table : HashTable BencodeType}
    (h : Holds digest es table) (k : List UInt8) (v : Value) (hmem : (k, v) ∈ es) :
    ∃ item, hashTableLookup table k = .ok (some item) ∧ Tree digest v item ∧
      (k = infoKey → ∃ table, item = .dictionary table (some (digest (encode v)))) := by
  obtain ⟨htable, entries, hperm, htrees⟩ := h
  obtain ⟨item, hitem, hspec⟩ := htrees.mem hmem
  exact ⟨item, lookup_present htable (hperm.mem_iff.mpr hitem), hspec⟩

theorem Holds.htLookup {es : List (List UInt8 × Value)} {table : HashTable BencodeType}
    (h : Holds digest es table) (k : List UInt8) (v : Value) (hmem : (k, v) ∈ es) :
    ∃ item, BtClient.htLookup table k = .ok item ∧ Tree digest v item := by
  obtain ⟨item, hlookup, htree, -⟩ := h.lookup k v hmem
  exact ⟨item, by rw [BtClient.htLookup, hlookup]; rfl, htree⟩

theorem Holds.lookup_none {es : List (List UInt8 × Value)} {table : HashTable BencodeType}
    (h : Holds digest es table) {k : List UInt8} (hk : k ∉ es.map Prod.fst) :
    hashTableLookup table k = .ok none := by
  obtain ⟨htable, entries, hperm, htrees⟩ := h
  refine lookup_absent htable ?_
  rwa [HashTable.keys, (hperm.map HashPosition.key).mem_iff, htrees.keys]

/-- Deleting the first entry leaves the others. -/
theorem Holds.delete {es : List (List UInt8 × Value)} {table : HashTable BencodeType}
    {k : List UInt8} {v : Value} (h : Holds digest ((k, v) :: es) table) :
    ∃ table', hashTableDelete table k = .ok table' ∧ Holds digest es table' := by
  obtain ⟨htable, entries, hperm, htrees⟩ := h
  cases entries with
  | nil => simp [TreeEntries] at htrees
  | cons pos entries =>
    simp only [TreeEntries] at htrees
    obtain ⟨rfl, -, -, hrest⟩ := htrees
    have hmem : (⟨pos.key, pos.value⟩ : HashPosition BencodeType) ∈ table.entries :=
      hperm.mem_iff.mpr (by simp)
    obtain ⟨table', hdelete, htable', hperm'⟩ := delete_present htable hmem
    exact ⟨table', hdelete, htable', entries, (hperm'.symm.trans hperm).cons_inv, hrest⟩

theorem Tree.readInt {n : Nat} {item : BencodeType} (h : Tree digest (.int n) item)
    (hn : n < 2 ^ 63) : item.readInt = .ok n := by
  cases item with
  | integer m =>
    simp only [Tree] at h
    rw [h, clampLong_of_range (by omega) (by omega)]
    rfl
  | _ => simp [Tree] at h

theorem Tree.readString {s : List UInt8} {item : BencodeType} (h : Tree digest (.str s) item) :
    item.readString = .ok (s.length, some s) := by
  cases item with
  | bytestring len str =>
    simp only [Tree] at h
    rw [h.1, h.2]
    rfl
  | _ => simp [Tree] at h

theorem Tree.readText {s : List UInt8} {item : BencodeType} (h : Tree digest (.str s) item)
    (hs : isText s = true) : item.readText = .ok s := by
  rw [BencodeType.readText, h.readString]
  show Except.ok (cString s) = .ok s
  rw [cString_eq (isText_nulFree hs)]

theorem Tree.readList {vs : List Value} {item : BencodeType} (h : Tree digest (.list vs) item) :
    ∃ items, item.readList = .ok items ∧ TreeList digest vs items := by
  cases item with
  | list items =>
    simp only [Tree] at h
    exact ⟨items, rfl, h⟩
  | _ => simp [Tree] at h

theorem Tree.readDict {es : List (List UInt8 × Value)} {item : BencodeType}
    (h : Tree digest (.dict es) item) :
    ∃ table sha1Digest, item.readDict = .ok (table, sha1Digest) ∧ Holds digest es table := by
  cases item with
  | dictionary table sha1Digest =>
    simp only [Tree] at h
    exact ⟨table, sha1Digest, rfl, h⟩
  | _ => simp [Tree] at h

theorem TreeList.length {vs : List Value} : ∀ {items : List BencodeType},
    TreeList digest vs items → items.length = vs.length := by
  induction vs with
  | nil =>
    intro items h
    cases items with
    | nil => rfl
    | cons item items => simp [TreeList] at h
  | cons v vs ih =>
    intro items h
    cases items with
    | nil => simp [TreeList] at h
    | cons item items =>
      simp only [TreeList] at h
      rw [List.length_cons, List.length_cons, ih h.2]

/-- A loop over the elements of a list, each of which is read as it was
meant. -/
theorem TreeList.mapM {α β : Type} {f : α → Value} {g : α → β} {read : BencodeType → Except Fault β}
    (xs : List α) : ∀ {items : List BencodeType}, TreeList digest (xs.map f) items →
      (∀ x ∈ xs, ∀ item, Tree digest (f x) item → read item = .ok (g x)) →
      items.mapM read = .ok (xs.map g) := by
  induction xs with
  | nil =>
    intro items h _
    cases items with
    | nil => rfl
    | cons item items => simp [TreeList] at h
  | cons x xs ih =>
    intro items h hread
    cases items with
    | nil => simp [TreeList] at h
    | cons item items =>
      simp only [List.map_cons, TreeList] at h
      rw [List.mapM_cons, hread x (by simp) item h.1, ok_bind,
        ih h.2 (fun y hy => hread y (by simp [hy])), ok_bind]
      rfl

theorem sizeOfLong_natCast {n : Nat} (h : n < 2 ^ 63) : sizeOfLong n = n := by
  rw [sizeOfLong]
  omega

/-! ## `parse_info` -/

theorem splitLoop_slices (buf : List UInt8) (left : Nat) : ∀ i,
    (i + left) * shaDigestLength ≤ buf.length →
    splitLoop buf left i = .ok ((List.range' i left).map fun j =>
      slice buf (j * shaDigestLength) shaDigestLength) := by
  induction left with
  | zero => intro i _; rfl
  | succ left ih =>
    intro i hi
    rw [shaDigestLength] at hi
    rw [splitLoop, copyOut_eq_slice _ _ _ (by rw [shaDigestLength]; omega), ok_bind,
      ih (i + 1) (by rw [shaDigestLength]; omega), ok_bind, List.range'_succ, List.map_cons]
    rfl

/-- The hashes of a whole number of pieces. -/
theorem splitPieceHashes_slices {buf : List UInt8} (h : buf.length % shaDigestLength = 0) :
    splitPieceHashes buf buf.length = .ok ((List.range (buf.length / shaDigestLength)).map fun j =>
      slice buf (j * shaDigestLength) shaDigestLength) := by
  rw [splitPieceHashes, if_neg (by simpa using h), splitLoop_slices _ _ 0 ?_,
    List.range_eq_range']
  rw [Nat.zero_add]
  exact Nat.div_mul_le_self _ _

def FileDescription.toInfo (file : FileDescription) : FileInfo where
  length := file.length
  pathSize := file.path.length
  path := file.path

theorem parseInfoFile_reads {file : FileDescription} (hwf : file.wf = true) {item : BencodeType}
    (h : Tree digest file.toValue item) : parseInfoFile item = .ok file.toInfo := by
  simp only [FileDescription.wf, Bool.and_eq_true, decide_eq_true_eq] at hwf
  obtain ⟨dict, _, hdict, hholds⟩ := h.readDict
  obtain ⟨lengthItem, hlength, hlengthTree⟩ :=
    hholds.htLookup lengthKey (.int file.length) (by simp)
  obtain ⟨dict', hdelete, hholds'⟩ := hholds.delete
  obtain ⟨pathItem, hpath, hpathTree⟩ :=
    hholds'.htLookup pathKey (.list (file.path.map .str)) (by simp)
  obtain ⟨items, hitems, htrees⟩ := hpathTree.readList
  have htexts : items.mapM BencodeType.readText = .ok (file.path.map id) :=
    htrees.mapM file.path (fun s hs item hitem =>
      hitem.readText (List.all_eq_true.mp hwf.2 s hs))
  simp only [parseInfoFile, hdict, ok_bind, hlength, hlengthTree.readInt hwf.1, hdelete, hpath,
    hitems, htexts, sizeOfLong_natCast hwf.1, htrees.length, List.length_map, List.map_id,
    pure_is_ok]
  rfl

/-- The hash of each piece. -/
def Description.pieceHashes (d : Description) : List (List UInt8) :=
  (List.range (d.pieces.length / shaDigestLength)).map fun j =>
    slice d.pieces (j * shaDigestLength) shaDigestLength

/-- What `parse_info` returns for a description. -/
def Description.parsedInfo (d : Description) : Info where
  mode := match d.layout with
    | .single _ => .infoSingle
    | .multi _ => .infoMulti
  pieceLength := UInt64.ofNat d.pieceLength
  name := d.name
  numPieces := d.pieces.length / shaDigestLength
  pieces := d.pieceHashes
  length := match d.layout with
    | .single length => length
    | .multi _ => 0
  filesCount := match d.layout with
    | .single _ => 0
    | .multi files => files.length
  files := match d.layout with
    | .single _ => []
    | .multi files => files.map FileDescription.toInfo

theorem parseInfo_reads {d : Description} (hd : d.Good) {table : HashTable BencodeType}
    (h : Holds digest [d.layout.entry, (nameKey, .str d.name), (pieceLengthKey, .int d.pieceLength),
      (piecesKey, .str d.pieces)] table) : parseInfo table = .ok d.parsedInfo := by
  obtain ⟨lenItem, hlen, hlenTree⟩ := h.htLookup pieceLengthKey (.int d.pieceLength) (by simp)
  obtain ⟨piecesItem, hpieces, hpiecesTree⟩ := h.htLookup piecesKey (.str d.pieces) (by simp)
  obtain ⟨nameItem, hname, hnameTree⟩ := h.htLookup nameKey (.str d.name) (by simp)
  cases hlayout : d.layout with
  | single length =>
    have hwf := hd.layout
    rw [hlayout] at h hwf
    simp only [Layout.wf, decide_eq_true_eq] at hwf
    obtain ⟨item, hlookup, htree, -⟩ := h.lookup lengthKey (.int length)
      (by simp [Layout.entry])
    simp only [parseInfo, hlen, hpieces, hname, ok_bind, hlenTree.readInt hd.pieceLength,
      hpiecesTree.readString, Option.getD_some, splitPieceHashes_slices hd.whole,
      hnameTree.readText hd.name, hlookup, htree.readInt hwf, sizeOfLong_natCast hd.pieceLength,
      sizeOfLong_natCast hwf, pure_is_ok]
    simp only [Description.parsedInfo, Description.pieceHashes, hlayout]
  | multi files =>
    have hwf := hd.layout
    rw [hlayout] at h hwf
    have hnone := h.lookup_none (k := lengthKey) (by simp [Layout.entry]; decide)
    obtain ⟨item, hlookup, htree⟩ := h.htLookup filesKey
      (.list (files.map FileDescription.toValue)) (by simp [Layout.entry])
    obtain ⟨items, hitems, htrees⟩ := htree.readList
    have hfiles : items.mapM parseInfoFile = .ok (files.map FileDescription.toInfo) :=
      htrees.mapM files (fun file hfile item hitem =>
        parseInfoFile_reads (List.all_eq_true.mp hwf file hfile) hitem)
    simp only [parseInfo, hlen, hpieces, hname, ok_bind, hlenTree.readInt hd.pieceLength,
      hpiecesTree.readString, Option.getD_some, splitPieceHashes_slices hd.whole,
      hnameTree.readText hd.name, hnone, hlookup, hitems, hfiles, sizeOfLong_natCast hd.pieceLength,
      htrees.length, List.length_map, pure_is_ok]
    simp only [Description.parsedInfo, Description.pieceHashes, hlayout]

/-! ## `parse_file` -/

theorem strcat_fits {dst src : List UInt8} (h : (dst ++ src).length < 512) :
    strcat dst src = .ok (dst ++ src) := by
  rw [List.length_append] at h
  rw [strcat, if_pos h]

theorem strcat_ok {dst src text : List UInt8} (h : strcat dst src = .ok text) :
    text = dst ++ src ∧ text.length < 512 := by
  rw [strcat] at h
  split at h
  · rename_i hfits
    cases h
    exact ⟨rfl, by rwa [List.length_append]⟩
  · cases h

theorem appendComponents_fits (components : List (List UInt8)) : ∀ path,
    (path ++ List.intercalate [47] components).length < 512 →
    appendComponents components path = .ok (path ++ List.intercalate [47] components) := by
  induction components with
  | nil =>
    intro path _
    rw [appendComponents, List.intercalate_nil, List.append_nil]
  | cons component components ih =>
    intro path h
    cases components with
    | nil =>
      rw [List.intercalate_singleton] at h ⊢
      exact strcat_fits h
    | cons next rest =>
      have hsplit : path ++ List.intercalate [47] (component :: next :: rest)
          = (path ++ component ++ [47]) ++ List.intercalate [47] (next :: rest) := by
        rw [List.intercalate_cons_cons]
        simp only [List.append_assoc]
      rw [hsplit] at h ⊢
      have hlen := h
      simp only [List.length_append] at hlen
      rw [appendComponents, strcat_fits (by simp only [List.length_append]; omega), ok_bind,
        strcat_fits (by simp only [List.length_append]; omega), ok_bind]
      · exact ih _ h
      · simp

theorem dlFileCreateAndOpen_fits {size : Nat} {path : List UInt8} (h : path.length + 11 < 512) :
    dlFileCreateAndOpen size path
      = .ok { size := UInt64.ofNat size, path := path ++ incompleteSuffix } := by
  rw [dlFileCreateAndOpen, strcat_fits (by rw [List.length_append]; exact h)]
  rfl

theorem createFile_fits {name : List UInt8} {file : FileDescription}
    (h : (assembledPath name file.path).length + 11 < 512) :
    createFile name file.toInfo = .ok
      { size := UInt64.ofNat file.length,
        path := assembledPath name file.path ++ incompleteSuffix } := by
  have hlen := h
  rw [assembledPath] at hlen
  simp only [List.length_append] at hlen
  rw [createFile, strcat_fits (by simp only [List.length_append]; omega), ok_bind,
    strcat_fits (by simp only [List.length_append]; omega), ok_bind]
  show (appendComponents file.path ([46, 47] ++ name ++ [47]) >>= fun path =>
    dlFileCreateAndOpen file.length path) = _
  rw [appendComponents_fits _ _ (by simp only [List.length_append]; omega), ok_bind]
  exact dlFileCreateAndOpen_fits h

theorem takeAnnounce_reads {url : List UInt8} (hurl : isText url = true)
    {es : List (List UInt8 × Value)} {table : HashTable BencodeType}
    (h : Holds digest ((announceKey, .str url) :: es) table) :
    ∃ table', takeAnnounce table = .ok (some url, table') ∧ Holds digest es table' := by
  obtain ⟨item, hlookup, htree, -⟩ := h.lookup announceKey (.str url) (by simp)
  obtain ⟨table', hdelete, hholds⟩ := h.delete
  refine ⟨table', ?_, hholds⟩
  simp only [takeAnnounce, hlookup, ok_bind, htree.readString, hdelete, Option.map_some,
    cString_eq (isText_nulFree hurl), pure_is_ok]

theorem tierUrl_reads {tier : List (List UInt8)} (htexts : tier.all isText = true)
    {item : BencodeType} (h : Tree digest (.list (tier.map .str)) item) :
    tierUrl item = .ok tier.head? := by
  obtain ⟨items, hitems, htrees⟩ := h.readList
  rw [tierUrl, hitems, ok_bind]
  cases tier with
  | nil =>
    cases items with
    | nil => rfl
    | cons item items => simp [TreeList] at htrees
  | cons url tier =>
    cases items with
    | nil => simp [TreeList] at htrees
    | cons item items =>
      simp only [List.map_cons, TreeList] at htrees
      have hurl : isText url = true := List.all_eq_true.mp htexts url (by simp)
      simp only [htrees.1.readString, ok_bind, Option.map_some, cString_eq (isText_nulFree hurl),
        List.head?_cons, pure_is_ok]

theorem takeAnnounceList_reads {tiers : List (List (List UInt8))}
    (htiers : ∀ tier ∈ tiers, tier.all isText = true) {es : List (List UInt8 × Value)}
    {table : HashTable BencodeType}
    (h : Holds digest ((announceListKey, .list (tiers.map fun tier => .list (tier.map .str))) :: es)
      table) :
    ∃ table', takeAnnounceList table = .ok (tiers.map List.head?, table') ∧
      Holds digest es table' := by
  obtain ⟨item, hlookup, htree, -⟩ := h.lookup announceListKey _ List.mem_cons_self
  obtain ⟨table', hdelete, hholds⟩ := h.delete
  obtain ⟨items, hitems, htrees⟩ := htree.readList
  have hurls : items.mapM tierUrl = .ok (tiers.map List.head?) :=
    htrees.mapM tiers (fun tier htier item hitem => tierUrl_reads (htiers tier htier) hitem)
  refine ⟨table', ?_, hholds⟩
  simp only [takeAnnounceList, hlookup, ok_bind, hitems, hurls, hdelete, pure_is_ok]

/-- Both announce entries: the URL, the first URL of each tier, and the table
that is left with `info`. -/
theorem takeAnnounces_reads {d : Description} (hd : d.Good) {item : BencodeType}
    (h : Tree digest d.toValue item) :
    ∃ table sha1Digest table₁ table₂, item.readDict = .ok (table, sha1Digest) ∧
      takeAnnounce table = .ok (some d.announce, table₁) ∧
      takeAnnounceList table₁ = .ok ((d.announceList.getD []).map List.head?, table₂) ∧
      Holds digest [(infoKey, d.infoValue)] table₂ := by
  have htiers := hd.tiers
  rw [Description.toValue] at h
  cases hlist : d.announceList with
  | none =>
    rw [hlist] at h
    obtain ⟨table, sha1Digest, hdict, hholds⟩ := h.readDict
    obtain ⟨table₁, hannounce, hholds₁⟩ := takeAnnounce_reads hd.announce hholds
    -- what is left after the deletion is `info` alone
    have hother : announceListKey ∉ [infoKey] := by decide
    refine ⟨table, sha1Digest, table₁, table₁, hdict, hannounce, ?_, hholds₁⟩
    simp only [takeAnnounceList, hholds₁.lookup_none hother, ok_bind, pure_is_ok, Option.getD_none,
      List.map_nil]
  | some tiers =>
    rw [hlist] at h htiers
    obtain ⟨table, sha1Digest, hdict, hholds⟩ := h.readDict
    obtain ⟨table₁, hannounce, hholds₁⟩ := takeAnnounce_reads hd.announce hholds
    obtain ⟨table₂, hannounceList, hholds₂⟩ :=
      takeAnnounceList_reads (fun tier htier => (htiers tier htier).2) hholds₁
    exact ⟨table, sha1Digest, table₁, table₂, hdict, hannounce, hannounceList, hholds₂⟩

/-- What `parse_file` keeps of the layout: `info.files` and `files`. -/
def Layout.infoFiles : Layout → List FileInfo
  | .single length => [{ length := length, pathSize := 0, path := [] }]
  | .multi files => files.map FileDescription.toInfo

/-- The metainfo agrees with the description. -/
structure Description.ReadAs (d : Description) (m : Metainfo) : Prop where
  announce : m.announce = some d.announce
  tiers : m.announceList = (d.announceList.getD []).map List.head?
  name : m.info.name = d.name
  pieceLength : m.info.pieceLength.toNat = d.pieceLength
  numPieces : m.info.numPieces * shaDigestLength = d.pieces.length
  hashes : m.info.pieces.length = m.info.numPieces ∧ ∀ i < m.info.numPieces,
    m.info.pieces[i]? = some (slice d.pieces (i * shaDigestLength) shaDigestLength)
  mode : m.info.mode = match d.layout with
    | .single _ => .infoSingle
    | .multi _ => .infoMulti
  files : m.info.filesCount = m.info.files.length ∧ m.info.files = d.layout.infoFiles
  sizes : m.files.map (fun file => file.size.toNat) = d.layout.infoFiles.map FileInfo.length

/-- What `parse_file` makes of the parsed `info`. -/
def Description.finalInfo (d : Description) : Info :=
  { d.parsedInfo with filesCount := d.layout.infoFiles.length, files := d.layout.infoFiles }

theorem toNat_ofNat_of_long {n : Nat} (h : n < 2 ^ 63) : (UInt64.ofNat n).toNat = n := by
  rw [UInt64.toNat_ofNat']
  omega

/-- A loop whose every step returns. -/
theorem mapM_map_returns {α β γ : Type} {f : β → Except Fault γ} {h : α → β} {g : α → γ}
    (xs : List α) (hf : ∀ x ∈ xs, f (h x) = .ok (g x)) : (xs.map h).mapM f = .ok (xs.map g) := by
  induction xs with
  | nil => rfl
  | cons x xs ih =>
    rw [List.map_cons, List.mapM_cons, hf x (by simp), ok_bind,
      ih (fun y hy => hf y (by simp [hy])), ok_bind]
    rfl

theorem openFiles_fits {d : Description} (hd : d.Good) (hpaths : d.pathsFit = true) :
    ∃ files, openFiles d.parsedInfo = .ok (d.finalInfo, files) ∧
      files.map (fun file => file.size.toNat) = d.layout.infoFiles.map FileInfo.length := by
  have hwf := hd.layout
  cases hlayout : d.layout with
  | single length =>
    simp only [hlayout, Layout.wf, decide_eq_true_eq] at hwf
    simp only [Description.pathsFit, hlayout, decide_eq_true_eq] at hpaths
    have hpath : ([46, 47] ++ d.name).length + 11 < 512 := by
      simp only [List.length_append, List.length_cons, List.length_nil]
      omega
    have hname : strcat [46, 47] d.name = .ok ([46, 47] ++ d.name) := strcat_fits (by omega)
    refine ⟨[{ size := UInt64.ofNat length, path := [46, 47] ++ d.name ++ incompleteSuffix }],
      ?_, ?_⟩
    · simp only [openFiles, Description.parsedInfo, hlayout, hname, ok_bind,
        dlFileCreateAndOpen_fits hpath, pure_is_ok]
      simp only [Description.finalInfo, Description.parsedInfo, hlayout, Layout.infoFiles]
      rfl
    · simp only [Layout.infoFiles, List.map_cons, List.map_nil, toNat_ofNat_of_long hwf]
  | multi files =>
    simp only [hlayout, Layout.wf, List.all_eq_true] at hwf
    simp only [Description.pathsFit, hlayout, List.all_eq_true, decide_eq_true_eq] at hpaths
    have hcreate := mapM_map_returns files (f := createFile d.name) (h := FileDescription.toInfo)
      (fun file hfile => createFile_fits (hpaths file hfile))
    have hopen : openFiles d.parsedInfo = .ok (d.finalInfo, files.map fun file =>
        { size := UInt64.ofNat file.length,
          path := assembledPath d.name file.path ++ incompleteSuffix }) := by
      simp only [openFiles, Description.parsedInfo, hlayout, hcreate, ok_bind, pure_is_ok]
      simp only [Description.finalInfo, Description.parsedInfo, hlayout, Layout.infoFiles,
        List.length_map]
    refine ⟨_, hopen, ?_⟩
    rw [Layout.infoFiles, List.map_map, List.map_map]
    refine List.map_congr_left (fun file hfile => ?_)
    have hlength := hwf file hfile
    simp only [FileDescription.wf, Bool.and_eq_true, decide_eq_true_eq] at hlength
    exact toNat_ofNat_of_long hlength.1

/-- What `parse_file` returns for a description. -/
def Description.toMetainfo (d : Description) (infoHash : List UInt8) (files : List DlFile) :
    Metainfo where
  announce := some d.announce
  announceList := (d.announceList.getD []).map List.head?
  info := d.finalInfo
  infoHash := infoHash
  maxPeers := 50
  sh := sharedInit d.finalInfo.numPieces
  files := files

theorem Description.Good.readAs {d : Description} (hd : d.Good) (infoHash : List UInt8)
    {files : List DlFile}
    (hsizes : files.map (fun file => file.size.toNat) = d.layout.infoFiles.map FileInfo.length) :
    d.ReadAs (d.toMetainfo infoHash files) where
  announce := rfl
  tiers := rfl
  name := rfl
  pieceLength := toNat_ofNat_of_long hd.pieceLength
  numPieces := Nat.div_mul_cancel (Nat.dvd_of_mod_eq_zero hd.whole)
  hashes := by
    show d.pieceHashes.length = d.pieces.length / shaDigestLength ∧
      ∀ i < d.pieces.length / shaDigestLength, d.pieceHashes[i]? = _
    rw [Description.pieceHashes]
    refine ⟨by rw [List.length_map, List.length_range], fun i hi => ?_⟩
    rw [List.getElem?_map, List.getElem?_range hi]
    rfl
  mode := rfl
  files := ⟨rfl, rfl⟩
  sizes := hsizes

/-- What `parse_file` returns for the encoding of a description: its metainfo,
with the files opened at the sizes it gives. -/
theorem parseFile_encode (sha1 : List UInt8 → List UInt8) (input : Option Bool)
    (seeds : Nat → TableSeed) {d : Description} (hd : d.Good) (hpaths : d.pathsFit = true)
    (hlen : (encode d.toValue).length < 2 ^ 63) {fuel : Nat} (hfuel : weight d.toValue ≤ fuel) :
    ∃ files, files.map (fun file => file.size.toNat) = d.layout.infoFiles.map FileInfo.length ∧
      parseFile sha1 fuel input seeds (encode d.toValue)
        = .ok (d.toMetainfo (sha1 (encode d.infoValue)) files) := by
  obtain ⟨item, p', hrun, -, htree, -⟩ := (parseBuffer_goes (computeInfoHash_hashesRange sha1)
    d.toValue fuel input seeds (Description.toValue_wf hd) hlen []).returns
    ⟨Value.fits_of_longInts (Description.toValue_longInts hd), Description.toValue_longInfos hd,
      hfuel⟩
  -- the tree of the document, then its entries in the order `parse_file` takes them
  have hdocument : parseDocument sha1 fuel input seeds (encode d.toValue) = .ok item := by
    rw [parseDocument, hrun]
  obtain ⟨table, sha1Digest, table₁, table₂, hdict, hannounce, hannounceList, hholds⟩ :=
    takeAnnounces_reads hd htree
  obtain ⟨infoItem, hlookup, hinfoTree, hdigest⟩ := hholds.lookup infoKey d.infoValue (by simp)
  obtain ⟨infoTable, rfl⟩ := hdigest rfl
  have hinfo : parseInfo infoTable = .ok d.parsedInfo := by
    simp only [Description.infoValue, Tree] at hinfoTree
    exact parseInfo_reads hd hinfoTree
  obtain ⟨files, hopen, hsizes⟩ := openFiles_fits hd hpaths
  refine ⟨files, hsizes, ?_⟩
  have hinfoItem : htLookup table₂ infoKey
      = .ok (.dictionary infoTable (some (sha1 (encode d.infoValue)))) := by
    rw [htLookup, hlookup]
    rfl
  have hinfoDict : (BencodeType.dictionary infoTable (some (sha1 (encode d.infoValue)))).readDict
      = .ok (infoTable, some (sha1 (encode d.infoValue))) := rfl
  simp only [parseFile, hdocument, ok_bind, hdict, hannounce, hannounceList, hinfoItem, hinfoDict,
    hinfo, hopen, pure_is_ok, Option.getD_some]
  rfl

/-- **The metainfo round trip.** `parse_file` reads every description back
from its encoding. -/
theorem metainfo_round_trip (sha1 : List UInt8 → List UInt8) (input : Option Bool)
    (seeds : Nat → TableSeed) (d : Description) (hwf : d.wf = true) (hpaths : d.pathsFit = true)
    (hlen : (encode d.toValue).length < 2 ^ 63) :
    ∃ fuel₀, ∀ fuel, fuel₀ ≤ fuel → ∃ m,
      parseFile sha1 fuel input seeds (encode d.toValue) = .ok m ∧ d.ReadAs m ∧
        m.infoHash = sha1 (encode d.infoValue) := by
  have hd := Description.good hwf
  refine ⟨weight d.toValue, fun fuel hfuel => ?_⟩
  obtain ⟨files, hsizes, hrun⟩ := parseFile_encode sha1 input seeds hd hpaths hlen hfuel
  exact ⟨_, hrun, hd.readAs _ hsizes, rfl⟩

/-- Two files, `x/y` of 5 bytes and `z` of 7 bytes, in `dir`, with two tiers of
trackers and the digest of the `info` dictionary. -/
theorem metainfo_round_trip_two_files : ∃ fuel m,
    parseFile (fun _ => [96, 243, 106, 218, 191, 15, 30, 66, 201, 46, 242, 135, 57, 17, 47, 220, 57,
        110, 66, 80])
      fuel none (fun _ => ⟨700, 5⟩) (encode (Description.toValue
        { announce := [104, 116, 116, 112, 58, 47, 47, 116]
          announceList := some [[[117, 100, 112, 58, 47, 47, 97], [117, 100, 112, 58, 47, 47, 98]],
            [[117, 100, 112, 58, 47, 47, 99]]]
          name := [100, 105, 114]
          pieceLength := 16384
          pieces := [100, 101, 102, 103, 104, 105, 106, 107, 108, 109, 110, 111, 112, 113, 114, 115,
            116, 117, 118, 119]
          layout := .multi [⟨5, [[120], [121]]⟩, ⟨7, [[122]]⟩] })) = .ok m ∧
    m.announceList = [some [117, 100, 112, 58, 47, 47, 97], some [117, 100, 112, 58, 47, 47, 99]] ∧
    m.info.files = [⟨5, 2, [[120], [121]]⟩, ⟨7, 1, [[122]]⟩] := by
  obtain ⟨fuel, h⟩ := metainfo_round_trip
    (fun _ => [96, 243, 106, 218, 191, 15, 30, 66, 201, 46, 242, 135, 57, 17, 47, 220, 57, 110, 66,
      80])
    none (fun _ => ⟨700, 5⟩)
    { announce := [104, 116, 116, 112, 58, 47, 47, 116]
      announceList := some [[[117, 100, 112, 58, 47, 47, 97], [117, 100, 112, 58, 47, 47, 98]],
        [[117, 100, 112, 58, 47, 47, 99]]]
      name := [100, 105, 114]
      pieceLength := 16384
      pieces := [100, 101, 102, 103, 104, 105, 106, 107, 108, 109, 110, 111, 112, 113, 114, 115,
        116, 117, 118, 119]
      layout := .multi [⟨5, [[120], [121]]⟩, ⟨7, [[122]]⟩] }
    (by decide) (by decide) (by decide +kernel)
  obtain ⟨m, hrun, hread, -⟩ := h fuel (le_refl _)
  exact ⟨fuel, m, hrun, hread.tiers, hread.files.2⟩

end Reading

end BtClient

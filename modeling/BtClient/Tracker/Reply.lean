import BtClient.Bencode.Acceptance
import BtClient.FileParser.RoundTrip
import BtClient.HashTable.Repeated
import BtClient.Lib.Strtok
import BtClient.Tracker.Udp

/-!
# The reply of an HTTP tracker (`parse_content` in `tracker/http/tracker_http.c`)

`parse_content` fills in a response that comes from `malloc`, so a field that is
not set is what was in the memory before. It looks the keys up one by one and
reads each value as the kind it should have, without a look at `kind`.

What is logged on the way is left out.
-/

namespace BtClient

open CLib

/-! ## The response in memory -/

/-- A pointer in memory that may not have been written since `malloc`. -/
inductive Pointer (α : Type) where
  | null
  | to (target : α)
  | stale (address : UInt64)
  deriving DecidableEq, Repr

/-- The member `str` of a string. -/
def Pointer.ofStr : Option (List UInt8) → Pointer (List UInt8)
  | none => .null
  | some bytes => .to bytes

/-- The fields of a response that `main` uses. -/
structure ReplyFields where
  interval : UInt32
  numPeers : UInt64
  peers : Pointer (List Peer)
  deriving DecidableEq, Repr

/-- `tracker_response_t` as `malloc` returns it. -/
structure ResponseMemory extends ReplyFields where
  failureReason : Pointer (List UInt8)
  warningMessage : Pointer (List UInt8)
  trackerId : Pointer (List UInt8)
  complete : UInt32
  incomplete : UInt32
  deriving DecidableEq, Repr

/-- Memory of zeros. -/
def ResponseMemory.zero : ResponseMemory where
  interval := 0
  numPeers := 0
  peers := .null
  failureReason := .null
  warningMessage := .null
  trackerId := .null
  complete := 0
  incomplete := 0

/-! ## `parse_content` -/

/-- The literals of `parse_content`. -/
def trackerIdKey : List UInt8 := ascii "tracker id"

def failureReasonKey : List UInt8 := ascii "failure reason"

def warningMessageKey : List UInt8 := ascii "warning message"

def intervalKey : List UInt8 := ascii "interval"

def completeKey : List UInt8 := ascii "complete"

def incompleteKey : List UInt8 := ascii "incomplete"

def peersKey : List UInt8 := ascii "peers"

/-- A text that may be missing: the pointer then keeps its value. -/
def textAt (dict : HashTable BencodeType) (key : List UInt8) (old : Pointer (List UInt8)) :
    Except Fault (Pointer (List UInt8)) := do
  match ← hashTableLookup dict key with
  | some item =>
    let (_, str) ← item.readString
    return .ofStr str
  | none => return old

/-- A number that may not be missing, as a `uint32_t`. -/
def intAt (dict : HashTable BencodeType) (key : List UInt8) : Except Fault UInt32 := do
  let n ← (← htLookup dict key).readInt
  return UInt32.ofInt n

/-- `num_peers` and `peers`. -/
def peersAt (dict : HashTable BencodeType) : Except Fault (UInt64 × Pointer (List Peer)) := do
  match ← hashTableLookup dict peersKey with
  | none => return (0, .null)
  | some item =>
    let (len, str) ← item.readString
    check (len % 6 = 0)
    let numPeers := len / 6
    -- `parse_peers` reads this many bytes of the string
    if 6 * numPeers ≤ (str.getD []).length then
      return (UInt64.ofNat numPeers, .to (parsePeers (str.getD []) numPeers))
    else .error .outOfBounds

/-- `parse_content` from the dictionary on. -/
def readReply (dict : HashTable BencodeType) (res : ResponseMemory) :
    Except Fault ResponseMemory := do
  let res := { res with trackerId := ← textAt dict trackerIdKey res.trackerId }
  match ← hashTableLookup dict failureReasonKey with
  | some item =>
    let (_, str) ← item.readString
    return { res with failureReason := .ofStr str }
  | none =>
    let res := { res with warningMessage := ← textAt dict warningMessageKey res.warningMessage }
    let res := { res with interval := ← intAt dict intervalKey }
    let res := { res with complete := ← intAt dict completeKey }
    let res := { res with incomplete := ← intAt dict incompleteKey }
    let (numPeers, peers) ← peersAt dict
    return { res with numPeers := numPeers, peers := peers }

/-- `parse_content(content_length, buf)`, where `malloc` has returned `res` and `mem`
is the memory from `buf` on. The length only goes into `bufsize`, which nothing
reads. -/
def parseContent (sha1 : List UInt8 → List UInt8) (fuel : Nat) (seeds : Nat → TableSeed)
    (mem : List UInt8) (res : ResponseMemory) : Except Fault ResponseMemory :=
  match parseBuffer (computeInfoHash sha1) fuel (startParser none mem seeds) with
  | .ok item _ => do
    let (dict, _) ← item.readDict
    readReply dict res
  | .error e _ => .error e

/-! ## What a reply says -/

/-- What can be read of a value. -/
inductive Reading where
  | number (n : Int)
  | text (len : Nat) (str : Option (List UInt8))
  | other
  deriving DecidableEq, Repr

def BencodeType.reading : BencodeType → Reading
  | .integer n => .number n
  | .bytestring len str => .text len str
  | _ => .other

/-- The same of the value in the document: a number is clamped by `strtol`. -/
def Value.reading : Value → Reading
  | .int n => .number (clampLong n)
  | .str s => .text s.length (some s)
  | _ => .other

def Reading.IsText : Reading → Prop
  | .text _ _ => True
  | _ => False

/-- Addresses and ports of six bytes each. -/
def Reading.IsPeers : Reading → Prop
  | .text len str => len % 6 = 0 ∧ len ≤ (str.getD []).length
  | _ => False

/-- A reply, by what stands under its keys, has all that `parse_content` takes for
granted and no failure reason. -/
structure ReplyReadable (reply : List UInt8 → Option Reading) : Prop where
  noFailure : reply failureReasonKey = none
  trackerId : ∀ r, reply trackerIdKey = some r → r.IsText
  warningMessage : ∀ r, reply warningMessageKey = some r → r.IsText
  interval : ∃ n, reply intervalKey = some (.number n)
  complete : ∃ n, reply completeKey = some (.number n)
  incomplete : ∃ n, reply incompleteKey = some (.number n)
  peers : ∀ r, reply peersKey = some r → r.IsPeers

/-- `num_peers` and `peers` as the reply has them. -/
def replyPeers (reply : List UInt8 → Option Reading) : UInt64 × Pointer (List Peer) :=
  match reply peersKey with
  | some (.text len str) => (UInt64.ofNat (len / 6), .to (parsePeers (str.getD []) (len / 6)))
  | _ => (0, .null)

def replyInterval (reply : List UInt8 → Option Reading) : UInt32 :=
  match reply intervalKey with
  | some (.number n) => UInt32.ofInt n
  | _ => 0

/-- The fields as the reply has them. -/
def replyFields (reply : List UInt8 → Option Reading) : ReplyFields :=
  ⟨replyInterval reply, (replyPeers reply).1, (replyPeers reply).2⟩

/-- Whatever `malloc` has returned, the run returns a response with these fields. -/
def Interprets (run : ResponseMemory → Except Fault ResponseMemory) (fields : ReplyFields) :
    Prop :=
  ∀ res, ∃ res', run res = .ok res' ∧ res'.toReplyFields = fields

/-- No peers are taken from a reply with a failure reason or without peers. -/
def NoPeersUnsaid (reply : List UInt8 → Option Reading) (fields : ReplyFields) : Prop :=
  reply failureReasonKey ≠ none ∨ reply peersKey = none → fields.numPeers = 0

/-! ## Reading a table -/

/-- The readings of what a table holds. -/
def HashTable.reading (dict : HashTable BencodeType) (key : List UInt8) : Option Reading :=
  match hashTableLookup dict key with
  | .ok item => item.map BencodeType.reading
  | .error _ => none

section Table

variable {dict : HashTable BencodeType}

theorem HashTable.Sound.lookup_returns (h : dict.Sound) (key : List UInt8) :
    ∃ item, hashTableLookup dict key = .ok item := by
  by_cases hkey : key ∈ dict.keys
  · obtain ⟨pos, hfirst⟩ := h.firstProbed hkey
    exact ⟨some pos.value, hfirst.lookup h⟩
  · exact ⟨none, h.lookup_absent hkey⟩

theorem reading_of_lookup {key : List UInt8} {item : Option BencodeType}
    (h : hashTableLookup dict key = .ok item) :
    dict.reading key = item.map BencodeType.reading := by
  rw [HashTable.reading, h]

theorem readString_returns_iff {item : BencodeType} {len : Nat} {str : Option (List UInt8)} :
    item.readString = .ok (len, str) ↔ item.reading = .text len str := by
  cases item <;> simp [BencodeType.readString, BencodeType.reading]

theorem readInt_returns_iff {item : BencodeType} {n : Int} :
    item.readInt = .ok n ↔ item.reading = .number n := by
  cases item <;> simp [BencodeType.readInt, BencodeType.reading]

theorem Reading.IsText.eq_text {r : Reading} (h : r.IsText) : ∃ len str, r = .text len str := by
  cases r with
  | text len str => exact ⟨len, str, rfl⟩
  | _ => exact h.elim

/-- A text is read if it is missing or is one. -/
theorem textAt_returns_iff (h : dict.Sound) (key : List UInt8) (old : Pointer (List UInt8)) :
    (∃ p, textAt dict key old = .ok p) ↔ ∀ r, dict.reading key = some r → r.IsText := by
  obtain ⟨item, hlookup⟩ := h.lookup_returns key
  rw [reading_of_lookup hlookup]
  simp only [textAt, hlookup, ok_bind]
  cases item with
  | none => simp
  | some item =>
    simp only [Option.map_some, Option.some.injEq, forall_eq']
    constructor
    · rintro ⟨p, hp⟩
      obtain ⟨⟨len, str⟩, hread, -⟩ := (seq_returns_iff _ _ _).mp hp
      rw [readString_returns_iff.mp hread]
      trivial
    · intro htext
      obtain ⟨len, str, hreading⟩ := htext.eq_text
      exact ⟨.ofStr str, (seq_returns_iff _ _ _).mpr
        ⟨(len, str), readString_returns_iff.mpr hreading, rfl⟩⟩

/-- A number is read if it is there and is one. -/
theorem intAt_returns_iff (h : dict.Sound) (key : List UInt8) {x : UInt32} :
    intAt dict key = .ok x ↔ ∃ n, dict.reading key = some (.number n) ∧ x = UInt32.ofInt n := by
  obtain ⟨item, hlookup⟩ := h.lookup_returns key
  rw [reading_of_lookup hlookup]
  simp only [intAt, htLookup, hlookup, ok_bind]
  cases item with
  | none => simp [deref]
  | some item =>
    simp only [deref, ok_bind, Option.map_some, Option.some.injEq, seq_returns_iff,
      readInt_returns_iff, pure_is_ok, Except.ok.injEq]
    exact exists_congr fun n => and_congr_right fun _ => eq_comm

/-- The peers are read if they are missing or of six bytes each. -/
theorem peersAt_returns_iff (h : dict.Sound) {x : UInt64 × Pointer (List Peer)} :
    peersAt dict = .ok x ↔
      (∀ r, dict.reading peersKey = some r → r.IsPeers) ∧ x = replyPeers dict.reading := by
  obtain ⟨item, hlookup⟩ := h.lookup_returns peersKey
  have hreading := reading_of_lookup hlookup
  rw [replyPeers, hreading]
  simp only [peersAt, hlookup, ok_bind]
  cases item with
  | none => simp [eq_comm]
  | some item =>
    simp only [Option.map_some, Option.some.injEq, forall_eq']
    cases item with
    | bytestring len str =>
      simp only [BencodeType.readString, BencodeType.reading, ok_bind, Reading.IsPeers]
      by_cases hsix : len % 6 = 0
      · have hcount : 6 * (len / 6) = len := by omega
        rw [check_of (decide_eq_true hsix), ok_bind, hcount]
        by_cases hlen : len ≤ (str.getD []).length
        · simp [hsix, hlen, eq_comm]
        · simp [hlen]
      · simp [hsix, check]
    | _ => simp [BencodeType.readString, BencodeType.reading, Reading.IsPeers]

/-- A failure reason leaves the fields as they were. -/
theorem readReply_failure {item : BencodeType}
    (hlookup : hashTableLookup dict failureReasonKey = .ok (some item)) {res res' : ResponseMemory}
    (hrun : readReply dict res = .ok res') : res'.toReplyFields = res.toReplyFields := by
  simp only [readReply, hlookup, ok_bind] at hrun
  obtain ⟨trackerId, -, hrun⟩ := (seq_returns_iff _ _ _).mp hrun
  obtain ⟨⟨len, str⟩, -, hres⟩ := (seq_returns_iff _ _ _).mp hrun
  cases hres
  rfl

/-- A reply that gives a failure reason returns. -/
theorem readReply_failure_returns (h : dict.Sound) (res : ResponseMemory)
    (htracker : ∀ r, dict.reading trackerIdKey = some r → r.IsText) {len : Nat}
    {str : Option (List UInt8)} (hreason : dict.reading failureReasonKey = some (.text len str)) :
    ∃ res', readReply dict res = .ok res' ∧ res'.toReplyFields = res.toReplyFields := by
  obtain ⟨item, hlookup⟩ := h.lookup_returns failureReasonKey
  rw [reading_of_lookup hlookup, Option.map_eq_some_iff] at hreason
  obtain ⟨item, rfl, hreading⟩ := hreason
  obtain ⟨trackerId, htrackerId⟩ := (textAt_returns_iff h _ res.trackerId).mpr htracker
  have hread := readString_returns_iff.mpr hreading
  simp only [readReply, htrackerId, hlookup, hread, ok_bind, pure_is_ok, Except.ok.injEq,
    exists_eq_left']

/-- Without one, all of the fields are set. -/
theorem readReply_returns_iff (h : dict.Sound)
    (hlookup : hashTableLookup dict failureReasonKey = .ok none) (res : ResponseMemory)
    {fields : ReplyFields} :
    (∃ res', readReply dict res = .ok res' ∧ res'.toReplyFields = fields) ↔
      ReplyReadable dict.reading ∧ fields = replyFields dict.reading := by
  have hnone : dict.reading failureReasonKey = none := by rw [reading_of_lookup hlookup]; rfl
  simp only [readReply, hlookup, ok_bind]
  constructor
  · rintro ⟨res', hrun, hfields⟩
    obtain ⟨trackerId, htrackerId, hrun⟩ := (seq_returns_iff _ _ _).mp hrun
    obtain ⟨warningMessage, hwarning, hrun⟩ := (seq_returns_iff _ _ _).mp hrun
    obtain ⟨interval, hinterval, hrun⟩ := (seq_returns_iff _ _ _).mp hrun
    obtain ⟨complete, hcomplete, hrun⟩ := (seq_returns_iff _ _ _).mp hrun
    obtain ⟨incomplete, hincomplete, hrun⟩ := (seq_returns_iff _ _ _).mp hrun
    obtain ⟨⟨numPeers, peers⟩, hpeersAt, hres⟩ := (seq_returns_iff _ _ _).mp hrun
    cases hres
    obtain ⟨n, hn, rfl⟩ := (intAt_returns_iff h _).mp hinterval
    obtain ⟨c, hc, -⟩ := (intAt_returns_iff h _).mp hcomplete
    obtain ⟨i, hi, -⟩ := (intAt_returns_iff h _).mp hincomplete
    obtain ⟨hpeers, hvalue⟩ := (peersAt_returns_iff h).mp hpeersAt
    refine ⟨⟨hnone, (textAt_returns_iff h _ _).mp ⟨_, htrackerId⟩,
      (textAt_returns_iff h _ _).mp ⟨_, hwarning⟩, ⟨n, hn⟩, ⟨c, hc⟩, ⟨i, hi⟩, hpeers⟩, ?_⟩
    rw [← hfields, replyFields, replyInterval, hn, ← hvalue]
  · rintro ⟨hreadable, rfl⟩
    obtain ⟨trackerId, htrackerId⟩ := (textAt_returns_iff h _ res.trackerId).mpr hreadable.trackerId
    obtain ⟨warningMessage, hwarning⟩ :=
      (textAt_returns_iff h _ res.warningMessage).mpr hreadable.warningMessage
    obtain ⟨n, hn⟩ := hreadable.interval
    obtain ⟨c, hc⟩ := hreadable.complete
    obtain ⟨i, hi⟩ := hreadable.incomplete
    have hinterval := (intAt_returns_iff h _).mpr ⟨n, hn, rfl⟩
    have hcomplete := (intAt_returns_iff h _).mpr ⟨c, hc, rfl⟩
    have hincomplete := (intAt_returns_iff h _).mpr ⟨i, hi, rfl⟩
    have hpeers := (peersAt_returns_iff h).mpr ⟨hreadable.peers, rfl⟩
    simp only [htrackerId, hwarning, hinterval, hcomplete, hincomplete, hpeers, ok_bind,
      pure_is_ok, Except.ok.injEq, exists_eq_left']
    rw [replyFields, replyInterval, hn]

/-- **Reading a reply.** The fields do not depend on the memory exactly if the reply
is readable, and then they are the reply's. -/
theorem readReply_interprets_iff (h : dict.Sound) {fields : ReplyFields} :
    Interprets (readReply dict) fields ↔
      ReplyReadable dict.reading ∧ fields = replyFields dict.reading := by
  obtain ⟨item, hlookup⟩ := h.lookup_returns failureReasonKey
  cases item with
  | none =>
    have hreturns := fun res => @readReply_returns_iff dict h hlookup res fields
    exact ⟨fun hall => (hreturns .zero).mp (hall .zero),
      fun hreadable res => (hreturns res).mpr hreadable⟩
  | some item =>
    constructor
    · -- two memories that differ in `num_peers`
      intro hall
      obtain ⟨res, hrun, hres⟩ := hall .zero
      obtain ⟨res', hrun', hres'⟩ := hall { ResponseMemory.zero with numPeers := 1 }
      have hfields := readReply_failure hlookup hrun
      have hfields' := readReply_failure hlookup hrun'
      rw [hres] at hfields
      rw [hres', hfields] at hfields'
      exact absurd (congrArg ReplyFields.numPeers hfields') (by decide)
    · rintro ⟨hreadable, -⟩
      have hsome := reading_of_lookup hlookup
      rw [hreadable.noFailure] at hsome
      cases hsome

/-- A readable reply without peers says so. -/
theorem noPeersUnsaid_of_readable {reply : List UInt8 → Option Reading}
    (h : ReplyReadable reply) : NoPeersUnsaid reply (replyFields reply) := by
  rintro (hfailure | hpeers)
  · exact absurd h.noFailure hfailure
  · simp only [replyFields, replyPeers, hpeers]

end Table

/-! ## Replies of any bytes -/

section Received

variable (sha1 : List UInt8 → List UInt8) (fuel : Nat) (seeds : Nat → TableSeed)

/-- The dictionary that `parse_item` finds at the start of the content. -/
def receivedReply (mem : List UInt8) : Option (List UInt8 → Option Reading) :=
  match parseBuffer (computeInfoHash sha1) fuel (startParser none mem seeds) with
  | .ok (.dictionary dict _) _ => some dict.reading
  | _ => none

variable {sha1 fuel seeds}

/-- The tables the parser makes are sound. -/
theorem parseBuffer_sound {mem : List UInt8} {dict : HashTable BencodeType}
    {digest : Option (List UInt8)} {p' : Parser}
    (hrun : parseBuffer (computeInfoHash sha1) fuel (startParser none mem seeds)
      = .ok (.dictionary dict digest) p') : dict.Sound := by
  obtain ⟨r, l, -, -, -, -, -, -, hbuilds⟩ := parseBuffer_derived rfl hrun
  cases r with
  | dict start entries stop => exact hbuilds.1
  | dictCut start entries key => exact hbuilds.1
  | _ => simp [Raw.Builds] at hbuilds

/-- The content begins with a dictionary: it is read as one. -/
theorem parseContent_of_received {mem : List UInt8} {reply : List UInt8 → Option Reading}
    (h : receivedReply sha1 fuel seeds mem = some reply) :
    ∃ dict, dict.Sound ∧ dict.reading = reply ∧
      parseContent sha1 fuel seeds mem = readReply dict := by
  unfold receivedReply at h
  split at h
  case h_1 dict digest p' hrun =>
    cases h
    refine ⟨dict, parseBuffer_sound hrun, rfl, ?_⟩
    funext res
    simp only [parseContent, hrun, BencodeType.readDict, ok_bind]
  case h_2 => cases h

/-- It does not: there is no response. -/
theorem parseContent_of_none {mem : List UInt8} (h : receivedReply sha1 fuel seeds mem = none)
    (res res' : ResponseMemory) : parseContent sha1 fuel seeds mem res ≠ .ok res' := by
  cases hrun : parseBuffer (computeInfoHash sha1) fuel (startParser none mem seeds) with
  | error e p' => simp [parseContent, hrun]
  | ok item p' =>
    cases item with
    | dictionary dict digest => simp [receivedReply, hrun] at h
    | _ => simp [parseContent, hrun, BencodeType.readDict]

theorem parseContent_interprets_iff {mem : List UInt8} {fields : ReplyFields} :
    Interprets (parseContent sha1 fuel seeds mem) fields ↔
      ∃ reply, receivedReply sha1 fuel seeds mem = some reply ∧ ReplyReadable reply ∧
        fields = replyFields reply := by
  cases hreply : receivedReply sha1 fuel seeds mem with
  | none =>
    constructor
    · intro hall
      obtain ⟨res', hrun, -⟩ := hall .zero
      exact absurd hrun (parseContent_of_none hreply _ _)
    · rintro ⟨reply, ⟨⟩, -⟩
  | some reply =>
    obtain ⟨dict, hsound, rfl, hcontent⟩ := parseContent_of_received hreply
    rw [hcontent, readReply_interprets_iff hsound]
    simp

end Received

/-! ## Replies in canonical encoding -/

/-- The reply with these entries. -/
def replyOf (es : List (List UInt8 × Value)) (key : List UInt8) : Option Reading :=
  (es.lookup key).map Value.reading

theorem Tree.reading {digest : List UInt8 → List UInt8} {v : Value} {item : BencodeType}
    (h : Tree digest v item) : item.reading = v.reading := by
  cases v <;> cases item <;> simp_all [Tree, BencodeType.reading, Value.reading]

theorem Holds.reading {digest : List UInt8 → List UInt8} {es : List (List UInt8 × Value)}
    {dict : HashTable BencodeType} (h : Holds digest es dict) : dict.reading = replyOf es := by
  funext key
  rw [replyOf]
  cases hentry : es.lookup key with
  | none =>
    have habsent : key ∉ es.map Prod.fst := by
      rw [List.lookup_eq_none_iff] at hentry
      intro hmem
      obtain ⟨e, he, hkey⟩ := List.mem_map.mp hmem
      simpa [hkey] using hentry e he
    rw [reading_of_lookup (h.lookup_none habsent)]
    rfl
  | some v =>
    obtain ⟨before, after, hsplit, -⟩ := List.lookup_eq_some_iff.mp hentry
    obtain ⟨item, hlookup, htree, -⟩ := h.lookup key v (by simp [hsplit])
    rw [reading_of_lookup hlookup, Option.map_some, Option.map_some, htree.reading]

/-- What `parse_item` makes of the encoding of a dictionary. -/
theorem receivedReply_encode (sha1 : List UInt8 → List UInt8) (seeds : Nat → TableSeed)
    {es : List (List UInt8 × Value)} (hwf : (Value.dict es).wf = true)
    (hlong : (Value.dict es).longInts = true) (hlen : (encode (.dict es)).length < 2 ^ 63)
    (after : List UInt8) :
    (∀ fuel reply, receivedReply sha1 fuel seeds (encode (.dict es) ++ 0 :: after) = some reply →
      (Value.dict es).longInfos = true ∧ reply = replyOf es) ∧
    ((Value.dict es).longInfos = true → ∀ fuel, weight (.dict es) ≤ fuel →
      receivedReply sha1 fuel seeds (encode (.dict es) ++ 0 :: after) = some (replyOf es)) := by
  have hgoes := fun fuel => parseBuffer_goes (computeInfoHash_hashesRange sha1) (.dict es) fuel none
    seeds hwf hlen after
  refine ⟨fun fuel reply hreply => ?_, fun hinfos fuel hfuel => ?_⟩
  · unfold receivedReply at hreply
    split at hreply
    case h_1 dict digest p' hrun =>
      obtain ⟨-, htree, hinfos, -⟩ := (hgoes fuel).of_ok hrun
      cases hreply
      simp only [Tree] at htree
      exact ⟨hinfos, Holds.reading htree⟩
    case h_2 => cases hreply
  · obtain ⟨item, p', hrun, -, htree, -⟩ :=
      (hgoes fuel).returns ⟨Value.fits_of_longInts hlong, hinfos, hfuel⟩
    cases item with
    | dictionary dict digest =>
      simp only [Tree] at htree
      simp only [receivedReply, hrun, Holds.reading htree]
    | _ => simp [Tree] at htree

/-- The reply is interpreted as `fields`, whatever `malloc` and the tables find in
memory. -/
def AlwaysInterprets (sha1 : List UInt8 → List UInt8) (mem : List UInt8) (fields : ReplyFields) :
    Prop :=
  ∀ seeds, ∃ fuel₀, ∀ fuel, fuel₀ ≤ fuel → Interprets (parseContent sha1 fuel seeds mem) fields

theorem alwaysInterprets_iff (sha1 : List UInt8 → List UInt8) {es : List (List UInt8 × Value)}
    (hwf : (Value.dict es).wf = true) (hlong : (Value.dict es).longInts = true)
    (hlen : (encode (.dict es)).length < 2 ^ 63) {after : List UInt8} {fields : ReplyFields} :
    AlwaysInterprets sha1 (encode (.dict es) ++ 0 :: after) fields ↔
      (Value.dict es).longInfos = true ∧ ReplyReadable (replyOf es) ∧
        fields = replyFields (replyOf es) := by
  constructor
  · intro halways
    obtain ⟨fuel, hfuel⟩ := halways fun _ => ⟨0, 0⟩
    obtain ⟨reply, hreply, hreadable⟩ := parseContent_interprets_iff.mp (hfuel fuel (le_refl _))
    obtain ⟨hinfos, rfl⟩ := (receivedReply_encode sha1 _ hwf hlong hlen after).1 fuel reply hreply
    exact ⟨hinfos, hreadable⟩
  · rintro ⟨hinfos, hreadable⟩ seeds
    refine ⟨weight (.dict es), fun fuel hfuel => parseContent_interprets_iff.mpr ?_⟩
    have hreply := (receivedReply_encode sha1 seeds hwf hlong hlen after).2 hinfos fuel hfuel
    exact ⟨replyOf es, hreply, hreadable⟩

/-- **Interpreting a tracker's reply.** `parse_content` returns a response whose
fields do not depend on the memory it got exactly if the parser finds a
dictionary that is readable; for the encoding of a dictionary and a `NUL`,
exactly if its entries are, and the values under `info` are long enough to be
hashed. -/
theorem reply_interpreted_iff (sha1 : List UInt8 → List UInt8) :
    (∀ (fuel : Nat) (seeds : Nat → TableSeed) (mem : List UInt8),
      (∃ fields, Interprets (parseContent sha1 fuel seeds mem) fields ∧
        ∀ reply, receivedReply sha1 fuel seeds mem = some reply → NoPeersUnsaid reply fields) ↔
      ∃ reply, receivedReply sha1 fuel seeds mem = some reply ∧ ReplyReadable reply) ∧
    ∀ (es : List (List UInt8 × Value)) (after : List UInt8), (Value.dict es).wf = true →
      (Value.dict es).longInts = true → (encode (.dict es)).length < 2 ^ 63 →
      ((∃ fields, AlwaysInterprets sha1 (encode (.dict es) ++ 0 :: after) fields ∧
        NoPeersUnsaid (replyOf es) fields) ↔
      (Value.dict es).longInfos = true ∧ ReplyReadable (replyOf es)) := by
  refine ⟨fun fuel seeds mem => ⟨?_, ?_⟩, fun es after hwf hlong hlen => ⟨?_, ?_⟩⟩
  · rintro ⟨fields, hinterprets, -⟩
    obtain ⟨reply, hreply, hreadable, -⟩ := parseContent_interprets_iff.mp hinterprets
    exact ⟨reply, hreply, hreadable⟩
  · rintro ⟨reply, hreply, hreadable⟩
    refine ⟨replyFields reply, parseContent_interprets_iff.mpr ⟨reply, hreply, hreadable, rfl⟩, ?_⟩
    intro reply' hreply'
    obtain rfl := Option.some.inj (hreply.symm.trans hreply')
    exact noPeersUnsaid_of_readable hreadable
  · rintro ⟨fields, halways, -⟩
    obtain ⟨hinfos, hreadable, -⟩ := (alwaysInterprets_iff sha1 hwf hlong hlen).mp halways
    exact ⟨hinfos, hreadable⟩
  · rintro ⟨hinfos, hreadable⟩
    exact ⟨replyFields (replyOf es),
      (alwaysInterprets_iff sha1 hwf hlong hlen).mpr ⟨hinfos, hreadable, rfl⟩,
      noPeersUnsaid_of_readable hreadable⟩

/-- Counts, an interval and one peer. -/
theorem reply_interpreted_one_peer :
    ∃ fields, AlwaysInterprets (fun _ => []) (encode (.dict
        [(completeKey, .int 1), (incompleteKey, .int 2), (intervalKey, .int 1800),
          (peersKey, .str [127, 0, 0, 1, 26, 225])]) ++ [0]) fields ∧
      NoPeersUnsaid (replyOf [(completeKey, .int 1), (incompleteKey, .int 2),
        (intervalKey, .int 1800), (peersKey, .str [127, 0, 0, 1, 26, 225])]) fields := by
  refine ((reply_interpreted_iff fun _ => []).2 _ [] (by decide) (by decide) (by decide)).mpr
    ⟨by decide, rfl, ?_, ?_, ⟨1800, rfl⟩, ⟨1, rfl⟩, ⟨2, rfl⟩, ?_⟩
  · rintro r ⟨⟩
  · rintro r ⟨⟩
  · rintro r ⟨⟩
    exact ⟨rfl, le_refl 6⟩

/-- `d14:failure reason1:xe`: the number of peers is the one that was in the memory. -/
theorem failure_reason_leaves_peers :
    (∃ fuel res, parseContent (fun _ => []) fuel (fun _ => ⟨0, 0⟩)
        (ascii "d14:failure reason1:xe" ++ [0]) { ResponseMemory.zero with numPeers := 5 }
          = .ok res ∧ res.numPeers = 5) ∧
      ¬ ∃ fields, AlwaysInterprets (fun _ => []) (ascii "d14:failure reason1:xe" ++ [0]) fields ∧
        NoPeersUnsaid (replyOf [(failureReasonKey, .str [120])]) fields := by
  have hencode : ascii "d14:failure reason1:xe" =
      encode (.dict [(failureReasonKey, .str [120])]) := by decide
  have hwf : (Value.dict [(failureReasonKey, .str [120])]).wf = true := by decide
  have hlen : (encode (.dict [(failureReasonKey, .str [120])])).length < 2 ^ 63 := by decide
  rw [hencode]
  refine ⟨?_, ?_⟩
  · have hreply := (receivedReply_encode (fun _ => []) (fun _ => ⟨0, 0⟩) hwf rfl hlen []).2 rfl _
      (le_refl _)
    obtain ⟨dict, hsound, hreading, hcontent⟩ := parseContent_of_received hreply
    obtain ⟨res, hrun, hfields⟩ := readReply_failure_returns hsound
      { ResponseMemory.zero with numPeers := 5 } (by rw [hreading]; rintro r ⟨⟩)
      (by rw [hreading]; rfl)
    exact ⟨_, res, by rw [hcontent, hrun], congrArg ReplyFields.numPeers hfields⟩
  · rintro ⟨fields, halways, -⟩
    obtain ⟨-, hreadable, -⟩ := (alwaysInterprets_iff _ hwf rfl hlen).mp halways
    exact absurd hreadable.noFailure (by decide)

end BtClient

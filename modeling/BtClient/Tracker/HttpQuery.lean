import BtClient.Tracker.HttpRequest

/-!
# Reading the query back

What a tracker does with the query: it splits the text behind `?` at `&` and
every field at `=`, decodes the two byte strings and reads the numbers. No name
and no value contains a separator, so the fields come apart as they were put
together.
-/

namespace BtClient

open CLib

/-! ## The reader -/

/-- What a query says. -/
structure QueryFields where
  infoHash : List UInt8
  peerId : List UInt8
  port : Nat
  uploaded : Nat
  downloaded : Nat
  left : Nat
  compact : Bool
  deriving DecidableEq, Repr

/-- A decimal number. -/
def readDecimal (text : List UInt8) : Option Nat :=
  if text ≠ [] ∧ text.all isdigit then some (leadingDigits 0 text) else none

/-- The fields of a query: names and values. -/
def splitQuery (text : List UInt8) : List (List (List UInt8)) :=
  (text.splitOn 38).map fun field => field.splitOn 61

/-- The six fields every query has, by name and in order. -/
def readFields (compact : Bool) : List (List (List UInt8)) → Option QueryFields
  | [[n₁, infoHash], [n₂, peerId], [n₃, port], [n₄, uploaded], [n₅, downloaded], [n₆, left]] =>
    if n₁ = ascii "info_hash" ∧ n₂ = ascii "peer_id" ∧ n₃ = ascii "port" ∧
        n₄ = ascii "uploaded" ∧ n₅ = ascii "downloaded" ∧ n₆ = ascii "left" then do
      return ⟨← percentDecode infoHash, ← percentDecode peerId, ← readDecimal port,
        ← readDecimal uploaded, ← readDecimal downloaded, ← readDecimal left, compact⟩
    else none
  | _ => none

/-- A query, with `compact=1` as a seventh field or without. -/
def readQuery (text : List UInt8) : Option QueryFields :=
  let fields := splitQuery text
  if fields.drop 6 = [[ascii "compact", ascii "1"]] then readFields true (fields.take 6)
  else readFields false fields

/-- What the query of a request should say. -/
def TrackerRequest.fields (req : TrackerRequest) : QueryFields where
  infoHash := req.infoHash
  peerId := req.peerId
  port := req.port.toNat
  uploaded := req.uploaded.toNat
  downloaded := req.downloaded.toNat
  left := req.left.toNat
  compact := req.flags &&& compactFlag ≠ 0

/-! ## Fields -/

/-- A text without separators, and without the byte that ends a string. -/
def Plain (text : List UInt8) : Prop := ∀ c ∈ text, c ≠ 0 ∧ c ≠ 38 ∧ c ≠ 61

/-- The test for a literal. -/
def checkPlain (text : List UInt8) : Bool := text.all fun c => c != 0 && c != 38 && c != 61

theorem plain_of_check {text : List UInt8} (h : checkPlain text = true) : Plain text := by
  intro c hc
  have hbyte := List.all_eq_true.mp h c hc
  simpa [and_assoc] using hbyte

theorem plain_percentEncode (bytes : List UInt8) : Plain (percentEncode bytes) := by
  intro c hc
  refine ⟨?_, ?_, ?_⟩
  all_goals
    rintro rfl
    rcases mem_percentEncode hc with hunreserved | hpercent
    · cases hunreserved
    · cases hpercent

theorem plain_decimal (n : Nat) : Plain (decimal n) := by
  intro c hc
  refine ⟨?_, ?_, ?_⟩
  all_goals
    rintro rfl
    cases isdigit_of_mem_decimal hc

/-- A name and its value. -/
def fieldText (field : List UInt8 × List UInt8) : List UInt8 := field.1 ++ 61 :: field.2

/-- Fields come apart at the separators. -/
theorem splitQuery_fields {fields : List (List UInt8 × List UInt8)} (hne : fields ≠ [])
    (hplain : ∀ f ∈ fields, Plain f.1 ∧ Plain f.2) :
    splitQuery ([38].intercalate (fields.map fieldText)) = fields.map fun f => [f.1, f.2] := by
  have hamp : ∀ t ∈ fields.map fieldText, 38 ∉ t := by
    intro t ht hmem
    obtain ⟨f, hf, rfl⟩ := List.mem_map.mp ht
    obtain ⟨hname, hvalue⟩ := hplain f hf
    rw [fieldText, List.mem_append, List.mem_cons] at hmem
    rcases hmem with hmem | hmem | hmem
    · exact (hname 38 hmem).2.1 rfl
    · cases hmem
    · exact (hvalue 38 hmem).2.1 rfl
  rw [splitQuery, List.splitOn_intercalate 38 hamp (by simpa using hne), List.map_map]
  refine List.map_congr_left fun f hf => ?_
  obtain ⟨hname, hvalue⟩ := hplain f hf
  rw [Function.comp_apply, fieldText,
    List.splitOn_append_cons_self_of_not_mem fun hmem => (hname 61 hmem).2.2 rfl,
    List.splitOn_eq_singleton fun hmem => (hvalue 61 hmem).2.2 rfl]

theorem readDecimal_decimal (n : Nat) : readDecimal (decimal n) = some n := by
  have hdigits : (decimal n).all isdigit = true :=
    List.all_eq_true.mpr fun c hc => isdigit_of_mem_decimal hc
  rw [readDecimal, if_pos ⟨decimal_ne_nil n, hdigits⟩, leadingDigits_decimal]

/-! ## The query of a request -/

/-- The fields `build_http_url` prints, apart from `compact`. -/
def requestFields (req : TrackerRequest) : List (List UInt8 × List UInt8) :=
  [(ascii "info_hash", percentEncode req.infoHash), (ascii "peer_id", percentEncode req.peerId),
    (ascii "port", decimal req.port.toNat), (ascii "uploaded", decimal req.uploaded.toNat),
    (ascii "downloaded", decimal req.downloaded.toNat), (ascii "left", decimal req.left.toNat)]

/-- The field `compact`, where the flag asks for it. -/
def compactField (req : TrackerRequest) : List (List UInt8 × List UInt8) :=
  if req.flags &&& compactFlag ≠ 0 then [(ascii "compact", ascii "1")] else []

variable {curlEasyEscape : List UInt8 → List UInt8}

/-- The texts printed one after the other are the fields with their separators. -/
theorem httpQuery_eq (hescape : EscapesAsDocumented curlEasyEscape) (req : TrackerRequest) :
    httpQuery curlEasyEscape req =
      63 :: [38].intercalate ((requestFields req ++ compactField req).map fieldText) := by
  have hnames : ascii "?info_hash=" = 63 :: (ascii "info_hash" ++ [61]) ∧
      ascii "&peer_id=" = 38 :: (ascii "peer_id" ++ [61]) ∧
      ascii "&port=" = 38 :: (ascii "port" ++ [61]) ∧
      ascii "&uploaded=" = 38 :: (ascii "uploaded" ++ [61]) ∧
      ascii "&downloaded=" = 38 :: (ascii "downloaded" ++ [61]) ∧
      ascii "&left=" = 38 :: (ascii "left" ++ [61]) ∧
      ascii "&compact=1" = 38 :: (ascii "compact" ++ 61 :: ascii "1") := by decide
  obtain ⟨h₁, h₂, h₃, h₄, h₅, h₆, h₇⟩ := hnames
  simp only [httpQuery, queryTexts, hescape req.infoHash, hescape req.peerId, h₁, h₂, h₃, h₄, h₅,
    h₆, h₇, requestFields, compactField]
  split
  · simp [List.intercalate, fieldText]
  · simp [List.intercalate, fieldText]

theorem plain_fields (req : TrackerRequest) :
    ∀ f ∈ requestFields req ++ compactField req, Plain f.1 ∧ Plain f.2 := by
  intro f hf
  rcases List.mem_append.mp hf with hfield | hcompact
  · simp only [requestFields, List.mem_cons, List.not_mem_nil, or_false] at hfield
    rcases hfield with rfl | rfl | rfl | rfl | rfl | rfl
    · exact ⟨plain_of_check rfl, plain_percentEncode _⟩
    · exact ⟨plain_of_check rfl, plain_percentEncode _⟩
    · exact ⟨plain_of_check rfl, plain_decimal _⟩
    · exact ⟨plain_of_check rfl, plain_decimal _⟩
    · exact ⟨plain_of_check rfl, plain_decimal _⟩
    · exact ⟨plain_of_check rfl, plain_decimal _⟩
  · rw [compactField] at hcompact
    split at hcompact
    · rw [List.mem_singleton.mp hcompact]
      exact ⟨plain_of_check rfl, plain_of_check rfl⟩
    · cases hcompact

/-- The six fields, read back. -/
theorem readFields_request (req : TrackerRequest) (compact : Bool) :
    readFields compact ((requestFields req).map fun f => [f.1, f.2]) =
      some { req.fields with compact := compact } := by
  simp [readFields, requestFields, percentDecode_percentEncode, readDecimal_decimal,
    TrackerRequest.fields]

/-- The reader finds the fields. -/
theorem readQuery_intercalate (req : TrackerRequest) :
    readQuery ([38].intercalate ((requestFields req ++ compactField req).map fieldText)) =
      some req.fields := by
  have hlength : ((requestFields req).map fun f => [f.1, f.2]).length = 6 := rfl
  have hne : requestFields req ++ compactField req ≠ [] := by simp [requestFields]
  simp only [readQuery, splitQuery_fields hne (plain_fields req)]
  rw [List.map_append]
  by_cases hcompact : req.flags &&& compactFlag ≠ 0
  · have hfields : { req.fields with compact := true } = req.fields := by
      simp [TrackerRequest.fields, hcompact]
    have hseventh : (compactField req).map (fun f => [f.1, f.2]) =
        [[ascii "compact", ascii "1"]] := by
      rw [compactField, if_pos hcompact]
      rfl
    rw [hseventh, List.drop_left' hlength, if_pos rfl, List.take_left' hlength, readFields_request,
      hfields]
  · have hfields : { req.fields with compact := false } = req.fields := by
      have hzero := not_not.mp hcompact
      simp [TrackerRequest.fields, hzero]
    have hnone : (compactField req).map (fun f => [f.1, f.2]) = [] := by
      rw [compactField, if_neg hcompact]
      rfl
    rw [hnone, List.append_nil, List.drop_of_length_le hlength.le, if_neg (by simp),
      readFields_request, hfields]

/-- No text of the query ends a string. -/
theorem httpQuery_nulFree (hescape : EscapesAsDocumented curlEasyEscape) (req : TrackerRequest) :
    0 ∉ httpQuery curlEasyEscape req := by
  intro hzero
  obtain ⟨t, ht, hmem⟩ := List.mem_flatten.mp hzero
  have hescaped : ∀ bytes, 0 ∉ curlEasyEscape bytes := by
    intro bytes h
    rw [hescape bytes] at h
    exact (plain_percentEncode bytes 0 h).1 rfl
  have hnumber : ∀ (name : List UInt8) (n : Nat), 0 ∉ name → 0 ∉ name ++ decimal n := by
    intro name n hname h
    rcases List.mem_append.mp h with h | h
    · exact hname h
    · exact (plain_decimal n 0 h).1 rfl
  rcases List.mem_append.mp ht with hfield | hcompact
  · simp only [List.mem_cons, List.not_mem_nil, or_false] at hfield
    rcases hfield with rfl | rfl | rfl | rfl | rfl | rfl | rfl | rfl
    · exact absurd hmem (by decide)
    · exact hescaped _ hmem
    · exact absurd hmem (by decide)
    · exact hescaped _ hmem
    · exact hnumber _ _ (by decide) hmem
    · exact hnumber _ _ (by decide) hmem
    · exact hnumber _ _ (by decide) hmem
    · exact hnumber _ _ (by decide) hmem
  · split at hcompact
    · rw [List.mem_singleton.mp hcompact] at hmem
      exact absurd hmem (by decide)
    · cases hcompact

/-- **The query determines the request.** `build_http_url`, given a buffer that the
query fits, leaves a string there that starts with `?`, and reading the rest of
it back gives the request. -/
theorem query_determines_request (hescape : EscapesAsDocumented curlEasyEscape)
    {req : TrackerRequest} (hsized : req.Sized) {mem : List UInt8} {buff bufsize : Nat}
    (hinside : buff + bufsize ≤ mem.length) (hlimit : buff + bufsize < 2 ^ 64)
    (hfits : (httpQuery curlEasyEscape req).length < bufsize) :
    ∃ mem' text, runCalls (buildHttpUrl curlEasyEscape req buff bufsize).1.calls mem = .ok mem' ∧
      stringAt mem' buff = .ok (63 :: text) ∧ readQuery text = some req.fields := by
  have hpre : (mem.take buff).length = buff := List.length_take_of_le (by omega)
  have hroom : bufsize ≤ ([] : List UInt8).length + (mem.drop buff).length := by
    rw [List.length_nil, List.length_drop]
    omega
  have hne : queryTexts curlEasyEscape req ≠ [] := by simp [queryTexts]
  obtain ⟨room', hrun⟩ := runCalls_printed hne (hpre.symm ▸ hlimit) hroom
    (by rw [List.length_nil, Nat.zero_add]; exact hfits)
  rw [List.nil_append, List.nil_append, List.length_nil, List.take_append_drop, hpre] at hrun
  have hstring := stringAt_append (httpQuery_nulFree hescape req) (mem.take buff) room'
  rw [hpre] at hstring
  refine ⟨mem.take buff ++ (httpQuery curlEasyEscape req ++ 0 :: room'),
    [38].intercalate ((requestFields req ++ compactField req).map fieldText), ?_, ?_,
    readQuery_intercalate req⟩
  · rw [buildHttpUrl_calls hescape hsized]
    exact hrun
  · rw [← httpQuery_eq hescape req]
    exact hstring

/-- The first request, in a buffer of 1024 bytes. -/
theorem query_determines_firstRequest :
    ∃ mem' text, runCalls (buildHttpUrl percentEncode firstRequest 0 1024).1.calls
        (List.replicate 1024 0) = .ok mem' ∧
      stringAt mem' 0 = .ok (63 :: text) ∧ readQuery text = some firstRequest.fields := by
  have hescape : EscapesAsDocumented percentEncode := fun _ => rfl
  have hquery := length_httpQuery_le hescape firstRequest_sized
  exact query_determines_request hescape firstRequest_sized
    (by rw [List.length_replicate]) (by decide) (by omega)

end BtClient

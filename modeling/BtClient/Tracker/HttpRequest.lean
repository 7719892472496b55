import BtClient.Lib.Percent
import BtClient.Tracker.Http

/-!
# The room a request takes

`build_http_request` prints the path, the query, the version and the host, and
`build_http_url` the query, piece by piece. A query has a few hundred bytes at
most; path and host are as long as the torrent file makes them. The calls stay
in the buffer as long as the texts do, and it is the whole text that counts,
except that a host too long for the `int` that `snprintf` returns takes a byte
back.
-/

namespace BtClient

open CLib

/-- What libcurl documents of `curl_easy_escape`: it leaves unreserved characters
and writes every other byte as `%XX`. -/
def EscapesAsDocumented (curlEasyEscape : List UInt8 → List UInt8) : Prop :=
  ∀ bytes, curlEasyEscape bytes = percentEncode bytes

/-- `info_hash` and `peer_id` are arrays of 20 bytes. -/
structure TrackerRequest.Sized (req : TrackerRequest) : Prop where
  infoHash : req.infoHash.length = 20
  peerId : req.peerId.length = 20

section Request

variable (curlEasyEscape : List UInt8 → List UInt8)

/-- The texts `build_http_url` prints. -/
def queryTexts (req : TrackerRequest) : List (List UInt8) :=
  [ascii "?info_hash=", curlEasyEscape req.infoHash, ascii "&peer_id=", curlEasyEscape req.peerId,
    ascii "&port=" ++ decimal req.port.toNat, ascii "&uploaded=" ++ decimal req.uploaded.toNat,
    ascii "&downloaded=" ++ decimal req.downloaded.toNat,
    ascii "&left=" ++ decimal req.left.toNat] ++
  if req.flags &&& compactFlag ≠ 0 then [ascii "&compact=1"] else []

/-- The query of a request. -/
def httpQuery (req : TrackerRequest) : List UInt8 := (queryTexts curlEasyEscape req).flatten

/-- The room that path, query and host leave in a buffer of `bufsize` bytes. -/
structure RequestRoom (url : Url) (req : TrackerRequest) (bufsize : Nat) : Prop where
  path : 5 + url.path.length < 2 ^ 31
  head : 5 + url.path.length + (httpQuery curlEasyEscape req).length + 11 ≤ bufsize
  host : 10 + url.host.length < 2 ^ 31 →
    5 + url.path.length + (httpQuery curlEasyEscape req).length + 11 +
      (10 + url.host.length) ≤ bufsize

end Request

variable {curlEasyEscape : List UInt8 → List UInt8}

/-! ## The query -/

theorem buildHttpUrl_eq (req : TrackerRequest) (buff bufsize : Nat) :
    (buildHttpUrl curlEasyEscape req buff bufsize).1 =
      (Printer.start buff bufsize).printAll (queryTexts curlEasyEscape req) := by
  by_cases hcompact : req.flags &&& compactFlag = 0
  · simp [buildHttpUrl, hasFlag, queryTexts, Printer.printAll, hcompact]
  · simp [buildHttpUrl, hasFlag, queryTexts, Printer.printAll, hcompact]

/-- Every text of the query is short. -/
theorem length_queryTexts_le (hescape : EscapesAsDocumented curlEasyEscape) {req : TrackerRequest}
    (hsized : req.Sized) : ∀ t ∈ queryTexts curlEasyEscape req, t.length ≤ 60 := by
  intro t ht
  have hescaped : ∀ bytes : List UInt8, bytes.length = 20 → (curlEasyEscape bytes).length ≤ 60 := by
    intro bytes hbytes
    have hlength := length_percentEncode_le bytes
    rw [hescape bytes]
    omega
  have hnumber : ∀ (name : List UInt8) (n : Nat), name.length ≤ 12 → n < 2 ^ 64 →
      (name ++ decimal n).length ≤ 60 := by
    intro name n hname hn
    have hlength := length_decimal_le hn
    rw [List.length_append]
    omega
  have hport := req.port.toNat_lt
  rcases List.mem_append.mp ht with hfield | hcompact
  · simp only [List.mem_cons, List.not_mem_nil, or_false] at hfield
    rcases hfield with rfl | rfl | rfl | rfl | rfl | rfl | rfl | rfl
    · decide
    · exact hescaped _ hsized.infoHash
    · decide
    · exact hescaped _ hsized.peerId
    · exact hnumber _ _ (by decide) (by omega)
    · exact hnumber _ _ (by decide) req.uploaded.toNat_lt
    · exact hnumber _ _ (by decide) req.downloaded.toNat_lt
    · exact hnumber _ _ (by decide) req.left.toNat_lt
  · split at hcompact
    · rw [List.mem_singleton.mp hcompact]
      decide
    · cases hcompact

theorem length_httpQuery_le (hescape : EscapesAsDocumented curlEasyEscape) {req : TrackerRequest}
    (hsized : req.Sized) : (httpQuery curlEasyEscape req).length ≤ 540 := by
  have hcount : (queryTexts curlEasyEscape req).length ≤ 9 := by
    rw [queryTexts, List.length_append]
    split <;> simp
  have hlength := length_flatten_le (length_queryTexts_le hescape hsized)
  rw [httpQuery]
  omega

theorem countable_queryTexts (hescape : EscapesAsDocumented curlEasyEscape) {req : TrackerRequest}
    (hsized : req.Sized) : Countable (queryTexts curlEasyEscape req) := by
  intro t ht
  have hlength := length_queryTexts_le hescape hsized t ht
  omega

/-- `build_http_url`, as the calls it makes and the length it returns. -/
theorem buildHttpUrl_calls (hescape : EscapesAsDocumented curlEasyEscape) {req : TrackerRequest}
    (hsized : req.Sized) (buff bufsize : Nat) :
    (buildHttpUrl curlEasyEscape req buff bufsize).1 =
      ⟨buff, bufsize, (httpQuery curlEasyEscape req).length,
        callsFrom buff bufsize 0 (queryTexts curlEasyEscape req)⟩ := by
  have hlength := length_httpQuery_le hescape hsized
  have hsum : (Printer.start buff bufsize).written +
      (queryTexts curlEasyEscape req).flatten.length < 2 ^ 64 := by
    rw [httpQuery] at hlength
    show 0 + _ < _
    omega
  rw [buildHttpUrl_eq, printAll_eq (countable_queryTexts hescape hsized) hsum]
  simp [Printer.start, httpQuery]

/-- The query is printed inside its buffer exactly if it has the room. -/
theorem buildHttpUrl_fits_iff (hescape : EscapesAsDocumented curlEasyEscape) {req : TrackerRequest}
    (hsized : req.Sized) {bufsize : Nat} (hsize : bufsize < 2 ^ 64) :
    (buildHttpUrl curlEasyEscape req 0 bufsize).1.Fits bufsize ↔
      (httpQuery curlEasyEscape req).length ≤ bufsize := by
  rw [buildHttpUrl_calls hescape hsized]
  constructor
  · intro hfits
    exact hfits.returned
  · intro hroom
    refine ⟨callsFrom_inside (Nat.zero_add _) hsize ?_, hroom⟩
    rw [Nat.zero_add]
    exact hroom

/-! ## The request -/

/-- The host line. -/
def hostLine (url : Url) : List UInt8 := ascii "Host: " ++ url.host ++ ascii "\r\n\r\n"

theorem length_pathText (url : Url) : (ascii "GET /" ++ url.path).length = 5 + url.path.length := by
  rw [List.length_append]
  rfl

theorem length_hostLine (url : Url) : (hostLine url).length = 10 + url.host.length := by
  have hnames : (ascii "Host: ").length = 6 ∧ (ascii "\r\n\r\n").length = 4 := by decide
  simp only [hostLine, List.length_append, hnames]
  omega

/-- `build_http_request`, as the calls it makes and the length it returns, when
the path can be counted. -/
theorem buildHttpRequest_calls (hescape : EscapesAsDocumented curlEasyEscape)
    {req : TrackerRequest} (hsized : req.Sized) {url : Url}
    (hpath : 5 + url.path.length < 2 ^ 31) (bufsize head : Nat)
    (hhead : head = 5 + url.path.length + (httpQuery curlEasyEscape req).length) :
    buildHttpRequest curlEasyEscape url req 0 bufsize =
      ⟨0, bufsize,
        (head + 11 + PrintCall.result ⟨0, bufsize, head + 11, hostLine url⟩) % 2 ^ 64,
        [⟨0, bufsize, 0, ascii "GET /" ++ url.path⟩] ++
          callsFrom (5 + url.path.length) (sizeSub bufsize (5 + url.path.length)) 0
            (queryTexts curlEasyEscape req) ++
          [⟨0, bufsize, head, ascii " HTTP/1.1\r\n"⟩] ++
          [⟨0, bufsize, head + 11, hostLine url⟩]⟩ := by
  have hquery := length_httpQuery_le hescape hsized
  have hversion : (ascii " HTTP/1.1\r\n").length = 11 := by decide
  have hget : (Printer.start 0 bufsize).print (ascii "GET /" ++ url.path) =
      ⟨0, bufsize, 5 + url.path.length, [⟨0, bufsize, 0, ascii "GET /" ++ url.path⟩]⟩ := by
    rw [print_eq (by rw [length_pathText]; exact hpath)
      (by rw [length_pathText]; simp only [Printer.start]; omega), length_pathText]
    simp [Printer.start]
  have hmod : (5 + url.path.length) % 2 ^ 64 = 5 + url.path.length := Nat.mod_eq_of_lt (by omega)
  have hmod' : head % 2 ^ 64 = head := Nat.mod_eq_of_lt (by omega)
  have hprint : ∀ calls, Printer.print ⟨0, bufsize, head, calls⟩ (ascii " HTTP/1.1\r\n") =
      ⟨0, bufsize, head + 11, calls ++ [⟨0, bufsize, head, ascii " HTTP/1.1\r\n"⟩]⟩ := by
    intro calls
    rw [print_eq (by decide) (by rw [hversion]; show head + 11 < 2 ^ 64; omega), hversion]
  simp only [buildHttpRequest, hget, Printer.call, buildHttpUrl_calls hescape hsized,
    Nat.zero_add, hmod, ← hhead, hmod', hprint]
  rfl

/-- A path that cannot be counted puts the query before the buffer. -/
theorem not_fits_of_long_path (hescape : EscapesAsDocumented curlEasyEscape)
    {req : TrackerRequest} (hsized : req.Sized) {url : Url}
    (hpath : ¬ 5 + url.path.length < 2 ^ 31) {bufsize : Nat} (hsize : bufsize < 2 ^ 64) :
    ¬ (buildHttpRequest curlEasyEscape url req 0 bufsize).Fits bufsize := by
  intro hfits
  have hwritten : ((Printer.start 0 bufsize).print (ascii "GET /" ++ url.path)).written =
      2 ^ 64 - 1 := by
    simp only [Printer.print, PrintCall.result, length_pathText, if_neg hpath, Printer.start]
    omega
  -- the calls of `build_http_url`, with `written` at -1
  have hcalls : ∀ c ∈ callsFrom (2 ^ 64 - 1) (sizeSub bufsize (2 ^ 64 - 1)) 0
      (queryTexts curlEasyEscape req), c.Inside bufsize := by
    intro c hc
    have hwrap : (0 + (2 ^ 64 - 1)) % 2 ^ 64 = 2 ^ 64 - 1 := by decide
    have hquery := buildHttpUrl_calls hescape hsized (2 ^ 64 - 1) (sizeSub bufsize (2 ^ 64 - 1))
    refine hfits.inside c (mem_calls_print (mem_calls_print ?_ _) _)
    simp only [Printer.call, hwritten]
    refine List.mem_append_right _ ?_
    show c ∈ (buildHttpUrl curlEasyEscape req ((0 + (2 ^ 64 - 1)) % 2 ^ 64)
      (sizeSub bufsize (2 ^ 64 - 1))).1.calls
    rw [hwrap, hquery]
    exact hc
  have hfirst := (hcalls ⟨2 ^ 64 - 1, sizeSub bufsize (2 ^ 64 - 1), 0, ascii "?info_hash="⟩
    (by simp [queryTexts, callsFrom])).pointer
  have hsecond := (hcalls ⟨2 ^ 64 - 1, sizeSub bufsize (2 ^ 64 - 1), 11,
    curlEasyEscape req.infoHash⟩ (by simp [queryTexts, callsFrom, ascii])).noWrap
  simp only [PrintCall.pointer] at hfirst hsecond
  have hall : bufsize = 2 ^ 64 - 1 := by omega
  rw [hall, sizeSub_of_le (by omega) (by omega)] at hsecond
  omega

/-- **The room for a request.** The calls of `build_http_request` are inside the
buffer, and so is the length it returns, exactly if path, query and host leave
the room; those of `build_http_url` exactly if the query does. -/
theorem request_fits_iff (hescape : EscapesAsDocumented curlEasyEscape) {req : TrackerRequest}
    (hsized : req.Sized) (url : Url) {bufsize : Nat} (hsize : bufsize < 2 ^ 64) :
    ((buildHttpRequest curlEasyEscape url req 0 bufsize).Fits bufsize ↔
      RequestRoom curlEasyEscape url req bufsize) ∧
    ((buildHttpUrl curlEasyEscape req 0 bufsize).1.Fits bufsize ↔
      (httpQuery curlEasyEscape req).length ≤ bufsize) := by
  refine ⟨?_, buildHttpUrl_fits_iff hescape hsized hsize⟩
  by_cases hpath : 5 + url.path.length < 2 ^ 31
  · have hquery := length_httpQuery_le hescape hsized
    obtain ⟨head, hhead⟩ : ∃ head, head = 5 + url.path.length +
      (httpQuery curlEasyEscape req).length := ⟨_, rfl⟩
    rw [buildHttpRequest_calls hescape hsized hpath bufsize head hhead]
    constructor
    · rintro ⟨hinside, hreturned⟩
      have hlast := (hinside ⟨0, bufsize, head + 11, hostLine url⟩ (by simp)).noWrap
      simp only at hlast hreturned
      refine ⟨hpath, by omega, fun hhost => ?_⟩
      rw [PrintCall.result, length_hostLine, if_pos hhost, Nat.mod_eq_of_lt (by omega)] at hreturned
      omega
    · rintro ⟨-, hroom, hhost⟩
      rw [← hhead] at hroom hhost
      have hleft : sizeSub bufsize (5 + url.path.length) = bufsize - (5 + url.path.length) :=
        sizeSub_of_le (by omega) hsize
      refine ⟨?_, ?_⟩
      · rw [hleft]
        intro c hc
        simp only [List.mem_append, List.mem_singleton] at hc
        rcases hc with ((rfl | hc) | rfl) | rfl
        · exact inside_of_le (by omega) hsize _
        · exact callsFrom_inside (by omega) hsize (by rw [← httpQuery]; omega) c hc
        · exact inside_of_le (by omega) hsize _
        · exact inside_of_le (by omega) hsize _
      · simp only [PrintCall.result, length_hostLine]
        by_cases hcount : 10 + url.host.length < 2 ^ 31
        · rw [if_pos hcount, Nat.mod_eq_of_lt (by omega)]
          exact hhost hcount
        · -- `-1`: the byte that is taken back is one of the version
          rw [if_neg hcount]
          omega
  · constructor
    · exact fun hfits => absurd hfits (not_fits_of_long_path hescape hsized hpath hsize)
    · exact fun hroom => absurd hroom.path hpath

/-- A request for a compact list, with nothing transferred yet. -/
def firstRequest : TrackerRequest where
  flags := compactFlag
  infoHash := List.replicate 20 0
  peerId := List.replicate 20 45
  port := 6889
  uploaded := 0
  downloaded := 0
  left := 1000
  event := .eventStarted

theorem firstRequest_sized : firstRequest.Sized := ⟨List.length_replicate, List.length_replicate⟩

/-- The usual announce path, in the buffer of `http_announce`. -/
theorem request_fits_announce :
    (buildHttpRequest percentEncode ⟨.http, ascii "localhost", 80, ascii "announce"⟩ firstRequest 0
      1024).Fits 1024 := by
  have hescape : EscapesAsDocumented percentEncode := fun _ => rfl
  have hquery := length_httpQuery_le hescape firstRequest_sized
  have hpath : (ascii "announce").length = 8 := by decide
  have hhost : (ascii "localhost").length = 9 := by decide
  refine (request_fits_iff hescape firstRequest_sized
    ⟨.http, ascii "localhost", 80, ascii "announce"⟩ (by decide)).1.mpr ⟨?_, ?_, fun _ => ?_⟩
  · simp only [hpath]
    omega
  · simp only [hpath]
    omega
  · simp only [hpath, hhost]
    omega

/-- A path of 1100 bytes in the same buffer: behind the path `bufsize - written`
has wrapped. -/
theorem request_overflows_long_path :
    ¬ (buildHttpRequest percentEncode ⟨.http, ascii "localhost", 80, List.replicate 1100 97⟩
      firstRequest 0 1024).Fits 1024 := by
  intro hfits
  have hescape : EscapesAsDocumented percentEncode := fun _ => rfl
  have hpath : (List.replicate 1100 (97 : UInt8)).length = 1100 := List.length_replicate
  have hcalls := @buildHttpRequest_calls percentEncode hescape firstRequest firstRequest_sized
    ⟨.http, ascii "localhost", 80, List.replicate 1100 97⟩ (by simp only [hpath]; omega) 1024 _ rfl
  rw [hcalls] at hfits
  have hlast := (hfits.inside _ (List.mem_append_right _ (List.mem_singleton.mpr rfl))).noWrap
  simp only [hpath] at hlast
  omega

end BtClient

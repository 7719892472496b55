import BtClient.Tracker.HttpBody
import BtClient.Tracker.HttpQuery
import BtClient.Tracker.HttpReceive
import BtClient.Tracker.HttpRequest
import BtClient.Tracker.Https
import BtClient.Tracker.Reply

/-!
# Announces over HTTP and HTTPS

`http_announce` and `https_announce` from end to end. The request is printed into
a buffer and sent, the response is received and its content read. Where the
request has the room and the tracker's reply is readable, all of the request is
sent, and the fields of the response are the reply's: over HTTP in whatever
chunks it comes, over HTTPS if it comes in one piece.
-/

namespace BtClient

open CLib

/-- `http_announce(sockfd, url, req)`, where `recv` answers as given and `malloc`
returns `res`: the bytes that are written to the socket, and the response (`none`
is `NULL`). -/
def httpAnnounce (curlEasyEscape sha1 : List UInt8 → List UInt8) (fuel : Nat)
    (seeds : Nat → TableSeed) (url : Url) (req : TrackerRequest) (answers : List StreamRecv)
    (res : ResponseMemory) : Except Fault (List UInt8 × Option ResponseMemory) := do
  let p := buildHttpRequest curlEasyEscape url req 0 1024
  let reqBuf ← runCalls p.calls (List.replicate 1024 0)
  let sent ← copyOut reqBuf p.written 0
  match ← httpReceived answers with
  | none => return (sent, none)
  | some buf =>
    match ← parseTrackerResponse buf with
    | none => return (sent, none)
    | some content =>
      let mem := content.mem.drop content.offset
      return (sent, some (← parseContent sha1 fuel seeds mem res))

/-- `https_announce(url, req)`, where the buffer holds `reqBuf` before, `malloc`
returns `res` and the transfer brings the body in these pieces (`none`: it fails).
The URL that libcurl is given, and the response. -/
def httpsAnnounce (curlEasyEscape sha1 : List UInt8 → List UInt8) (fuel : Nat)
    (seeds : Nat → TableSeed) (url : Url) (req : TrackerRequest) (reqBuf : List UInt8)
    (transfer : Option (List (List UInt8))) (res : ResponseMemory) :
    Except Fault (List UInt8 × Option ResponseMemory) := do
  let p := buildHttpsUrl curlEasyEscape url req
  let reqBuf ← runCalls p.calls reqBuf
  -- `req_buf[nb] = 0`
  if reqBuf.length ≤ p.written then .error .outOfBounds
  else
    let curlUrl ← stringAt (reqBuf.set p.written 0) 0
    match transfer with
    | none => return (curlUrl, none)
    | some pieces =>
      match ← httpsReceived pieces with
      | none => return (curlUrl, none)
      | some response => return (curlUrl, some (← parseContent sha1 fuel seeds response.data res))

/-! ## The request -/

section Request

variable {curlEasyEscape : List UInt8 → List UInt8}

/-- The text of a request. -/
def requestText (curlEasyEscape : List UInt8 → List UInt8) (url : Url) (req : TrackerRequest) :
    List UInt8 :=
  ascii "GET /" ++ url.path ++ httpQuery curlEasyEscape req ++ ascii " HTTP/1.1\r\n" ++ hostLine url

theorem length_requestText (url : Url) (req : TrackerRequest) :
    (requestText curlEasyEscape url req).length =
      5 + url.path.length + (httpQuery curlEasyEscape req).length + 11 +
        (10 + url.host.length) := by
  have hversion : (ascii " HTTP/1.1\r\n").length = 11 := by decide
  rw [requestText, List.length_append, List.length_append, List.length_append, length_pathText,
    hversion, length_hostLine]

/-- A text behind those that are printed at the start of a buffer. -/
theorem write_behind {printed room text : List UInt8} {bufsize written : Nat}
    (hwritten : written = printed.length) (hmem : printed.length + room.length = bufsize)
    (hroom : printed.length + text.length < bufsize) (hsize : bufsize < 2 ^ 31) :
    ∃ room', PrintCall.write ⟨0, bufsize, written, text⟩ (printed ++ room) =
        .ok (printed ++ text ++ 0 :: room') ∧
      (printed ++ text).length + (0 :: room').length = bufsize := by
  have hwrite := @PrintCall.write_eq ⟨0, bufsize, written, text⟩ [] printed room rfl hwritten
    (Nat.le_of_eq hmem.symm) hroom (by rw [List.length_nil]; simp only; omega)
  refine ⟨room.drop (text.length + 1), hwrite, ?_⟩
  rw [List.length_append, List.length_cons, List.length_drop]
  omega

/-- A text and the query behind it. -/
theorem query_behind {req : TrackerRequest} {front mem : List UInt8} {bufsize : Nat}
    (hmem : mem.length = bufsize) (hsize : bufsize < 2 ^ 31)
    (hroom : front.length + (httpQuery curlEasyEscape req).length < bufsize) :
    ∃ room, runCalls ([⟨0, bufsize, 0, front⟩] ++
          callsFrom front.length (sizeSub bufsize front.length) 0 (queryTexts curlEasyEscape req))
          mem = .ok (front ++ httpQuery curlEasyEscape req ++ 0 :: room) ∧
      (front ++ httpQuery curlEasyEscape req).length + (0 :: room).length = bufsize := by
  obtain ⟨room₁, hfirst, hleft₁⟩ := @write_behind [] mem front bufsize 0 rfl
    (by rw [List.length_nil, Nat.zero_add, hmem]) (by rw [List.length_nil]; omega) hsize
  simp only [List.nil_append] at hfirst hleft₁
  have hquery : (queryTexts curlEasyEscape req).flatten = httpQuery curlEasyEscape req := rfl
  obtain ⟨room₂, hsecond⟩ := @runCalls_printed (queryTexts curlEasyEscape req)
    (by simp [queryTexts]) (bufsize - front.length) front (by omega) [] (0 :: room₁)
    (by rw [List.length_nil]; omega) (by rw [hquery, List.length_nil]; omega)
  have hleft₂ := length_runCalls hsecond
  rw [List.nil_append, List.nil_append, hquery, ← List.append_assoc] at hsecond hleft₂
  rw [List.length_nil] at hsecond
  have hleft : sizeSub bufsize front.length = bufsize - front.length :=
    sizeSub_of_le (by omega) (by omega)
  refine ⟨room₂, ?_, ?_⟩
  · rw [runCalls_append, runCalls_singleton, hfirst, ok_bind, hleft, hsecond]
  · rw [← hleft₁, ← List.length_append, hleft₂, List.length_append]

/-- A request that there is room for stands in the buffer, and its length is
returned. -/
theorem buildHttpRequest_written (hescape : EscapesAsDocumented curlEasyEscape)
    {req : TrackerRequest} (hsized : req.Sized) {url : Url} {mem : List UInt8} {bufsize : Nat}
    (hmem : mem.length = bufsize) (hsize : bufsize < 2 ^ 31)
    (hroom : (requestText curlEasyEscape url req).length < bufsize) :
    (buildHttpRequest curlEasyEscape url req 0 bufsize).written =
        (requestText curlEasyEscape url req).length ∧
      ∃ room, runCalls (buildHttpRequest curlEasyEscape url req 0 bufsize).calls mem =
        .ok (requestText curlEasyEscape url req ++ 0 :: room) := by
  have hlength := @length_requestText curlEasyEscape url req
  rw [hlength] at hroom
  obtain ⟨head, hhead⟩ : ∃ head, head = 5 + url.path.length +
    (httpQuery curlEasyEscape req).length := ⟨_, rfl⟩
  obtain ⟨get, hget⟩ : ∃ get, get = ascii "GET /" ++ url.path := ⟨_, rfl⟩
  have hgetLength : get.length = 5 + url.path.length := by rw [hget, length_pathText]
  have hheadLength : head = (get ++ httpQuery curlEasyEscape req).length := by
    rw [List.length_append]
    omega
  have hversion : (ascii " HTTP/1.1\r\n").length = 11 := by decide
  rw [buildHttpRequest_calls hescape hsized (by omega) bufsize head hhead, ← hget, ← hgetLength]
  refine ⟨?_, ?_⟩
  · have hhost : 10 + url.host.length < 2 ^ 31 := by omega
    simp only [PrintCall.result, length_hostLine, if_pos hhost]
    rw [Nat.mod_eq_of_lt (by omega)]
    omega
  · -- one text behind the other
    obtain ⟨room₁, hfront, hleft₁⟩ := @query_behind curlEasyEscape req get mem bufsize hmem
      hsize (by omega)
    obtain ⟨room₂, hthird, hleft₂⟩ := @write_behind (get ++ httpQuery curlEasyEscape req)
      (0 :: room₁) (ascii " HTTP/1.1\r\n") bufsize head hheadLength hleft₁
      (by rw [hversion]; omega) hsize
    obtain ⟨room₃, hfourth, -⟩ := @write_behind
      (get ++ httpQuery curlEasyEscape req ++ ascii " HTTP/1.1\r\n") (0 :: room₂) (hostLine url)
      bufsize (head + 11) (by rw [List.length_append, hversion, ← hheadLength]) hleft₂
      (by rw [List.length_append, hversion, length_hostLine]; omega) hsize
    refine ⟨room₃, ?_⟩
    rw [requestText, ← hget]
    rw [runCalls_append, runCalls_append, hfront, ok_bind, runCalls_singleton, hthird, ok_bind,
      runCalls_singleton, hfourth]

/-- The URL of a request over HTTPS. -/
def httpsUrlText (curlEasyEscape : List UInt8 → List UInt8) (url : Url) (req : TrackerRequest) :
    List UInt8 :=
  ascii "https://" ++ url.host ++ ascii ":" ++ decimal url.port.toNat ++ ascii "/" ++ url.path ++
    httpQuery curlEasyEscape req

theorem buildHttpsUrl_written (hescape : EscapesAsDocumented curlEasyEscape)
    {req : TrackerRequest} (hsized : req.Sized) {url : Url} {mem : List UInt8}
    (hmem : mem.length = 1024) (hroom : (httpsUrlText curlEasyEscape url req).length < 1024) :
    (buildHttpsUrl curlEasyEscape url req).written =
        (httpsUrlText curlEasyEscape url req).length ∧
      ∃ room, runCalls (buildHttpsUrl curlEasyEscape url req).calls mem =
        .ok (httpsUrlText curlEasyEscape url req ++ 0 :: room) := by
  obtain ⟨front, hfront⟩ : ∃ front, front = ascii "https://" ++ url.host ++ ascii ":" ++
    decimal url.port.toNat ++ ascii "/" ++ url.path := ⟨_, rfl⟩
  have htext : httpsUrlText curlEasyEscape url req = front ++ httpQuery curlEasyEscape req := by
    rw [httpsUrlText, hfront]
  rw [htext, List.length_append] at hroom
  have hprint : (Printer.start 0 1024).print front =
      ⟨0, 1024, front.length, [⟨0, 1024, 0, front⟩]⟩ := by
    rw [print_eq (by omega) (by simp only [Printer.start]; omega)]
    simp [Printer.start]
  have hmod : (0 + front.length) % 2 ^ 64 = front.length := by
    rw [Nat.zero_add, Nat.mod_eq_of_lt (by omega)]
  have hmod' : (front.length + (httpQuery curlEasyEscape req).length) % 2 ^ 64 =
      front.length + (httpQuery curlEasyEscape req).length := Nat.mod_eq_of_lt (by omega)
  have hcalls : buildHttpsUrl curlEasyEscape url req =
      ⟨0, 1024, front.length + (httpQuery curlEasyEscape req).length,
        [⟨0, 1024, 0, front⟩] ++ callsFrom front.length (sizeSub 1024 front.length) 0
          (queryTexts curlEasyEscape req)⟩ := by
    simp only [buildHttpsUrl, ← hfront, hprint, Printer.call, hmod,
      buildHttpUrl_calls hescape hsized, hmod']
  obtain ⟨room, hrun, -⟩ := @query_behind curlEasyEscape req front mem 1024 hmem
    (by decide) hroom
  rw [hcalls, htext]
  exact ⟨List.length_append.symm, room, hrun⟩

end Request

/-! ## The announce -/

/-- A reply that the parser can read and `parse_content` can interpret. -/
structure GoodReply (es : List (List UInt8 × Value)) : Prop where
  wf : (Value.dict es).wf = true
  longInts : (Value.dict es).longInts = true
  longInfos : (Value.dict es).longInfos = true
  readable : ReplyReadable (replyOf es)

theorem GoodReply.interprets {es : List (List UInt8 × Value)} (h : GoodReply es)
    (hlength : (encode (.dict es)).length < 2 ^ 63) (sha1 : List UInt8 → List UInt8)
    (after : List UInt8) :
    AlwaysInterprets sha1 (encode (.dict es) ++ 0 :: after) (replyFields (replyOf es)) :=
  (alwaysInterprets_iff sha1 h.wf h.longInts hlength).mpr ⟨h.longInfos, h.readable, rfl⟩

/-- The head of a response that the client accepts. -/
structure GoodHead (status : List UInt8) (headers : List (List UInt8)) : Prop where
  ok : http11Ok <+: status ∨ http10Ok <+: status
  status : IsLine status
  nonempty : headers ≠ []
  headers : ∀ h ∈ headers, h ≠ [] ∧ IsLine h

/-- The content of a response that was received is interpreted as the reply. -/
theorem GoodHead.interprets {status : List UInt8} {headers : List (List UInt8)}
    {es : List (List UInt8 × Value)} (h : GoodHead status headers) (hreply : GoodReply es)
    {text : List UInt8} (htext : text = responseHead status headers ++ encode (.dict es))
    (hlength : text.length < 2048) (sha1 : List UInt8 → List UInt8) :
    ∃ content, parseTrackerResponse (text ++ List.replicate (2048 - text.length) 0) =
        .ok (some content) ∧
      AlwaysInterprets sha1 (content.mem.drop content.offset) (replyFields (replyOf es)) := by
  obtain ⟨room, hroom⟩ : ∃ room, 2048 - text.length = room + 1 :=
    ⟨2048 - text.length - 1, by omega⟩
  have hbody : (encode (.dict es)).length < 2 ^ 63 := by
    rw [htext, List.length_append] at hlength
    omega
  obtain ⟨content, hcontent, -, hmem⟩ := parseTrackerResponse_locates h.ok h.status h.nonempty
    h.headers (encode (.dict es) ++ 0 :: List.replicate room 0)
  refine ⟨content, ?_, ?_⟩
  · rw [hroom, List.replicate_succ, htext, List.append_assoc, hcontent]
  · rw [hmem]
    exact hreply.interprets hbody sha1 _

/-- **An announce over HTTP.** A request that there is room for is sent as a whole,
and a response, in whatever chunks it arrives, gives the fields of the reply. -/
theorem httpAnnounce_reads {curlEasyEscape : List UInt8 → List UInt8}
    (hescape : EscapesAsDocumented curlEasyEscape) {req : TrackerRequest} (hsized : req.Sized)
    {url : Url} (hrequest : (requestText curlEasyEscape url req).length < 1024)
    {status : List UInt8} {headers : List (List UInt8)} {es : List (List UInt8 × Value)}
    (hhead : GoodHead status headers) (hreply : GoodReply es) {chunks : List (List UInt8)}
    (hne : ∀ c ∈ chunks, c ≠ [])
    (hchunks : chunks.flatten = responseHead status headers ++ encode (.dict es))
    (hlength : chunks.flatten.length < 2048) (later : List StreamRecv)
    (sha1 : List UInt8 → List UInt8) (seeds : Nat → TableSeed) :
    ∃ fuel₀, ∀ fuel, fuel₀ ≤ fuel → ∀ res, ∃ res',
      httpAnnounce curlEasyEscape sha1 fuel seeds url req
          (chunks.map .data ++ .closed :: later) res =
        .ok (requestText curlEasyEscape url req, some res') ∧
      res'.toReplyFields = replyFields (replyOf es) := by
  obtain ⟨hwritten, room, hrun⟩ := @buildHttpRequest_written curlEasyEscape hescape req hsized url
    (List.replicate 1024 0) 1024 List.length_replicate (by decide) hrequest
  have hsent : copyOut (requestText curlEasyEscape url req ++ 0 :: room)
      (requestText curlEasyEscape url req).length 0 = .ok (requestText curlEasyEscape url req) := by
    rw [copyOut_eq_slice _ _ _ (by rw [List.length_append]; omega), slice, List.drop_zero,
      List.take_left]
  obtain ⟨content, hcontent, halways⟩ := hhead.interprets hreply hchunks hlength sha1
  obtain ⟨fuel₀, hfuel₀⟩ := halways seeds
  refine ⟨fuel₀, fun fuel hfuel res => ?_⟩
  obtain ⟨res', hread, hfields⟩ := hfuel₀ fuel hfuel res
  refine ⟨res', ?_, hfields⟩
  simp only [httpAnnounce, hrun, ok_bind, hwritten, hsent, httpReceived_closed hne hlength later,
    hcontent, hread, pure_is_ok]

theorem httpsUrlText_nulFree {curlEasyEscape : List UInt8 → List UInt8}
    (hescape : EscapesAsDocumented curlEasyEscape) (req : TrackerRequest) {url : Url}
    (hhost : 0 ∉ url.host) (hpath : 0 ∉ url.path) :
    0 ∉ httpsUrlText curlEasyEscape url req := by
  have hscheme : 0 ∉ ascii "https://" := by decide
  have hcolon : 0 ∉ ascii ":" := by decide
  have hslash : 0 ∉ ascii "/" := by decide
  have hport : 0 ∉ decimal url.port.toNat := fun h => (plain_decimal _ 0 h).1 rfl
  have hquery := httpQuery_nulFree hescape req
  simp only [httpsUrlText, List.mem_append, not_or]
  exact ⟨⟨⟨⟨⟨⟨hscheme, hhost⟩, hcolon⟩, hport⟩, hslash⟩, hpath⟩, hquery⟩

/-- **An announce over HTTPS.** A URL that there is room for is given to libcurl as
a whole, and a readable reply gives its fields, if the body comes in one piece. -/
theorem httpsAnnounce_reads {curlEasyEscape : List UInt8 → List UInt8}
    (hescape : EscapesAsDocumented curlEasyEscape) {req : TrackerRequest} (hsized : req.Sized)
    {url : Url} (hhost : 0 ∉ url.host) (hpath : 0 ∉ url.path)
    (hurl : (httpsUrlText curlEasyEscape url req).length < 1024) {reqBuf : List UInt8}
    (hbuf : reqBuf.length = 1024) {es : List (List UInt8 × Value)} (hreply : GoodReply es)
    (hlength : (encode (.dict es)).length < 4096) {pieces : List (List UInt8)}
    (hpieces : ∀ p ∈ pieces, p = []) (sha1 : List UInt8 → List UInt8)
    (seeds : Nat → TableSeed) :
    ∃ fuel₀, ∀ fuel, fuel₀ ≤ fuel → ∀ res, ∃ res',
      httpsAnnounce curlEasyEscape sha1 fuel seeds url req reqBuf
          (some (pieces ++ [encode (.dict es)])) res =
        .ok (httpsUrlText curlEasyEscape url req, some res') ∧
      res'.toReplyFields = replyFields (replyOf es) := by
  obtain ⟨hwritten, room, hrun⟩ := @buildHttpsUrl_written curlEasyEscape hescape req hsized url
    reqBuf hbuf hurl
  have hset : (httpsUrlText curlEasyEscape url req ++ 0 :: room).set
      (httpsUrlText curlEasyEscape url req).length 0 =
        httpsUrlText curlEasyEscape url req ++ 0 :: room := by
    rw [List.set_append_right _ _ (Nat.le_refl _), Nat.sub_self, List.set_cons_zero]
  have hinside : ¬ (httpsUrlText curlEasyEscape url req ++ 0 :: room).length ≤
      (httpsUrlText curlEasyEscape url req).length := by
    rw [List.length_append, List.length_cons]
    omega
  have hstring : stringAt (httpsUrlText curlEasyEscape url req ++ 0 :: room) 0 =
      .ok (httpsUrlText curlEasyEscape url req) :=
    stringAt_append (httpsUrlText_nulFree hescape req hhost hpath) [] room
  -- the body, with zeros behind it
  obtain ⟨zeros, hzeros⟩ : ∃ zeros, 4096 - (encode (.dict es)).length = zeros + 1 :=
    ⟨4096 - (encode (.dict es)).length - 1, by omega⟩
  have hreceived : httpsReceived (pieces ++ [encode (.dict es)]) =
      .ok (some ⟨encode (.dict es) ++ 0 :: List.replicate zeros 0,
        (encode (.dict es)).length⟩) := by
    have hwhole := received_of_empty hpieces (Nat.le_of_lt hlength)
    rwa [ReceivedWhole, flatten_of_empty hpieces, hzeros, List.replicate_succ] at hwhole
  obtain ⟨fuel₀, hfuel₀⟩ := hreply.interprets (by omega) sha1 (List.replicate zeros 0) seeds
  refine ⟨fuel₀, fun fuel hfuel res => ?_⟩
  obtain ⟨res', hread, hfields⟩ := hfuel₀ fuel hfuel res
  refine ⟨res', ?_, hfields⟩
  simp only [httpsAnnounce, hrun, ok_bind, hwritten, if_neg hinside, hset, hstring, hreceived,
    hread, pure_is_ok]

end BtClient

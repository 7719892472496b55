import BtClient.Tracker.Http

/-!
# The HTTPS tracker (`tracker/https/tracker_https.c`)

libcurl does the transfer and hands the body to `write_callback`, in as many
pieces as it likes. The callback copies a piece to the start of the data and
makes its length the size: of a body that comes in pieces, the last piece is
what counts.
-/

namespace BtClient

open CLib

/-- The URL `https_announce` prints into its buffer of 1024 bytes. -/
def buildHttpsUrl (curlEasyEscape : List UInt8 → List UInt8) (url : Url) (req : TrackerRequest) :
    Printer :=
  let p := Printer.start 0 1024
  let p := p.print (ascii "https://" ++ url.host ++ ascii ":" ++ decimal url.port.toNat ++
    ascii "/" ++ url.path)
  p.call fun buff bufsize => (buildHttpUrl curlEasyEscape req buff bufsize).1

/-- `curl_response_t`. -/
structure CurlResponse where
  data : List UInt8
  size : Nat
  deriving DecidableEq, Repr

/-- `curl_response_t response = {0}`. -/
def CurlResponse.zero : CurlResponse := ⟨List.replicate 4096 0, 0⟩

/-- `write_callback(ptr, size, nmemb, userdata)`: what it returns, and the response
after it. -/
def writeCallback (ptr : List UInt8) (size nmemb : Nat) (res : CurlResponse) :
    Except Fault (Nat × CurlResponse) := do
  let res := { res with size := size * nmemb % 2 ^ 64 }
  check (res.size ≤ 4096)
  let res := { res with data := splice res.data 0 (ptr.take res.size) }
  return (res.size, res)

/-- `curl_easy_perform`, as far as it concerns the body: the callback gets the
pieces with `size` 1, and the transfer fails if it does not take all of one. -/
def curlTransfer : List (List UInt8) → CurlResponse → Except Fault (Option CurlResponse)
  | [], res => .ok (some res)
  | piece :: pieces, res => do
    let (taken, res) ← writeCallback piece 1 piece.length res
    if taken ≠ piece.length then return none
    curlTransfer pieces res

/-- What `parse_content` is given after a transfer that brings the body in these
pieces. -/
def httpsReceived (pieces : List (List UInt8)) : Except Fault (Option CurlResponse) :=
  curlTransfer pieces .zero

/-- The body as it is received in one piece. -/
def ReceivedWhole (pieces : List (List UInt8)) : Prop :=
  httpsReceived pieces = .ok (some
    ⟨pieces.flatten ++ List.replicate (4096 - pieces.flatten.length) 0, pieces.flatten.length⟩)

/-! ## One piece -/

/-- The callback forgets what it was given before. -/
theorem writeCallback_eq {piece : List UInt8} (hpiece : piece.length ≤ 4096) (res : CurlResponse) :
    writeCallback piece 1 piece.length res =
      .ok (piece.length, ⟨splice res.data 0 piece, piece.length⟩) := by
  have hsize : 1 * piece.length % 2 ^ 64 = piece.length := by
    rw [Nat.one_mul, Nat.mod_eq_of_lt (by omega)]
  simp only [writeCallback, hsize, check_of (decide_eq_true hpiece), ok_bind, List.take_length,
    pure_is_ok]

theorem curlTransfer_cons {piece : List UInt8} (hpiece : piece.length ≤ 4096)
    (pieces : List (List UInt8)) (res : CurlResponse) :
    curlTransfer (piece :: pieces) res =
      curlTransfer pieces ⟨splice res.data 0 piece, piece.length⟩ := by
  simp only [curlTransfer, writeCallback_eq hpiece, ok_bind, ne_eq, not_true_eq_false, if_false]

/-! ## A body in pieces -/

/-- The size is that of the last piece. -/
theorem curlTransfer_size {pieces : List (List UInt8)} (hpieces : ∀ p ∈ pieces, p.length ≤ 4096)
    {last : List UInt8} (hlast : last.length ≤ 4096) :
    ∀ res, ∃ data, curlTransfer (pieces ++ [last]) res = .ok (some ⟨data, last.length⟩) := by
  induction pieces with
  | nil =>
    intro res
    exact ⟨splice res.data 0 last, curlTransfer_cons hlast [] res⟩
  | cons piece pieces ih =>
    intro res
    rw [List.cons_append, curlTransfer_cons (hpieces piece (by simp))]
    exact ih (fun p hp => hpieces p (by simp [hp])) _

/-- Empty pieces leave the data as they are. -/
theorem curlTransfer_empty {pieces : List (List UInt8)} (hpieces : ∀ p ∈ pieces, p = [])
    {last : List UInt8} (hlast : last.length ≤ 4096) :
    ∀ res, curlTransfer (pieces ++ [last]) res =
      .ok (some ⟨splice res.data 0 last, last.length⟩) := by
  induction pieces with
  | nil =>
    intro res
    exact curlTransfer_cons hlast [] res
  | cons piece pieces ih =>
    intro res
    have hempty := hpieces piece (by simp)
    subst hempty
    rw [List.cons_append, curlTransfer_cons (Nat.zero_le _), splice_nil]
    exact ih (fun p hp => hpieces p (by simp [hp])) _

theorem flatten_of_empty {pieces : List (List UInt8)} (hpieces : ∀ p ∈ pieces, p = [])
    (last : List UInt8) : (pieces ++ [last]).flatten = last := by
  rw [List.flatten_append, List.flatten_eq_nil_iff.mpr hpieces, List.nil_append,
    List.flatten_singleton]

/-- A body that comes in one piece, behind empty ones at most, is there. -/
theorem received_of_empty {pieces : List (List UInt8)} (hpieces : ∀ p ∈ pieces, p = [])
    {last : List UInt8} (hlast : last.length ≤ 4096) : ReceivedWhole (pieces ++ [last]) := by
  have hsplice : splice (List.replicate 4096 0) 0 last =
      last ++ List.replicate (4096 - last.length) 0 := by
    rw [splice, List.take_zero, List.nil_append, Nat.zero_add, List.drop_replicate]
  rw [ReceivedWhole, httpsReceived, flatten_of_empty hpieces, curlTransfer_empty hpieces hlast,
    CurlResponse.zero, hsplice]

/-- **HTTPS reception.** A body of at most 4095 bytes, in one piece or more, is
received whole exactly if all pieces but the last are empty. -/
theorem https_received_iff {pieces : List (List UInt8)} (hne : pieces ≠ [])
    (hbody : pieces.flatten.length ≤ 4095) :
    ReceivedWhole pieces ↔ ∀ p ∈ pieces.dropLast, p = [] := by
  obtain ⟨before, last, rfl⟩ : ∃ before last, pieces = before ++ [last] :=
    ⟨pieces.dropLast, pieces.getLast hne, (List.dropLast_append_getLast hne).symm⟩
  have hflatten : (before ++ [last]).flatten = before.flatten ++ last := by simp
  rw [List.dropLast_concat]
  rw [hflatten, List.length_append] at hbody
  have hlast : last.length ≤ 4096 := by omega
  constructor
  · intro hwhole
    have hsmall : ∀ p ∈ before, p.length ≤ 4096 := by
      intro p hp
      have hle := (List.sublist_flatten_of_mem hp).length_le
      omega
    obtain ⟨data, hdata⟩ := curlTransfer_size hsmall hlast .zero
    rw [ReceivedWhole, httpsReceived, hdata, hflatten, List.length_append] at hwhole
    have hsize : last.length = before.flatten.length + last.length := by
      simpa using congrArg (Option.map CurlResponse.size) (Except.ok.inj hwhole)
    have hnil : before.flatten = [] := List.eq_nil_of_length_eq_zero (by omega)
    exact fun p hp => List.flatten_eq_nil_iff.mp hnil p hp
  · exact fun hempty => received_of_empty hempty hlast

/-- One piece. -/
theorem https_received_one : ReceivedWhole [[100, 101]] :=
  (https_received_iff (by simp) (by decide)).mpr (by simp)

/-- Two bytes in two pieces: the size is one. -/
theorem https_pieces_lost :
    (∃ data, httpsReceived [[100], [101]] = .ok (some ⟨101 :: data, 1⟩)) ∧
      ¬ ReceivedWhole [[100], [101]] := by
  have hrun : ∃ data, httpsReceived [[100], [101]] = .ok (some ⟨101 :: data, 1⟩) := by
    refine ⟨(splice CurlResponse.zero.data 0 [100]).drop 1, ?_⟩
    rw [httpsReceived, curlTransfer_cons (by decide), curlTransfer_cons (by decide)]
    rfl
  refine ⟨hrun, fun hwhole => ?_⟩
  obtain ⟨data, hdata⟩ := hrun
  rw [ReceivedWhole, hdata] at hwhole
  have hsize : 1 = 2 := congrArg (fun r => (r.map CurlResponse.size).getD 0) (Except.ok.inj hwhole)
  omega

end BtClient

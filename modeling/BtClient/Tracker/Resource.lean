import BtClient.Tracker.HttpRequest
import BtClient.Tracker.Https
import BtClient.Url.Parts

/-!
# The resource that is asked for

Both request builders put the path of the URL behind a `/` and the query behind
the path. So the tracker is asked for what the torrent names if the path is all
that stands behind the authority. It is the first token of that, and one token
is all of it only if there is nothing to cut at.
-/

namespace BtClient

open CLib

/-- The URL has `text` for its path, and both builders print it. -/
structure NamesResource (url : Url) (text : List UInt8) : Prop where
  path : url.path = text
  http : ∀ curlEasyEscape req bufsize,
    (buildHttpRequest curlEasyEscape url req 0 bufsize).printed =
      ascii "GET /" ++ text ++ httpQuery curlEasyEscape req ++ ascii " HTTP/1.1\r\n" ++ hostLine url
  https : ∀ curlEasyEscape req,
    (buildHttpsUrl curlEasyEscape url req).printed =
      ascii "https://" ++ url.host ++ ascii ":" ++ decimal url.port.toNat ++ ascii "/" ++ text ++
        httpQuery curlEasyEscape req

theorem buildHttpUrl_printed (curlEasyEscape : List UInt8 → List UInt8) (req : TrackerRequest)
    (buff bufsize : Nat) :
    (buildHttpUrl curlEasyEscape req buff bufsize).1.printed = httpQuery curlEasyEscape req := by
  rw [buildHttpUrl_eq, printed_printAll, printed_start, List.nil_append, httpQuery]

/-- The builders use the path as it is. -/
theorem namesResource_path (url : Url) : NamesResource url url.path := by
  refine ⟨rfl, fun curlEasyEscape req bufsize => ?_, fun curlEasyEscape req => ?_⟩
  · simp only [buildHttpRequest, printed_print, printed_call, printed_start,
      buildHttpUrl_printed, List.nil_append, hostLine]
  · simp only [buildHttpsUrl, printed_print, printed_call, printed_start, buildHttpUrl_printed,
      List.nil_append]

/-- **The path of a tracker URL.** For any authority and any text behind the `/`
that ends it, the URL read names the resource exactly if the text has neither
`:` nor `/`. -/
theorem url_path_whole_iff (a : Authority) {text : List UInt8} (htext : 0 ∉ text)
    (after : List UInt8) :
    (∃ url, urlFromString (a.text ++ (47 :: text ++ 0 :: after)) = .ok url ∧
      NamesResource url text) ↔ ∀ c ∈ text, c ≠ 58 ∧ c ≠ 47 := by
  have hread : urlFromString (a.text ++ (47 :: text ++ 0 :: after)) =
      .ok ⟨a.protocol, a.host, a.portNumber, firstWord urlDelims text⟩ :=
    urlFromString_reads a (.path text) htext after
  have hdelims : ∀ c, c ∉ urlDelims ↔ c ≠ 58 ∧ c ≠ 47 := by
    intro c
    rw [mem_urlDelims, not_or]
  rw [hread]
  constructor
  · rintro ⟨url, hurl, hnames⟩ c hc
    cases hurl
    have hpath : firstWord urlDelims text = text := hnames.path
    exact (hdelims c).mp (firstWord_eq_self_iff.mp hpath c hc)
  · intro hplain
    have hpath : firstWord urlDelims text = text :=
      firstWord_eq_self_iff.mpr fun c hc => (hdelims c).mpr (hplain c hc)
    refine ⟨_, rfl, ?_⟩
    have hnames := namesResource_path ⟨a.protocol, a.host, a.portNumber, firstWord urlDelims text⟩
    rwa [hpath] at hnames ⊢

/-- A path of one segment. -/
theorem url_path_whole_announce :
    ∃ url, urlFromString (ascii "http://a/announce?x=1" ++ [0]) = .ok url ∧
      NamesResource url (ascii "announce?x=1") := by
  have hplain : ((ascii "announce?x=1").all fun c => c != 58 && c != 47) = true := by decide
  refine (@url_path_whole_iff ⟨.http, by decide, ascii "a", isWord_of_check (by decide), none⟩
    (ascii "announce?x=1") (by decide) []).mpr fun c hc => ?_
  simpa using List.all_eq_true.mp hplain c hc

/-- A path of two segments: the second one is lost. -/
theorem url_path_second_segment_lost :
    urlFromString (ascii "http://a/x/announce" ++ [0]) = .ok ⟨.http, ascii "a", 80, ascii "x"⟩ ∧
      ¬ ∃ url, urlFromString (ascii "http://a/x/announce" ++ [0]) = .ok url ∧
        NamesResource url (ascii "x/announce") := by
  have hread : urlFromString (ascii "http://a/x/announce" ++ [0]) =
      .ok ⟨.http, ascii "a", 80, ascii "x"⟩ := by decide +kernel
  refine ⟨hread, ?_⟩
  rintro ⟨url, hurl, hnames⟩
  rw [hread] at hurl
  cases hurl
  exact absurd hnames.path (by decide)

end BtClient

import BtClient.Tracker.Announce

/-!
# Both sides of an announce over HTTP

A tracker is a function from what it reads off the request to the dictionary of
its reply. An announce is then an exchange between two parties: the tracker
reads back the request the client was given, and the client returns the fields
of the reply that the tracker made for it.
-/

namespace BtClient

open CLib

/-- What a tracker reads: the path and the query of the target of a `GET`. -/
def readRequest (text : List UInt8) : Option (List UInt8 × QueryFields) :=
  if ascii "GET /" <+: text then
    let target := (text.drop 5).takeWhile (· != 32)
    (readQuery ((target.dropWhile (· != 63)).drop 1)).map fun fields =>
      (target.takeWhile (· != 63), fields)
  else none

section Read

variable {curlEasyEscape : List UInt8 → List UInt8}

/-- The query ends where the version begins. -/
theorem httpQuery_noSpace (hescape : EscapesAsDocumented curlEasyEscape) (req : TrackerRequest) :
    32 ∉ httpQuery curlEasyEscape req := by
  intro hspace
  obtain ⟨t, ht, hmem⟩ := List.mem_flatten.mp hspace
  have hescaped : ∀ bytes, 32 ∉ curlEasyEscape bytes := by
    intro bytes h
    rw [hescape bytes] at h
    rcases mem_percentEncode h with hunreserved | hpercent
    · cases hunreserved
    · cases hpercent
  have hnumber : ∀ (name : List UInt8) (n : Nat), 32 ∉ name → 32 ∉ name ++ decimal n := by
    intro name n hname h
    rcases List.mem_append.mp h with h | h
    · exact hname h
    · cases isdigit_of_mem_decimal h
  rcases List.mem_append.mp ht with hfield | hcompact
  · simp only [List.mem_cons, List.not_mem_nil, or_false] at hfield
    rcases hfield with rfl | rfl | rfl | rfl | rfl | rfl | rfl | rfl
    · exact absurd hmem (by decide)
    · exact hescaped _ hmem
    · exact absurd hmem (by decide)
    · exact hescaped _ hmem
    · exact hnumber _ _ (by decide) hmem
    · exact hnumber _ _ (by decide) hmem
    · exact hnumber _ _ (by decide) hmem
    · exact hnumber _ _ (by decide) hmem
  · split at hcompact
    · rw [List.mem_singleton.mp hcompact] at hmem
      exact absurd hmem (by decide)
    · cases hcompact

/-- **The tracker reads the request back.** -/
theorem readRequest_requestText (hescape : EscapesAsDocumented curlEasyEscape) {url : Url}
    (hspace : 32 ∉ url.path) (hquestion : 63 ∉ url.path) (req : TrackerRequest) :
    readRequest (requestText curlEasyEscape url req) = some (url.path, req.fields) := by
  obtain ⟨query, hquery, hread⟩ : ∃ query, httpQuery curlEasyEscape req = 63 :: query ∧
      readQuery query = some req.fields :=
    ⟨_, httpQuery_eq hescape req, readQuery_intercalate req⟩
  have hversion : ascii " HTTP/1.1\r\n" = 32 :: ascii "HTTP/1.1\r\n" := by decide
  obtain ⟨rest, htext⟩ : ∃ rest, requestText curlEasyEscape url req =
      ascii "GET /" ++ ((url.path ++ 63 :: query) ++ 32 :: rest) := by
    refine ⟨ascii "HTTP/1.1\r\n" ++ hostLine url, ?_⟩
    rw [requestText, hquery, hversion]
    simp only [List.append_assoc, List.cons_append]
  have htarget : ∀ c ∈ url.path ++ 63 :: query, (c != 32) = true := by
    intro c hc
    rw [bne_iff_ne]
    rintro rfl
    have hnone := httpQuery_noSpace hescape req
    rw [hquery] at hnone
    exact (List.mem_append.mp hc).elim hspace hnone
  have hpath : ∀ c ∈ url.path, (c != 63) = true := by
    intro c hc
    rw [bne_iff_ne]
    rintro rfl
    exact hquestion hc
  have hdrop : (ascii "GET /" ++ ((url.path ++ 63 :: query) ++ 32 :: rest)).drop 5 =
      (url.path ++ 63 :: query) ++ 32 :: rest := List.drop_left' (by decide)
  rw [readRequest, htext, if_pos (List.prefix_append _ _), hdrop,
    List.takeWhile_append_of_pos htarget, List.takeWhile_cons_of_neg (by decide), List.append_nil]
  simp only
  rw [List.dropWhile_append_of_pos hpath, List.dropWhile_cons_of_neg (by decide),
    List.takeWhile_append_of_pos hpath, List.takeWhile_cons_of_neg (by decide), List.append_nil,
    List.drop_succ_cons, List.drop_zero, hread, Option.map_some]

end Read

/-- A tracker that always names the peer `10.0.0.1:6881`. -/
def soleTracker (_ : List UInt8) (_ : QueryFields) : List (List UInt8 × Value) :=
  [(completeKey, .int 1), (incompleteKey, .int 0), (intervalKey, .int 1800),
    (peersKey, .str [10, 0, 0, 1, 26, 225])]

theorem soleTracker_good (path : List UInt8) (fields : QueryFields) :
    GoodReply (soleTracker path fields) := by
  refine ⟨by rfl, by rfl, by rfl, rfl, ?_, ?_, ⟨1800, rfl⟩, ⟨1, rfl⟩, ⟨0, rfl⟩, ?_⟩
  · rintro r ⟨⟩
  · rintro r ⟨⟩
  · rintro r ⟨⟩
    exact ⟨rfl, le_refl 6⟩

end BtClient

import BtClient.Tracker.Http

/-!
# Where the body of an HTTP response begins

A response is a status line, header lines and an empty line, each ended by
CR LF, and a body. The tokenizer cuts at LF, so that a token is a line with its
CR, and the empty line is the first token of length one. Cutting a
`Content-Length` line at its colons leaves a name of fourteen characters, not
one, and stays within the line.
-/

namespace BtClient

open CLib

/-- The end of a line. -/
def crlf : List UInt8 := [13, 10]

/-- The text of a line. -/
def IsLine (text : List UInt8) : Prop := 10 ∉ text ∧ 0 ∉ text

/-- The header lines and the empty line. -/
def headerText (headers : List (List UInt8)) : List UInt8 :=
  headers.flatMap (fun header => header ++ crlf) ++ crlf

/-- Everything before the body. -/
def responseHead (status : List UInt8) (headers : List (List UInt8)) : List UInt8 :=
  status ++ crlf ++ headerText headers

theorem headerText_cons (header : List UInt8) (headers : List (List UInt8)) :
    headerText (header :: headers) = header ++ crlf ++ headerText headers := by
  simp [headerText]

theorem length_headers_le (headers : List (List UInt8)) :
    headers.length ≤ (headerText headers).length := by
  induction headers with
  | nil => exact Nat.zero_le _
  | cons header headers ih =>
    have hcrlf : crlf.length = 2 := rfl
    rw [headerText_cons, List.length_append, List.length_append, List.length_cons]
    omega

/-- A line with its CR is a token. -/
theorem isWord_line {text : List UInt8} (h : IsLine text) : IsWord (ascii "\n") (text ++ [13]) := by
  refine ⟨by simp, fun c hc => ?_⟩
  have hlf : c ∈ ascii "\n" ↔ c = 10 := List.mem_singleton
  rcases List.mem_append.mp hc with htext | hcr
  · refine ⟨?_, ?_⟩
    · rintro rfl
      exact h.2 htext
    · rw [hlf]
      rintro rfl
      exact h.1 htext
  · cases List.mem_singleton.mp hcr
    exact ⟨by decide, by decide⟩

/-- The tokenizer takes a line. -/
theorem strtokR_line {text : List UInt8} (h : IsLine text) (pre rest : List UInt8) :
    strtokR (ascii "\n") (pre ++ (text ++ crlf ++ rest)) pre.length =
      .ok ⟨pre ++ (text ++ [13] ++ 0 :: rest), (pre ++ (text ++ [13, 0])).length,
        some pre.length⟩ := by
  have hword := @strtokR_word (ascii "\n") pre [] (text ++ [13]) rest (by decide)
    (List.nil_subset _) (isWord_line h) 10 (by decide)
  simpa [crlf, Nat.add_assoc] using hword

/-! ## The lines of the header -/

/-- The field name and its colon. -/
theorem contentLengthField_eq : contentLengthField = ascii "Content-Length" ++ [58] := rfl

/-- A line that starts with the field name, and what it starts with before its CR. -/
theorem contentLength_line {header rest : List UInt8}
    (h : contentLengthField <+: header ++ [13] ++ rest) :
    ∃ value, header = contentLengthField ++ value := by
  obtain ⟨tail, htail⟩ := h
  rw [List.append_assoc, List.append_eq_append_iff] at htail
  rcases htail with ⟨value, hheader, -⟩ | ⟨value, hfield, hrest⟩
  · exact ⟨value, hheader⟩
  · cases value with
    | nil => exact ⟨[], by rw [hfield, List.append_nil, List.append_nil]⟩
    | cons c value =>
      -- the CR would be a character of the name
      rw [List.singleton_append, List.cons_append] at hrest
      have hcr : 13 ∈ contentLengthField := by
        rw [hfield, (List.cons.inj hrest).1]
        simp
      exact absurd hcr (by decide)

/-- The second tokenizer reads the value of a `Content-Length` line, with its CR,
and ends the line behind its name. -/
theorem readContentLength_field {value : List UInt8} (hzero : 0 ∉ value) (hcr : 13 ∈ value)
    (pre rest : List UInt8) (contentLength : Nat) :
    ∃ value' contentLength',
      readContentLength (pre ++ (contentLengthField ++ value ++ 0 :: rest)) pre.length
          contentLength =
        .ok (pre ++ (ascii "Content-Length" ++ 0 :: (value' ++ 0 :: rest)), contentLength') ∧
      value'.length = value.length := by
  have hcolon : (0 : UInt8) ∉ ascii ":" := by decide
  have hname : IsWord (ascii ":") (ascii "Content-Length") :=
    isWord_of_check (by decide)
  have hstarts : strncmp contentLengthField.length
      ((pre ++ (contentLengthField ++ value ++ 0 :: rest)).drop pre.length)
      contentLengthField = 0 := by
    rw [List.drop_left, strncmp_literal (by decide)]
    exact ⟨value ++ 0 :: rest, by simp⟩
  -- the name
  have hfirst : strtokR (ascii ":") (pre ++ (contentLengthField ++ value ++ 0 :: rest))
      pre.length = .ok ⟨(pre ++ (ascii "Content-Length" ++ [0])) ++ (value ++ 0 :: rest),
        (pre ++ (ascii "Content-Length" ++ [0])).length, some pre.length⟩ := by
    have hword := @strtokR_word (ascii ":") pre [] (ascii "Content-Length")
      (value ++ 0 :: rest) hcolon (List.nil_subset _) hname 58 (by decide)
    simpa [contentLengthField_eq, Nat.add_assoc] using hword
  -- the value: its CR is a byte that is no colon
  obtain ⟨i, save, token, hsecond, -, hsome⟩ := @strtokR_text (ascii ":")
    (pre ++ (ascii "Content-Length" ++ [0])) rest value hcolon hzero
  obtain ⟨k, hk, htoken, -⟩ := hsome (firstWord_ne_nil hcr (by decide))
  have hrest : ((pre ++ (ascii "Content-Length" ++ [0])) ++ (value.set i 0 ++ 0 :: rest)).drop
      ((pre ++ (ascii "Content-Length" ++ [0])).length + k) =
        (value.set i 0).drop k ++ 0 :: rest := by
    rw [List.drop_length_add_append, List.drop_append_of_le_length (by rwa [List.length_set])]
  obtain ⟨n, hn⟩ := strtoul_string ((value.set i 0).drop k) rest
  refine ⟨value.set i 0, n, ?_, List.length_set⟩
  unfold readContentLength
  rw [if_pos hstarts]
  simp only [hfirst, ok_bind, hsecond, Strtok.pointer, htoken, hrest, hn, pure_is_ok]
  simp

/-- The body of the loop leaves what is behind the line, and a line that is not
taken for the empty one. -/
theorem readContentLength_line {header : List UInt8} (hne : header ≠ []) (hzero : 0 ∉ header)
    (pre rest : List UInt8) (contentLength : Nat) :
    ∃ line length contentLength',
      readContentLength (pre ++ (header ++ [13] ++ 0 :: rest)) pre.length contentLength =
        .ok (pre ++ (line ++ 0 :: rest), contentLength') ∧
      line.length = (header ++ [13]).length ∧ strlen (line ++ 0 :: rest) = .ok length ∧
      length ≠ 1 := by
  by_cases hname : strncmp contentLengthField.length
      ((pre ++ (header ++ [13] ++ 0 :: rest)).drop pre.length) contentLengthField = 0
  · rw [List.drop_left, strncmp_literal (by decide)] at hname
    obtain ⟨value, rfl⟩ := contentLength_line hname
    have hvalue : 0 ∉ value ++ [13] := fun h => hzero (List.mem_append_right _ (by simpa using h))
    obtain ⟨value', contentLength', hread, hlength⟩ :=
      readContentLength_field hvalue (by simp) pre rest contentLength
    refine ⟨ascii "Content-Length" ++ 0 :: value', 14, contentLength', ?_, ?_, ?_, by decide⟩
    · rw [List.append_assoc contentLengthField, hread, List.append_assoc, List.cons_append]
    · have hfield : (ascii "Content-Length").length = 14 ∧ contentLengthField.length = 15 := by
        decide
      simp only [List.length_append, List.length_cons, hlength, hfield]
      omega
    · rw [List.append_assoc, List.cons_append]
      exact strlen_append (by decide) _
  · have hline : 0 ∉ header ++ [13] := by simpa using hzero
    refine ⟨header ++ [13], (header ++ [13]).length, contentLength, ?_, rfl,
      strlen_append hline rest, ?_⟩
    · rw [readContentLength, if_neg hname, pure_is_ok]
    · have hpos := List.length_pos_iff.mpr hne
      simp only [List.length_append, List.length_singleton]
      omega

/-- The loop stops at an empty line. -/
theorem headerLines_empty (fuel : Nat) (pre rest : List UInt8) (contentLength : Nat) :
    headerLines (fuel + 1) (pre ++ ([] ++ crlf ++ rest)) pre.length contentLength =
      .ok ⟨pre ++ ([] ++ [13] ++ 0 :: rest), pre.length + 1 + 1, contentLength⟩ := by
  have hempty : IsLine [] := ⟨List.not_mem_nil, List.not_mem_nil⟩
  have hnot : ¬ strncmp contentLengthField.length
      ((pre ++ ([] ++ [13] ++ 0 :: rest)).drop pre.length) contentLengthField = 0 := by
    rw [List.drop_left, strncmp_literal (by decide), contentLengthField_eq]
    exact fun h => absurd (List.cons_prefix_cons.mp h).1 (by decide)
  have hread : readContentLength (pre ++ ([] ++ [13] ++ 0 :: rest)) pre.length contentLength =
      .ok (pre ++ ([] ++ [13] ++ 0 :: rest), contentLength) := by
    rw [readContentLength, if_neg hnot, pure_is_ok]
  have hlength : strlen ([] ++ [13] ++ 0 :: rest) = .ok 1 := strlen_append (by decide) rest
  simp only [headerLines, strtokR_line hempty, ok_bind, Strtok.pointer, hread, List.drop_left,
    hlength]
  rfl

/-- The loop over the header: it stops at the empty line, wherever it is. -/
theorem headerLines_reads {headers : List (List UInt8)}
    (hheaders : ∀ h ∈ headers, h ≠ [] ∧ IsLine h) (rest : List UInt8) :
    ∀ {fuel : Nat}, headers.length < fuel → ∀ (pre : List UInt8) (contentLength : Nat),
      ∃ content, headerLines fuel (pre ++ (headerText headers ++ rest)) pre.length contentLength =
          .ok content ∧
        content.offset = (pre ++ headerText headers).length ∧
        content.mem.drop content.offset = rest := by
  induction headers with
  | nil =>
    intro fuel hfuel pre contentLength
    obtain ⟨fuel, rfl⟩ := Nat.exists_eq_add_of_lt hfuel
    have hmem : pre ++ (headerText [] ++ rest) = pre ++ ([] ++ crlf ++ rest) := rfl
    refine ⟨_, by rw [hmem, headerLines_empty], ?_, ?_⟩
    · simp [headerText, crlf]
    · show (pre ++ ([] ++ [13] ++ 0 :: rest)).drop (pre.length + 1 + 1) = rest
      rw [Nat.add_assoc, List.drop_length_add_append]
      rfl
  | cons header headers ih =>
    intro fuel hfuel pre contentLength
    obtain ⟨hne, hheader⟩ := hheaders header (by simp)
    obtain ⟨fuel, rfl⟩ := Nat.exists_eq_succ_of_ne_zero (Nat.ne_zero_of_lt hfuel)
    have hmem : pre ++ (headerText (header :: headers) ++ rest) =
        pre ++ (header ++ crlf ++ (headerText headers ++ rest)) := by
      simp [headerText_cons]
    obtain ⟨line, length, contentLength', hread, hline, hlength, hlong⟩ :=
      readContentLength_line hne hheader.2 pre (headerText headers ++ rest) contentLength
    -- the tokenizer goes on behind the zero byte that ends the line
    have hsplit : pre ++ (line ++ 0 :: (headerText headers ++ rest)) =
        (pre ++ (line ++ [0])) ++ (headerText headers ++ rest) := by simp
    have hsave : (pre ++ (header ++ [13, 0])).length = (pre ++ (line ++ [0])).length := by
      simp [hline]
    have hleft : headers.length < fuel := by
      rw [List.length_cons] at hfuel
      omega
    obtain ⟨content, hcontent, hoffset, hrest⟩ :=
      ih (fun h hh => hheaders h (by simp [hh])) hleft (pre ++ (line ++ [0])) contentLength'
    refine ⟨content, ?_, ?_, hrest⟩
    · simp only [headerLines, hmem, strtokR_line hheader, ok_bind, Strtok.pointer, hread,
        List.drop_left, hlength, ne_eq, hlong, not_false_eq_true, if_true]
      rw [hsplit, hsave, hcontent]
    · rw [hoffset, headerText_cons]
      simp only [List.length_append, hline, crlf, List.length_cons, List.length_nil]
      omega

/-! ## The response -/

/-- A literal is not brought into a text by a zero byte, nor by the end of the
string. -/
theorem prefix_of_set {lit rest : List UInt8} (hlit : 0 ∉ lit) :
    ∀ {text : List UInt8} {i : Nat}, lit <+: text.set i 0 ++ 0 :: rest → lit <+: text := by
  induction lit with
  | nil => exact fun _ => List.nil_prefix
  | cons x lit ih =>
    intro text i h
    have hx : x ≠ 0 := fun hzero => hlit (by simp [hzero])
    cases text with
    | nil => exact absurd (List.cons_prefix_cons.mp h).1 hx
    | cons y text =>
      cases i with
      | zero => exact absurd (List.cons_prefix_cons.mp h).1 hx
      | succ i =>
        obtain ⟨hxy, hrest⟩ := List.cons_prefix_cons.mp h
        exact List.cons_prefix_cons.mpr ⟨hxy, ih (fun hmem => hlit (by simp [hmem])) hrest⟩

/-- A response that starts with neither literal is turned down. -/
theorem parseTrackerResponse_other {buf : List UInt8} (hnul : 0 ∈ buf)
    (h11 : ¬ http11Ok <+: buf) (h10 : ¬ http10Ok <+: buf) :
    parseTrackerResponse buf = .ok none := by
  obtain ⟨text, rest, rfl, htext⟩ : ∃ text rest, buf = text ++ 0 :: rest ∧ 0 ∉ text :=
    List.eq_append_cons_of_mem hnul
  obtain ⟨i, save, token, htoken, -⟩ :=
    @strtokR_text (ascii "\n") [] rest text (by decide) htext
  have hnot : ∀ {lit : List UInt8}, 0 ∉ lit → ¬ lit <+: text ++ 0 :: rest →
      strncmp lit.length (text.set i 0 ++ 0 :: rest) lit ≠ 0 := by
    intro lit hlit hother hstarts
    rw [strncmp_literal hlit] at hstarts
    exact hother ((prefix_of_set hlit hstarts).trans (List.prefix_append _ _))
  rw [List.nil_append, List.nil_append, List.length_nil] at htoken
  unfold parseTrackerResponse
  simp only [htoken, ok_bind]
  rw [if_pos ⟨hnot (by decide) h11, hnot (by decide) h10⟩, pure_is_ok]

/-- A status line that starts with one of the literals is accepted. -/
theorem status_accepted {status : List UInt8} (hok : http11Ok <+: status ∨ http10Ok <+: status)
    (rest : List UInt8) :
    ¬ (strncmp http11Ok.length (status ++ rest) http11Ok ≠ 0 ∧
      strncmp http10Ok.length (status ++ rest) http10Ok ≠ 0) := by
  rintro ⟨h11, h10⟩
  rw [ne_eq, strncmp_literal (by decide)] at h11 h10
  rcases hok with hok | hok
  · exact h11 (hok.trans (List.prefix_append status rest))
  · exact h10 (hok.trans (List.prefix_append status rest))

/-- Behind a good head the content is located, whatever it is. -/
theorem parseTrackerResponse_locates {status : List UInt8} {headers : List (List UInt8)}
    (hok : http11Ok <+: status ∨ http10Ok <+: status) (hstatus : IsLine status)
    (hne : headers ≠ []) (hheaders : ∀ h ∈ headers, h ≠ [] ∧ IsLine h) (rest : List UInt8) :
    ∃ content, parseTrackerResponse (responseHead status headers ++ rest) = .ok (some content) ∧
      content.offset = (responseHead status headers).length ∧
      content.mem.drop content.offset = rest := by
  obtain ⟨first, headers, rfl⟩ := List.exists_cons_of_ne_nil hne
  have hfirst := (hheaders first (by simp)).2
  have hmem : responseHead status (first :: headers) ++ rest =
      [] ++ (status ++ crlf ++ (first ++ crlf ++ (headerText headers ++ rest))) := by
    simp [responseHead, headerText_cons]
  -- the status line and the first header line are cut off
  have hstatusLine := strtokR_line hstatus [] (first ++ crlf ++ (headerText headers ++ rest))
  have hstart : [] ++ (status ++ [13] ++ 0 :: (first ++ crlf ++ (headerText headers ++ rest))) =
      (status ++ [13, 0]) ++ (first ++ crlf ++ (headerText headers ++ rest)) := by simp
  have hfirstLine := strtokR_line hfirst (status ++ [13, 0]) (headerText headers ++ rest)
  have hsplit : (status ++ [13, 0]) ++ (first ++ [13] ++ 0 :: (headerText headers ++ rest)) =
      ((status ++ [13, 0]) ++ (first ++ [13, 0])) ++ (headerText headers ++ rest) := by simp
  rw [List.length_nil, List.nil_append (status ++ [13, 0]), hstart, ← hmem] at hstatusLine
  rw [hsplit] at hfirstLine
  have hstarts := status_accepted hok
    ([13, 0] ++ (first ++ crlf ++ (headerText headers ++ rest)))
  rw [← List.append_assoc] at hstarts
  have hfuel : headers.length < (responseHead status (first :: headers) ++ rest).length + 1 := by
    have hlines := length_headers_le headers
    simp only [responseHead, headerText_cons, List.length_append]
    omega
  obtain ⟨content, hcontent, hoffset, hbody⟩ := headerLines_reads
    (fun h hh => hheaders h (by simp [hh])) rest hfuel
    ((status ++ [13, 0]) ++ (first ++ [13, 0])) 0
  refine ⟨content, ?_, ?_, hbody⟩
  · unfold parseTrackerResponse
    simp only [hstatusLine, ok_bind]
    rw [if_neg hstarts]
    simp only [hfirstLine, ok_bind, hcontent, pure_is_ok]
  · rw [hoffset]
    simp [responseHead, headerText_cons, crlf]

/-- **Where the body of a response begins.** Behind a status line that starts with
one of the two literals, header lines, at least one of them, and an empty line,
the content is located at the first byte of the body, and the memory from there
on is untouched. With any other status line there is no content. -/
theorem http_body_located :
    (∀ (status : List UInt8) (headers : List (List UInt8)) (body after : List UInt8),
      (http11Ok <+: status ∨ http10Ok <+: status) → IsLine status →
      headers ≠ [] → (∀ h ∈ headers, h ≠ [] ∧ IsLine h) →
      ∃ content,
        parseTrackerResponse (responseHead status headers ++ (body ++ 0 :: after)) =
          .ok (some content) ∧
        content.offset = (responseHead status headers).length ∧
        content.mem.drop content.offset = body ++ 0 :: after) ∧
    ∀ buf, 0 ∈ buf → ¬ http11Ok <+: buf → ¬ http10Ok <+: buf →
      parseTrackerResponse buf = .ok none := by
  refine ⟨fun status headers body after hok hstatus hne hheaders => ?_,
    fun buf => parseTrackerResponse_other⟩
  exact parseTrackerResponse_locates hok hstatus hne hheaders (body ++ 0 :: after)

/-- A body that starts with a line feed, behind a `Content-Length` line. -/
theorem http_body_located_linefeed :
    ∃ content, parseTrackerResponse
        (ascii "HTTP/1.0 200 OK\r\nHost: a\r\nContent-Length: 2\r\n\r\n" ++ ([10, 101] ++ [0])) =
          .ok (some content) ∧
      content.offset = 47 ∧ content.mem.drop content.offset = [10, 101, 0] := by
  have hlines : ∀ h ∈ [ascii "Host: a", ascii "Content-Length: 2"], h ≠ [] ∧ IsLine h := by
    intro h hh
    simp only [List.mem_cons, List.not_mem_nil, or_false] at hh
    rcases hh with rfl | rfl
    · exact ⟨by decide, by decide, by decide⟩
    · exact ⟨by decide, by decide, by decide⟩
  exact http_body_located.1 (ascii "HTTP/1.0 200 OK")
    [ascii "Host: a", ascii "Content-Length: 2"] [10, 101] []
    (.inr (List.prefix_refl _)) ⟨by decide, by decide⟩ (by simp) hlines

end BtClient

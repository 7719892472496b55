import BtClient.Url.Model

/-!
# The parts of a tracker URL

A URL is an authority, `scheme://host` with or without `:port`, and a rest that
is empty or starts with `/`. The tokenizer takes scheme, host and port one
after the other and then stands right behind the `/` of the rest, whatever
the rest is. So the authority is always read as written. The path is one more
token: it ends at the first `:` or `/` of the rest, and those at the front are
skipped.
-/

namespace BtClient

open CLib

/-! ## Authorities -/

/-- The scheme of a protocol. -/
def Protocol.scheme : Protocol → List UInt8
  | .http => ascii "http"
  | .https => ascii "https"
  | .udp => ascii "udp"
  | .unknown => []

/-- A decimal port number, superfluous zeros included. -/
structure PortNumeral where
  digits : List UInt8
  nonempty : digits ≠ []
  allDigits : ∀ c ∈ digits, isdigit c = true
  inRange : leadingDigits 0 digits ≤ 65535

/-- The number it stands for. -/
def PortNumeral.number (p : PortNumeral) : UInt16 := UInt16.ofNat (leadingDigits 0 p.digits)

/-- A known scheme, a host and perhaps a port. -/
structure Authority where
  protocol : Protocol
  known : protocol ≠ .unknown
  host : List UInt8
  isHost : IsWord urlDelims host
  port : Option PortNumeral

/-- The port as it is written. -/
def Authority.portText (a : Authority) : List UInt8 :=
  match a.port with
  | some p => 58 :: p.digits
  | none => []

/-- The port it stands for. -/
def Authority.portNumber (a : Authority) : UInt16 :=
  match a.port with
  | some p => p.number
  | none => defaultPort a.protocol

/-- `scheme://host[:port]`. -/
def Authority.text (a : Authority) : List UInt8 :=
  a.protocol.scheme ++ (ascii "://" ++ (a.host ++ a.portText))

/-- What follows an authority: nothing, or `/` and a text. -/
inductive UrlRest where
  | absent
  | path (text : List UInt8)

/-- The rest as it is written. -/
def UrlRest.text : UrlRest → List UInt8
  | .absent => []
  | .path text => 47 :: text

/-- What stands behind the `/`. -/
def UrlRest.behind : UrlRest → List UInt8
  | .absent => []
  | .path text => text

/-! ## Reading an authority -/

theorem mem_urlDelims {c : UInt8} : c ∈ urlDelims ↔ c = 58 ∨ c = 47 := by
  have hlist : urlDelims = [58, 47] := rfl
  rw [hlist, List.mem_pair]

theorem isWord_scheme {p : Protocol} (h : p ≠ .unknown) : IsWord urlDelims p.scheme := by
  cases p with
  | unknown => exact absurd rfl h
  | http => exact isWord_of_check (by decide)
  | https => exact isWord_of_check (by decide)
  | udp => exact isWord_of_check (by decide)

theorem protocolOf_scheme {p : Protocol} (h : p ≠ .unknown) (rest : List UInt8) :
    protocolOf (p.scheme ++ (ascii "://" ++ rest)) = p := by
  cases p with
  | unknown => exact absurd rfl h
  | http => rfl
  | https => rfl
  | udp => rfl

theorem PortNumeral.isWord (p : PortNumeral) : IsWord urlDelims p.digits := by
  refine ⟨p.nonempty, fun c hc => ?_⟩
  have hdigit := p.allDigits c hc
  constructor
  · rintro rfl
    cases hdigit
  · intro hdelim
    rcases mem_urlDelims.mp hdelim with rfl | rfl
    · cases hdigit
    · cases hdigit

/-- `atoi` on a port. -/
theorem PortNumeral.atoi_digits (p : PortNumeral) (rest : List UInt8) :
    (do return UInt16.ofInt (← atoi (p.digits ++ 0 :: rest)) : Except Fault UInt16) =
      .ok p.number := by
  have hrange := p.inRange
  have hlong : clampLong (leadingDigits 0 p.digits) = (leadingDigits 0 p.digits : Nat) :=
    clampLong_of_range (by omega) (by omega)
  have hmod : ((leadingDigits 0 p.digits : Nat) % 2 ^ 16 : Int).toNat =
      leadingDigits 0 p.digits := by omega
  rw [atoi, strtol_digits p.nonempty p.allDigits (by decide) rest, ok_bind, hlong, UInt16.ofInt,
    hmod]
  rfl

/-- The rest of a URL starts with a delimiter, if it is there. -/
theorem UrlRest.head_mem (r : UrlRest) (c : UInt8) (h : r.text.head? = some c) :
    c ∈ urlDelims := by
  cases r with
  | absent => cases h
  | path text =>
    cases h
    decide

theorem Authority.head_mem (a : Authority) (r : UrlRest) (c : UInt8)
    (h : (a.portText ++ r.text).head? = some c) : c ∈ urlDelims := by
  rw [Authority.portText] at h
  cases hport : a.port with
  | none =>
    simp only [hport, List.nil_append] at h
    exact r.head_mem c h
  | some p =>
    simp only [hport, List.cons_append, List.head?_cons, Option.some.injEq] at h
    subst h
    decide

theorem UrlRest.tail_text (r : UrlRest) : r.text.tail = r.behind := by
  cases r with
  | absent => rfl
  | path text => rfl

/-- Behind the host: the port that is written or the default, and then the
tokenizer stands at the text behind the `/`. -/
theorem urlPort_reads (a : Authority) (r : UrlRest) (input after pre : List UInt8) (off : Nat)
    (hinput : input.drop off = a.portText ++ (r.text ++ 0 :: after)) (token : Option Nat) :
    ∃ pre' token', urlPort a.protocol input off
        ⟨pre ++ ((a.portText ++ r.text).tail ++ [0]), pre.length, token⟩ =
      .ok (a.portNumber, ⟨pre' ++ (r.behind ++ [0]), pre'.length, token'⟩) := by
  have hzero : (0 : UInt8) ∉ urlDelims := by decide
  unfold urlPort
  cases hport : a.port with
  | none =>
    have hnot : strncmp 1 (ascii ":") (input.drop off) ≠ 0 := by
      rw [hinput, Authority.portText, hport]
      cases r with
      | absent => exact (by decide : (58 : Int) - 0 ≠ 0)
      | path text => exact (by decide : (58 : Int) - 47 ≠ 0)
    refine ⟨pre, token, ?_⟩
    rw [if_neg hnot, Authority.portNumber, Authority.portText]
    simp only [hport, List.nil_append, r.tail_text, pure_is_ok]
  | some p =>
    have his : strncmp 1 (ascii ":") (input.drop off) = 0 := by
      rw [hinput, Authority.portText, hport]
      rfl
    obtain ⟨pre', more, hnext, hdrop, -⟩ := @strtokR_next urlDelims pre [] p.digits [] hzero
      (List.nil_subset _) p.isWord r.text r.head_mem
    rw [List.length_nil, Nat.add_zero, r.tail_text] at hnext hdrop
    refine ⟨pre', some pre.length, ?_⟩
    have htail : (a.portText ++ r.text).tail ++ [0] = [] ++ (p.digits ++ (r.text ++ [0])) := by
      simp [Authority.portText, hport]
    have hport' := p.atoi_digits more
    rw [seq_returns_iff] at hport'
    obtain ⟨n, hn, hnumber⟩ := hport'
    rw [if_pos his]
    simp only [htail, hnext, ok_bind, Strtok.pointer, hdrop, hn, pure_is_ok,
      Authority.portNumber, hport]
    rw [pure_is_ok, Except.ok.injEq] at hnumber
    rw [hnumber]

theorem Authority.nulFree (a : Authority) (r : UrlRest) (hrest : 0 ∉ r.behind) :
    0 ∉ a.text ++ r.text := by
  have hscheme : 0 ∉ a.protocol.scheme := fun h => ((isWord_scheme a.known).2 0 h).1 rfl
  have hhost : 0 ∉ a.host := fun h => (a.isHost.2 0 h).1 rfl
  have hport : 0 ∉ a.portText := by
    unfold Authority.portText
    split
    · rename_i p _
      have hdigits : 0 ∉ p.digits := fun h => (p.isWord.2 0 h).1 rfl
      simpa using hdigits
    · exact List.not_mem_nil
  have hslashes : 0 ∉ ascii "://" := by decide
  have hpath : 0 ∉ r.text := by
    cases r with
    | absent => exact List.not_mem_nil
    | path text =>
      have htext : 0 ∉ text := hrest
      simpa [UrlRest.text] using htext
  simp only [Authority.text, List.mem_append, not_or]
  exact ⟨⟨hscheme, hslashes, hhost, hport⟩, hpath⟩

/-- What stands behind the host. -/
theorem Authority.drop_host (a : Authority) (rest : List UInt8) :
    (a.text ++ rest).drop (a.protocol.scheme ++ (ascii "://" ++ a.host)).length =
      a.portText ++ rest := by
  have hsplit : a.text ++ rest =
      (a.protocol.scheme ++ (ascii "://" ++ a.host)) ++ (a.portText ++ rest) := by
    simp [Authority.text]
  rw [hsplit, List.drop_left]

/-- **A URL, token by token.** The path is the first token of what stands behind
the `/`. -/
theorem urlFromString_reads (a : Authority) (r : UrlRest) (hrest : 0 ∉ r.behind)
    (after : List UInt8) :
    urlFromString (a.text ++ (r.text ++ 0 :: after)) =
      .ok ⟨a.protocol, a.host, a.portNumber, firstWord urlDelims r.behind⟩ := by
  have hzero : (0 : UInt8) ∉ urlDelims := by decide
  have hcolon : ascii "://" = 58 :: ascii "//" := rfl
  obtain ⟨tail, htail⟩ : ∃ tail, tail = a.portText ++ r.text := ⟨_, rfl⟩
  have hlength : strlen (a.text ++ (r.text ++ 0 :: after)) = .ok (a.text ++ r.text).length := by
    rw [← List.append_assoc]
    exact strlen_append (a.nulFree r hrest) after
  have hbuf : (a.text ++ (r.text ++ 0 :: after)).take ((a.text ++ r.text).length + 1) =
      a.protocol.scheme ++ (58 :: (ascii "//" ++ (a.host ++ tail)) ++ [0]) := by
    rw [← List.append_assoc, List.take_length_add_append]
    simp [Authority.text, htail, hcolon]
  -- the scheme
  obtain ⟨pre₁, more₁, hscheme, -, hpre₁⟩ :=
    @strtokR_next urlDelims [] [] a.protocol.scheme [] hzero (List.nil_subset _)
      (isWord_scheme a.known) (58 :: (ascii "//" ++ (a.host ++ tail)))
      (fun c hc => by cases hc; decide)
  -- the host
  obtain ⟨pre₂, more₂, hhost, hdrop, -⟩ :=
    @strtokR_next urlDelims pre₁ (ascii "//") a.host [] hzero (by decide) a.isHost tail
      (htail ▸ a.head_mem r)
  have hhostText := stringAt_of_drop (fun h => (a.isHost.2 0 h).1 rfl) hdrop
  -- the byte behind it, in the input
  have hinput : (a.text ++ (r.text ++ 0 :: after)).drop
      (a.host.length + (pre₁.length + (ascii "//").length)) =
        a.portText ++ (r.text ++ 0 :: after) := by
    have hfront : a.host.length + (pre₁.length + (ascii "//").length) =
        (a.protocol.scheme ++ (ascii "://" ++ a.host)).length := by
      have hslashes : (ascii "//").length = 2 ∧ (ascii "://").length = 3 := by decide
      simp only [List.length_nil, List.take_succ_cons, List.take_zero, List.length_cons] at hpre₁
      simp only [List.length_append, hpre₁, hslashes]
      omega
    rw [hfront, a.drop_host]
  obtain ⟨pre₃, token, hport⟩ := urlPort_reads a r _ after pre₂ _ hinput
    (some (pre₁.length + (ascii "//").length))
  rw [← htail] at hport
  -- and the path
  obtain ⟨i, save, token', hpath, hnone, hsome⟩ :=
    @strtokR_text urlDelims pre₃ [] r.behind hzero hrest
  simp only [List.length_nil, List.nil_append, Nat.add_zero, List.tail_cons] at hscheme
  have hprotocol : protocolOf
      (a.protocol.scheme ++ (58 :: (ascii "//" ++ (a.host ++ tail)) ++ [0])) = a.protocol := by
    have hscheme := protocolOf_scheme a.known ((a.host ++ tail) ++ [0])
    rwa [hcolon, ← List.append_assoc (58 :: ascii "//"), List.cons_append] at hscheme
  unfold urlFromString
  simp only [hlength, ok_bind, hbuf, hprotocol, hscheme]
  simp only [List.append_assoc, hhost, ok_bind, Strtok.pointer, hhostText, hport, hpath]
  by_cases hword : firstWord urlDelims r.behind = []
  · rw [hnone hword, hword]
    rfl
  · obtain ⟨k, -, htoken, htext⟩ := hsome hword
    simp only [htoken, htext, ok_bind, pure_is_ok]

/-- **The authority of a tracker URL.** Protocol and host are those written, and
so is the port if one is written; else it is 80 for http, 443 for https and 0 for
udp. The rest of the URL does not matter. -/
theorem url_authority_read (a : Authority) (r : UrlRest) (hrest : 0 ∉ r.behind)
    (after : List UInt8) :
    ∃ path, urlFromString (a.text ++ (r.text ++ 0 :: after)) =
      .ok ⟨a.protocol, a.host, a.portNumber, path⟩ :=
  ⟨_, urlFromString_reads a r hrest after⟩

/-- `https://a/b:1/2` has the default port, although its rest has a `:` with digits
behind it. -/
theorem url_authority_default :
    ∃ path, urlFromString (ascii "https://a/b:1/2" ++ [0]) = .ok ⟨.https, ascii "a", 443, path⟩ :=
  url_authority_read ⟨.https, by decide, ascii "a", isWord_of_check (by decide), none⟩
    (.path (ascii "b:1/2")) (by decide) []

end BtClient

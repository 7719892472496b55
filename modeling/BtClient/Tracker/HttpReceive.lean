import BtClient.Tracker.Http

/-!
# Receiving the HTTP response

Every positive answer of `recv` is appended to what has been received, and the
end of the stream leaves the loop. An error should leave it too, with `NULL`;
but the count is unsigned, so that `-1` is a count like any other: the test for
a negative one never holds, the offset goes back by one, and the loop goes on.
-/

namespace BtClient

open CLib

/-- How a stream ends. -/
inductive StreamStop where
  | closed
  | failed (errno : Nat)
  deriving DecidableEq, Repr

/-- What `recv` answers then. -/
def StreamStop.answer : StreamStop → StreamRecv
  | .closed => .closed
  | .failed errno => .failed errno

/-- The receive loop of `http_announce` on a cleared buffer. -/
def httpReceived (answers : List StreamRecv) : Except Fault (Option (List UInt8)) :=
  httpReceive answers (List.replicate 2048 0) 0

/-- What should come of chunks and the end of the stream, whatever `recv` would
answer after it: the chunks one behind the other in the buffer, or `NULL`. -/
def ReceivedRight (chunks : List (List UInt8)) (stop : StreamStop) (later : List StreamRecv) :
    Prop :=
  httpReceived (chunks.map .data ++ stop.answer :: later) =
    match stop with
    | .closed =>
      .ok (some (chunks.flatten ++ List.replicate (2048 - chunks.flatten.length) 0))
    | .failed _ => .ok none

/-- A chunk that there is room for. -/
theorem httpReceive_data {chunk got : List UInt8} {room : Nat} (hne : chunk ≠ [])
    (hroom : got.length + chunk.length + room = 2048) (answers : List StreamRecv) :
    httpReceive (.data chunk :: answers)
        (got ++ List.replicate (chunk.length + room) 0) got.length =
      httpReceive answers (got ++ chunk ++ List.replicate room 0) (got ++ chunk).length := by
  have hpos : 0 < chunk.length := List.length_pos_iff.mpr hne
  have hlength : (got ++ List.replicate (chunk.length + room) 0).length = 2048 := by
    rw [List.length_append, List.length_replicate]
    omega
  have htake : chunk.take (sizeSub 2048 got.length) = chunk := by
    rw [sizeSub_of_le (by omega) (by omega)]
    exact List.take_of_length_le (by omega)
  have hsplice : splice (got ++ List.replicate (chunk.length + room) 0) got.length chunk =
      got ++ chunk ++ List.replicate room 0 := by
    rw [splice, List.take_left, List.drop_length_add_append, List.drop_replicate,
      Nat.add_sub_cancel_left]
  have hrecv : httpRecv (.data chunk) (got ++ List.replicate (chunk.length + room) 0) got.length =
      .ok (chunk.length, got ++ chunk ++ List.replicate room 0) := by
    have hinside : got.length + chunk.length ≤ 2048 := by omega
    simp only [httpRecv, hlength, htake, hsplice, if_pos hinside]
  have htotal : (got.length + chunk.length) % 2 ^ 64 = (got ++ chunk).length := by
    rw [List.length_append, Nat.mod_eq_of_lt (by omega)]
  simp only [httpReceive, hrecv, ok_bind, if_neg (Nat.not_lt_zero _), htotal, if_pos hpos]

/-- The chunks are assembled. -/
theorem httpReceive_chunks {chunks : List (List UInt8)} (hne : ∀ c ∈ chunks, c ≠ []) :
    ∀ {got : List UInt8} {room : Nat}, got.length + chunks.flatten.length + room = 2048 →
      ∀ answers, httpReceive (chunks.map .data ++ answers)
          (got ++ List.replicate (chunks.flatten.length + room) 0) got.length =
        httpReceive answers (got ++ chunks.flatten ++ List.replicate room 0)
          (got ++ chunks.flatten).length := by
  induction chunks with
  | nil =>
    intro got room hroom answers
    simp
  | cons chunk chunks ih =>
    intro got room hroom answers
    rw [List.flatten_cons, List.length_append] at hroom ⊢
    rw [List.map_cons, List.cons_append, Nat.add_assoc,
      httpReceive_data (hne chunk (by simp)) (by omega),
      ih (fun c hc => hne c (by simp [hc])) (by rw [List.length_append]; omega),
      List.append_assoc got chunk]

/-- Chunks and the end of the stream: they are in the buffer, one behind the
other. -/
theorem httpReceived_closed {chunks : List (List UInt8)} (hne : ∀ c ∈ chunks, c ≠ [])
    (htotal : chunks.flatten.length < 2048) (later : List StreamRecv) :
    httpReceived (chunks.map .data ++ .closed :: later) =
      .ok (some (chunks.flatten ++ List.replicate (2048 - chunks.flatten.length) 0)) := by
  have hroom : ([] : List UInt8).length + chunks.flatten.length +
      (2048 - chunks.flatten.length) = 2048 := by
    rw [List.length_nil]
    omega
  have hchunks := httpReceive_chunks hne hroom (.closed :: later)
  rw [List.nil_append, List.nil_append, List.length_nil,
    Nat.add_sub_of_le (Nat.le_of_lt htotal)] at hchunks
  have hlt : chunks.flatten.length % 2 ^ 64 < 2048 := by
    rw [Nat.mod_eq_of_lt (by omega)]
    exact htotal
  rw [httpReceived, hchunks]
  simp only [httpReceive, httpRecv, ok_bind, gt_iff_lt, Nat.lt_irrefl, if_false, Nat.add_zero,
    check_of (decide_eq_true hlt), pure_is_ok]

/-- The loop never returns `NULL`. -/
theorem httpReceive_not_null (answers : List StreamRecv) : ∀ buf total,
    httpReceive answers buf total ≠ .ok none := by
  induction answers with
  | nil =>
    intro buf total h
    cases h
  | cons answer answers ih =>
    intro buf total h
    rw [httpReceive, seq_returns_iff] at h
    obtain ⟨⟨n, buf'⟩, -, h⟩ := h
    simp only [Nat.not_lt_zero, if_false] at h
    split at h
    · exact ih _ _ h
    · rw [seq_returns_iff] at h
      obtain ⟨-, -, h⟩ := h
      cases h

/-- **HTTP reception.** Nonempty chunks of fewer than 2048 bytes in all are
received as they should exactly if the stream then ends, and does not fail. -/
theorem http_received_iff {chunks : List (List UInt8)} (hne : ∀ c ∈ chunks, c ≠ [])
    (htotal : chunks.flatten.length < 2048) (stop : StreamStop) (later : List StreamRecv) :
    ReceivedRight chunks stop later ↔ stop = .closed := by
  cases stop with
  | failed errno =>
    constructor
    · intro hright
      exact absurd hright (httpReceive_not_null _ _ _)
    · intro hstop
      cases hstop
  | closed => exact ⟨fun _ => rfl, fun _ => httpReceived_closed hne htotal later⟩

/-- Two chunks and the end of the stream. -/
theorem http_received_two : ReceivedRight [[104, 105], [33]] .closed [] :=
  (http_received_iff (by simp) (by decide) .closed []).mpr rfl

/-- An error right away, and then the end of the stream: the offset is
`2^64 - 1`, the assertion on it fails. -/
theorem http_recv_error_missed :
    httpReceived [.failed 104, .closed] = .error .assertFailed ∧
      ¬ ReceivedRight [] (.failed 104) [.closed] := by
  have hrun : httpReceived [.failed 104, .closed] = .error .assertFailed := by decide +kernel
  refine ⟨hrun, fun hright => ?_⟩
  have hnull : httpReceived [.failed 104, .closed] = .ok none := hright
  rw [hrun] at hnull
  cases hnull

end BtClient

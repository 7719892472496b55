import BtClient.Lib.Transition
import BtClient.Tracker.Udp

/-!
# The UDP exchange against any network

An attempt that fails is meant to be retried or to end the announce with `NULL`.
`udp_recv_dgram` tests an unsigned size for being negative, so it reports no
failure: the error goes on as a datagram of `2^64 - 1` bytes. And two assertions
are about what the tracker chose to send, the size of its answers.
-/

namespace BtClient

open CLib

/-- An attempt that reaches its `recv`. -/
def Attempt.receives (a : Attempt) : Prop := a.send = .sent

/-- The buffer an attempt receives into. -/
def UdpPc.buffer : UdpPc → List UInt8
  | .connecting _ => List.replicate 16 0
  | _ => List.replicate 2048 0

/-- What should come of an attempt: no assertion fails, a `recv` that reports an
error makes the attempt fail, and a response is built from the bytes of the
datagram that `recv` delivered. -/
structure AttemptHandled (transactionId : UInt32) (pc : UdpPc) (a : Attempt) : Prop where
  noAbort : udpStep transactionId pc a ≠ some .aborted
  errorFails : ∀ errno, a.receives → a.recv = .failed errno →
    udpTry a pc.buffer = .error errno
  delivered : ∀ response, udpStep transactionId pc a = some (.done (some response)) →
    ∃ bytes, a.receives ∧ a.recv = .datagram bytes ∧
      response = buildResponse (bytes.take 2048) ((min bytes.length 2048 - 20) / 6)

/-- A connect response: enough bytes for the struct. An announce response: one
that is turned down, or one with whole peers. -/
def ReplyFits (transactionId : UInt32) : UdpPc → List UInt8 → Prop
  | .connecting _, bytes => 16 ≤ bytes.length
  | .announcing _ _, bytes =>
    bytes.length < 20 ∨ ofBe32 (slice bytes 0 4) = 3 ∨
      slice bytes 4 4 ≠ leBytes 4 transactionId.toNat ∨ (min bytes.length 2048 - 20) % 6 = 0
  | _, _ => True

/-- An attempt that reaches its `recv` gets a datagram, and one that fits. -/
def AttemptAnswered (transactionId : UInt32) (pc : UdpPc) (a : Attempt) : Prop :=
  a.receives → ∃ bytes, a.recv = .datagram bytes ∧ ReplyFits transactionId pc bytes

/-- `Q` of every attempt of a run of `udp_announce`, in the state it finds. -/
def EveryAttempt (transactionId : UInt32) (attempts : List Attempt)
    (Q : UdpPc → Attempt → Prop) : Prop :=
  ∀ before a pc pc', before ++ [a] <+: attempts →
    Run (udpStep transactionId) unguarded (.connecting 0) before pc →
    udpStep transactionId pc a = some pc' → Q pc a

/-! ## One attempt -/

theorem udpTry_failed_send {a : Attempt} {errno : Nat} (h : a.send = .failed errno)
    (buf : List UInt8) : udpTry a buf = .error errno := by
  unfold udpTry
  rw [h]

/-- A received datagram, cut to the buffer. -/
theorem udpTry_datagram {a : Attempt} {bytes : List UInt8} (hsend : a.receives)
    (hrecv : a.recv = .datagram bytes) (buf : List UInt8) :
    udpTry a buf =
      .ok (splice buf 0 (bytes.take buf.length), min bytes.length buf.length) := by
  unfold udpTry
  rw [hsend, hrecv]
  rfl

/-- The error that is none: the attempt succeeds with a datagram of `2^64 - 1`
bytes. -/
theorem udpTry_failed_recv {a : Attempt} {errno : Nat} (hsend : a.receives)
    (hrecv : a.recv = .failed errno) (buf : List UInt8) :
    udpTry a buf = .ok (buf, 2 ^ 64 - 1) := by
  unfold udpTry
  rw [hsend, hrecv]
  rfl

/-- A failed attempt ends in a retry or in `NULL`. -/
theorem retry_of {P : UdpPc → Prop} {again : UdpPc} (hnull : P (.done none)) (hagain : P again)
    (n errno : Nat) : P (retry n errno again) := by
  unfold retry
  split
  · exact hnull
  · split
    · exact hnull
    · exact hagain

theorem splice_replicate {n : Nat} (bytes : List UInt8) :
    splice (List.replicate n 0) 0 (bytes.take n) =
      bytes.take n ++ List.replicate (n - bytes.length) 0 := by
  rw [splice, List.take_zero, List.nil_append, Nat.zero_add, List.drop_replicate,
    List.length_take]
  congr 2
  omega

/-- A connect response aborts unless it fills the struct. -/
theorem connectReply_abort_iff (transactionId : UInt32) (res : List UInt8) (dgramSize : Nat) :
    connectReply transactionId res dgramSize = .aborted ↔ dgramSize ≠ 16 := by
  unfold connectReply
  constructor
  · intro h hsize
    rw [if_neg (not_not_intro hsize)] at h
    split at h
    · cases h
    · split at h <;> cases h
  · intro hsize
    rw [if_pos hsize]

theorem connectReply_not_response (transactionId : UInt32) (res : List UInt8) (dgramSize : Nat)
    (response : TrackerResponse) :
    connectReply transactionId res dgramSize ≠ .done (some response) := by
  intro h
  unfold connectReply at h
  split at h
  · cases h
  · split at h
    · cases h
    · split at h <;> cases h

/-- The clear bytes behind a datagram are not read. -/
theorem parsePeers_append {buf : List UInt8} (padding : List UInt8) {count : Nat}
    (h : 6 * count ≤ buf.length) : parsePeers (buf ++ padding) count = parsePeers buf count := by
  unfold parsePeers
  refine List.map_congr_left fun i hi => ?_
  have hlt := List.mem_range.mp hi
  rw [slice_append_left (by omega), slice_append_left (by omega)]

theorem buildResponse_append {buf : List UInt8} (padding : List UInt8) {count : Nat}
    (h : 20 + 6 * count ≤ buf.length) :
    buildResponse (buf ++ padding) count = buildResponse buf count := by
  unfold buildResponse
  rw [slice_append_left (by omega), slice_append_left (by omega), slice_append_left (by omega),
    List.drop_append_of_le_length (by omega),
    parsePeers_append padding (by rw [List.length_drop]; omega)]

theorem announceReply_append (transactionId : UInt32) {buf : List UInt8} (padding : List UInt8)
    (hsize : buf.length < 2 ^ 64) :
    announceReply transactionId (buf ++ padding) buf.length =
      announceReply transactionId buf buf.length := by
  unfold announceReply
  by_cases hshort : buf.length < 20
  · rw [if_pos hshort, if_pos hshort]
  · have hsub : sizeSub buf.length 20 = buf.length - 20 := sizeSub_of_le (by omega) hsize
    rw [slice_append_left (by omega), slice_append_left (by omega), hsub,
      buildResponse_append padding (by omega)]

/-- An announce response aborts if it is accepted and its peers are not whole. -/
theorem announceReply_abort_iff (transactionId : UInt32) {buf : List UInt8}
    (hsize : buf.length < 2 ^ 64) :
    announceReply transactionId buf buf.length = .aborted ↔
      ¬ (buf.length < 20 ∨ ofBe32 (slice buf 0 4) = 3 ∨
        slice buf 4 4 ≠ leBytes 4 transactionId.toNat ∨ (buf.length - 20) % 6 = 0) := by
  unfold announceReply
  by_cases hshort : buf.length < 20
  · simp [hshort]
  by_cases herror : ofBe32 (slice buf 0 4) = 3
  · simp [hshort, herror]
  by_cases hother : slice buf 4 4 ≠ leBytes 4 transactionId.toNat
  · simp [hshort, herror, hother]
  have hsub : sizeSub buf.length 20 = buf.length - 20 := sizeSub_of_le (by omega) hsize
  rw [if_neg hshort, if_neg herror, if_neg hother, hsub]
  by_cases hwhole : (buf.length - 20) % 6 = 0
  · simp [hwhole]
  · simp [hshort, herror, hwhole]
    simpa using hother

theorem announceReply_response {transactionId : UInt32} {buf : List UInt8}
    {response : TrackerResponse} (hsize : buf.length < 2 ^ 64)
    (h : announceReply transactionId buf buf.length = .done (some response)) :
    response = buildResponse buf ((buf.length - 20) / 6) := by
  unfold announceReply at h
  by_cases hshort : buf.length < 20
  · rw [if_pos hshort] at h
    cases h
  · have hsub : sizeSub buf.length 20 = buf.length - 20 := sizeSub_of_le (by omega) hsize
    rw [if_neg hshort, hsub] at h
    split at h
    · cases h
    · split at h
      · cases h
      · split at h
        · cases h
        · cases h
          rfl

/-- Neither a failed assertion nor a response. -/
def UdpPc.Quiet (pc : UdpPc) : Prop := pc ≠ .aborted ∧ ∀ response, pc ≠ .done (some response)

/-- An attempt that could not send is retried or given up. -/
theorem udpStep_failed_send {transactionId : UInt32} {pc pc' : UdpPc} {a : Attempt}
    {errno : Nat} (hsend : a.send = .failed errno)
    (hstep : udpStep transactionId pc a = some pc') : pc'.Quiet := by
  have hnull : UdpPc.Quiet (.done none) := by simp [UdpPc.Quiet]
  cases pc with
  | connecting n =>
    simp only [udpStep, udpTry_failed_send hsend, Option.some.injEq] at hstep
    subst hstep
    exact retry_of hnull (by simp [UdpPc.Quiet]) _ _
  | announcing n connectionId =>
    simp only [udpStep, udpTry_failed_send hsend, Option.some.injEq] at hstep
    subst hstep
    refine retry_of hnull ?_ _ _
    split <;> simp [UdpPc.Quiet]
  | done response => cases hstep
  | aborted => cases hstep

theorem handled_of_failed_send {transactionId : UInt32} {pc pc' : UdpPc} {a : Attempt}
    {errno : Nat} (hsend : a.send = .failed errno)
    (hstep : udpStep transactionId pc a = some pc') : AttemptHandled transactionId pc a := by
  obtain ⟨habort, hresponse⟩ := udpStep_failed_send hsend hstep
  refine ⟨fun h => ?_, fun _ hreceives => ?_, fun response h => ?_⟩
  · exact habort (Option.some.inj (hstep.symm.trans h))
  · rw [Attempt.receives, hsend] at hreceives
    cases hreceives
  · exact absurd (Option.some.inj (hstep.symm.trans h)) (hresponse response)

/-- A datagram in the connect phase. -/
theorem udpStep_connecting (transactionId : UInt32) (n : Nat) {a : Attempt} {bytes : List UInt8}
    (hsend : a.receives) (hrecv : a.recv = .datagram bytes) :
    udpStep transactionId (.connecting n) a =
      some (connectReply transactionId (bytes.take 16 ++ List.replicate (16 - bytes.length) 0)
        (min bytes.length 16)) := by
  simp only [udpStep, udpTry_datagram hsend hrecv, List.length_replicate, splice_replicate]

/-- A datagram in the announce phase: the reply is read from its first 2048
bytes. -/
theorem udpStep_announcing (transactionId : UInt32) (n : Nat) (connectionId : UInt64)
    {a : Attempt} {bytes : List UInt8} (hsend : a.receives) (hrecv : a.recv = .datagram bytes) :
    udpStep transactionId (.announcing n connectionId) a =
      some (announceReply transactionId (bytes.take 2048) (bytes.take 2048).length) := by
  have hlength : (bytes.take 2048).length < 2 ^ 64 := by
    rw [List.length_take]
    omega
  rw [← announceReply_append transactionId (List.replicate (2048 - bytes.length) 0) hlength]
  simp only [udpStep, udpTry_datagram hsend hrecv, List.length_replicate, splice_replicate,
    List.length_take, Nat.min_comm]

/-- A datagram cannot miss an error. -/
theorem handled_of_datagram {transactionId : UInt32} {pc : UdpPc} {a : Attempt}
    {bytes : List UInt8} (hsend : a.receives) (hrecv : a.recv = .datagram bytes)
    (habort : udpStep transactionId pc a ≠ some .aborted)
    (hresponse : ∀ response, udpStep transactionId pc a = some (.done (some response)) →
      response = buildResponse (bytes.take 2048) ((min bytes.length 2048 - 20) / 6)) :
    AttemptHandled transactionId pc a := by
  refine ⟨habort, fun errno _ herror => ?_, fun response h => ?_⟩
  · rw [hrecv] at herror
    cases herror
  · exact ⟨bytes, hsend, hrecv, hresponse response h⟩

theorem connecting_handled_iff {transactionId : UInt32} {n : Nat} {a : Attempt}
    {bytes : List UInt8} (hsend : a.receives) (hrecv : a.recv = .datagram bytes) :
    AttemptHandled transactionId (.connecting n) a ↔ 16 ≤ bytes.length := by
  have hnext := udpStep_connecting transactionId n hsend hrecv
  have habort := connectReply_abort_iff transactionId
    (bytes.take 16 ++ List.replicate (16 - bytes.length) 0) (min bytes.length 16)
  constructor
  · intro hhandled
    by_contra hshort
    refine hhandled.noAbort ?_
    rw [hnext, habort.mpr (by omega)]
  · intro hsize
    refine handled_of_datagram hsend hrecv (fun h => ?_) (fun response h => ?_)
    · rw [hnext] at h
      exact habort.mp (Option.some.inj h) (by omega)
    · rw [hnext] at h
      exact absurd (Option.some.inj h) (connectReply_not_response _ _ _ response)

theorem announcing_handled_iff {transactionId : UInt32} {n : Nat} {connectionId : UInt64}
    {a : Attempt} {bytes : List UInt8} (hsend : a.receives) (hrecv : a.recv = .datagram bytes) :
    AttemptHandled transactionId (.announcing n connectionId) a ↔
      ReplyFits transactionId (.announcing n connectionId) bytes := by
  have hnext := udpStep_announcing transactionId n connectionId hsend hrecv
  have hlength : (bytes.take 2048).length = min bytes.length 2048 := by
    rw [List.length_take, Nat.min_comm]
  have hsize : (bytes.take 2048).length < 2 ^ 64 := by omega
  have hshort : min bytes.length 2048 < 20 ↔ bytes.length < 20 := by omega
  -- the first fields of the cut datagram are those of the datagram
  have habort := announceReply_abort_iff transactionId hsize
  rw [slice_take (by omega), slice_take (by omega), hlength, hshort] at habort
  rw [hlength] at hnext
  constructor
  · intro hhandled
    by_contra hfits
    refine hhandled.noAbort ?_
    rw [hnext, habort.mpr hfits]
  · intro hfits
    refine handled_of_datagram hsend hrecv (fun h => ?_) (fun response h => ?_)
    · rw [hnext] at h
      exact habort.mp (Option.some.inj h) hfits
    · rw [hnext, ← hlength] at h
      rw [announceReply_response hsize (Option.some.inj h), hlength]

/-- A datagram is handled if it fits. -/
theorem handled_datagram_iff {transactionId : UInt32} {pc pc' : UdpPc} {a : Attempt}
    {bytes : List UInt8} (hsend : a.receives) (hrecv : a.recv = .datagram bytes)
    (hstep : udpStep transactionId pc a = some pc') :
    AttemptHandled transactionId pc a ↔ ReplyFits transactionId pc bytes := by
  cases pc with
  | connecting n => exact connecting_handled_iff hsend hrecv
  | announcing n connectionId => exact announcing_handled_iff hsend hrecv
  | done response => cases hstep
  | aborted => cases hstep

/-- What one attempt asks of the network to be handled. -/
theorem attemptHandled_iff {transactionId : UInt32} {pc pc' : UdpPc} {a : Attempt}
    (hstep : udpStep transactionId pc a = some pc') :
    AttemptHandled transactionId pc a ↔ AttemptAnswered transactionId pc a := by
  cases hsend : a.send with
  | failed errno =>
    have hunsent : ¬ a.receives := by
      rw [Attempt.receives, hsend]
      exact fun h => by cases h
    exact ⟨fun _ hreceives => absurd hreceives hunsent,
      fun _ => handled_of_failed_send hsend hstep⟩
  | sent =>
    cases hrecv : a.recv with
    | failed errno =>
      constructor
      · intro hhandled
        have herror := hhandled.errorFails errno hsend hrecv
        rw [udpTry_failed_recv hsend hrecv] at herror
        cases herror
      · intro hanswered
        obtain ⟨bytes, hbytes, -⟩ := hanswered hsend
        rw [hrecv] at hbytes
        cases hbytes
    | datagram bytes =>
      rw [handled_datagram_iff hsend hrecv hstep]
      constructor
      · exact fun hfits _ => ⟨bytes, hrecv, hfits⟩
      · intro hanswered
        obtain ⟨bytes', hbytes, hfits⟩ := hanswered hsend
        rw [hrecv] at hbytes
        cases hbytes
        exact hfits

/-! ## Every attempt -/

/-- **`udp_announce` against any network.** In a run, whatever the attempts meet,
every attempt is handled exactly if every `recv` that is reached delivers a
datagram that fits. -/
theorem udp_exchange_iff (transactionId : UInt32) (attempts : List Attempt) :
    EveryAttempt transactionId attempts (AttemptHandled transactionId) ↔
      EveryAttempt transactionId attempts (AttemptAnswered transactionId) := by
  constructor
  · intro hall before a pc pc' hpre hrun hstep
    exact (attemptHandled_iff hstep).mp (hall before a pc pc' hpre hrun hstep)
  · intro hall before a pc pc' hpre hrun hstep
    exact (attemptHandled_iff hstep).mpr (hall before a pc pc' hpre hrun hstep)

/-- A tracker that does not answer: the timeout of the first `recv` fails the
assertion on the size of the connect response. -/
theorem recv_timeout_aborts :
    udpStep 7 (.connecting 0) ⟨.sent, .failed eagain, false⟩ = some .aborted ∧
      ¬ EveryAttempt 7 [⟨.sent, .failed eagain, false⟩] (AttemptHandled 7) := by
  have haborts : udpStep 7 (.connecting 0) ⟨.sent, .failed eagain, false⟩ = some .aborted := by
    decide
  refine ⟨haborts, fun hall => ?_⟩
  exact (hall [] _ _ _ (List.prefix_refl _) .nil haborts).noAbort haborts

end BtClient

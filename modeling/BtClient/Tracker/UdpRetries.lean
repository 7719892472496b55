import BtClient.Lib.Credit
import BtClient.Tracker.UdpExchange

/-!
# How often the UDP tracker is tried

Both loops give up at the eighth failed attempt. The counter is cleared once a
connection stands, and an announce attempt that fails after the connection has
expired goes back to connecting: the attempts of the connect loop are then
counted from where the announce loop left off, and those of the announce loop
from zero. A counter that is cleared this way bounds each loop, not the rounds.
-/

namespace BtClient

open CLib

/-- The attempt sends its datagram. -/
def Attempt.sends (a : Attempt) : Bool := decide (a.send = .sent)

/-- `n` where `timeout(n)` is about to be taken. -/
def UdpPc.shift : UdpPc → Option Nat
  | .connecting n => some n
  | .announcing n _ => some n
  | .done _ | .aborted => none

/-- The attempt takes `goto reconnect`: it is not the last one allowed, it fails
with `EAGAIN`, and the connection has expired. -/
def UdpPc.reconnects (pc : UdpPc) (a : Attempt) : Bool :=
  match pc with
  | .announcing n _ => decide (n + 1 ≠ 8 ∧ a.send = .failed eagain ∧ a.expired = true)
  | _ => false

/-- How often the attempts of a run go back to `reconnect`. -/
def reconnections (transactionId : UInt32) (attempts : List Attempt) : Nat :=
  tally (udpStep transactionId) UdpPc.reconnects (.connecting 0) attempts

/-- Whatever a network does, among what `networks` allows: the datagrams sent are
bounded, and `1 << n` is taken for `n` from 0 to 7. -/
structure RetriesBounded (transactionId : UInt32) (networks : List Attempt → Prop) : Prop where
  datagrams : ∃ bound, ∀ attempts pc, networks attempts →
    Run (udpStep transactionId) unguarded (.connecting 0) attempts pc →
    attempts.countP Attempt.sends ≤ bound
  shifts : ∀ attempts pc n, networks attempts →
    Run (udpStep transactionId) unguarded (.connecting 0) attempts pc →
    pc.shift = some n → n ≤ 7

/-! ## One attempt -/

/-- An attempt fails only in `send`. -/
theorem udpTry_error_iff {a : Attempt} {buf : List UInt8} {errno : Nat} :
    udpTry a buf = .error errno ↔ a.send = .failed errno := by
  constructor
  · intro h
    cases hsend : a.send with
    | failed e =>
      rw [udpTry_failed_send hsend] at h
      cases h
      rfl
    | sent =>
      cases hrecv : a.recv with
      | failed e =>
        rw [udpTry_failed_recv hsend hrecv] at h
        cases h
      | datagram bytes =>
        rw [udpTry_datagram hsend hrecv] at h
        cases h
  · intro h
    exact udpTry_failed_send h buf

/-- A failed attempt: the end, or one more that the cap and the error allow. -/
theorem retry_cases (n errno : Nat) (again : UdpPc) :
    (n ≠ 8 ∧ errno = eagain ∧ retry n errno again = again) ∨ retry n errno again = .done none := by
  unfold retry
  by_cases hn : n = 8
  · exact .inr (if_pos hn)
  · by_cases herrno : errno = eagain
    · exact .inl ⟨hn, herrno, by rw [if_neg hn, if_neg (not_not_intro herrno)]⟩
    · exact .inr (by rw [if_neg hn, if_pos herrno])

theorem connectReply_cases (transactionId : UInt32) (res : List UInt8) (dgramSize : Nat) :
    (∃ connectionId, connectReply transactionId res dgramSize = .announcing 0 connectionId) ∨
      (connectReply transactionId res dgramSize).shift = none := by
  unfold connectReply
  split
  · exact .inr rfl
  · split
    · exact .inr rfl
    · split
      · exact .inr rfl
      · exact .inl ⟨_, rfl⟩

/-- Behind an announce response there is no further attempt. -/
theorem announceReply_shift (transactionId : UInt32) (buf : List UInt8) (dgramSize : Nat) :
    (announceReply transactionId buf dgramSize).shift = none := by
  unfold announceReply
  split
  · rfl
  · split
    · rfl
    · split
      · rfl
      · split <;> rfl

/-- Where the connect loop leads: on to the announce loop, to another attempt,
or out. -/
theorem udpStep_connecting_cases {transactionId : UInt32} {n : Nat} {a : Attempt} {pc : UdpPc}
    (h : udpStep transactionId (.connecting n) a = some pc) :
    (a.sends = true ∧ ∃ connectionId, pc = .announcing 0 connectionId) ∨
      (n + 1 ≠ 8 ∧ pc = .connecting (n + 1)) ∨ pc.shift = none := by
  unfold udpStep at h
  cases htry : udpTry a (List.replicate 16 0) with
  | error errno =>
    simp only [htry, Option.some.injEq] at h
    subst h
    rcases retry_cases (n + 1) errno (.connecting (n + 1)) with ⟨hn, -, hagain⟩ | hend
    · exact .inr (.inl ⟨hn, hagain⟩)
    · exact .inr (.inr (by rw [hend]; rfl))
  | ok r =>
    have hsends : a.sends = true := by
      cases hsend : a.send with
      | sent => exact decide_eq_true hsend
      | failed errno =>
        rw [udpTry_failed_send hsend] at htry
        cases htry
    simp only [htry, Option.some.injEq] at h
    subst h
    rcases connectReply_cases transactionId r.1 r.2 with hconnected | hend
    · exact .inl ⟨hsends, hconnected⟩
    · exact .inr (.inr hend)

/-- Where the announce loop leads: to another attempt, back to connecting, or
out. -/
theorem udpStep_announcing_cases {transactionId : UInt32} {n : Nat} {connectionId : UInt64}
    {a : Attempt} {pc : UdpPc}
    (h : udpStep transactionId (.announcing n connectionId) a = some pc) :
    (n + 1 ≠ 8 ∧ UdpPc.reconnects (.announcing n connectionId) a = false ∧
        pc = .announcing (n + 1) connectionId) ∨
      (n + 1 ≠ 8 ∧ UdpPc.reconnects (.announcing n connectionId) a = true ∧
        pc = .connecting (n + 1)) ∨
      pc.shift = none := by
  unfold udpStep at h
  cases htry : udpTry a (List.replicate 2048 0) with
  | error errno =>
    have hsend : a.send = .failed errno := udpTry_error_iff.mp htry
    simp only [htry, Option.some.injEq] at h
    subst h
    rcases retry_cases (n + 1) errno
      (if a.expired then .connecting (n + 1) else .announcing (n + 1) connectionId) with
      ⟨hn, rfl, hagain⟩ | hend
    · rw [hagain]
      by_cases hexpired : a.expired = true
      · exact .inr (.inl ⟨hn, decide_eq_true ⟨hn, hsend, hexpired⟩, if_pos hexpired⟩)
      · exact .inl ⟨hn, decide_eq_false fun hall => hexpired hall.2.2, if_neg hexpired⟩
    · exact .inr (.inr (by rw [hend]; rfl))
  | ok r =>
    simp only [htry, Option.some.injEq] at h
    subst h
    exact .inr (.inr (announceReply_shift transactionId r.1 r.2))

/-! ## Whole runs -/

/-- Neither loop gets to an eighth retry. -/
def UdpPc.ShiftFits (pc : UdpPc) : Prop := ∀ n, pc.shift = some n → n ≤ 7

theorem udpStep_shiftFits (transactionId : UInt32) (pc : UdpPc) (a : Attempt) (pc' : UdpPc)
    (hfits : pc.ShiftFits) (_ : unguarded pc a) (hstep : udpStep transactionId pc a = some pc') :
    pc'.ShiftFits := by
  intro k hk
  cases pc with
  | connecting n =>
    have hn := hfits n rfl
    rcases udpStep_connecting_cases hstep with ⟨-, id, rfl⟩ | ⟨hcap, rfl⟩ | hend
    · cases hk
      omega
    · cases hk
      omega
    · rw [hend] at hk
      cases hk
  | announcing n connectionId =>
    have hn := hfits n rfl
    rcases udpStep_announcing_cases hstep with ⟨hcap, -, rfl⟩ | ⟨hcap, -, rfl⟩ | hend
    · cases hk
      omega
    · cases hk
      omega
    · rw [hend] at hk
      cases hk
  | done response => cases hstep
  | aborted => cases hstep

/-- What is left to a run that does not reconnect any more. -/
def UdpPc.attemptsLeft : UdpPc → Nat
  | .connecting n => (8 - n) + 8
  | .announcing n _ => 8 - n
  | .done _ | .aborted => 0

theorem attemptsLeft_of_shift {pc : UdpPc} (h : pc.shift = none) : pc.attemptsLeft = 0 := by
  cases pc with
  | connecting n => cases h
  | announcing n connectionId => cases h
  | done response => rfl
  | aborted => rfl

/-- An attempt is one less to come, and a reconnection pays for eight. -/
theorem udpStep_attemptsLeft (transactionId : UInt32) (pc : UdpPc) (a : Attempt) (pc' : UdpPc)
    (hfits : pc.ShiftFits) (_ : unguarded pc a) (hstep : udpStep transactionId pc a = some pc') :
    true.toNat + pc'.attemptsLeft ≤ pc.attemptsLeft + 8 * (pc.reconnects a).toNat := by
  rw [Bool.toNat_true]
  cases pc with
  | connecting n =>
    have hn := hfits n rfl
    rcases udpStep_connecting_cases hstep with ⟨-, id, rfl⟩ | ⟨-, rfl⟩ | hend
    · simp only [UdpPc.attemptsLeft]
      omega
    · simp only [UdpPc.attemptsLeft]
      omega
    · rw [attemptsLeft_of_shift hend]
      simp only [UdpPc.attemptsLeft]
      omega
  | announcing n connectionId =>
    have hn := hfits n rfl
    rcases udpStep_announcing_cases hstep with ⟨-, -, rfl⟩ | ⟨-, hback, rfl⟩ | hend
    · simp only [UdpPc.attemptsLeft]
      omega
    · rw [hback, Bool.toNat_true]
      simp only [UdpPc.attemptsLeft]
      omega
    · rw [attemptsLeft_of_shift hend]
      simp only [UdpPc.attemptsLeft]
      omega
  | done response => cases hstep
  | aborted => cases hstep

/-- A connection stands. -/
def UdpPc.connected : UdpPc → Nat
  | .announcing _ _ => 1
  | _ => 0

theorem connected_of_shift {pc : UdpPc} (h : pc.shift = none) : pc.connected = 0 := by
  cases pc with
  | connecting n => cases h
  | announcing n connectionId => cases h
  | done response => rfl
  | aborted => rfl

/-- Only a connection can be given up, and to set one up a datagram is sent. -/
theorem udpStep_connected (transactionId : UInt32) (pc : UdpPc) (a : Attempt) (pc' : UdpPc)
    (_ : True) (_ : unguarded pc a) (hstep : udpStep transactionId pc a = some pc') :
    (pc.reconnects a).toNat + pc'.connected ≤ pc.connected + 1 * a.sends.toNat := by
  cases pc with
  | connecting n =>
    have hnot : (UdpPc.connecting n).reconnects a = false := rfl
    rw [hnot, Bool.toNat_false, Nat.zero_add]
    rcases udpStep_connecting_cases hstep with ⟨hsends, id, rfl⟩ | ⟨-, rfl⟩ | hend
    · rw [hsends]
      exact Nat.le_add_left _ _
    · exact Nat.zero_le _
    · rw [connected_of_shift hend]
      exact Nat.zero_le _
  | announcing n connectionId =>
    rcases udpStep_announcing_cases hstep with ⟨-, hstays, rfl⟩ | ⟨-, hback, rfl⟩ | hend
    · rw [hstays, Bool.toNat_false, Nat.zero_add]
      exact Nat.le_add_right _ _
    · rw [hback]
      exact Nat.le_add_right _ _
    · rw [connected_of_shift hend]
      exact (Bool.toNat_le _).trans (Nat.le_add_right _ _)
  | done response => cases hstep
  | aborted => cases hstep

section Runs

variable {transactionId : UInt32} {attempts : List Attempt} {pc : UdpPc}

theorem run_shiftFits (h : Run (udpStep transactionId) unguarded (.connecting 0) attempts pc) :
    pc.ShiftFits := by
  refine h.invariant ?_ (udpStep_shiftFits transactionId)
  intro n hn
  cases hn
  exact Nat.zero_le _

/-- Two loops of eight attempts, and eight attempts more for every
reconnection. -/
theorem run_attempts_le (h : Run (udpStep transactionId) unguarded (.connecting 0) attempts pc) :
    attempts.length ≤ 16 + 8 * reconnections transactionId attempts := by
  have hzero : UdpPc.ShiftFits (.connecting 0) := by
    intro n hn
    cases hn
    exact Nat.zero_le _
  have hcount := h.tally_le (p := fun _ _ => true) hzero (udpStep_shiftFits transactionId)
    (udpStep_attemptsLeft transactionId)
  rw [h.tally_eq_countP (r := fun _ => true), List.countP_true] at hcount
  exact (Nat.le_add_right _ _).trans hcount

/-- Every reconnection follows a connect request. -/
theorem run_reconnections_le
    (h : Run (udpStep transactionId) unguarded (.connecting 0) attempts pc) :
    reconnections transactionId attempts ≤ attempts.countP Attempt.sends := by
  have hcount : reconnections transactionId attempts + pc.connected ≤
      UdpPc.connected (.connecting 0) +
        1 * tally (udpStep transactionId) (fun _ a => a.sends) (.connecting 0) attempts := by
    refine h.tally_le ?_ ?_ (udpStep_connected transactionId)
    · trivial
    · exact fun _ _ _ _ _ _ => trivial
  have hstart : UdpPc.connected (.connecting 0) = 0 := rfl
  rw [h.tally_eq_countP, Nat.one_mul, hstart, Nat.zero_add] at hcount
  exact (Nat.le_add_right _ _).trans hcount

end Runs

/-- **The bound on the retries.** A run makes sixteen attempts at most and eight
more for every jump back to `reconnect`; so, over any class of networks, the
datagrams are bounded, with shifts from 0 to 7, exactly if the jumps are. -/
theorem udp_retries_bounded_iff (transactionId : UInt32) :
    (∀ attempts pc, Run (udpStep transactionId) unguarded (.connecting 0) attempts pc →
      attempts.length ≤ 16 + 8 * reconnections transactionId attempts) ∧
    ∀ networks : List Attempt → Prop, RetriesBounded transactionId networks ↔
      ∃ bound, ∀ attempts pc, networks attempts →
        Run (udpStep transactionId) unguarded (.connecting 0) attempts pc →
        reconnections transactionId attempts ≤ bound := by
  refine ⟨fun attempts pc hrun => run_attempts_le hrun, fun networks => ?_⟩
  constructor
  · rintro ⟨⟨bound, hbound⟩, -⟩
    refine ⟨bound, fun attempts pc hnetwork hrun => ?_⟩
    exact (run_reconnections_le hrun).trans (hbound attempts pc hnetwork hrun)
  · rintro ⟨bound, hbound⟩
    refine ⟨⟨16 + 8 * bound, fun attempts pc hnetwork hrun => ?_⟩, ?_⟩
    · have hjumps := hbound attempts pc hnetwork hrun
      calc attempts.countP Attempt.sends ≤ attempts.length := List.countP_le_length
        _ ≤ 16 + 8 * reconnections transactionId attempts := run_attempts_le hrun
        _ ≤ 16 + 8 * bound := by omega
    · intro attempts pc n _ hrun hn
      exact run_shiftFits hrun n hn

/-- A connection that is granted and has expired when the announce request cannot
be sent. -/
def expiringRound : List Attempt :=
  [⟨.sent, .datagram [0, 0, 0, 0, 7, 0, 0, 0, 1, 2, 3, 4, 5, 6, 7, 8], false⟩,
    ⟨.failed eagain, .failed 0, true⟩]

/-- Every round sends a datagram, and leads to where it started. -/
theorem run_expiringRound (rounds : Nat) :
    ∃ n, Run (udpStep 7) unguarded (.connecting 0)
        (List.replicate rounds expiringRound).flatten (.connecting n) := by
  induction rounds with
  | zero => exact ⟨0, .nil⟩
  | succ rounds ih =>
    obtain ⟨n, hrun⟩ := ih
    have hround : Run (udpStep 7) unguarded (.connecting n) expiringRound (.connecting 1) := by
      refine .cons trivial (t := .announcing 0 0x0807060504030201) ?_
        (.cons trivial (t := .connecting 1) ?_ .nil)
      · rfl
      · rfl
    refine ⟨1, ?_⟩
    rw [List.replicate_succ', List.flatten_concat]
    exact hrun.append hround

theorem countP_expiringRound (rounds : Nat) :
    (List.replicate rounds expiringRound).flatten.countP Attempt.sends = rounds := by
  induction rounds with
  | zero => rfl
  | succ rounds ih =>
    rw [List.replicate_succ', List.flatten_concat, List.countP_append, ih]
    rfl

/-- The cap defeated: rounds of a connection that expires before the announce
request goes out send any number of datagrams. -/
theorem expiring_connections_unbounded : ¬ RetriesBounded 7 (fun _ => True) := by
  rintro ⟨⟨bound, hbound⟩, -⟩
  obtain ⟨n, hrun⟩ := run_expiringRound (bound + 1)
  have hsent := hbound _ _ trivial hrun
  rw [countP_expiringRound] at hsent
  omega

end BtClient

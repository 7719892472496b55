import BtClient.Lib.Splice
import Mathlib.Tactic.Common

/-!
# Stream sockets and the two partial-I/O loops (`peer_msg.c`)

A connected socket is the bytes that will still arrive before the end of the
stream (`rx`), the bytes sent so far (`tx`), and what the kernel will answer:
call number `n` of `recv` gets `recvPlan n`, where `none` is the return value
`-1` and `some k` a transfer of about `k` bytes, at least one if any can move
and never more than asked for or available. Every split of the stream is the
answer of some plan, so "for all plans" is "for all ways the kernel splits".

`send_buff` and `peer_recv` are the loops that hide the splits; their
specifications at the end are what the message layer uses.
-/

namespace BtClient

open CLib

/-- A connected stream socket. -/
structure Socket where
  rx : List UInt8
  tx : List UInt8
  recvPlan : Nat → Option Nat
  sendPlan : Nat → Option Nat

/-- The plan after its first answer was used. -/
def planTail (plan : Nat → Option Nat) : Nat → Option Nat := fun n => plan (n + 1)

/-- A plan without the answer `-1`. -/
def NeverFails (plan : Nat → Option Nat) : Prop := ∀ n, plan n ≠ none

theorem NeverFails.tail {plan : Nat → Option Nat} (h : NeverFails plan) :
    NeverFails (planTail plan) := fun n => h (n + 1)

/-- `recv(sockfd, buf, len, 0)`: the bytes delivered, `none` for `-1`. -/
def recv (s : Socket) (len : Nat) : Option (List UInt8) × Socket :=
  let s' := { s with recvPlan := planTail s.recvPlan }
  match s.recvPlan 0 with
  | none => (none, s')
  | some k =>
    let n := min (max k 1) (min len s.rx.length)
    (some (s.rx.take n), { s' with rx := s.rx.drop n })

/-- `send(sockfd, buf, len, 0)`: the number of bytes taken, `none` for `-1`. -/
def send (s : Socket) (buf : List UInt8) : Option Nat × Socket :=
  let s' := { s with sendPlan := planTail s.sendPlan }
  match s.sendPlan 0 with
  | none => (none, s')
  | some k =>
    let n := min (max k 1) buf.length
    (some n, { s' with tx := s.tx ++ buf.take n })

/-! ## `peer_recv` -/

/-- What `peer_recv` did: the bytes it stored from the start of `outbuff` on,
whether it returned `0`, and the socket after it. -/
structure Received where
  bytes : List UInt8
  ok : Bool
  sock : Socket

/-- The loop of `peer_recv`, with `got` the bytes received so far. -/
def peerRecvLoop (s : Socket) (len : Nat) (got : List UInt8) : Received :=
  match recv s (len - got.length) with
  | (none, s') => ⟨got, false, s'⟩
  | (some bs, s') =>
    if 0 < bs.length ∧ (got ++ bs).length < len then peerRecvLoop s' len (got ++ bs)
    else ⟨got ++ bs, (got ++ bs).length = len, s'⟩
termination_by len - got.length
decreasing_by
  simp only [List.length_append] at *
  omega

/-- `peer_recv(sockfd, outbuff, len)`. -/
def peerRecv (s : Socket) (len : Nat) : Received := peerRecvLoop s len []

/-- What one `recv` did to the socket. -/
theorem recv_spec (s : Socket) (len : Nat) :
    ((recv s len).1 = none ∧ s.recvPlan 0 = none ∧ (recv s len).2.rx = s.rx) ∨
    ∃ bs, (recv s len).1 = some bs ∧ s.rx = bs ++ (recv s len).2.rx ∧ bs.length ≤ len ∧
      (bs = [] → len = 0 ∨ s.rx = []) := by
  unfold recv
  cases hp : s.recvPlan 0 with
  | none => exact .inl ⟨rfl, rfl, rfl⟩
  | some k =>
    refine .inr ⟨_, rfl, (List.take_append_drop _ _).symm, ?_, ?_⟩
    · rw [List.length_take]
      omega
    · intro hnil
      have hlen := congrArg List.length hnil
      rw [List.length_take, List.length_nil] at hlen
      by_cases h0 : len = 0
      · exact .inl h0
      · right
        apply List.eq_nil_of_length_eq_zero
        omega

theorem recv_frame (s : Socket) (len : Nat) :
    (recv s len).2.tx = s.tx ∧ (recv s len).2.sendPlan = s.sendPlan ∧
      (recv s len).2.recvPlan = planTail s.recvPlan := by
  unfold recv
  cases s.recvPlan 0 <;> exact ⟨rfl, rfl, rfl⟩

/-- The loop's result from `got` on. -/
structure RecvLoop (s : Socket) (len : Nat) (got : List UInt8) (r : Received) : Prop where
  split : ∃ bs, r.bytes = got ++ bs ∧ s.rx = bs ++ r.sock.rx
  le : r.bytes.length ≤ len
  whole : r.ok = true → r.bytes.length = len
  tx : r.sock.tx = s.tx
  sendPlan : r.sock.sendPlan = s.sendPlan
  plan : NeverFails s.recvPlan → NeverFails r.sock.recvPlan
  done : NeverFails s.recvPlan → r.bytes.length = len → r.ok = true
  short : NeverFails s.recvPlan → r.bytes.length < len → r.sock.rx = []

/-- `peer_recv` stores exactly what it takes from the stream, succeeds only
when it got everything, and without socket errors stops short only at the end
of the stream. -/
theorem peerRecvLoop_spec (s : Socket) (len : Nat) (got : List UInt8) (h : got.length ≤ len) :
    RecvLoop s len got (peerRecvLoop s len got) := by
  fun_induction peerRecvLoop s len got with
  | case1 s got s' hrecv =>
    have hspec := recv_spec s (len - got.length)
    have hframe := recv_frame s (len - got.length)
    rw [hrecv] at hspec hframe
    rcases hspec with ⟨_, hplan, hrx⟩ | ⟨bs, hbs, _⟩
    · exact ⟨⟨[], by simp, by simpa using hrx.symm⟩, h, by simp, hframe.1, hframe.2.1,
        fun hnf => absurd hplan (hnf 0), fun hnf => absurd hplan (hnf 0),
        fun hnf => absurd hplan (hnf 0)⟩
    · cases hbs
  | case2 s got bs s' hrecv hmore ih =>
    have hspec := recv_spec s (len - got.length)
    have hframe := recv_frame s (len - got.length)
    rw [hrecv] at hspec hframe
    rcases hspec with ⟨hbs, _⟩ | ⟨bs', hbs, hrx, _⟩
    · cases hbs
    · cases hbs
      have hr := ih (Nat.le_of_lt hmore.2)
      have hnf : NeverFails s.recvPlan → NeverFails s'.recvPlan := by
        intro h; rw [hframe.2.2]; exact h.tail
      obtain ⟨cs, hcs, hrx'⟩ := hr.split
      exact ⟨⟨bs ++ cs, by rw [hcs, List.append_assoc], by rw [hrx, hrx', List.append_assoc]⟩,
        hr.le, hr.whole, hr.tx.trans hframe.1, hr.sendPlan.trans hframe.2.1,
        fun h => hr.plan (hnf h), fun h => hr.done (hnf h), fun h => hr.short (hnf h)⟩
  | case3 s got bs s' hrecv hdone =>
    have hspec := recv_spec s (len - got.length)
    have hframe := recv_frame s (len - got.length)
    rw [hrecv] at hspec hframe
    rcases hspec with ⟨hbs, _⟩ | ⟨bs', hbs, hrx, hle, hempty⟩
    · cases hbs
    · cases hbs
      refine ⟨⟨bs, rfl, hrx⟩, ?_, by simp, hframe.1, hframe.2.1, ?_, by simp, ?_⟩
      · rw [List.length_append]
        omega
      · intro hnf
        rw [hframe.2.2]
        exact hnf.tail
      · -- nothing came although something was asked for: the stream has ended
        intro _ hlt
        simp only at hlt
        have hnil : bs = [] := by
          apply List.eq_nil_of_length_eq_zero
          by_contra hne
          exact hdone ⟨by omega, hlt⟩
        subst hnil
        rw [List.append_nil] at hlt
        rcases hempty rfl with h0 | h0
        · omega
        · simpa using hrx.symm.trans h0

/-- `peer_recv` of `len` bytes, when it succeeds. -/
theorem peerRecv_ok {s : Socket} {len : Nat} (h : (peerRecv s len).ok = true) :
    s.rx = (peerRecv s len).bytes ++ (peerRecv s len).sock.rx ∧
      (peerRecv s len).bytes.length = len := by
  have hr := peerRecvLoop_spec s len [] (Nat.zero_le _)
  obtain ⟨bs, hbs, hrx⟩ := hr.split
  rw [List.nil_append] at hbs
  exact ⟨by rw [peerRecv, hbs]; exact hrx, hr.whole h⟩

/-- `peer_recv` of a field that has arrived. -/
theorem peerRecv_exact {s : Socket} {bs rest : List UInt8} (hnf : NeverFails s.recvPlan)
    (hrx : s.rx = bs ++ rest) :
    (peerRecv s bs.length).ok = true ∧ (peerRecv s bs.length).bytes = bs ∧
      (peerRecv s bs.length).sock.rx = rest ∧
      NeverFails (peerRecv s bs.length).sock.recvPlan := by
  have hr := peerRecvLoop_spec s bs.length [] (Nat.zero_le _)
  obtain ⟨cs, hcs, hrx'⟩ := hr.split
  rw [List.nil_append] at hcs
  have hlen : (peerRecvLoop s bs.length []).bytes.length = bs.length := by
    by_contra hne
    have hlt := Nat.lt_of_le_of_ne hr.le hne
    have hend := hr.short hnf hlt
    rw [hend, List.append_nil] at hrx'
    have hcl := congrArg List.length (hrx.symm.trans hrx')
    rw [List.length_append] at hcl
    rw [hcs] at hlt
    omega
  rw [hcs] at hlen
  obtain ⟨h1, h2⟩ := List.append_inj (hrx'.symm.trans hrx) hlen
  exact ⟨hr.done hnf (by rw [hcs]; exact hlen), hcs.trans h1, h2, hr.plan hnf⟩

/-- `peer_recv` of a field that is cut off by the end of the stream. -/
theorem peerRecv_short {s : Socket} {len : Nat} (h : s.rx.length < len) :
    (peerRecv s len).ok = false := by
  have hr := peerRecvLoop_spec s len [] (Nat.zero_le _)
  obtain ⟨cs, hcs, hrx⟩ := hr.split
  rw [List.nil_append] at hcs
  by_contra hok
  have hwhole := hr.whole (Bool.of_not_eq_false hok)
  have hl := congrArg List.length hrx
  rw [List.length_append] at hl
  rw [hcs] at hwhole
  omega

/-! ## `send_buff` -/

/-- The loop of `send_buff`, with `total` bytes sent so far. -/
def sendBuffLoop (buff : List UInt8) (s : Socket) (total : Nat) : Bool × Socket :=
  if total < buff.length ∨ buff.length = 0 then
    match _hs : send s (buff.drop total) with
    | (none, s') => (false, s')
    | (some n, s') =>
      if buff.length = 0 then (total + n = buff.length, s')
      else sendBuffLoop buff s' (total + n)
  else (total = buff.length, s)
termination_by buff.length - total
decreasing_by
  have hn : 1 ≤ n := by
    unfold send at _hs
    cases hp : s.sendPlan 0 with
    | none => simp [hp] at _hs
    | some k =>
      simp only [hp, Prod.mk.injEq, Option.some.injEq, List.length_drop] at _hs
      omega
  omega

/-- `send_buff(sockfd, buff, bufflen)`: whether it returned `0`. -/
def sendBuff (s : Socket) (buff : List UInt8) : Bool × Socket := sendBuffLoop buff s 0

/-- Sending the rest of a buffer, whatever the splits. -/
theorem sendBuffLoop_spec (buff : List UInt8) (s : Socket) (total : Nat)
    (hnf : NeverFails s.sendPlan) (h : total ≤ buff.length) :
    (sendBuffLoop buff s total).1 = true ∧
      (sendBuffLoop buff s total).2.tx = s.tx ++ buff.drop total ∧
      NeverFails (sendBuffLoop buff s total).2.sendPlan := by
  fun_induction sendBuffLoop buff s total with
  | case1 s total hmore s' hs =>
    unfold send at hs
    cases hp : s.sendPlan 0 with
    | none => exact absurd hp (hnf 0)
    | some k => simp [hp] at hs
  | case2 s total hmore n s' hs hzero =>
    have hnil : buff = [] := List.eq_nil_of_length_eq_zero hzero
    subst hnil
    unfold send at hs
    cases hp : s.sendPlan 0 with
    | none => exact absurd hp (hnf 0)
    | some k =>
      simp only [hp, Prod.mk.injEq, Option.some.injEq] at hs
      obtain ⟨rfl, rfl⟩ := hs
      simp only [List.length_nil] at h
      have ht : total = 0 := by omega
      subst ht
      exact ⟨by simp, by simp, hnf.tail⟩
  | case3 s total hmore n s' hs hpos ih =>
    unfold send at hs
    cases hp : s.sendPlan 0 with
    | none => exact absurd hp (hnf 0)
    | some k =>
      simp only [hp, Prod.mk.injEq, Option.some.injEq, List.length_drop] at hs
      obtain ⟨hn, rfl⟩ := hs
      obtain ⟨hok, htx, hplan⟩ := ih hnf.tail (by omega)
      refine ⟨hok, ?_, hplan⟩
      rw [htx, hn, List.append_assoc, ← List.drop_drop, List.take_append_drop]
  | case4 s total hdone =>
    have ht : total = buff.length := by omega
    subst ht
    exact ⟨by simp, by simp, hnf⟩

theorem sendBuff_spec {s : Socket} (hnf : NeverFails s.sendPlan) (buff : List UInt8) :
    (sendBuff s buff).1 = true ∧ (sendBuff s buff).2.tx = s.tx ++ buff ∧
      NeverFails (sendBuff s buff).2.sendPlan := by
  have h := sendBuffLoop_spec buff s 0 hnf (Nat.zero_le _)
  rwa [List.drop_zero] at h

/-- Sending leaves the receive side alone, also when it fails. -/
theorem sendBuffLoop_frame (buff : List UInt8) (s : Socket) (total : Nat) :
    (sendBuffLoop buff s total).2.rx = s.rx ∧
      (sendBuffLoop buff s total).2.recvPlan = s.recvPlan := by
  have hsend : ∀ (s : Socket) (buf : List UInt8),
      (send s buf).2.rx = s.rx ∧ (send s buf).2.recvPlan = s.recvPlan := by
    intro s buf
    unfold send
    cases s.sendPlan 0 <;> exact ⟨rfl, rfl⟩
  fun_induction sendBuffLoop buff s total with
  | case1 s total _ s' hs =>
    have h := hsend s (buff.drop total)
    rwa [hs] at h
  | case2 s total _ n s' hs _ =>
    have h := hsend s (buff.drop total)
    rwa [hs] at h
  | case3 s total _ n s' hs _ ih =>
    have h := hsend s (buff.drop total)
    rw [hs] at h
    exact ⟨ih.1.trans h.1, ih.2.trans h.2⟩
  | case4 s total _ => exact ⟨rfl, rfl⟩

end BtClient

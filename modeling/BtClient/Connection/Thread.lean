import BtClient.Connection.State
import BtClient.Lib.Transition
import BtClient.Peer.Handshake
import BtClient.Peer.Readiness

/-!
# The thread of a connection (`peer_connection`)

`peer_connection` greets the peer and then runs a loop of four calls: the two
timeouts, `service_have_events`, `process_queued_messages`, and one of
`service_peer_requests` and `send_requests`. Here the head is a function and
the loop goes step by step, a step being one of these calls or one round of
`process_queued_messages`.

The socket of the connection is one for the whole run: what it will deliver and
how the kernel splits it is fixed when the connection begins, and every peer is
some socket. What other threads and the system do is given anew in each step:
the clock, the queue of events, the shared state, the mapped files. Nothing in
the program cancels a thread, so its cancellation points do nothing.
-/

namespace BtClient

open CLib

/-- `PEER_TIMEOUT_SEC`. -/
def peerTimeoutSec : Int := 120

/-- `PEER_KEEPALIVE_INTERVAL`. -/
def peerKeepaliveInterval : Int := 60

/-- Where the loop stands. `processing` has the message just received, `closed`
is the label `abort_conn`, and `faulted` is a call that did not return. -/
inductive LoopPc where
  | timeouts
  | events
  | messages
  | processing (msg : PeerMsg)
  | requests
  | closed
  | faulted
  deriving DecidableEq, Repr

/-- The variables of `peer_connection`. -/
structure PeerThread where
  sock : Socket
  state : ConnState
  lastMsgTime : Int
  lastSentRequestTime : Int
  pc : LoopPc

/-! ## Before the loop -/

/-- What the head of `peer_connection` finds: a connected socket, what
`mq_open` says, the memory of `peer_have`, the shared state and the clock. -/
structure Greeting where
  sock : Socket
  queueOpens : Bool
  fill : Nat → UInt8
  sh : Shared
  now : Int

/-- `peer_connection` from the connected socket to its loop; `none` when it
jumps to one of the labels behind it. -/
def peerConnectionStart (torrent : Metainfo) (peerId : List UInt8) (g : Greeting) :
    Except Fault (Option PeerThread) :=
  match handshake peerId torrent.infoHash g.sock with
  | (none, _) => .ok none
  | (some _, sock) =>
    if g.queueOpens then do
      let state ← connStateInit g.fill torrent g.sh
      let (ok, sock) ← peerMsgSend torrent (.bitfield state.localHave) sock
      if ok then
        let (sock, state) ← unchoke torrent sock state
        return some ⟨sock, state, g.now, -1, .timeouts⟩
      else return none
    else .ok none

/-! ## The loop -/

/-- The steps of the loop, each with what it finds outside the connection.
`curr` is the clock at the top of the loop, `now` the clock of the call. -/
inductive LoopAction where
  | timeouts (curr now : Int)
  | events (queue : MsgQueue)
  | receive (buff : BuffState) (disk : Disk) (now : Int)
  | process (realloc : RequestQueue.Realloc) (disk : Disk) (sh : Shared)
  | requests (sh : Shared) (now : Int)

/-- The two timeouts. -/
def PeerThread.timeouts (torrent : Metainfo) (t : PeerThread) (curr now : Int) :
    Except Fault PeerThread :=
  if peerTimeoutSec < curr - t.lastMsgTime then .ok { t with pc := .closed }
  else if 0 ≤ t.lastSentRequestTime ∧ peerKeepaliveInterval < curr - t.lastSentRequestTime then do
    let (ok, sock) ← peerMsgSend torrent .keepalive t.sock
    if ok then return { t with sock := sock, lastSentRequestTime := now, pc := .events }
    else return { t with sock := sock, pc := .closed }
  else .ok { t with pc := .events }

/-- `service_have_events(sockfd, queue, torrent, state->local_have)`. -/
def PeerThread.events (torrent : Metainfo) (t : PeerThread) (queue : MsgQueue) :
    Except Fault PeerThread := do
  let (_, sock, localHave, _) ← serviceHaveEvents torrent queue t.sock t.state.localHave
  return { t with sock := sock, state := { t.state with localHave := localHave }, pc := .messages }

/-- One round of `process_queued_messages`, up to the message. -/
def PeerThread.receive (torrent : Metainfo) (t : PeerThread) (buff : BuffState) (disk : Disk)
    (now : Int) : Except Fault PeerThread :=
  if peerMsgBuffNonempty buff then do
    let (msg, sock, _) ← peerMsgRecv torrent t.sock disk
    match msg with
    | none => return { t with sock := sock, pc := .closed }
    | some msg => return { t with sock := sock, lastMsgTime := now, pc := .processing msg }
  else .ok { t with pc := .requests }

/-- `process_msg(sockfd, &msg, state, torrent)`. -/
def PeerThread.process (sha1 : List UInt8 → List UInt8) (torrent : Metainfo) (t : PeerThread)
    (msg : PeerMsg) (realloc : RequestQueue.Realloc) (disk : Disk) (sh : Shared) :
    Except Fault PeerThread := do
  let (sock, state, _, _) ← processMsg sha1 torrent realloc disk msg t.sock t.state sh
  return { t with sock := sock, state := state, pc := .messages }

/-- The end of a round of the loop. `send_requests` reads the clock in front of
every request. -/
def PeerThread.requests (torrent : Metainfo) (t : PeerThread) (sh : Shared) (now : Int) :
    Except Fault PeerThread :=
  if 0 < t.state.peerRequests.size then do
    let (sock, state) ← servicePeerRequests torrent t.sock t.state
    return { t with sock := sock, state := state, pc := .timeouts }
  else if !t.state.localState.choked && t.state.localState.interested then do
    let r ← sendRequests torrent t.sock t.state sh
    let asked := r.sent.any fun msg => msg.type == .msgRequest
    return { t with sock := r.sock, state := r.state, pc := if r.ok then .timeouts else .closed
                    lastSentRequestTime := if asked then now else t.lastSentRequestTime }
  else .ok { t with pc := .timeouts }

/-- The call of a step; `none` when the loop is elsewhere. The receive buffer
holds the beginning of what the socket will deliver. -/
def PeerThread.call (sha1 : List UInt8 → List UInt8) (torrent : Metainfo) (t : PeerThread) :
    LoopAction → Option (Except Fault PeerThread)
  | .timeouts curr now => if t.pc = .timeouts then some (t.timeouts torrent curr now) else none
  | .events queue => if t.pc = .events then some (t.events torrent queue) else none
  | .receive buff disk now =>
    if t.pc = .messages ∧ buff.available <+: t.sock.rx then
      some (t.receive torrent buff disk now)
    else none
  | .process realloc disk sh =>
    match t.pc with
    | .processing msg => some (t.process sha1 torrent msg realloc disk sh)
    | _ => none
  | .requests sh now => if t.pc = .requests then some (t.requests torrent sh now) else none

/-- One step of the loop. -/
def PeerThread.step (sha1 : List UInt8 → List UInt8) (torrent : Metainfo) (t : PeerThread)
    (a : LoopAction) : Option PeerThread :=
  (t.call sha1 torrent a).map fun result =>
    match result with
    | .error _ => { t with pc := .faulted }
    | .ok t => t

/-- **What a step does**: its call faults, or it is the call at the thread's
place. -/
inductive LoopStep (sha1 : List UInt8 → List UInt8) (torrent : Metainfo) (t : PeerThread) :
    PeerThread → Prop where
  | faulted : LoopStep sha1 torrent t { t with pc := .faulted }
  | timeouts {t' : PeerThread} {curr now : Int} :
    t.pc = .timeouts → t.timeouts torrent curr now = .ok t' → LoopStep sha1 torrent t t'
  | events {t' : PeerThread} {queue : MsgQueue} :
    t.pc = .events → t.events torrent queue = .ok t' → LoopStep sha1 torrent t t'
  | receive {t' : PeerThread} {buff : BuffState} {disk : Disk} {now : Int} :
    t.pc = .messages → t.receive torrent buff disk now = .ok t' → LoopStep sha1 torrent t t'
  | process {t' : PeerThread} {msg : PeerMsg} {realloc : RequestQueue.Realloc} {disk : Disk}
    {sh : Shared} : t.pc = .processing msg → t.process sha1 torrent msg realloc disk sh = .ok t' →
    LoopStep sha1 torrent t t'
  | requests {t' : PeerThread} {sh : Shared} {now : Int} :
    t.pc = .requests → t.requests torrent sh now = .ok t' → LoopStep sha1 torrent t t'

theorem PeerThread.step_cases {sha1 : List UInt8 → List UInt8} {torrent : Metainfo}
    {t t' : PeerThread} {a : LoopAction} (h : t.step sha1 torrent a = some t') :
    LoopStep sha1 torrent t t' := by
  obtain ⟨result, hcall, h⟩ := Option.map_eq_some_iff.mp h
  cases result with
  | error e =>
    cases h
    exact .faulted
  | ok t₁ =>
    cases h
    cases a with
    | timeouts curr now =>
      simp only [PeerThread.call] at hcall
      split at hcall
      · exact .timeouts ‹_› (Option.some.inj hcall)
      · cases hcall
    | events queue =>
      simp only [PeerThread.call] at hcall
      split at hcall
      · exact .events ‹_› (Option.some.inj hcall)
      · cases hcall
    | receive buff disk now =>
      simp only [PeerThread.call] at hcall
      split at hcall
      · rename_i hpc
        exact .receive hpc.1 (Option.some.inj hcall)
      · cases hcall
    | process realloc disk sh =>
      simp only [PeerThread.call] at hcall
      split at hcall
      · exact .process ‹_› (Option.some.inj hcall)
      · cases hcall
    | requests sh now =>
      simp only [PeerThread.call] at hcall
      split at hcall
      · exact .requests ‹_› (Option.some.inj hcall)
      · cases hcall

end BtClient

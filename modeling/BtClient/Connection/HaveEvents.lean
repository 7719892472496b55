import BtClient.Connection.Calls
import BtClient.Connection.Download
import BtClient.Peer.Wire
import BtClient.Tracker.Types

/-!
# `HAVE` events between connections (`notify_peers_have`)

A connection that completes a piece tells the others through their message
queues, and each of them passes the event on to its peer. The two sides meet
in the name of the queue, the size of the message and the test on the thread.
`notify_peers_have` skips every thread but its own, and it sends eight bytes to
queues that `peer_queue_open` made for four.

What `peer_connection_queue_name` prints are the eight bytes at the address
that the thread id is: `tcb` is that memory.
-/

namespace BtClient

open CLib

/-! ## The code -/

/-- One digit of `%02X`. -/
def hexDigit (n : Nat) : Char := "0123456789ABCDEF".toList.getD n '0'

/-- `peer_connection_queue_name(thread, out, len)`. -/
def peerConnectionQueueName (tcb : UInt64 → List UInt8) (thread : UInt64) : String :=
  "/" ++ String.ofList ((tcb thread).flatMap fun b =>
    [hexDigit (b.toNat / 16), hexDigit (b.toNat % 16)]) ++ "_queue"

/-- `peer_queue_open(O_RDONLY | O_CREAT | O_NONBLOCK)` by thread `caller`. -/
def peerQueueOpen (tcb : UInt64 → List UInt8) (caller : UInt64) (table : MqTable) : MqTable :=
  mqCreate table (peerConnectionQueueName tcb caller) 10 4

/-- `queue_cleanup(NULL)` by thread `caller`. -/
def queueCleanup (tcb : UInt64 → List UInt8) (caller : UInt64) (table : MqTable) : MqTable :=
  mqUnlink table (peerConnectionQueueName tcb caller)

/-- `notify_peers_have(torrent, have_index)` by thread `caller`, with the loop on
`peer_connections`: whether it returned `0`, and the queues. -/
def notifyPeersHave (tcb : UInt64 → List UInt8) (caller : UInt64) (haveIndex : Nat) :
    List PeerConnection → MqTable → Bool × MqTable
  | [], table => (true, table)
  | conn :: conns, table =>
    -- `pthread_equal(conn->thread, pthread_self()) == 0`
    if conn.thread ≠ caller then notifyPeersHave tcb caller haveIndex conns table
    else
      let name := peerConnectionQueueName tcb conn.thread
      match mqOpen table name with
      | .error _ => (false, (notifyPeersHave tcb caller haveIndex conns table).2)
      | .ok queue =>
        match mqSend queue (leBytes 8 haveIndex) with
        | .error _ => notifyPeersHave tcb caller haveIndex conns table
        | .ok queue => notifyPeersHave tcb caller haveIndex conns (mqStore table name queue)

/-- The events of `handle_piece_dl_completion`, carried out by thread `caller`. -/
def postEvents (tcb : UInt64 → List UInt8) (caller : UInt64) (conns : List PeerConnection) :
    List Event → MqTable → MqTable
  | [], table => table
  | .notifyPeersHave index :: events, table =>
    postEvents tcb caller conns events
      (notifyPeersHave tcb caller index.toNat conns table).2
  | _ :: events, table => postEvents tcb caller conns events table

/-- `handle_piece_dl_completion(sockfd, torrent, index)` by thread `caller`, with
the queues it posts to. -/
def completePiece (tcb : UInt64 → List UInt8) (caller : UInt64) (conns : List PeerConnection)
    (torrent : Metainfo) (sock : Socket) (sh : Shared) (table : MqTable) (index : UInt32) :
    Except Fault (Socket × Shared × MqTable) := do
  let (sock, sh, events) ← handlePieceDlCompletion torrent sock sh index
  return (sock, sh, postEvents tcb caller conns events table)

/-! ## What should happen -/

/-- A queue as `peer_queue_open` makes it, with events of the torrent's pieces. -/
structure EventQueue (torrent : Metainfo) (queue : MsgQueue) : Prop where
  maxmsg : queue.maxmsg = 10
  msgsize : queue.msgsize = 4
  events : ∃ indices : List Nat, queue.messages = indices.map (leBytes 4) ∧
    ∀ i ∈ indices, i < torrent.info.numPieces ∧ i < 2 ^ 32

/-- Every queue there is. -/
def EventQueues (torrent : Metainfo) (table : MqTable) : Prop :=
  ∀ name queue, table name = some queue → EventQueue torrent queue

/-- One event was added, and the next `service_have_events` of the connection
takes it as piece `index`: it sets the bit and sends the `HAVE`. -/
def HaveDelivered (torrent : Metainfo) (queue queue' : MsgQueue) (index : UInt32) : Prop :=
  (∃ event, queue'.messages = queue.messages ++ [event]) ∧
    ∀ sock havebf, NeverFails sock.sendPlan →
      havebf.length = bitfieldNumBytes torrent.info.numPieces →
      ∃ rest sock' havebf' sent,
        serviceHaveEvents torrent queue' sock havebf = .ok (rest, sock', havebf', sent) ∧
        bitfieldIsset index.toNat havebf' = true ∧ .haveMsg index ∈ sent

/-- A registered connection other than the caller with a queue that has room. -/
def Reachable (tcb : UInt64 → List UInt8) (caller : UInt64) (conns : List PeerConnection)
    (table : MqTable) (conn : PeerConnection) (queue : MsgQueue) : Prop :=
  conn ∈ conns ∧ conn.thread ≠ caller ∧
    table (peerConnectionQueueName tcb conn.thread) = some queue ∧
    queue.messages.length < queue.maxmsg

/-- Every other connection gets the event, the caller does not. -/
structure HaveEventsReach (torrent : Metainfo) (tcb : UInt64 → List UInt8) (caller : UInt64)
    (conns : List PeerConnection) (table table' : MqTable) (index : UInt32) : Prop where
  others : ∀ conn queue, Reachable tcb caller conns table conn queue →
    ∃ queue', table' (peerConnectionQueueName tcb conn.thread) = some queue' ∧
      HaveDelivered torrent queue queue' index
  own : table' (peerConnectionQueueName tcb caller) = table (peerConnectionQueueName tcb caller)

/-! ## The queues -/

variable {torrent : Metainfo} {tcb : UInt64 → List UInt8} {caller : UInt64}

/-- Opening a queue and closing one keep them so. -/
theorem peerQueueOpen_eventQueues {table : MqTable} (h : EventQueues torrent table) :
    EventQueues torrent (peerQueueOpen tcb caller table) := by
  intro name queue hq
  rcases mqCreate_eq_some hq with rfl | hq
  · exact ⟨rfl, rfl, [], rfl, by simp⟩
  · exact h name queue hq

theorem queueCleanup_eventQueues {table : MqTable} (h : EventQueues torrent table) :
    EventQueues torrent (queueCleanup tcb caller table) := by
  intro name queue hq
  exact h name queue (mqUnlink_eq_some hq)

/-- No queue takes the eight bytes of a `size_t`. -/
theorem notifyPeersHave_table {table : MqTable} (h : EventQueues torrent table) (haveIndex : Nat)
    (conns : List PeerConnection) :
    (notifyPeersHave tcb caller haveIndex conns table).2 = table := by
  induction conns with
  | nil => rfl
  | cons conn conns ih =>
    rw [notifyPeersHave]
    split
    · exact ih
    · cases hq : table (peerConnectionQueueName tcb conn.thread) with
      | none =>
        simp only [mqOpen, hq]
        exact ih
      | some queue =>
        have hsize : queue.msgsize < (leBytes 8 haveIndex).length := by
          rw [(h _ _ hq).msgsize, length_leBytes]
          decide
        simp only [mqOpen, hq, mqSend_of_oversize hsize]
        exact ih

theorem postEvents_table {table : MqTable} (h : EventQueues torrent table)
    (conns : List PeerConnection) (events : List Event) :
    postEvents tcb caller conns events table = table := by
  induction events with
  | nil => rfl
  | cons event events ih =>
    cases event with
    | notifyPeersHave index => rw [postEvents, notifyPeersHave_table h, ih]
    | _ => exact ih

/-! ## The receiving side -/

/-- One round of `service_have_events`. -/
theorem serviceHaveEvents_cons (torrent : Metainfo) (maxmsg : Nat) {sock : Socket}
    {havebf : List UInt8} {i : Nat} (rest : List (List UInt8)) (hi : i < 2 ^ 32)
    (hfit : i / 8 < havebf.length) (hnf : NeverFails sock.sendPlan) :
    ∃ sock', NeverFails sock'.sendPlan ∧
      serviceHaveEvents torrent ⟨maxmsg, 4, leBytes 4 i :: rest⟩ sock havebf = (do
        let (queue, sock, havebf, sent) ←
          serviceHaveEvents torrent ⟨maxmsg, 4, rest⟩ sock' (packedSet havebf i)
        return (queue, sock, havebf, .haveMsg (UInt32.ofNat i) :: sent)) := by
  have hwire : wireMsg torrent (.haveMsg (UInt32.ofNat i)) = true := rfl
  obtain ⟨sock', hsend, -, hnf'⟩ := peerMsgSend_spec hwire hnf
  refine ⟨sock', hnf', ?_⟩
  have hvalue : ofLe (leBytes 4 i) = i := by
    rw [ofLe_leBytes]
    omega
  have hnat : (UInt32.ofNat i).toNat = i := by
    rw [UInt32.toNat_ofNat']
    omega
  rw [serviceHaveEvents]
  split
  · rename_i e herr
    cases herr
  · rename_i bytes queue' hok
    cases hok
    rw [if_pos (length_leBytes 4 i)]
    simp only [hvalue, hnat, bitfieldSet_of hfit, ok_bind, hsend, if_true]

/-- **`service_have_events`** on a queue of events, with a peer that takes
everything: every event is passed on and its bit set, and no bit is cleared. -/
theorem serviceHaveEvents_spec (torrent : Metainfo) (maxmsg : Nat) (indices : List Nat) :
    ∀ {sock : Socket} {havebf : List UInt8},
      (∀ i ∈ indices, i < 2 ^ 32 ∧ i / 8 < havebf.length) → NeverFails sock.sendPlan →
      ∃ rest sock' havebf',
        serviceHaveEvents torrent ⟨maxmsg, 4, indices.map (leBytes 4)⟩ sock havebf =
          .ok (rest, sock', havebf', indices.map fun i => .haveMsg (UInt32.ofNat i)) ∧
        ∀ i, bitfieldIsset i havebf' = true ↔ bitfieldIsset i havebf = true ∨ i ∈ indices := by
  induction indices with
  | nil =>
    intro sock havebf _ _
    refine ⟨⟨maxmsg, 4, []⟩, sock, havebf, ?_, by simp⟩
    rw [serviceHaveEvents]
    rfl
  | cons i indices ih =>
    intro sock havebf hfit hnf
    obtain ⟨hi, hin⟩ := hfit i (by simp)
    obtain ⟨sock₁, hnf₁, hround⟩ :=
      serviceHaveEvents_cons torrent maxmsg (indices.map (leBytes 4)) hi hin hnf
    have hfit₁ : ∀ j ∈ indices, j < 2 ^ 32 ∧ j / 8 < (packedSet havebf i).length := by
      intro j hj
      rw [length_packedSet]
      exact hfit j (by simp [hj])
    obtain ⟨rest, sock', havebf', hloop, hbits⟩ := ih hfit₁ hnf₁
    refine ⟨rest, sock', havebf', ?_, fun j => ?_⟩
    · rw [List.map_cons, hround, hloop]
      rfl
    · rw [hbits, bitfieldIsset_eq, packedBit_packedSet hin, Bool.or_eq_true, decide_eq_true_eq,
        List.mem_cons, or_assoc, eq_comm (a := i)]
      rfl

/-- The receiving side does its part: an event of four bytes behind the others
is delivered. -/
theorem haveDelivered_of_event {queue : MsgQueue} {index : UInt32} (hq : EventQueue torrent queue)
    (hindex : index.toNat < torrent.info.numPieces) :
    HaveDelivered torrent queue
      { queue with messages := queue.messages ++ [leBytes 4 index.toNat] } index := by
  refine ⟨⟨_, rfl⟩, fun sock havebf hnf hlen => ?_⟩
  obtain ⟨indices, hmsgs, hall⟩ := hq.events
  have hfit : ∀ i ∈ indices ++ [index.toNat], i < 2 ^ 32 ∧ i / 8 < havebf.length := by
    intro i hi
    rw [hlen]
    rcases List.mem_append.mp hi with hi | hi
    · exact ⟨(hall i hi).2, lt_bitfieldNumBytes (hall i hi).1⟩
    · rw [List.mem_singleton.mp hi]
      exact ⟨index.toNat_lt, lt_bitfieldNumBytes hindex⟩
  have hqueue : { queue with messages := queue.messages ++ [leBytes 4 index.toNat] } =
      MsgQueue.mk queue.maxmsg 4 ((indices ++ [index.toNat]).map (leBytes 4)) := by
    rw [hmsgs, hq.msgsize, List.map_append]
    rfl
  obtain ⟨rest, sock', havebf', hloop, hbits⟩ :=
    serviceHaveEvents_spec torrent queue.maxmsg _ hfit hnf
  rw [← hqueue] at hloop
  refine ⟨rest, sock', havebf', _, hloop, (hbits _).mpr (.inr (by simp)), ?_⟩
  simp

/-! ## Both sides together -/

/-- An unchanged queue has received nothing. -/
theorem not_haveDelivered_self (queue : MsgQueue) (index : UInt32) :
    ¬ HaveDelivered torrent queue queue index := by
  rintro ⟨⟨event, hmsgs⟩, -⟩
  have hlen := congrArg List.length hmsgs
  rw [List.length_append, List.length_singleton] at hlen
  omega

theorem completePiece_table {conns : List PeerConnection} {table table' : MqTable}
    {sock sock' : Socket} {sh sh' : Shared} {index : UInt32} (hqueues : EventQueues torrent table)
    (h : completePiece tcb caller conns torrent sock sh table index = .ok (sock', sh', table')) :
    table' = table := by
  obtain ⟨⟨sock₁, sh₁, events⟩, -, hret⟩ := (seq_returns_iff _ _ _).mp h
  cases hret
  exact postEvents_table hqueues conns events

/-- **`HAVE` events reach the other connections** when a piece is completed
exactly when there is no other connection to reach. -/
theorem have_events_reach_iff {conns : List PeerConnection} {table table' : MqTable}
    {sock sock' : Socket} {sh sh' : Shared} {index : UInt32} (hqueues : EventQueues torrent table)
    (hdone : completePiece tcb caller conns torrent sock sh table index =
      .ok (sock', sh', table')) :
    HaveEventsReach torrent tcb caller conns table table' index ↔
      ∀ conn queue, ¬ Reachable tcb caller conns table conn queue := by
  have hsame := completePiece_table hqueues hdone
  subst hsame
  constructor
  · intro hreach conn queue hconn
    obtain ⟨queue', hqueue', hdelivered⟩ := hreach.others conn queue hconn
    rw [hconn.2.2.1, Option.some.injEq] at hqueue'
    subst hqueue'
    exact not_haveDelivered_self queue index hdelivered
  · intro hnone
    exact ⟨fun conn queue hconn => absurd hconn (hnone conn queue), rfl⟩

/-! ## Two connections -/

/-- The first word of a thread's control block is its own address. -/
def selfPointer (thread : UInt64) : List UInt8 := leBytes 8 thread.toNat

/-- Two connections, each with its queue. -/
def twoConns : List PeerConnection :=
  [⟨⟨[10, 0, 0, 1], [26, 225]⟩, 1⟩, ⟨⟨[10, 0, 0, 2], [26, 225]⟩, 2⟩]

/-- The queues of the two threads, both empty. -/
def twoQueues : MqTable :=
  peerQueueOpen selfPointer 1 (peerQueueOpen selfPointer 2 fun _ => none)

theorem twoQueues_eventQueues : EventQueues eightPieces twoQueues := by
  refine peerQueueOpen_eventQueues (peerQueueOpen_eventQueues ?_)
  intro name queue hq
  cases hq

/-- Completing the first piece returns. -/
theorem completePiece_eightPieces (conns : List PeerConnection) :
    ∃ sock' sh' table', completePiece selfPointer 1 conns eightPieces
      (quiet (sharedInit 8)).sock (sharedInit 8) twoQueues 0 = .ok (sock', sh', table') := by
  have hsh : (sharedInit 8).Consistent eightPieces.info.numPieces :=
    sharedInit_consistent (by decide)
  have hindex : (0 : UInt32).toNat < eightPieces.info.numPieces := by decide
  obtain ⟨sock', sh', events, hdone, -⟩ :=
    handlePieceDlCompletion_spec (quiet (sharedInit 8)).sock hsh hindex
  refine ⟨sock', sh', postEvents selfPointer 1 conns events twoQueues, ?_⟩
  unfold completePiece
  rw [hdone]
  rfl

/-- The first thread alone has no one to tell. -/
theorem have_events_reach_alone :
    ∃ sock' sh' table', completePiece selfPointer 1 (twoConns.take 1) eightPieces
        (quiet (sharedInit 8)).sock (sharedInit 8) twoQueues 0 = .ok (sock', sh', table') ∧
      HaveEventsReach eightPieces selfPointer 1 (twoConns.take 1) twoQueues table' 0 := by
  obtain ⟨sock', sh', table', hdone⟩ := completePiece_eightPieces (twoConns.take 1)
  refine ⟨sock', sh', table', hdone, (have_events_reach_iff twoQueues_eventQueues hdone).mpr ?_⟩
  rintro conn queue ⟨hmem, hother, -⟩
  rw [List.mem_singleton.mp hmem] at hother
  exact hother rfl

/-- The second thread's queue is there and empty, and gets nothing. -/
theorem have_event_not_delivered :
    ∃ sock' sh' table', completePiece selfPointer 1 twoConns eightPieces
        (quiet (sharedInit 8)).sock (sharedInit 8) twoQueues 0 = .ok (sock', sh', table') ∧
      ¬ HaveEventsReach eightPieces selfPointer 1 twoConns twoQueues table' 0 := by
  obtain ⟨sock', sh', table', hdone⟩ := completePiece_eightPieces twoConns
  refine ⟨sock', sh', table', hdone, fun hreach => ?_⟩
  have hsecond : Reachable selfPointer 1 twoConns twoQueues ⟨⟨[10, 0, 0, 2], [26, 225]⟩, 2⟩
      ⟨10, 4, []⟩ := by
    refine ⟨by simp [twoConns], by decide, ?_, by decide⟩
    decide +kernel
  obtain ⟨queue', hqueue', hdelivered⟩ := hreach.others _ _ hsecond
  rw [completePiece_table twoQueues_eventQueues hdone, hsecond.2.2.1, Option.some.injEq] at hqueue'
  subst hqueue'
  exact not_haveDelivered_self _ _ hdelivered

end BtClient

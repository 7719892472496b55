import BtClient.Connection.HaveEvents
import BtClient.Connection.Thread
import BtClient.DlFile.Model
import BtClient.Main

/-!
# The whole process

The loop of `main` and the threads it has started, over one torrent: the shared
state, the mapped files, the message queues and the names of the files. Here
the parts meet that the other modules have one by one. A step is a step of
`main`, or one call of a connection thread: its head up to the loop, a call of
the loop, or the cleanup handlers behind it.

What is outside the process comes with the actions: the answers of the
tracker and of the system, what a socket will deliver, the clock. What is
inside is taken from the process: a thread reads the piece states, the files
and the queue that the others left behind. A call that does not return ends
the process.

Calls are not interrupted here. `Client` cuts those that touch the shared
state and the files into what the threads really do without giving way.
-/

namespace BtClient

open CLib

/-- Where a thread stands: created, in the loop of `peer_connection` or behind
it, and gone. -/
inductive ThreadState where
  | created
  | running (t : PeerThread)
  | exited

/-- The process. Entry `c` of `threads` is the thread of `main.threads[c]`, and
`main.connections` is `sh.peer_connections`. -/
structure Process where
  main : MainState
  sh : Shared
  disk : Disk
  table : MqTable
  files : List DlFile
  names : Names
  threads : List ThreadState
  faulted : Bool

/-- What the head of `peer_connection` gets from the system; `none` is a
`peer_connect` that failed. -/
structure GreetAnswers where
  sock : Option Socket
  queueOpens : Bool
  fill : Nat → UInt8
  now : Int

/-- The calls of the loop, with what they get from the system. -/
inductive LoopInput where
  | timeouts (curr now : Int)
  | events
  | receive (buff : BuffState) (now : Int)
  | process (realloc : RequestQueue.Realloc) (renamed : Nat → Bool)
  | requests (now : Int)

/-- The steps of the process. -/
inductive ProcessAction where
  | main (a : MainAction)
  | greet (c : Nat) (answers : GreetAnswers)
  | loop (c : Nat) (input : LoopInput)
  | leave (c : Nat)

/-- What does not change: the metainfo, the peer id, the digest, and the memory
`peer_connection_queue_name` reads. -/
structure Program where
  torrent : Metainfo
  peerId : List UInt8
  sha1 : List UInt8 → List UInt8
  tcb : UInt64 → List UInt8

namespace Program

variable (prog : Program)

/-- The process after `parse_file`. -/
def init (disk : Disk) (table : MqTable) (names : Names) : Process where
  main := .init
  sh := sharedInit prog.torrent.info.numPieces
  disk := disk
  table := table
  files := prog.torrent.files
  names := names
  threads := []
  faulted := false

/-- What a thread does outside its connection while it handles a message. -/
def carryOut (thread : UInt64) (renamed : Nat → Bool) :
    List Event → Process → Except Fault Process
  | [], p => .ok p
  | .hashed _ _ :: events, p => carryOut thread renamed events p
  | .torrentComplete :: events, p => do
    let (files, names) ← completeLoop renamed prog.torrent.info.filesCount 0 p.files p.names
    carryOut thread renamed events { p with files := files, names := names }
  | .notifyPeersHave index :: events, p =>
    carryOut thread renamed events { p with
      table := (notifyPeersHave prog.tcb thread index.toNat p.main.connections p.table).2 }

/-- `peer_connection` up to its loop. Its queue is unlinked again when it does
not get there. -/
def greet (p : Process) (thread : UInt64) (answers : GreetAnswers) :
    Except Fault (Process × ThreadState) :=
  match answers.sock with
  | none => .ok (p, .exited)
  | some sock => do
    let opens := (handshake prog.peerId prog.torrent.infoHash sock).1.isSome && answers.queueOpens
    let table := if opens then peerQueueOpen prog.tcb thread p.table else p.table
    match ← peerConnectionStart prog.torrent prog.peerId
      ⟨sock, answers.queueOpens, answers.fill, p.sh, answers.now⟩ with
    | some t => return ({ p with table := table }, .running t)
    | none =>
      let table := if opens then queueCleanup prog.tcb thread table else table
      return ({ p with table := table }, .exited)

/-- The queue a thread has opened. -/
def queueOf (p : Process) (thread : UInt64) : MsgQueue :=
  (p.table (peerConnectionQueueName prog.tcb thread)).getD ⟨10, 4, []⟩

/-- `service_have_events` on the thread's own queue. -/
def events (p : Process) (thread : UInt64) (t : PeerThread) :
    Except Fault (Process × PeerThread) := do
  let queue := prog.queueOf p thread
  let (queue', _, _, _) ← serviceHaveEvents prog.torrent queue t.sock t.state.localHave
  let t ← t.events prog.torrent queue
  let name := peerConnectionQueueName prog.tcb thread
  return ({ p with table := mqStore p.table name queue' }, t)

/-- One round of `process_queued_messages`, up to the message. A block goes
into the files. -/
def receive (p : Process) (t : PeerThread) (buff : BuffState) (now : Int) :
    Except Fault (Process × PeerThread) := do
  let t' ← t.receive prog.torrent buff p.disk now
  if peerMsgBuffNonempty buff then
    let (_, _, disk) ← peerMsgRecv prog.torrent t.sock p.disk
    return ({ p with disk := disk }, t')
  else return (p, t')

/-- `process_msg`. -/
def process (p : Process) (thread : UInt64) (t : PeerThread) (msg : PeerMsg)
    (realloc : RequestQueue.Realloc) (renamed : Nat → Bool) :
    Except Fault (Process × PeerThread) := do
  let (_, _, sh, events) ←
    processMsg prog.sha1 prog.torrent realloc p.disk msg t.sock t.state p.sh
  let t ← t.process prog.sha1 prog.torrent msg realloc p.disk p.sh
  let p ← prog.carryOut thread renamed events { p with sh := sh }
  return (p, t)

/-- The end of a round of the loop. -/
def requests (p : Process) (t : PeerThread) (now : Int) : Except Fault (Process × PeerThread) := do
  let t' ← t.requests prog.torrent p.sh now
  if 0 < t.state.peerRequests.size then return (p, t')
  else if !t.state.localState.choked && t.state.localState.interested then
    let r ← sendRequests prog.torrent t.sock t.state p.sh
    return ({ p with sh := r.sh }, t')
  else return (p, t')

/-- The call at the thread's place; `none` when the loop is elsewhere. -/
def loop (p : Process) (thread : UInt64) (t : PeerThread) :
    LoopInput → Option (Except Fault (Process × PeerThread))
  | .timeouts curr now =>
    if t.pc = .timeouts then some ((t.timeouts prog.torrent curr now).map fun t => (p, t)) else none
  | .events => if t.pc = .events then some (prog.events p thread t) else none
  | .receive buff now =>
    if t.pc = .messages ∧ buff.available <+: t.sock.rx then some (prog.receive p t buff now)
    else none
  | .process realloc renamed =>
    match t.pc with
    | .processing msg => some (prog.process p thread t msg realloc renamed)
    | _ => none
  | .requests now => if t.pc = .requests then some (prog.requests p t now) else none

/-- The process after a call of thread `c`. -/
def after (p : Process) (c : Nat) : Except Fault (Process × ThreadState) → Process
  | .error _ => { p with faulted := true }
  | .ok (p', thread) => { p' with threads := p'.threads.set c thread }

/-- A step of `main`. What it announces depends on what it reads. -/
def stepMain (p : Process) (a : MainAction) : Option Process :=
  match a with
  | .announce readCompleted _ =>
    if readCompleted = p.sh.completed then
      (p.main.step prog.torrent prog.peerId a).map fun main => { p with main := main }
    else none
  | _ =>
    (p.main.step prog.torrent prog.peerId a).map fun main =>
      { p with main := main
               threads := if a.creates then p.threads ++ [.created] else p.threads }

/-- One step of the process. -/
def step (p : Process) (a : ProcessAction) : Option Process :=
  if p.faulted then none else
  match a with
  | .main a => prog.stepMain p a
  | .greet c answers =>
    match p.main.threads[c]?, p.threads[c]? with
    | some conn, some .created => some (after p c (prog.greet p conn.thread answers))
    | _, _ => none
  | .loop c input =>
    match p.main.threads[c]?, p.threads[c]? with
    | some conn, some (.running t) =>
      (prog.loop p conn.thread t input).map fun result =>
        after p c (result.map fun (p', t') => (p', .running t'))
    | _, _ => none
  | .leave c =>
    match p.main.threads[c]?, p.threads[c]? with
    | some conn, some (.running t) =>
      if t.pc = .closed then
        some { p with table := queueCleanup prog.tcb conn.thread p.table
                      threads := p.threads.set c .exited }
      else none
    | _, _ => none

/-! ## What a step does -/

/-- A call of a thread's loop that returns. -/
inductive Call (p : Process) (thread : UInt64) (t : PeerThread) : Process × PeerThread → Prop where
  | timeouts {t' : PeerThread} {curr now : Int} :
    t.pc = .timeouts → t.timeouts prog.torrent curr now = .ok t' → Call p thread t (p, t')
  | events {r : Process × PeerThread} :
    t.pc = .events → prog.events p thread t = .ok r → Call p thread t r
  | receive {r : Process × PeerThread} {buff : BuffState} {now : Int} :
    t.pc = .messages → prog.receive p t buff now = .ok r → Call p thread t r
  | process {r : Process × PeerThread} {msg : PeerMsg} {realloc : RequestQueue.Realloc}
    {renamed : Nat → Bool} : t.pc = .processing msg →
    prog.process p thread t msg realloc renamed = .ok r → Call p thread t r
  | requests {r : Process × PeerThread} {now : Int} :
    t.pc = .requests → prog.requests p t now = .ok r → Call p thread t r

theorem call_of_loop {p : Process} {thread : UInt64} {t : PeerThread} {input : LoopInput}
    {r : Process × PeerThread} (h : prog.loop p thread t input = some (.ok r)) :
    prog.Call p thread t r := by
  cases input with
  | timeouts curr now =>
    simp only [loop] at h
    split at h
    · rename_i hpc
      cases hcall : t.timeouts prog.torrent curr now with
      | error e => simp [hcall, Except.map] at h
      | ok t' =>
        rw [hcall] at h
        cases h
        exact .timeouts hpc hcall
    · cases h
  | events =>
    simp only [loop] at h
    split at h
    · exact .events ‹_› (Option.some.inj h)
    · cases h
  | receive buff now =>
    simp only [loop] at h
    split at h
    · rename_i hpc
      exact .receive hpc.1 (Option.some.inj h)
    · cases h
  | process realloc renamed =>
    simp only [loop] at h
    split at h
    · exact .process ‹_› (Option.some.inj h)
    · cases h
  | requests now =>
    simp only [loop] at h
    split at h
    · exact .requests ‹_› (Option.some.inj h)
    · cases h

/-- What a call leaves alone: the rest of the process. -/
structure Frame (p p' : Process) : Prop where
  main : p'.main = p.main
  threads : p'.threads = p.threads
  faulted : p'.faulted = p.faulted

/-- What other threads and the system are told changes neither the shared state
nor the files. -/
structure CarryFrame (p p' : Process) : Prop extends Frame p p' where
  sh : p'.sh = p.sh
  disk : p'.disk = p.disk

theorem carryOut_frame {thread : UInt64} {renamed : Nat → Bool} (events : List Event) :
    ∀ {p p' : Process}, prog.carryOut thread renamed events p = .ok p' → CarryFrame p p' := by
  induction events with
  | nil =>
    intro p p' h
    cases h
    exact ⟨⟨rfl, rfl, rfl⟩, rfl, rfl⟩
  | cons event events ih =>
    intro p p' h
    cases event with
    | hashed index bytes => exact ih h
    | torrentComplete =>
      obtain ⟨⟨files, names⟩, -, h⟩ := (seq_returns_iff _ _ _).mp h
      obtain ⟨⟨hmain, hthreads, hfaulted⟩, hsh, hdisk⟩ := ih h
      exact ⟨⟨hmain, hthreads, hfaulted⟩, hsh, hdisk⟩
    | notifyPeersHave index =>
      obtain ⟨⟨hmain, hthreads, hfaulted⟩, hsh, hdisk⟩ := ih h
      exact ⟨⟨hmain, hthreads, hfaulted⟩, hsh, hdisk⟩

theorem Call.frame {prog : Program} {p p' : Process} {thread : UInt64} {t t' : PeerThread}
    (h : prog.Call p thread t (p', t')) : Frame p p' := by
  generalize hr : (p', t') = r at h
  cases h with
  | timeouts hpc hcall =>
    cases hr
    exact ⟨rfl, rfl, rfl⟩
  | events hpc hcall =>
    subst hr
    obtain ⟨_, -, hcall⟩ := (seq_returns_iff _ _ _).mp hcall
    obtain ⟨_, -, hcall⟩ := (seq_returns_iff _ _ _).mp hcall
    cases hcall
    exact ⟨rfl, rfl, rfl⟩
  | receive hpc hcall =>
    subst hr
    obtain ⟨_, -, hcall⟩ := (seq_returns_iff _ _ _).mp hcall
    split at hcall
    · obtain ⟨_, -, hcall⟩ := (seq_returns_iff _ _ _).mp hcall
      cases hcall
      exact ⟨rfl, rfl, rfl⟩
    · cases hcall
      exact ⟨rfl, rfl, rfl⟩
  | process hpc hcall =>
    subst hr
    obtain ⟨⟨_, _, sh, events⟩, -, hcall⟩ := (seq_returns_iff _ _ _).mp hcall
    obtain ⟨_, -, hcall⟩ := (seq_returns_iff _ _ _).mp hcall
    obtain ⟨p₁, hcarry, hcall⟩ := (seq_returns_iff _ _ _).mp hcall
    cases hcall
    obtain ⟨⟨hmain, hthreads, hfaulted⟩, -, -⟩ := prog.carryOut_frame events hcarry
    exact ⟨hmain, hthreads, hfaulted⟩
  | requests hpc hcall =>
    subst hr
    obtain ⟨_, -, hcall⟩ := (seq_returns_iff _ _ _).mp hcall
    split at hcall
    · cases hcall
      exact ⟨rfl, rfl, rfl⟩
    · split at hcall
      · obtain ⟨_, -, hcall⟩ := (seq_returns_iff _ _ _).mp hcall
        cases hcall
        exact ⟨rfl, rfl, rfl⟩
      · cases hcall
        exact ⟨rfl, rfl, rfl⟩

/-- **What a step does**: the process ends, `main` goes on, or one thread does. -/
inductive Step (p : Process) : Process → Prop where
  | faulted : Step p { p with faulted := true }
  | announce {response : Option TrackerResponse} {main : MainState} :
    p.main.step prog.torrent prog.peerId (.announce p.sh.completed response) = some main →
    Step p { p with main := main }
  | main {a : MainAction} {main : MainState} :
    (∀ read response, a ≠ .announce read response) →
    p.main.step prog.torrent prog.peerId a = some main →
    Step p { p with main := main
                    threads := if a.creates then p.threads ++ [.created] else p.threads }
  | greet {c : Nat} {conn : PeerConnection} {answers : GreetAnswers} {p' : Process}
    {thread : ThreadState} :
    p.main.threads[c]? = some conn → p.threads[c]? = some .created →
    prog.greet p conn.thread answers = .ok (p', thread) →
    Step p { p' with threads := p'.threads.set c thread }
  | call {c : Nat} {conn : PeerConnection} {t t' : PeerThread} {p' : Process} :
    p.main.threads[c]? = some conn → p.threads[c]? = some (.running t) →
    prog.Call p conn.thread t (p', t') →
    Step p { p' with threads := p'.threads.set c (.running t') }
  | leave {c : Nat} {conn : PeerConnection} {t : PeerThread} :
    p.main.threads[c]? = some conn → p.threads[c]? = some (.running t) → t.pc = .closed →
    Step p { p with table := queueCleanup prog.tcb conn.thread p.table
                    threads := p.threads.set c .exited }

theorem step_cases {p p' : Process} {a : ProcessAction} (h : prog.step p a = some p') :
    prog.Step p p' := by
  unfold step at h
  split at h
  · cases h
  cases a with
  | main a =>
    cases a with
    | announce readCompleted response =>
      simp only [stepMain] at h
      split at h
      · rename_i hread
        obtain ⟨main, hmain, rfl⟩ := Option.map_eq_some_iff.mp h
        rw [hread] at hmain
        exact .announce hmain
      · cases h
    | connect answer =>
      obtain ⟨main, hmain, rfl⟩ := Option.map_eq_some_iff.mp h
      exact .main (fun _ _ heq => by cases heq) hmain
    | sleep =>
      obtain ⟨main, hmain, rfl⟩ := Option.map_eq_some_iff.mp h
      exact .main (fun _ _ heq => by cases heq) hmain
    | wake =>
      obtain ⟨main, hmain, rfl⟩ := Option.map_eq_some_iff.mp h
      exact .main (fun _ _ heq => by cases heq) hmain
  | greet c answers =>
    simp only at h
    split at h
    · rename_i conn hconn hthread
      cases h
      cases hgreet : prog.greet p conn.thread answers with
      | error e => exact .faulted
      | ok r => exact .greet hconn hthread hgreet
    · cases h
  | loop c input =>
    simp only at h
    split at h
    · rename_i conn t hconn hthread
      obtain ⟨result, hloop, rfl⟩ := Option.map_eq_some_iff.mp h
      cases result with
      | error e => exact .faulted
      | ok r => exact .call hconn hthread (prog.call_of_loop hloop)
    · cases h
  | leave c =>
    simp only at h
    split at h
    · rename_i conn t hconn hthread
      split at h
      · cases h
        exact .leave hconn hthread ‹_›
      · cases h
    · cases h

end Program

end BtClient

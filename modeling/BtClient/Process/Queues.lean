import BtClient.Process.Simulation

/-!
# No event ever arrives

Each connection thread has a message queue on which the others are to tell it
of the pieces they complete. `HaveEvents` shows that one completion delivers
nothing. Here it is followed through the runs of the process: the queues that
the threads open, write and unlink stay empty whatever the threads do. So
`service_have_events` never has anything to pass on, and what a connection takes
for its own pieces is what was there when it greeted its peer.
-/

namespace BtClient

open CLib

/-- The queues that exist are as `peer_queue_open` makes them, and empty. -/
def QuietTable (table : MqTable) : Prop :=
  ∀ name queue, table name = some queue → queue = ⟨10, 4, []⟩

section Tables

variable {table : MqTable} {tcb : UInt64 → List UInt8} {caller : UInt64}

theorem QuietTable.eventQueues (h : QuietTable table) (torrent : Metainfo) :
    EventQueues torrent table := by
  intro name queue hq
  rw [h name queue hq]
  exact ⟨rfl, rfl, [], rfl, fun _ hi => absurd hi List.not_mem_nil⟩

theorem QuietTable.peerQueueOpen (h : QuietTable table) :
    QuietTable (peerQueueOpen tcb caller table) := by
  intro name queue hq
  rcases mqCreate_eq_some hq with rfl | hq
  · rfl
  · exact h name queue hq

theorem QuietTable.queueCleanup (h : QuietTable table) :
    QuietTable (queueCleanup tcb caller table) :=
  fun name queue hq => h name queue (mqUnlink_eq_some hq)

theorem QuietTable.store (h : QuietTable table) (name : String) :
    QuietTable (mqStore table name ⟨10, 4, []⟩) := by
  intro other queue hq
  rcases mqStore_eq_some hq with rfl | hq
  · rfl
  · exact h other queue hq

end Tables

/-- `service_have_events` on an empty queue. -/
theorem serviceHaveEvents_quiet (torrent : Metainfo) (sock : Socket) (havebf : List UInt8) :
    serviceHaveEvents torrent ⟨10, 4, []⟩ sock havebf = .ok (⟨10, 4, []⟩, sock, havebf, []) := by
  rw [serviceHaveEvents]
  rfl

/-! ## One call -/

section Steps

variable {prog : Program} {p p' : Process}

theorem queueOf_quiet (h : QuietTable p.table) (thread : UInt64) :
    prog.queueOf p thread = ⟨10, 4, []⟩ := by
  unfold Program.queueOf
  cases hq : p.table (peerConnectionQueueName prog.tcb thread) with
  | none => rfl
  | some queue => exact h _ queue hq

/-- A completed piece is announced to nobody. -/
theorem carryOut_quiet {thread : UInt64} {renamed : Nat → Bool} (events : List Event) :
    ∀ {p p' : Process}, QuietTable p.table → prog.carryOut thread renamed events p = .ok p' →
      p'.table = p.table := by
  induction events with
  | nil =>
    intro p p' _ h
    cases h
    rfl
  | cons event events ih =>
    intro p p' hquiet h
    cases event with
    | hashed index bytes => exact ih hquiet h
    | torrentComplete =>
      obtain ⟨⟨files, names⟩, -, h⟩ := (seq_returns_iff _ _ _).mp h
      have hrest := ih (by exact hquiet) h
      exact hrest
    | notifyPeersHave index =>
      have hsame : (notifyPeersHave prog.tcb thread index.toNat p.main.connections p.table).2 =
          p.table := notifyPeersHave_table (hquiet.eventQueues prog.torrent) _ _
      rw [Program.carryOut, hsame] at h
      exact ih hquiet h

theorem events_quiet {thread : UInt64} {t t' : PeerThread} (hquiet : QuietTable p.table)
    (h : prog.events p thread t = .ok (p', t')) :
    t' = { t with pc := .messages } ∧ ∃ name, p' = { p with
      table := mqStore p.table name ⟨10, 4, []⟩ } := by
  unfold Program.events at h
  dsimp only at h
  rw [queueOf_quiet hquiet, serviceHaveEvents_quiet, ok_bind] at h
  obtain ⟨t₁, hevents, h⟩ := (seq_returns_iff _ _ _).mp h
  cases h
  unfold PeerThread.events at hevents
  rw [serviceHaveEvents_quiet, ok_bind] at hevents
  cases hevents
  exact ⟨rfl, _, rfl⟩

/-- `process_msg` leaves `local_have` alone. -/
theorem processMsg_localHave {sha1 : List UInt8 → List UInt8} {torrent : Metainfo}
    {realloc : RequestQueue.Realloc} {disk : Disk} {msg : PeerMsg} {sock sock' : Socket}
    {state state' : ConnState} {sh sh' : Shared} {events : List Event}
    (h : processMsg sha1 torrent realloc disk msg sock state sh =
      .ok (sock', state', sh', events)) : state'.localHave = state.localHave := by
  cases msg with
  | keepalive | cancel | port | choke | unchoke | interested | notInterested =>
    cases h
    rfl
  | haveMsg index =>
    obtain ⟨⟨sock₁, state₁⟩, hcase, h⟩ := (seq_returns_iff _ _ _).mp h
    cases h
    obtain ⟨-, interested, rfl⟩ := processHave_cases hcase
    rfl
  | bitfield bits =>
    obtain ⟨⟨sock₁, state₁⟩, hcase, h⟩ := (seq_returns_iff _ _ _).mp h
    cases h
    obtain ⟨-, -, interested, rfl⟩ := processBitfield_cases hcase
    rfl
  | request request =>
    obtain ⟨queue, -, h⟩ := (seq_returns_iff _ _ _).mp h
    cases queue <;> (cases h; rfl)
  | piece piece =>
    obtain ⟨⟨requests, sock₁, sh₁, events₁⟩, -, h⟩ := (seq_returns_iff _ _ _).mp h
    cases h
    rfl

theorem sendRequests_localHave {torrent : Metainfo} {sock : Socket} {state : ConnState}
    {sh : Shared} {r : SentRequests} (h : sendRequests torrent sock state sh = .ok r) :
    r.state.localHave = state.localHave := by
  rcases sendRequests_cases h with ⟨-, hstate, -⟩ | ⟨-, -, ⟨interested, hstate⟩, -⟩ |
    ⟨index, pr, -, -, -, -, hstate⟩
  all_goals rw [hstate]

/-- **A call of the loop** leaves the queues empty and `local_have` as it was. -/
theorem Program.Call.quiet {thread : UInt64} {t t' : PeerThread}
    (h : prog.Call p thread t (p', t')) (hquiet : QuietTable p.table) :
    QuietTable p'.table ∧ t'.state.localHave = t.state.localHave := by
  generalize hr : (p', t') = r at h
  cases h with
  | timeouts hpc hcall =>
    cases hr
    rw [(timeouts_place hcall).1]
    exact ⟨hquiet, rfl⟩
  | events hpc hcall =>
    subst hr
    obtain ⟨rfl, name, rfl⟩ := events_quiet hquiet hcall
    exact ⟨hquiet.store name, rfl⟩
  | @receive r buff now hpc hcall =>
    subst hr
    obtain ⟨t₁, hrecv, hcall⟩ := (seq_returns_iff _ _ _).mp hcall
    split at hcall
    · rename_i hready
      obtain ⟨⟨m, sock, disk⟩, hmsg, hcall⟩ := (seq_returns_iff _ _ _).mp hcall
      cases hcall
      rw [(receive_place hready hmsg hrecv).1]
      exact ⟨hquiet, rfl⟩
    · rename_i hready
      cases hcall
      unfold PeerThread.receive at hrecv
      rw [if_neg hready] at hrecv
      cases hrecv
      exact ⟨hquiet, rfl⟩
  | @process r msg realloc renamed hpc hcall =>
    subst hr
    obtain ⟨⟨sock, state, sh, events⟩, hmsg, hcall⟩ := (seq_returns_iff _ _ _).mp hcall
    obtain ⟨t₁, hthread, hcall⟩ := (seq_returns_iff _ _ _).mp hcall
    obtain ⟨p₁, hcarry, hcall⟩ := (seq_returns_iff _ _ _).mp hcall
    cases hcall
    unfold PeerThread.process at hthread
    rw [hmsg, ok_bind] at hthread
    cases hthread
    have htable := carryOut_quiet events (by exact hquiet) hcarry
    rw [htable]
    exact ⟨hquiet, processMsg_localHave hmsg⟩
  | @requests r now hpc hcall =>
    subst hr
    obtain ⟨t₁, hthread, hcall⟩ := (seq_returns_iff _ _ _).mp hcall
    unfold PeerThread.requests at hthread
    split at hcall
    · rename_i hpeer
      cases hcall
      rw [if_pos hpeer] at hthread
      obtain ⟨⟨sock, state⟩, hservice, hthread⟩ := (seq_returns_iff _ _ _).mp hthread
      cases hthread
      obtain ⟨queue, sent, rfl⟩ := servicePeerRequests_cases hservice
      exact ⟨hquiet, rfl⟩
    · rename_i hpeer
      rw [if_neg hpeer] at hthread
      split at hcall
      · rename_i hasks
        rw [if_pos hasks] at hthread
        obtain ⟨r, hsend, hcall⟩ := (seq_returns_iff _ _ _).mp hcall
        cases hcall
        rw [hsend, ok_bind] at hthread
        cases hthread
        exact ⟨hquiet, sendRequests_localHave hsend⟩
      · rename_i hasks
        rw [if_neg hasks] at hthread
        cases hcall
        cases hthread
        exact ⟨hquiet, rfl⟩

theorem greet_quiet {thread : UInt64} {answers : GreetAnswers} {ts : ThreadState}
    (hquiet : QuietTable p.table) (h : prog.greet p thread answers = .ok (p', ts)) :
    QuietTable p'.table := by
  unfold Program.greet at h
  split at h
  · cases h
    exact hquiet
  · obtain ⟨start, -, h⟩ := (seq_returns_iff _ _ _).mp h
    have hopened : ∀ opens : Bool, QuietTable
        (if opens then peerQueueOpen prog.tcb thread p.table else p.table) := by
      intro opens
      split
      · exact hquiet.peerQueueOpen
      · exact hquiet
    cases start with
    | some t =>
      cases h
      exact hopened _
    | none =>
      cases h
      simp only
      split
      · exact hquiet.peerQueueOpen.queueCleanup
      · exact hquiet

theorem Program.Step.quiet (h : prog.Step p p') (hquiet : QuietTable p.table) :
    QuietTable p'.table := by
  cases h with
  | faulted => exact hquiet
  | announce => exact hquiet
  | main => exact hquiet
  | greet _ _ hgreet =>
    have hgreeted := greet_quiet hquiet hgreet
    exact hgreeted
  | call _ _ hcall =>
    have hcalled := (hcall.quiet hquiet).1
    exact hcalled
  | leave => exact hquiet.queueCleanup

/-- What has become of a thread that was in its loop with these bits. -/
def SameHave (localHave : List UInt8) : ThreadState → Prop
  | .created => False
  | .running t => t.state.localHave = localHave
  | .exited => True

/-- A step of the process, seen from thread `c`. -/
theorem Program.Step.sameHave {c : Nat} {localHave : List UInt8} {ts : ThreadState}
    (h : prog.Step p p') (hquiet : QuietTable p.table) (hget : p.threads[c]? = some ts)
    (hsame : SameHave localHave ts) :
    ∃ ts', p'.threads[c]? = some ts' ∧ SameHave localHave ts' := by
  obtain ⟨hlt, -⟩ := List.getElem?_eq_some_iff.mp hget
  -- thread `d` took the step, from `old` to `new`
  have hset : ∀ {d : Nat} {old new : ThreadState}, p.threads[d]? = some old →
      (SameHave localHave old → SameHave localHave new) →
      ∃ ts', (p.threads.set d new)[c]? = some ts' ∧ SameHave localHave ts' := by
    intro d old new hold hkeep
    by_cases hcd : d = c
    · subst hcd
      rw [hget] at hold
      cases hold
      exact ⟨new, List.getElem?_set_self hlt, hkeep hsame⟩
    · exact ⟨ts, by rw [List.getElem?_set_ne hcd, hget], hsame⟩
  cases h with
  | faulted => exact ⟨ts, hget, hsame⟩
  | announce => exact ⟨ts, hget, hsame⟩
  | @main a main hother hmain =>
    refine ⟨ts, ?_, hsame⟩
    simp only
    split
    · rw [List.getElem?_append_left hlt, hget]
    · exact hget
  | greet hmain hthread hgreet =>
    obtain ⟨⟨table, rfl⟩, -⟩ := greet_frame hgreet
    exact hset hthread fun hfalse => hfalse.elim
  | @call d conn t t' p₁ hmain hthread hcall =>
    simp only [hcall.frame.threads]
    refine hset hthread fun hold => ?_
    show t'.state.localHave = localHave
    rw [(hcall.quiet hquiet).2]
    exact hold
  | leave hmain hthread hpc => exact hset hthread fun _ => trivial

end Steps

/-- **No event ever arrives.** In every run of the process, from queues that are
empty if there are any: the queues stay empty; `service_have_events` only goes
on to the messages; and a thread's `local_have` is, as long as the thread runs,
what it was when the thread entered its loop. -/
theorem have_events_never_arrive {prog : Program} {disk : Disk} {table : MqTable} {names : Names}
    {as : List ProcessAction} {p : Process} (hquiet : QuietTable table)
    (hrun : Run prog.step unguarded (prog.init disk table names) as p) :
    QuietTable p.table ∧
      (∀ (thread : UInt64) (t t' : PeerThread) (p' : Process),
        prog.events p thread t = .ok (p', t') → t' = { t with pc := .messages }) ∧
      ∀ (bs : List ProcessAction) (p' : Process) (c : Nat) (t t' : PeerThread),
        Run prog.step unguarded p bs p' → p.threads[c]? = some (.running t) →
        p'.threads[c]? = some (.running t') → t'.state.localHave = t.state.localHave := by
  have hkeeps : ∀ (p : Process) (a : ProcessAction) (p' : Process), QuietTable p.table →
      unguarded p a → prog.step p a = some p' → QuietTable p'.table :=
    fun p a p' h _ hstep => (prog.step_cases hstep).quiet h
  have hnow : QuietTable p.table := hrun.invariant hquiet hkeeps
  refine ⟨hnow, fun thread t t' p' h => (events_quiet hnow h).1, ?_⟩
  intro bs p' c t t' hmore hthread hthread'
  -- the queues and the thread, from here on
  let inv (q : Process) : Prop := QuietTable q.table ∧
    ∃ ts, q.threads[c]? = some ts ∧ SameHave t.state.localHave ts
  have hinit : inv p := ⟨hnow, _, hthread, rfl⟩
  have hlater : inv p' := by
    refine hmore.invariant hinit ?_
    rintro p₁ a p₂ ⟨hquiet₁, ts, hget, hsame⟩ _ hstep
    exact ⟨(prog.step_cases hstep).quiet hquiet₁,
      (prog.step_cases hstep).sameHave hquiet₁ hget hsame⟩
  obtain ⟨-, ts, hget, hsame⟩ := hlater
  rw [hthread'] at hget
  cases hget
  exact hsame

/-- The bits a running thread has as its own. -/
def ThreadState.localHave? : ThreadState → Option (List UInt8)
  | .running t => some t.state.localHave
  | _ => none

/-- A thread that has downloaded the only piece itself does not have it. -/
theorem have_events_never_arrive_download :
    ∃ p, Run onePieceProgram.step unguarded onePieceInit onePieceActions p ∧
      p.sh.pieceStates = [.stateHave] ∧ QuietTable p.table ∧
      (p.threads[0]?).bind ThreadState.localHave? = some [0] := by
  have hexec : (exec onePieceProgram.step unguarded onePieceInit onePieceActions).map
      (fun p => (p.sh.pieceStates, (p.threads[0]?).bind ThreadState.localHave?)) =
      some ([.stateHave], some [0]) := by decide +kernel
  obtain ⟨p, hp, hobs⟩ := Option.map_eq_some_iff.mp hexec
  obtain ⟨hstates, hbits⟩ := Prod.mk.inj hobs
  have hrun := Run.of_exec onePieceActions hp
  have hnone : QuietTable fun _ => none := fun name queue hq => by cases hq
  exact ⟨p, hrun, hstates, (have_events_never_arrive hnone hrun).1, hbits⟩

end BtClient

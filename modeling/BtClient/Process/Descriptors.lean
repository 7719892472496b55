import BtClient.Lib.Descriptors
import BtClient.Process.Simulation
import BtClient.Url.Model

/-!
# The descriptors of the process

`tracker_connect` and `tracker_announce`, `peer_connect`, `peer_queue_open` and
the cleanup handlers, by the descriptors they open and close. A message queue
descriptor is a file descriptor like any other.

`queue_cleanup` unlinks the name of the queue and keeps the queue open, so every
connection that comes to its loop takes a descriptor for good. A connection
downloads one piece: there are no more pieces than descriptors.

`peer_connect` gives way to the other threads between `socket` and the end of
`select`; the other calls are steps of the process. `notify_peers_have` closes
the queues it opens before it returns, and the libcurl of an HTTPS tracker has
its own descriptors.
-/

namespace BtClient

open CLib

/-! ## The functions -/

/-- What the system says to one address of `getaddrinfo`: whether `socket` and
`connect` succeed. -/
structure AddrAnswer where
  socket : Bool
  connects : Bool

/-- The loop of `tracker_connect(url)` over the addresses. -/
def trackerConnect : List AddrAnswer → FdTable → Option Nat × FdTable
  | [], fds => (none, fds)
  | cur :: rest, fds =>
    match if cur.socket then fds.acquire else none with
    | none => trackerConnect rest fds
    | some (sockfd, fds') =>
      if cur.connects then (some sockfd, fds') else trackerConnect rest (fds'.close sockfd)

/-- `tracker_announce(url, req)`, where the exchange over the socket comes to
`response`: what it returns, and the sockets it leaves open. -/
def trackerAnnounce (protocol : Protocol) (addrs : List AddrAnswer)
    (response : Option TrackerResponse) (fds : FdTable) :
    Option TrackerResponse × FdTable × List Nat :=
  match protocol with
  | .https => (response, fds, [])
  | _ =>
    match trackerConnect addrs fds with
    | (none, fds) => (none, fds, [])
    | (some sockfd, fds) =>
      match protocol with
      -- returns before the `close`
      | .unknown => (none, fds, [sockfd])
      | _ => (response, fds.close sockfd, [])

/-- `FD_SETSIZE`. -/
def fdSetSize : Nat := 1024

/-- What becomes of the connection in `peer_connect`: `connect` fails at once,
`select` runs into its timeout, the connection has an error, or it stands. -/
inductive ConnectAnswer where
  | refused
  | timedOut
  | failed
  | established (sock : Socket)

/-- `peer_connect(arg)` behind `socket`: `none` when it closes the socket and
returns `-1`. `FD_SET` writes the bit of the descriptor, wherever that is. -/
def peerConnect (sockfd : Nat) : ConnectAnswer → Except Fault (Option Socket)
  | .refused => .ok none
  | answer =>
    if fdSetSize ≤ sockfd then .error .outOfBounds
    else
      match answer with
      | .established sock => .ok (some sock)
      | _ => .ok none

/-! ## The process with its descriptors -/

/-- The descriptors of a thread: `sockfd`, and the queue that `peer_queue_open`
has opened. -/
structure ThreadFds where
  sockfd : Option Nat
  queue : Option Nat

def ThreadFds.fds (held : ThreadFds) : List Nat := held.queue.toList ++ held.sockfd.toList

/-- `held` has an entry for every thread; `leaked` are the sockets nobody knows
any more. -/
structure FdProcess where
  process : Process
  fds : FdTable
  held : List ThreadFds
  leaked : List Nat

/-- The steps that open or close a descriptor, with the answers of the system,
and the others. -/
inductive FdAction where
  | announce (addrs : List AddrAnswer) (response : Option TrackerResponse)
  | main (a : MainAction)
  | socket (c : Nat) (granted : Bool)
  | greet (c : Nat) (answer : ConnectAnswer) (mqGranted : Bool) (fill : Nat → UInt8) (now : Int)
  | loop (c : Nat) (input : LoopInput)
  | leave (c : Nat)

namespace FdProcess

variable (prog : Program) (protocol : Protocol)

def init (fds : FdTable) (disk : Disk) (table : MqTable) (names : Names) : FdProcess where
  process := prog.init disk table names
  fds := fds
  held := []
  leaked := []

/-- A descriptor for `socket` or `mq_open`, if there is one and the system has
nothing else against it. -/
def descriptorFor (l : FdProcess) (granted : Bool) : Option (Nat × FdTable) :=
  if granted then l.fds.acquire else none

/-- `peer_connection_cleanup`: the socket is closed. -/
def cleanup (l : FdProcess) (c : Nat) : FdProcess :=
  match l.held[c]? with
  | some ⟨some sockfd, queue⟩ =>
    { l with fds := l.fds.close sockfd, held := l.held.set c ⟨none, queue⟩ }
  | _ => l

/-- `peer_queue_open`, and whether it has opened the queue. -/
def openQueue (l : FdProcess) (c sockfd : Nat) (granted : Bool) : Bool × FdProcess :=
  match l.descriptorFor granted with
  | some (queue, fds) =>
    (true, { l with fds := fds, held := l.held.set c ⟨some sockfd, some queue⟩ })
  | none => (false, l)

/-- The head of `peer_connection` behind `peer_connect`. The queue is opened
after the handshake; a thread that ends here has closed its socket. -/
def greetOn (l : FdProcess) (c sockfd : Nat) (sock : Socket) (mqGranted : Bool)
    (fill : Nat → UInt8) (now : Int) : Option FdProcess :=
  let (opened, l) := l.openQueue c sockfd
    ((handshake prog.peerId prog.torrent.infoHash sock).1.isSome && mqGranted)
  (prog.step l.process (.greet c ⟨some sock, opened, fill, now⟩)).map fun process : Process =>
    match process.threads[c]? with
    | some .exited => cleanup { l with process := process } c
    | _ => { l with process := process }

/-- A step with nothing new about descriptors. -/
def plain (l : FdProcess) (a : ProcessAction) : Option FdProcess :=
  (prog.step l.process a).map fun process => { l with process := process }

def step (l : FdProcess) (a : FdAction) : Option FdProcess :=
  match a with
  | .announce addrs response =>
    let (returned, fds, leaked) := trackerAnnounce protocol addrs response l.fds
    plain prog { l with fds := fds, leaked := leaked ++ l.leaked }
      (.main (.announce l.process.sh.completed returned))
  | .main (.announce _ _) => none
  | .main a =>
    plain prog { l with held := if a.creates then l.held ++ [⟨none, none⟩] else l.held } (.main a)
  | .socket c granted =>
    match l.process.threads[c]?, l.held[c]? with
    | some .created, some ⟨none, none⟩ =>
      match l.descriptorFor granted with
      | some (sockfd, fds) =>
        if l.process.faulted then none
        else some { l with fds := fds, held := l.held.set c ⟨some sockfd, none⟩ }
      | none => plain prog l (.greet c ⟨none, false, fun _ => 0, 0⟩)
    | _, _ => none
  | .greet c answer mqGranted fill now =>
    match l.process.threads[c]?, l.held[c]? with
    | some .created, some ⟨some sockfd, none⟩ =>
      match peerConnect sockfd answer with
      | .error _ =>
        if l.process.faulted then none
        else some { l with process := { l.process with faulted := true } }
      | .ok none => plain prog (l.cleanup c) (.greet c ⟨none, false, fun _ => 0, 0⟩)
      | .ok (some sock) => greetOn prog l c sockfd sock mqGranted fill now
    | _, _ => none
  | .loop c input => plain prog l (.loop c input)
  | .leave c => plain prog (l.cleanup c) (.leave c)

/-! ## What happens to the descriptors -/

section Passes

variable {base : List Nat} {l l' l'' : FdProcess}

/-- The descriptors are those of the threads, the lost ones, and those that
were open before. -/
def Accounted (base : List Nat) (l : FdProcess) : Prop :=
  l.fds.Accounts (l.leaked ++ (l.held.flatMap ThreadFds.fds ++ base))

/-- The descriptors stay accounted for, and the queues open. -/
structure Passes (base : List Nat) (l l' : FdProcess) : Prop where
  accounted : l.Accounted base → l'.Accounted base
  limit : l'.fds.limit = l.fds.limit
  queues : ∀ (c : Nat) (h : ThreadFds), l.held[c]? = some h → h.queue.isSome = true →
    ∃ h' : ThreadFds, l'.held[c]? = some h' ∧ h'.queue.isSome = true

theorem Passes.refl (base : List Nat) (l : FdProcess) : Passes base l l :=
  ⟨id, rfl, fun _ h hget hqueue => ⟨h, hget, hqueue⟩⟩

theorem Passes.trans (h : Passes base l l') (h' : Passes base l' l'') : Passes base l l'' where
  accounted := fun ha => h'.accounted (h.accounted ha)
  limit := h'.limit.trans h.limit
  queues := by
    intro c held hget hqueue
    obtain ⟨held', hget', hqueue'⟩ := h.queues c held hget hqueue
    exact h'.queues c held' hget' hqueue'

/-- What else the process does is no matter. -/
theorem Passes.of_eq {process : Process} : Passes base l { l with process := process } :=
  ⟨id, rfl, fun _ h hget hqueue => ⟨h, hget, hqueue⟩⟩

/-- The queue of each thread, after one of them has changed. -/
theorem queues_set {held : List ThreadFds} {c : Nat} {h h' : ThreadFds}
    (hget : held[c]? = some h) (hqueue : h.queue.isSome = true → h'.queue.isSome = true)
    (i : Nat) (k : ThreadFds) (hk : held[i]? = some k) (hopen : k.queue.isSome = true) :
    ∃ k' : ThreadFds, (held.set c h')[i]? = some k' ∧ k'.queue.isSome = true := by
  have hlt := (List.getElem?_eq_some_iff.mp hget).1
  by_cases hi : c = i
  · subst hi
    cases hget.symm.trans hk
    exact ⟨h', List.getElem?_set_self hlt, hqueue hopen⟩
  · exact ⟨k, by rw [List.getElem?_set_ne hi, hk], hopen⟩

/-- A thread has opened a descriptor. -/
theorem passes_acquire {c fd : Nat} {h h' : ThreadFds} {fds : FdTable}
    (hget : l.held[c]? = some h) (hacquire : l.fds.acquire = some (fd, fds))
    (hfds : h'.fds.Perm ([fd] ++ h.fds)) (hqueue : h.queue.isSome = true → h'.queue.isSome = true) :
    Passes base l { l with fds := fds, held := l.held.set c h' } where
  limit := FdTable.acquire_limit hacquire
  queues := queues_set hget hqueue
  accounted := by
    intro ha
    refine (FdTable.Accounts.acquire ha hacquire).of_perm ?_
    have hgain := (perm_flatMap_gain hget hfds).append_right base
    -- the new descriptor behind the lost ones
    calc
      List.Perm ([fd] ++ (l.leaked ++ (l.held.flatMap ThreadFds.fds ++ base)))
          (l.leaked ++ ([fd] ++ (l.held.flatMap ThreadFds.fds ++ base))) :=
        List.perm_append_comm_assoc ..
      List.Perm _ (l.leaked ++ ((l.held.set c h').flatMap ThreadFds.fds ++ base)) := by
        rw [← List.append_assoc [fd]]
        exact List.Perm.append_left _ hgain

/-- A thread has closed its socket. -/
theorem passes_cleanup (l : FdProcess) (c : Nat) : Passes base l (l.cleanup c) := by
  unfold cleanup
  split
  · rename_i sockfd queue hget
    refine ⟨fun ha => ?_, rfl, queues_set hget id⟩
    have hfds : (ThreadFds.fds ⟨some sockfd, queue⟩).Perm
        ([sockfd] ++ ThreadFds.fds ⟨none, queue⟩) := by
      rw [ThreadFds.fds, ThreadFds.fds, Option.toList_none, List.append_nil]
      exact List.perm_append_comm
    have hlose := (perm_flatMap_lose hget hfds).append_right base
    refine FdTable.Accounts.close (FdTable.Accounts.of_perm ha ?_)
    calc
      List.Perm (l.leaked ++ (l.held.flatMap ThreadFds.fds ++ base))
          (l.leaked ++ ([sockfd] ++
            ((l.held.set c ⟨none, queue⟩).flatMap ThreadFds.fds ++ base))) := by
        rw [← List.append_assoc [sockfd]]
        exact List.Perm.append_left _ hlose
      List.Perm _ ([sockfd] ++ (l.leaked ++
          ((l.held.set c ⟨none, queue⟩).flatMap ThreadFds.fds ++ base))) :=
        List.perm_append_comm_assoc ..
  · exact .refl base l

/-- A thread has been created. -/
theorem passes_create (l : FdProcess) (creates : Bool) :
    Passes base l { l with held := if creates then l.held ++ [⟨none, none⟩] else l.held } := by
  cases creates with
  | false => exact .refl base l
  | true =>
    refine ⟨fun ha => ?_, rfl, fun c h hget hqueue => ⟨h, ?_, hqueue⟩⟩
    · have hnothing : (l.held ++ [(⟨none, none⟩ : ThreadFds)]).flatMap ThreadFds.fds =
          l.held.flatMap ThreadFds.fds := by
        rw [List.flatMap_append, List.flatMap_singleton]
        exact List.append_nil _
      simp only [Accounted, if_true, hnothing]
      exact ha
    · rw [if_pos rfl, List.getElem?_append_left (List.getElem?_eq_some_iff.mp hget).1, hget]

/-- `tracker_connect` opens one descriptor or none. -/
theorem trackerConnect_accounts (addrs : List AddrAnswer) :
    ∀ {fds fds' : FdTable} {sockfd : Option Nat} {owned : List Nat}, fds.Accounts owned →
      trackerConnect addrs fds = (sockfd, fds') →
      fds'.Accounts (sockfd.toList ++ owned) ∧ fds'.limit = fds.limit := by
  induction addrs with
  | nil =>
    intro fds fds' sockfd owned ha h
    cases h
    exact ⟨ha, rfl⟩
  | cons cur rest ih =>
    intro fds fds' sockfd owned ha h
    rw [trackerConnect] at h
    split at h
    · exact ih ha h
    · rename_i fd fds₁ hopen
      split at hopen
      · have ha₁ := ha.acquire hopen
        have hlimit := FdTable.acquire_limit hopen
        split at h
        · cases h
          exact ⟨ha₁, hlimit⟩
        · obtain ⟨ha', hlimit'⟩ := ih ha₁.close h
          exact ⟨ha', hlimit'.trans hlimit⟩
      · cases hopen

/-- **`tracker_announce`** gives back what it has opened, unless it does not know
the protocol. -/
theorem trackerAnnounce_accounts {protocol : Protocol} {addrs : List AddrAnswer}
    {response returned : Option TrackerResponse} {fds fds' : FdTable} {leaked owned : List Nat}
    (ha : fds.Accounts owned)
    (h : trackerAnnounce protocol addrs response fds = (returned, fds', leaked)) :
    fds'.Accounts (leaked ++ owned) ∧ fds'.limit = fds.limit ∧
      (protocol ≠ .unknown → leaked = []) := by
  obtain ⟨sockfd, fds₁, hconnect⟩ : ∃ sockfd fds₁, trackerConnect addrs fds = (sockfd, fds₁) :=
    ⟨_, _, rfl⟩
  obtain ⟨ha₁, hlimit⟩ := trackerConnect_accounts addrs ha hconnect
  cases protocol with
  | https =>
    cases h
    exact ⟨ha, rfl, fun _ => rfl⟩
  | unknown =>
    simp only [trackerAnnounce, hconnect] at h
    cases sockfd <;> (cases h; exact ⟨ha₁, hlimit, fun hne => absurd rfl hne⟩)
  | http | udp =>
    simp only [trackerAnnounce, hconnect] at h
    cases sockfd with
    | none =>
      cases h
      exact ⟨ha₁, hlimit, fun _ => rfl⟩
    | some sockfd =>
      cases h
      exact ⟨ha₁.close, hlimit, fun _ => rfl⟩

end Passes

/-! ## One step -/

section Step

variable {prog : Program} {protocol : Protocol} {base : List Nat} {l l' : FdProcess}

/-- A step changes the descriptors as it may, and the process by a step. -/
structure Moves (prog : Program) (protocol : Protocol) (base : List Nat) (l l' : FdProcess) :
    Prop where
  passes : Passes base l l'
  leaked : protocol ≠ .unknown → l.leaked = [] → l'.leaked = []
  process : l'.process = l.process ∨ prog.Step l.process l'.process

/-- A process that has ended takes no step. -/
theorem step_not_faulted {p p' : Process} {a : ProcessAction} (h : prog.step p a = some p') :
    p.faulted = false := by
  unfold Program.step at h
  split at h
  · cases h
  · rwa [Bool.not_eq_true] at *

/-- The descriptors first, and the step of the process. -/
theorem plain_moves {l₁ : FdProcess} {a : ProcessAction} (hpasses : Passes base l l₁)
    (hleaked : protocol ≠ .unknown → l.leaked = [] → l₁.leaked = [])
    (hprocess : l₁.process = l.process) (h : plain prog l₁ a = some l') :
    l.process.faulted = false ∧ Moves prog protocol base l l' := by
  obtain ⟨process, hstep, rfl⟩ := Option.map_eq_some_iff.mp h
  rw [hprocess] at hstep
  exact ⟨step_not_faulted hstep, hpasses.trans .of_eq, hleaked, .inr (prog.step_cases hstep)⟩

@[simp] theorem cleanup_process (l : FdProcess) (c : Nat) : (l.cleanup c).process = l.process := by
  unfold cleanup
  split <;> rfl

@[simp] theorem cleanup_leaked (l : FdProcess) (c : Nat) : (l.cleanup c).leaked = l.leaked := by
  unfold cleanup
  split <;> rfl

theorem cleanup_held {c sockfd : Nat} {queue : Option Nat}
    (hget : l.held[c]? = some ⟨some sockfd, queue⟩) :
    (l.cleanup c).held = l.held.set c ⟨none, queue⟩ := by
  rw [cleanup, hget]

theorem descriptorFor_some {granted : Bool} {fd : Nat} {fds : FdTable}
    (h : l.descriptorFor granted = some (fd, fds)) : l.fds.acquire = some (fd, fds) := by
  unfold descriptorFor at h
  split at h
  · exact h
  · cases h

theorem openQueue_frame {c sockfd : Nat} {granted opened : Bool}
    (h : l.openQueue c sockfd granted = (opened, l')) :
    l'.process = l.process ∧ l'.leaked = l.leaked := by
  unfold openQueue at h
  split at h <;> (cases h; exact ⟨rfl, rfl⟩)

theorem openQueue_passes {c sockfd : Nat} {granted opened : Bool}
    (hget : l.held[c]? = some ⟨some sockfd, none⟩)
    (h : l.openQueue c sockfd granted = (opened, l')) : Passes base l l' := by
  unfold openQueue at h
  split at h
  · rename_i queue fds hopen
    cases h
    exact passes_acquire hget (descriptorFor_some hopen) (.refl _) fun _ => rfl
  · cases h
    exact .refl base l

theorem moves_greetOn {c sockfd : Nat} {sock : Socket} {mqGranted : Bool} {fill : Nat → UInt8}
    {now : Int} (hget : l.held[c]? = some ⟨some sockfd, none⟩)
    (h : greetOn prog l c sockfd sock mqGranted fill now = some l') :
    l.process.faulted = false ∧ Moves prog protocol base l l' := by
  unfold greetOn at h
  split at h
  rename_i opened l₁ hopen
  obtain ⟨process, hstep, rfl⟩ := Option.map_eq_some_iff.mp h
  obtain ⟨hprocess, hleaked⟩ := openQueue_frame hopen
  have hpasses : Passes base l l₁ := openQueue_passes hget hopen
  rw [hprocess] at hstep
  refine ⟨step_not_faulted hstep, ?_⟩
  split
  · refine ⟨(hpasses.trans .of_eq).trans (passes_cleanup _ c), fun _ hl => ?_, .inr ?_⟩
    · rw [cleanup_leaked, ← hl, ← hleaked]
    · rw [cleanup_process]
      exact prog.step_cases hstep
  · exact ⟨hpasses.trans .of_eq, fun _ hl => by rw [← hl, ← hleaked], .inr (prog.step_cases hstep)⟩

/-- **One step.** -/
theorem step_moves {a : FdAction} (h : l.step prog protocol a = some l') :
    l.process.faulted = false ∧ Moves prog protocol base l l' := by
  cases a with
  | announce addrs response =>
    obtain ⟨returned, fds, leaked, hannounce⟩ : ∃ returned fds leaked,
        trackerAnnounce protocol addrs response l.fds = (returned, fds, leaked) := ⟨_, _, _, rfl⟩
    simp only [step, hannounce] at h
    have hany := trackerAnnounce_accounts (List.Perm.refl l.fds.opened) hannounce
    have hpasses : Passes base l { l with fds := fds, leaked := leaked ++ l.leaked } := by
      refine ⟨fun ha => ?_, hany.2.1, fun c held hget hqueue => ⟨held, hget, hqueue⟩⟩
      rw [Accounted, List.append_assoc]
      exact (trackerAnnounce_accounts ha hannounce).1
    refine plain_moves hpasses (fun hprotocol hl => ?_) rfl h
    rw [hany.2.2 hprotocol, hl, List.append_nil]
  | main a =>
    cases a with
    | announce _ _ => cases h
    | connect _ | sleep | wake =>
      exact plain_moves (passes_create l _) (fun _ hl => hl) rfl h
  | socket c granted =>
    simp only [step] at h
    split at h
    · rename_i hcreated hget
      split at h
      · rename_i sockfd fds hopen
        split at h
        · cases h
        · rename_i hgoes
          cases h
          exact ⟨Bool.eq_false_of_not_eq_true hgoes, passes_acquire hget
            (descriptorFor_some hopen) (.refl _) (fun hq => by cases hq), fun _ hl => hl, .inl rfl⟩
      · exact plain_moves (.refl base l) (fun _ hl => hl) rfl h
    · cases h
  | greet c answer mqGranted fill now =>
    simp only [step] at h
    split at h
    · rename_i sockfd hcreated hget
      split at h
      · split at h
        · cases h
        · rename_i hgoes
          cases h
          exact ⟨Bool.eq_false_of_not_eq_true hgoes, .of_eq, fun _ hl => hl, .inr .faulted⟩
      · exact plain_moves (passes_cleanup l c) (fun _ hl => by rw [cleanup_leaked, hl])
          (cleanup_process l c) h
      · exact moves_greetOn hget h
    · cases h
  | loop c input => exact plain_moves (.refl base l) (fun _ hl => hl) rfl h
  | leave c =>
    exact plain_moves (passes_cleanup l c) (fun _ hl => by rw [cleanup_leaked, hl])
      (cleanup_process l c) h

/-! ## What a thread holds -/

/-- The descriptors of a thread, by where it stands. -/
def HoldsAs : ThreadState → ThreadFds → Prop
  | .created, held => held.queue = none
  | .running _, held => held.sockfd.isSome = true ∧ held.queue.isSome = true
  | .exited, held => held.sockfd = none

/-- What every thread holds, as long as the process goes on. -/
def Holds (l : FdProcess) : Prop :=
  l.process.faulted = false → List.Forall₂ HoldsAs l.process.threads l.held

/-- A thread that comes to its loop has opened a queue. -/
theorem greet_running {p p' : Process} {thread : UInt64} {answers : GreetAnswers}
    {ts : ThreadState} (h : prog.greet p thread answers = .ok (p', ts)) :
    ts = .exited ∨ answers.queueOpens = true ∧ ∃ t, ts = .running t := by
  unfold Program.greet at h
  split at h
  · cases h
    exact .inl rfl
  · obtain ⟨start, hstart, h⟩ := (seq_returns_iff _ _ _).mp h
    cases start with
    | none =>
      cases h
      exact .inl rfl
    | some t =>
      cases h
      unfold peerConnectionStart at hstart
      split at hstart
      · cases hstart
      · split at hstart
        · exact .inr ⟨‹_›, t, rfl⟩
        · cases hstart

/-- The threads after the head of one of them. -/
theorem step_greet_threads {p p' : Process} {c : Nat} {answers : GreetAnswers}
    (h : prog.step p (.greet c answers) = some p') :
    p'.faulted = true ∨ p'.threads = p.threads.set c .exited ∨
      answers.queueOpens = true ∧ ∃ t, p'.threads = p.threads.set c (.running t) := by
  simp only [Program.step] at h
  split at h
  · cases h
  · split at h
    · rename_i conn hconn hthread
      cases hgreet : prog.greet p conn.thread answers with
      | error e =>
        rw [hgreet] at h
        cases h
        exact .inl rfl
      | ok r =>
        obtain ⟨p₁, ts⟩ := r
        obtain ⟨⟨table, rfl⟩, -⟩ := greet_frame hgreet
        rw [hgreet] at h
        cases h
        rcases greet_running hgreet with rfl | ⟨hopens, t, rfl⟩
        · exact .inr (.inl rfl)
        · exact .inr (.inr ⟨hopens, t, rfl⟩)
    · cases h

/-- The threads after a call of the loop. -/
theorem step_loop_threads {p p' : Process} {c : Nat} {input : LoopInput}
    (h : prog.step p (.loop c input) = some p') :
    p'.faulted = true ∨ ∃ t t', p.threads[c]? = some (.running t) ∧
      p'.threads = p.threads.set c (.running t') := by
  simp only [Program.step] at h
  split at h
  · cases h
  · split at h
    · rename_i conn t hconn hthread
      obtain ⟨result, hloop, rfl⟩ := Option.map_eq_some_iff.mp h
      cases result with
      | error e => exact .inl rfl
      | ok r =>
        obtain ⟨p₁, t'⟩ := r
        have hframe := (prog.call_of_loop hloop).frame
        refine .inr ⟨t, t', hthread, ?_⟩
        show p₁.threads.set c (.running t') = p.threads.set c (.running t')
        rw [hframe.threads]
    · cases h

/-- The threads after the cleanup handlers of one of them. -/
theorem step_leave_threads {p p' : Process} {c : Nat} (h : prog.step p (.leave c) = some p') :
    (∃ t, p.threads[c]? = some (.running t)) ∧ p'.threads = p.threads.set c .exited := by
  simp only [Program.step] at h
  split at h
  · cases h
  · split at h
    · rename_i conn t hconn hthread
      split at h
      · cases h
        exact ⟨⟨t, hthread⟩, rfl⟩
      · cases h
    · cases h

/-- The threads after a step of `main`. -/
theorem step_main_threads {p p' : Process} {a : MainAction}
    (h : prog.step p (.main a) = some p') :
    p'.threads = if a.creates then p.threads ++ [.created] else p.threads := by
  simp only [Program.step] at h
  split at h
  · cases h
  · cases a with
    | announce readCompleted response =>
      simp only [Program.stepMain] at h
      split at h
      · obtain ⟨main, -, rfl⟩ := Option.map_eq_some_iff.mp h
        rfl
      · cases h
    | connect answer | sleep | wake =>
      obtain ⟨main, -, rfl⟩ := Option.map_eq_some_iff.mp h
      rfl

/-- A thread that ends has closed its socket. -/
theorem exited_holds {threads : List ThreadState} {c sockfd : Nat} {queue : Option Nat}
    (hl : List.Forall₂ HoldsAs threads l.held)
    (hget : l.held[c]? = some ⟨some sockfd, queue⟩) :
    List.Forall₂ HoldsAs (threads.set c .exited) (l.cleanup c).held := by
  rw [cleanup_held hget]
  exact forall₂_set hl rfl

theorem holds_greetOn {c sockfd : Nat} {sock : Socket} {mqGranted : Bool} {fill : Nat → UInt8}
    {now : Int} (hget : l.held[c]? = some ⟨some sockfd, none⟩)
    (h : greetOn prog l c sockfd sock mqGranted fill now = some l') (hl : Holds l) :
    Holds l' := by
  unfold greetOn at h
  split at h
  rename_i opened l₁ hopen
  obtain ⟨process, hstep, rfl⟩ := Option.map_eq_some_iff.mp h
  rw [(openQueue_frame hopen).1] at hstep
  have hthreads := hl (step_not_faulted hstep)
  obtain ⟨hc, -⟩ := List.getElem?_eq_some_iff.mp hget
  -- what the thread holds now
  obtain ⟨queue, hheld, hqueue⟩ : ∃ queue, l₁.held = l.held.set c ⟨some sockfd, queue⟩ ∧
      (opened = true → queue.isSome = true) := by
    unfold openQueue at hopen
    split at hopen
    · cases hopen
      exact ⟨_, rfl, fun _ => rfl⟩
    · cases hopen
      refine ⟨none, ?_, fun hfalse => by cases hfalse⟩
      rw [← (List.getElem?_eq_some_iff.mp hget).2, List.set_getElem_self]
  have hlen := hthreads.length_eq
  rcases step_greet_threads hstep with hfaulted | hexited | ⟨hopened, t, hrunning⟩
  · intro hgoes
    split at hgoes
    · rw [cleanup_process] at hgoes
      cases hfaulted.symm.trans hgoes
    · cases hfaulted.symm.trans hgoes
  · intro _
    have hat : process.threads[c]? = some .exited := by
      rw [hexited, List.getElem?_set_self (by omega)]
    have hget₁ : ({ l₁ with process := process } : FdProcess).held[c]? =
        some ⟨some sockfd, queue⟩ := by
      rw [hheld, List.getElem?_set_self hc]
    simp only [hat, cleanup_process, cleanup_held hget₁]
    rw [hheld, List.set_set, hexited]
    exact forall₂_set hthreads rfl
  · intro _
    have hat : process.threads[c]? = some (.running t) := by
      rw [hrunning, List.getElem?_set_self (by omega)]
    rw [hat]
    simp only
    rw [hheld, hrunning]
    exact forall₂_set hthreads ⟨rfl, hqueue hopened⟩

/-- **What a thread holds goes with where it stands.** -/
theorem step_holds {a : FdAction} (h : l.step prog protocol a = some l') (hl : Holds l) :
    Holds l' := by
  cases a with
  | announce addrs response =>
    simp only [step] at h
    obtain ⟨process, hstep, rfl⟩ := Option.map_eq_some_iff.mp h
    intro _
    show List.Forall₂ HoldsAs process.threads l.held
    rw [step_main_threads hstep]
    exact hl (step_not_faulted hstep)
  | main a =>
    have hmain : plain prog { l with
        held := if a.creates then l.held ++ [⟨none, none⟩] else l.held } (.main a) = some l' := by
      cases a with
      | announce _ _ => cases h
      | connect answer | sleep | wake => exact h
    obtain ⟨process, hstep, rfl⟩ := Option.map_eq_some_iff.mp hmain
    have hthreads := hl (step_not_faulted hstep)
    intro _
    show List.Forall₂ HoldsAs process.threads _
    rw [step_main_threads hstep]
    cases a.creates with
    | false => exact hthreads
    | true => exact List.rel_append hthreads (.cons rfl .nil)
  | socket c granted =>
    simp only [step] at h
    split at h
    · rename_i hcreated hget
      split at h
      · split at h
        · cases h
        · cases h
          exact fun hgoes => forall₂_set_right (hl hgoes) hcreated rfl
      · obtain ⟨process, hstep, rfl⟩ := Option.map_eq_some_iff.mp h
        have hthreads := hl (step_not_faulted hstep)
        rcases step_greet_threads hstep with hfaulted | hexited | ⟨hopened, -⟩
        · exact fun hgoes => by cases hfaulted.symm.trans hgoes
        · intro _
          show List.Forall₂ HoldsAs process.threads l.held
          rw [hexited]
          exact forall₂_set_left hthreads hget rfl
        · cases hopened
    · cases h
  | greet c answer mqGranted fill now =>
    simp only [step] at h
    split at h
    · rename_i sockfd hcreated hget
      split at h
      · split at h
        · cases h
        · cases h
          exact fun hgoes => by cases hgoes
      · obtain ⟨process, hstep, rfl⟩ := Option.map_eq_some_iff.mp h
        rw [cleanup_process] at hstep
        have hthreads := hl (step_not_faulted hstep)
        rcases step_greet_threads hstep with hfaulted | hexited | ⟨hopened, -⟩
        · exact fun hgoes => by cases hfaulted.symm.trans hgoes
        · intro _
          show List.Forall₂ HoldsAs process.threads _
          rw [hexited]
          exact exited_holds hthreads hget
        · cases hopened
      · exact holds_greetOn hget h hl
    · cases h
  | loop c input =>
    obtain ⟨process, hstep, rfl⟩ := Option.map_eq_some_iff.mp h
    have hthreads := hl (step_not_faulted hstep)
    rcases step_loop_threads hstep with hfaulted | ⟨t, t', hrunning, hafter⟩
    · exact fun hgoes => by cases hfaulted.symm.trans hgoes
    · intro _
      obtain ⟨held, hget, hholds⟩ := forall₂_getElem? hthreads hrunning
      show List.Forall₂ HoldsAs process.threads l.held
      rw [hafter]
      exact forall₂_set_left hthreads hget hholds
  | leave c =>
    obtain ⟨process, hstep, rfl⟩ := Option.map_eq_some_iff.mp h
    rw [cleanup_process] at hstep
    have hthreads := hl (step_not_faulted hstep)
    obtain ⟨⟨t, hrunning⟩, hafter⟩ := step_leave_threads hstep
    obtain ⟨⟨sockfd, queue⟩, hget, hsock, -⟩ := forall₂_getElem? hthreads hrunning
    obtain ⟨sockfd, rfl⟩ := Option.isSome_iff_exists.mp hsock
    intro _
    show List.Forall₂ HoldsAs process.threads _
    rw [hafter]
    exact exited_holds hthreads hget

end Step

/-! ## Whole runs -/

section Runs

variable {prog : Program} {protocol : Protocol} {fds : FdTable} {disk : Disk} {table : MqTable}
  {names : Names} {l l' : FdProcess} {w : Client}

theorem run_passes {as : List FdAction} {l₀ : FdProcess} (base : List Nat)
    (hrun : Run (step prog protocol) unguarded l₀ as l) : Passes base l₀ l :=
  hrun.invariant (.refl base l₀) fun _ _ _ h _ hstep => h.trans (step_moves hstep).2.passes

theorem init_accounted :
    (init prog fds disk table names).Accounted fds.opened := List.Perm.refl fds.opened

theorem run_accounted {as : List FdAction}
    (hrun : Run (step prog protocol) unguarded (init prog fds disk table names) as l) :
    l.Accounted fds.opened :=
  (run_passes fds.opened hrun).accounted init_accounted

theorem run_holds {as : List FdAction}
    (hrun : Run (step prog protocol) unguarded (init prog fds disk table names) as l) : l.Holds :=
  hrun.invariant (fun _ => .nil) fun _ _ _ h _ hstep => step_holds hstep h

theorem run_leaked {as : List FdAction} (hprotocol : protocol ≠ .unknown)
    (hrun : Run (step prog protocol) unguarded (init prog fds disk table names) as l) :
    l.leaked = [] := by
  induction hrun with
  | nil => rfl
  | @snoc _ t u _ _ _ hstep ih =>
    have hmoves : Moves prog protocol [] t u := (step_moves hstep).2
    exact hmoves.leaked hprotocol ih

/-- The client this is, where only connections with a queue have asked. -/
structure Downloads (l : FdProcess) (w : Client) : Prop where
  simulates : l.process.Simulates w
  holds : l.Holds
  asked : ∀ (c : Nat) (conn : Connection), w.conns[c]? = some conn → conn.hasAsked = true →
    ∃ held, l.held[c]? = some held ∧ held.queue.isSome = true

theorem Downloads.step {a : FdAction} (h : l.Downloads w)
    (hstep : l.step prog protocol a = some l') :
    ∃ bs w', Run (Client.step prog.sha1 prog.torrent) unguarded w bs w' ∧ l'.Downloads w' := by
  obtain ⟨hgoes, hpasses, -, hprocess⟩ :
      l.process.faulted = false ∧ Moves prog protocol [] l l' := step_moves hstep
  have hholds := step_holds hstep h.holds
  have hasked : ∀ (c : Nat) (conn : Connection), w.conns[c]? = some conn →
      conn.hasAsked = true → ∃ held, l'.held[c]? = some held ∧ held.queue.isSome = true := by
    intro c conn hconn hasked
    obtain ⟨held, hget, hqueue⟩ := h.asked c conn hconn hasked
    exact hpasses.queues c held hget hqueue
  rcases hprocess with hsame | hmoves
  · exact ⟨[], w, .nil, hsame ▸ h.simulates, hholds, hasked⟩
  · obtain ⟨bs, w', hbs, hsim, honly⟩ := hmoves.simulated h.simulates
    refine ⟨bs, w', hbs, hsim, hholds, fun c conn hconn hask => ?_⟩
    rcases honly c conn hconn hask with hbefore | ⟨t, hrunning⟩
    · exact hasked c conn hbefore hask
    · -- a thread in its loop has a queue
      obtain ⟨held, hget, -, hqueue⟩ := forall₂_getElem? (h.holds hgoes) hrunning
      exact hpasses.queues c held hget hqueue

theorem length_fds (held : List ThreadFds) :
    (held.flatMap ThreadFds.fds).length =
      held.countP (fun h => h.sockfd.isSome) + held.countP (fun h => h.queue.isSome) := by
  induction held with
  | nil => rfl
  | cons h held ih =>
    rw [List.flatMap_cons, List.length_append, ih, List.countP_cons, List.countP_cons]
    obtain ⟨sockfd, queue⟩ := h
    cases sockfd <;> cases queue <;> simp [ThreadFds.fds] <;> omega

end Runs

end FdProcess

/-- The standard streams are open, and there is room for three more. -/
def threeOpen : FdTable := ⟨6, [0, 1, 2], by decide, by decide⟩

/-- The tracker is reached at its second address and names two peers. The first
thread downloads the piece; the second finds no descriptor for its queue. -/
def onePieceFdActions : List FdAction :=
  [.announce [⟨true, false⟩, ⟨true, true⟩] (some ⟨1800, 2, 0,
      [⟨[10, 0, 0, 1], [26, 225]⟩, ⟨[10, 0, 0, 2], [26, 225]⟩]⟩),
    .main (.connect (.created 7)), .main (.connect (.created 8)), .main .sleep,
    .socket 0 true, .greet 0 (.established onePieceSeed) true (fun _ => 0) 1000,
    .loop 0 (.timeouts 1000 1000), .loop 0 .events, .socket 1 true,
    .loop 0 (arrived (encodeMsg onePieceProgram.torrent (.bitfield [128]))),
    .loop 0 (.process none fun _ => true),
    .loop 0 (arrived (encodeMsg onePieceProgram.torrent .unchoke)),
    .loop 0 (.process none fun _ => true), .loop 0 (arrived []), .loop 0 (.requests 1001),
    .greet 1 (.established onePieceSeed) true (fun _ => 0) 1001,
    .loop 0 (.timeouts 1001 1001), .loop 0 .events, .loop 0 (arrived onePieceBlock.encode),
    .loop 0 (.process none fun _ => true), .main .wake, .announce [⟨true, true⟩] none]

theorem onePieceFds_run :
    ∃ l, Run (FdProcess.step onePieceProgram .http) unguarded
        (FdProcess.init onePieceProgram threeOpen [List.replicate 10 0] (fun _ => none)
          (createdNames [[46, 47, 97]] Directory.empty)) onePieceFdActions l ∧
      l.process.sh.pieceStates = [.stateHave] ∧ l.fds.opened = [4, 3, 0, 1, 2] ∧
      l.process.faulted = false := by
  have hexec : (exec (FdProcess.step onePieceProgram .http) unguarded
      (FdProcess.init onePieceProgram threeOpen [List.replicate 10 0] (fun _ => none)
        (createdNames [[46, 47, 97]] Directory.empty)) onePieceFdActions).map
      (fun l => (l.process.sh.pieceStates, l.fds.opened, l.process.faulted)) =
      some ([.stateHave], [4, 3, 0, 1, 2], false) := by decide +kernel
  obtain ⟨l, hl, hobs⟩ := Option.map_eq_some_iff.mp hexec
  simp only [Prod.mk.injEq] at hobs
  exact ⟨l, Run.of_exec onePieceFdActions hl, hobs.1, hobs.2.1, hobs.2.2⟩

/-- **No more pieces than descriptors.** In every run the pieces that are
finished, the sockets of the threads, the lost sockets and the descriptors that
were open before are together no more than the limit: every finished piece has
taken the descriptor of a queue, for good. -/
theorem have_le_descriptors {prog : Program} {protocol : Protocol} {fds : FdTable}
    {disk : Disk} {table : MqTable} {names : Names} {as : List FdAction} {l : FdProcess}
    (hrun : Run (FdProcess.step prog protocol) unguarded
      (FdProcess.init prog fds disk table names) as l) :
    l.process.sh.pieceStates.count .stateHave +
        l.held.countP (fun held => held.sockfd.isSome) + l.leaked.length + fds.opened.length ≤
      fds.limit := by
  have hinit : (FdProcess.init prog fds disk table names).Downloads
      (Client.init prog.torrent disk) :=
    ⟨⟨rfl, rfl, rfl, .nil⟩, fun _ => .nil, fun c conn hconn => by cases hconn⟩
  obtain ⟨bs, w, hbs, hdownloads⟩ := hrun.simulates hinit fun h _ hstep => h.step hstep
  have hasks : w.AsksOnce := hbs.invariant (Client.init_asksOnce prog.torrent disk)
    fun _ _ _ h _ hstep => h.step hstep
  have hpieces := hasks.have_le
  rw [hdownloads.simulates.sh] at hpieces
  have hqueues := countP_le_of_getElem? hdownloads.asked
  have hlength := FdTable.Accounts.length_le (FdProcess.run_accounted hrun)
  rw [(FdProcess.run_passes [] hrun).limit, List.length_append, List.length_append,
    FdProcess.length_fds] at hlength
  have hlimit : (FdProcess.init prog fds disk table names).fds.limit = fds.limit := rfl
  omega

/-- One piece, two descriptors of its thread, and the three that were open. -/
theorem have_le_descriptors_download :
    ∃ l, Run (FdProcess.step onePieceProgram .http) unguarded
        (FdProcess.init onePieceProgram threeOpen [List.replicate 10 0] (fun _ => none)
          (createdNames [[46, 47, 97]] Directory.empty)) onePieceFdActions l ∧
      l.process.sh.pieceStates.count .stateHave = 1 ∧
      1 + l.held.countP (fun held => held.sockfd.isSome) + l.leaked.length + 3 ≤ 6 := by
  obtain ⟨l, hrun, hstates, -⟩ := onePieceFds_run
  have hle := have_le_descriptors hrun
  have hone : l.process.sh.pieceStates.count .stateHave = 1 := by rw [hstates]; rfl
  rw [hone] at hle
  exact ⟨l, hrun, hone, hle⟩

end BtClient

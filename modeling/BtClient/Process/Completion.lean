import BtClient.Process.Simulation

/-!
# The end of the download

The last piece that is verified ends the download: `sh.completed` is set,
`torrent_complete` gives the files their names, and the next announce tells the
tracker. All of this happens at most once in a run. A piece that a failed check
threw away may be completed again afterwards; but then `pieces_left` wraps
around and the assertion behind it ends the process.
-/

namespace BtClient

open CLib

/-! ## The shared state -/

/-- A download that is over has counted off every piece. -/
def Shared.Over (sh : Shared) : Prop := sh.completed = true → sh.piecesLeft = 0

/-- How a call leaves the end of the download: `completed` stays set, and is set
together with one `torrent_complete`. -/
structure EndsOnce (sh sh' : Shared) (events : List Event) : Prop where
  counted : sh'.Over
  stays : sh.completed = true → sh'.completed = true
  once : events.count .torrentComplete = if sh'.completed = sh.completed then 0 else 1

theorem EndsOnce.of_eq {sh sh' : Shared} (hover : sh.Over) (hleft : sh'.piecesLeft = sh.piecesLeft)
    (hcompleted : sh'.completed = sh.completed) : EndsOnce sh sh' [] where
  counted := by rwa [Shared.Over, hleft, hcompleted]
  stays := by rw [hcompleted]; exact id
  once := by rw [if_pos hcompleted]; rfl

theorem EndsOnce.trans {sh sh₁ sh₂ : Shared} {events events' : List Event}
    (h : EndsOnce sh sh₁ events) (h' : EndsOnce sh₁ sh₂ events') :
    EndsOnce sh sh₂ (events ++ events') where
  counted := h'.counted
  stays := fun hdone => h'.stays (h.stays hdone)
  once := by
    have hfirst := h.stays
    have hsecond := h'.stays
    rw [List.count_append, h.once, h'.once]
    revert hfirst hsecond
    generalize sh.completed = before
    generalize sh₁.completed = between
    generalize sh₂.completed = after
    cases before <;> cases between <;> cases after <;> simp

section Sections

variable {sha1 : List UInt8 → List UInt8} {torrent : Metainfo}

/-- **The completion section ends the download once**: a second time its
assertion fails. -/
theorem completionSection_once {n index : Nat} {sh sh' : Shared} {flag : Bool} (hn : n < 2 ^ 64)
    (hover : sh.Over) (h : completionSection n sh index = .ok (sh', flag)) :
    sh'.Over ∧ (sh.completed = true → sh'.completed = true) ∧
      (flag = true ↔ sh'.completed ≠ sh.completed) := by
  unfold completionSection at h
  split at h
  swap
  · cases h
    exact ⟨hover, id, by simp⟩
  · obtain ⟨_, hcheck, h⟩ := (seq_returns_iff _ _ _).mp h
    have hlt : sizeSub sh.piecesLeft 1 < n := by simpa using check_eq_ok.mp hcheck
    -- with no piece left the counter wraps around
    have hnot : sh.completed = false := by
      cases hdone : sh.completed with
      | false => rfl
      | true =>
        rw [hover hdone] at hlt
        have hwrap : sizeSub 0 1 = 2 ^ 64 - 1 := by decide
        omega
    by_cases hzero : sizeSub sh.piecesLeft 1 = 0
    · simp only [hzero, if_true, pure_is_ok, Except.ok.injEq, Prod.mk.injEq] at h
      obtain ⟨rfl, rfl⟩ := h
      exact ⟨fun _ => rfl, fun _ => rfl, by simp [hnot]⟩
    · simp only [hzero, if_false, pure_is_ok, Except.ok.injEq, Prod.mk.injEq] at h
      obtain ⟨rfl, rfl⟩ := h
      refine ⟨fun hdone => ?_, id, by simp⟩
      rw [hnot] at hdone
      cases hdone

theorem handlePieceDlCompletion_endsOnce {sock sock' : Socket} {sh sh' : Shared} {index : UInt32}
    {events : List Event} (hn : torrent.info.numPieces < 2 ^ 64) (hover : sh.Over)
    (h : handlePieceDlCompletion torrent sock sh index = .ok (sock', sh', events)) :
    EndsOnce sh sh' events := by
  obtain ⟨_, -, h⟩ := (seq_returns_iff _ _ _).mp h
  obtain ⟨⟨sh₁, completed⟩, hsec, h⟩ := (seq_returns_iff _ _ _).mp h
  obtain ⟨⟨_, sock₁⟩, -, h⟩ := (seq_returns_iff _ _ _).mp h
  obtain ⟨hover₁, hstays, hflag⟩ := completionSection_once hn hover hsec
  cases completed with
  | false =>
    cases h
    have hsame : sh'.completed = sh.completed := by simpa using hflag
    exact ⟨hover₁, hstays, by rw [if_pos hsame]; rfl⟩
  | true =>
    cases h
    have hdiff : sh₁.completed ≠ sh.completed := hflag.mp rfl
    have hset : sh₁.completed = true := by
      cases hdone : sh.completed with
      | true => exact hstays hdone
      | false =>
        rw [hdone] at hdiff
        simpa using hdiff
    have hnot : sh.completed = false := by
      cases hdone : sh.completed with
      | false => rfl
      | true =>
        rw [hdone] at hdiff
        exact absurd hset hdiff
    refine ⟨fun _ => hover₁ hset, fun _ => rfl, ?_⟩
    rw [hnot]
    rfl

theorem finishPiece_endsOnce {disk : Disk} {sock sock' : Socket} {sh sh' : Shared} {index : UInt32}
    {events : List Event} (hn : torrent.info.numPieces < 2 ^ 64) (hover : sh.Over)
    (h : finishPiece sha1 torrent disk sock sh index = .ok (sock', sh', events)) :
    EndsOnce sh sh' events := by
  obtain ⟨⟨valid, bytes⟩, -, h⟩ := (seq_returns_iff _ _ _).mp h
  have hhashed : EndsOnce sh sh [.hashed index bytes] := ⟨hover, id, by simp⟩
  cases valid with
  | false =>
    cases h
    exact hhashed.trans (.of_eq hover rfl rfl)
  | true =>
    obtain ⟨⟨sock₁, sh₁, events₁⟩, hcomp, h⟩ := (seq_returns_iff _ _ _).mp h
    cases h
    exact hhashed.trans (handlePieceDlCompletion_endsOnce hn hover hcomp)

theorem processPieceMsg_endsOnce {disk : Disk} {msg : PieceMsg}
    (hn : torrent.info.numPieces < 2 ^ 64) (requests : List PieceRequest) :
    ∀ {requests' : List PieceRequest} {sock sock' : Socket} {sh sh' : Shared}
      {events : List Event}, sh.Over →
      processPieceMsg sha1 torrent disk msg requests sock sh = .ok (requests', sock', sh', events) →
      EndsOnce sh sh' events := by
  induction requests with
  | nil =>
    intro requests' sock sock' sh sh' events hover h
    cases h
    exact .of_eq hover rfl rfl
  | cons curr rest ih =>
    intro requests' sock sock' sh sh' events hover h
    rcases processPieceMsg_cons h with ⟨rest', -, -, hrest⟩ | ⟨rest', -, -, -, hrest⟩ |
      ⟨rest', sock₁, sh₁, finished, more, -, -, -, hfinish, hrest, rfl⟩
    · exact ih hover hrest
    · exact ih hover hrest
    · have hfirst := finishPiece_endsOnce hn hover hfinish
      exact hfirst.trans (ih hfirst.counted hrest)

theorem processMsg_endsOnce {realloc : RequestQueue.Realloc} {disk : Disk} {msg : PeerMsg}
    {sock sock' : Socket} {state state' : ConnState} {sh sh' : Shared} {events : List Event}
    (hn : torrent.info.numPieces < 2 ^ 64) (hover : sh.Over)
    (h : processMsg sha1 torrent realloc disk msg sock state sh =
      .ok (sock', state', sh', events)) : EndsOnce sh sh' events := by
  by_cases hpiece : ∃ piece, msg = .piece piece
  · obtain ⟨piece, rfl⟩ := hpiece
    obtain ⟨⟨requests, sock₁, sh₁, events₁⟩, hproc, h⟩ := (seq_returns_iff _ _ _).mp h
    cases h
    exact processPieceMsg_endsOnce hn _ hover hproc
  · obtain ⟨-, rfl, rfl⟩ := processMsg_other (fun piece heq => hpiece ⟨piece, heq⟩) h
    exact .of_eq hover rfl rfl

/-- `send_requests` does to the shared state what `torrent_next_request` does. -/
theorem sendRequests_shared {sock : Socket} {state : ConnState} {sh : Shared} {r : SentRequests}
    (h : sendRequests torrent sock state sh = .ok r) :
    r.sh = sh ∨ ∃ k, r.sh = { sh with pieceStates := sh.pieceStates.set k .stateRequested } := by
  unfold sendRequests at h
  split at h
  · cases h
    exact .inl rfl
  · obtain ⟨⟨next, sh₁⟩, hload, h⟩ := (seq_returns_iff _ _ _).mp h
    have hpick : torrentNextRequest sh state.peerHave = (next, sh₁) := by
      unfold torrentNextRequestLoad at hload
      split at hload
      · exact Except.ok.inj hload
      · cases hload
    have hsame : r.sh = sh₁ := by
      cases next with
      | none =>
        simp only at h
        split at h
        · obtain ⟨⟨sock₁, state₁⟩, -, h⟩ := (seq_returns_iff _ _ _).mp h
          cases h
          rfl
        · cases h
          rfl
      | some index =>
        obtain ⟨pr, -, h⟩ := (seq_returns_iff _ _ _).mp h
        obtain ⟨⟨ok, sock₁, sent⟩, -, h⟩ := (seq_returns_iff _ _ _).mp h
        cases h
        rfl
    rcases torrentNextRequest_cases sh state.peerHave with hno | ⟨k, _, -, -, -, hsome⟩
    · rw [hpick] at hno
      cases hno
      exact .inl hsame
    · rw [hpick] at hsome
      cases hsome
      exact .inr ⟨_, hsame⟩

end Sections

/-! ## The calls of the process -/

section Calls

variable {prog : Program} {p p' : Process}

/-- The files after a call that carried out `events`. -/
def Program.CarriedOut (prog : Program) (p p' : Process) (events : List Event) : Prop :=
  ∃ thread renamed p₁ p₂, prog.carryOut thread renamed events p₁ = .ok p₂ ∧
    p₁.files = p.files ∧ p₁.names = p.names ∧ p'.files = p₂.files ∧ p'.names = p₂.names

/-- **A call of the loop** ends the download at most once, and carries that out. -/
theorem Program.Call.endsOnce {thread : UInt64} {t t' : PeerThread}
    (h : prog.Call p thread t (p', t')) (hn : prog.torrent.info.numPieces < 2 ^ 64)
    (hover : p.sh.Over) :
    ∃ events, EndsOnce p.sh p'.sh events ∧ prog.CarriedOut p p' events := by
  have hquiet : ∀ q : Process, q.files = p.files → q.names = p.names → prog.CarriedOut p q [] :=
    fun q hfiles hnames => ⟨0, fun _ => true, q, q, rfl, hfiles, hnames, rfl, rfl⟩
  generalize hr : (p', t') = r at h
  cases h with
  | timeouts hpc hcall =>
    cases hr
    exact ⟨[], .of_eq hover rfl rfl, hquiet p rfl rfl⟩
  | events hpc hcall =>
    subst hr
    obtain ⟨_, -, hcall⟩ := (seq_returns_iff _ _ _).mp hcall
    obtain ⟨_, -, hcall⟩ := (seq_returns_iff _ _ _).mp hcall
    cases hcall
    exact ⟨[], .of_eq hover rfl rfl, hquiet _ rfl rfl⟩
  | receive hpc hcall =>
    subst hr
    obtain ⟨_, -, hcall⟩ := (seq_returns_iff _ _ _).mp hcall
    split at hcall
    · obtain ⟨_, -, hcall⟩ := (seq_returns_iff _ _ _).mp hcall
      cases hcall
      exact ⟨[], .of_eq hover rfl rfl, hquiet _ rfl rfl⟩
    · cases hcall
      exact ⟨[], .of_eq hover rfl rfl, hquiet p rfl rfl⟩
  | @process r msg realloc renamed hpc hcall =>
    subst hr
    obtain ⟨⟨_, _, sh, events⟩, hmsg, hcall⟩ := (seq_returns_iff _ _ _).mp hcall
    obtain ⟨_, -, hcall⟩ := (seq_returns_iff _ _ _).mp hcall
    obtain ⟨p₁, hcarry, hcall⟩ := (seq_returns_iff _ _ _).mp hcall
    cases hcall
    refine ⟨events, ?_, thread, renamed, { p with sh := sh }, p', hcarry, rfl, rfl, rfl, rfl⟩
    rw [(prog.carryOut_frame events hcarry).sh]
    exact processMsg_endsOnce hn hover hmsg
  | requests hpc hcall =>
    subst hr
    obtain ⟨_, -, hcall⟩ := (seq_returns_iff _ _ _).mp hcall
    split at hcall
    · cases hcall
      exact ⟨[], .of_eq hover rfl rfl, hquiet p rfl rfl⟩
    · split at hcall
      · obtain ⟨r, hsend, hcall⟩ := (seq_returns_iff _ _ _).mp hcall
        cases hcall
        refine ⟨[], .of_eq hover ?_ ?_, hquiet _ rfl rfl⟩
        all_goals rcases sendRequests_shared hsend with hsh | ⟨k, hsh⟩ <;> rw [hsh]
      · cases hcall
        exact ⟨[], .of_eq hover rfl rfl, hquiet p rfl rfl⟩

/-- **A step of the process**: the same of every step, with what `main` does. -/
theorem Program.Step.endsOnce (h : prog.Step p p') (hn : prog.torrent.info.numPieces < 2 ^ 64)
    (hover : p.sh.Over) :
    ∃ events, EndsOnce p.sh p'.sh events ∧ prog.CarriedOut p p' events := by
  have hsame : ∀ q : Process, q.sh = p.sh → q.files = p.files → q.names = p.names →
      ∃ events, EndsOnce p.sh q.sh events ∧ prog.CarriedOut p q events := by
    intro q hsh hfiles hnames
    refine ⟨[], ?_, 0, fun _ => true, q, q, rfl, hfiles, hnames, rfl, rfl⟩
    rw [hsh]
    exact .of_eq hover rfl rfl
  cases h with
  | faulted | announce | main | leave => exact hsame _ rfl rfl rfl
  | greet _ _ hgreet =>
    obtain ⟨⟨table, rfl⟩, -⟩ := greet_frame hgreet
    exact hsame _ rfl rfl rfl
  | @call c conn t t' p₁ _ _ hcall =>
    obtain ⟨events, hends, hcarried⟩ := hcall.endsOnce hn hover
    exact ⟨events, hends, hcarried⟩

end Calls

/-! ## The names of the files -/

section Files

variable {prog : Program}

/-- Without `torrent_complete` the files keep their names. -/
theorem carryOut_files_none {thread : UInt64} {renamed : Nat → Bool} (events : List Event) :
    ∀ {p p' : Process}, events.count .torrentComplete = 0 →
      prog.carryOut thread renamed events p = .ok p' → p'.files = p.files ∧ p'.names = p.names := by
  induction events with
  | nil =>
    intro p p' _ h
    cases h
    exact ⟨rfl, rfl⟩
  | cons event events ih =>
    intro p p' hcount h
    cases event with
    | torrentComplete =>
      rw [List.count_cons_self] at hcount
      omega
    | hashed index bytes =>
      rw [List.count_cons_of_ne (by simp)] at hcount
      exact ih hcount h
    | notifyPeersHave index =>
      rw [List.count_cons_of_ne (by simp)] at hcount
      obtain ⟨hfiles, hnames⟩ := ih hcount h
      exact ⟨hfiles, hnames⟩

/-- With one, all of them get their final names. -/
theorem carryOut_files_one {thread : UInt64} {renamed : Nat → Bool}
    (hcount : prog.torrent.files.length = prog.torrent.info.filesCount)
    (hall : ∀ file ∈ prog.torrent.files, file.Completable) (events : List Event) :
    ∀ {p p' : Process}, events.count .torrentComplete = 1 → p.files = prog.torrent.files →
      prog.carryOut thread renamed events p = .ok p' →
      p'.files = prog.torrent.files.map DlFile.completed ∧
        p'.names = completedNames renamed 0 prog.torrent.files p.names := by
  induction events with
  | nil =>
    intro p p' hone
    cases hone
  | cons event events ih =>
    intro p p' hone hfiles h
    cases event with
    | hashed index bytes =>
      rw [List.count_cons_of_ne (by simp)] at hone
      exact ih hone hfiles h
    | notifyPeersHave index =>
      rw [List.count_cons_of_ne (by simp)] at hone
      obtain ⟨hfiles', hnames'⟩ := ih hone (by exact hfiles) h
      exact ⟨hfiles', hnames'⟩
    | torrentComplete =>
      rw [List.count_cons_self] at hone
      have hloop := completeLoop_returns renamed prog.torrent.files [] p.names hall
      rw [List.nil_append, List.nil_append, List.length_nil, hcount] at hloop
      obtain ⟨⟨files, names⟩, hcomplete, h⟩ := (seq_returns_iff _ _ _).mp h
      rw [hfiles, hloop] at hcomplete
      cases hcomplete
      obtain ⟨hfiles', hnames'⟩ := carryOut_files_none events (by omega) h
      exact ⟨hfiles', hnames'⟩

/-- The files have the names they were created with, or all of them their final
ones. -/
def Program.FilesNamed (prog : Program) (names : Names) (p : Process) : Prop :=
  if p.sh.completed then
    p.files = prog.torrent.files.map DlFile.completed ∧
      ∃ renamed, p.names = completedNames renamed 0 prog.torrent.files names
  else p.files = prog.torrent.files ∧ p.names = names

theorem Program.FilesNamed.step {names : Names} {p p' : Process} {events : List Event}
    (hcount : prog.torrent.files.length = prog.torrent.info.filesCount)
    (hall : ∀ file ∈ prog.torrent.files, file.Completable) (h : prog.FilesNamed names p)
    (hends : EndsOnce p.sh p'.sh events) (hcarried : prog.CarriedOut p p' events) :
    prog.FilesNamed names p' := by
  obtain ⟨thread, renamed, p₁, p₂, hcarry, hfiles₁, hnames₁, hfiles₂, hnames₂⟩ := hcarried
  have honce := hends.once
  by_cases hsame : p'.sh.completed = p.sh.completed
  · -- nothing has ended, or it had ended before
    rw [if_pos hsame] at honce
    obtain ⟨hfiles, hnames⟩ := carryOut_files_none events honce hcarry
    rw [Program.FilesNamed, hsame, hfiles₂, hnames₂, hfiles, hnames, hfiles₁, hnames₁]
    exact h
  · rw [if_neg hsame] at honce
    have hbefore : p.sh.completed = false := by
      cases hdone : p.sh.completed with
      | false => rfl
      | true => exact absurd ((hends.stays hdone).trans hdone.symm) hsame
    have hafter : p'.sh.completed = true := by
      rw [hbefore] at hsame
      simpa using hsame
    rw [Program.FilesNamed, hbefore, if_neg (by decide)] at h
    obtain ⟨hfiles, hnames⟩ :=
      carryOut_files_one hcount hall events honce (hfiles₁.trans h.1) hcarry
    rw [Program.FilesNamed, if_pos hafter, hfiles₂, hnames₂]
    refine ⟨hfiles, renamed, ?_⟩
    rw [hnames, hnames₁, h.2]

end Files

/-- **The files are named when the download ends, and only then.** In every run
of the process for a torrent that `parse_file` returned: as long as
`sh.completed` is not set, the files have the incomplete names they were opened
under, and from then on each has the path before the first `.incomplete`:
`torrent_complete` has gone through all of them, once. -/
theorem files_named_at_end {prog : Program} {sha1 : List UInt8 → List UInt8} {fuel : Nat}
    {input : Option Bool} {seeds : Nat → TableSeed} {contents : List UInt8}
    (hparse : parseFile sha1 fuel input seeds contents = .ok prog.torrent)
    (hn : prog.torrent.info.numPieces < 2 ^ 64) {disk : Disk} {table : MqTable} {names : Names}
    {as : List ProcessAction} {p : Process}
    (hrun : Run prog.step unguarded (prog.init disk table names) as p) :
    prog.FilesNamed names p := by
  obtain ⟨infoDict, info, hinfo, hopen⟩ := parseFile_cases hparse
  obtain ⟨hcount, hall⟩ :=
    openFiles_completable (parseInfo_texts hinfo) (parseInfo_filesCount hinfo) hopen
  let inv (q : Process) : Prop := q.sh.Over ∧ prog.FilesNamed names q
  have hinit : inv (prog.init disk table names) := ⟨fun hdone => (by cases hdone), rfl, rfl⟩
  have hlast : inv p := by
    refine hrun.invariant hinit ?_
    rintro p₁ a p₂ ⟨hover, hnamed⟩ _ hstep
    obtain ⟨events, hends, hcarried⟩ := (prog.step_cases hstep).endsOnce hn hover
    exact ⟨hends.counted, hnamed.step hcount hall hends hcarried⟩
  exact hlast.2

/-- The download ends and the file gets its name. -/
theorem files_named_download :
    ∃ p, Run onePieceProgram.step unguarded onePieceInit onePieceActions p ∧
      p.sh.completed = true ∧ p.files.map DlFile.path = [[46, 47, 97]] := by
  have hexec : (exec onePieceProgram.step unguarded onePieceInit onePieceActions).map
      (fun p => p.sh.completed) = some true := by decide +kernel
  obtain ⟨p, hp, hdone⟩ := Option.map_eq_some_iff.mp hexec
  have hrun := Run.of_exec onePieceActions hp
  obtain ⟨fuel, hparse⟩ := parseFile_onePiece
  have hnamed := files_named_at_end hparse (by decide) hrun
  rw [Program.FilesNamed, if_pos hdone] at hnamed
  refine ⟨p, hrun, hdone, ?_⟩
  rw [hnamed.1]
  decide +kernel

/-! ## What the tracker is told -/

/-- What `main` has announced: it said `STARTED` every time, but `COMPLETED` once
after the download had ended; everything else in the requests never changed. -/
structure Program.Told (prog : Program) (p : Process) : Prop where
  seen : p.main.completed = true → p.sh.completed = true
  same : ∀ req ∈ p.main.requests,
    ∃ event, req = { buildTrackerAnnounceRequest prog.torrent prog.peerId with event := event }
  events : ∃ a b, p.main.requests.map TrackerRequest.event =
    List.replicate a .eventStarted ++
      if p.main.completed then .eventCompleted :: List.replicate b .eventStarted else []

section Announces

variable {prog : Program} {p p' : Process}

/-- The request of a round. -/
theorem roundRequest_event (torrent : Metainfo) (peerId : List UInt8) (s : MainState)
    (readCompleted : Bool) :
    roundRequest torrent peerId s readCompleted =
      { buildTrackerAnnounceRequest torrent peerId with
        event := if !s.completed && readCompleted then .eventCompleted else .eventStarted } := by
  unfold roundRequest
  cases s.started <;> cases s.completed <;> cases readCompleted <;> rfl

/-- An announce. -/
theorem step_announce {torrent : Metainfo} {peerId : List UInt8} {s s' : MainState} {read : Bool}
    {response : Option TrackerResponse}
    (h : s.step torrent peerId (.announce read response) = some s') :
    s'.completed = read ∧ s'.requests = s.requests ++ [roundRequest torrent peerId s read] := by
  cases hpc : s.pc with
  | announcing =>
    simp only [MainState.step, hpc] at h
    cases response <;> (cases h; exact ⟨rfl, rfl⟩)
  | connecting peers interval => cases peers <;> simp [MainState.step, hpc] at h
  | sleeping interval => simp [MainState.step, hpc] at h

theorem step_other {torrent : Metainfo} {peerId : List UInt8} {s s' : MainState} {a : MainAction}
    (ha : ∀ read response, a ≠ .announce read response)
    (h : s.step torrent peerId a = some s') :
    s'.completed = s.completed ∧ s'.requests = s.requests := by
  unfold MainState.step at h
  split at h
  · exact absurd rfl (ha _ _)
  · cases h
    rename_i answer hpc
    cases answer with
    | noMemory | refused => exact ⟨rfl, rfl⟩
    | created thread =>
      simp only [createPeerConnection]
      split <;> exact ⟨rfl, rfl⟩
  all_goals cases h
  all_goals exact ⟨rfl, rfl⟩

/-- One more announce. -/
theorem Program.Told.announce {main : MainState} {response : Option TrackerResponse}
    (h : prog.Told p)
    (hstep : p.main.step prog.torrent prog.peerId (.announce p.sh.completed response) =
      some main) : prog.Told { p with main := main } := by
  obtain ⟨hcompleted, hrequests⟩ := step_announce hstep
  rw [roundRequest_event] at hrequests
  refine ⟨?_, ?_, ?_⟩
  · intro hdone
    simp only at hdone
    rw [← hcompleted]
    exact hdone
  · intro req hreq
    simp only at hreq
    rw [hrequests] at hreq
    rcases List.mem_append.mp hreq with hold | hnew
    · exact h.same req hold
    · exact ⟨_, List.mem_singleton.mp hnew⟩
  · obtain ⟨a, b, hevents⟩ := h.events
    simp only
    rw [hrequests, List.map_append, hevents, hcompleted]
    cases hbefore : p.main.completed with
    | true =>
      -- it was told before, so this is a `STARTED` behind it
      refine ⟨a, b + 1, ?_⟩
      rw [h.seen hbefore, List.replicate_succ']
      simp
    | false =>
      cases hnow : p.sh.completed with
      | false =>
        refine ⟨a + 1, b, ?_⟩
        rw [List.replicate_succ']
        simp
      | true =>
        refine ⟨a, 0, ?_⟩
        simp

theorem Program.Step.told (h : prog.Step p p') (hn : prog.torrent.info.numPieces < 2 ^ 64)
    (hover : p.sh.Over) (htold : prog.Told p) : prog.Told p' := by
  have hstays : p.sh.completed = true → p'.sh.completed = true := by
    obtain ⟨events, hends, -⟩ := h.endsOnce hn hover
    exact hends.stays
  -- `main` has done nothing
  have hsame : p'.main.completed = p.main.completed → p'.main.requests = p.main.requests →
      prog.Told p' := by
    intro hcompleted hrequests
    refine ⟨fun hdone => hstays (htold.seen (hcompleted ▸ hdone)), ?_, ?_⟩
    · rw [hrequests]
      exact htold.same
    · rw [hrequests, hcompleted]
      exact htold.events
  cases h with
  | faulted | leave => exact hsame rfl rfl
  | announce hmain => exact htold.announce hmain
  | main hother hmain =>
    obtain ⟨hcompleted, hrequests⟩ := step_other hother hmain
    exact hsame hcompleted hrequests
  | greet _ _ hgreet =>
    obtain ⟨⟨table, rfl⟩, -⟩ := greet_frame hgreet
    exact hsame rfl rfl
  | call _ _ hcall =>
    have hmain := hcall.frame.main
    exact hsame (by simp only [hmain]) (by simp only [hmain])

end Announces

/-- **What the tracker is told.** In every run of the process: every announce
carries the same request, with the whole length left and nothing downloaded,
except for its event. The event is `STARTED` in every round but one: the first
round that finds `sh.completed` set says `COMPLETED`, and such a round has been
made if and only if the last announce found it set. -/
theorem tracker_told {prog : Program} (hn : prog.torrent.info.numPieces < 2 ^ 64) {disk : Disk}
    {table : MqTable} {names : Names} {as : List ProcessAction} {p : Process}
    (hrun : Run prog.step unguarded (prog.init disk table names) as p) :
    prog.Told p ∧ ∀ read response p', prog.step p (.main (.announce read response)) = some p' →
      (.eventCompleted ∈ p'.main.requests.map TrackerRequest.event ↔ p'.sh.completed = true) := by
  let inv (q : Process) : Prop := q.sh.Over ∧ prog.Told q
  have hinit : inv (prog.init disk table names) := by
    refine ⟨fun hdone => (by cases hdone), fun hdone => (by cases hdone), ?_, 0, 0, rfl⟩
    exact fun req hreq => absurd hreq List.not_mem_nil
  have hkeeps : ∀ q a q', inv q → unguarded q a → prog.step q a = some q' → inv q' := by
    rintro q a q' ⟨hover, htold⟩ _ hstep
    obtain ⟨events, hends, -⟩ := (prog.step_cases hstep).endsOnce hn hover
    exact ⟨hends.counted, (prog.step_cases hstep).told hn hover htold⟩
  have hnow : inv p := hrun.invariant hinit hkeeps
  refine ⟨hnow.2, fun read response p' hstep => ?_⟩
  obtain ⟨-, htold⟩ := hkeeps p _ p' hnow trivial hstep
  obtain ⟨a, b, hevents⟩ := htold.events
  have hread : p'.main.completed = p'.sh.completed := by
    unfold Program.step at hstep
    split at hstep
    · cases hstep
    simp only [Program.stepMain] at hstep
    split at hstep
    · rename_i hread
      obtain ⟨main, hmain, rfl⟩ := Option.map_eq_some_iff.mp hstep
      rw [← hread]
      exact (step_announce hmain).1
    · cases hstep
  rw [hevents, ← hread]
  cases p'.main.completed <;> simp

/-- `STARTED` before the download, `COMPLETED` after it. -/
theorem tracker_told_download :
    ∃ p, Run onePieceProgram.step unguarded onePieceInit onePieceActions p ∧
      p.main.requests.map TrackerRequest.event = [.eventStarted, .eventCompleted] ∧
      onePieceProgram.Told p := by
  have hexec : (exec onePieceProgram.step unguarded onePieceInit onePieceActions).map
      (fun p => p.main.requests.map TrackerRequest.event) =
      some [.eventStarted, .eventCompleted] := by decide +kernel
  obtain ⟨p, hp, hevents⟩ := Option.map_eq_some_iff.mp hexec
  have hrun := Run.of_exec onePieceActions hp
  exact ⟨p, hrun, hevents, (tracker_told (by decide) hrun).1⟩

end BtClient

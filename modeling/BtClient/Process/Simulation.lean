import BtClient.Connection.Calls
import BtClient.Connection.OnePiece
import BtClient.Connection.Refine
import BtClient.Connection.Stream
import BtClient.DlFile.Torrent
import BtClient.FileParser.Created
import BtClient.Lib.Simulation
import BtClient.Process.Model

/-!
# The process is the client

`Client` has only what blocks touch: the shared state, the files and the
requests of every connection, in steps as small as the threads take them. The
process has everything, in steps as large as its calls. Every run of the
process is a run of the client, with the same shared state, the same files and
the same requests: so whatever holds of every run of the client holds of the
program with its sockets, messages and timeouts.
-/

namespace BtClient

open CLib

/-! ## What a receive does to the files -/

/-- A checked read, whatever came of it. -/
theorem recvThen_returns {α : Type} {s s' : Socket} {disk disk' : Disk} {len : Nat} {a : Option α}
    {k : List UInt8 → Socket → Except Fault (RecvResult α)}
    (h : recvThen s disk len k = .ok (a, s', disk')) :
    (a = none ∧ disk' = disk) ∨ ∃ bytes s₁, k bytes s₁ = .ok (a, s', disk') := by
  simp only [recvThen] at h
  split at h
  · exact .inr ⟨_, _, h⟩
  · cases h
    exact .inl ⟨rfl, rfl⟩

/-- A `MSG_PIECE` whose block was looked up and received, `ok` saying whether
all of it came. -/
structure BlockCame (torrent : Metainfo) (disk disk' : Disk) (msg : PieceMsg) (ok : Bool) :
    Prop where
  valid : validLen .msgPiece torrent (9 + msg.blocklen) = true
  stored : ∃ pr br s s', pieceRequestCreate torrent msg.index = .ok pr ∧
    pieceRequestBlockAt pr msg.begin.toNat = some br ∧
    recvFilemems br.filemems s disk = (ok, s', disk')

/-- What `peer_msg_recv_piece` does, whatever comes of it. -/
theorem peerMsgRecvPiece_returns {torrent : Metainfo} {len : Nat} {s s' : Socket}
    {disk disk' : Disk} {m : Option PieceMsg}
    (h : peerMsgRecvPiece torrent len s disk = .ok (m, s', disk')) :
    (m = none ∧ disk' = disk) ∨
    ∃ index begin ok pr br s₁, pieceRequestCreate torrent index = .ok pr ∧
      pieceRequestBlockAt pr begin.toNat = some br ∧
      recvFilemems br.filemems s₁ disk = (ok, s', disk') ∧
      m = if ok then some ⟨index, begin, wordSub (wordSub len 4) 4⟩ else none := by
  rcases recvThen_returns h with hnone | ⟨idx, s₁, h⟩
  · exact .inl hnone
  rcases recvThen_returns h with hnone | ⟨beg, s₂, h⟩
  · exact .inl hnone
  obtain ⟨pr, hpr, h⟩ := (seq_returns_iff _ _ _).mp h
  cases hat : pieceRequestBlockAt pr (ofBe32 beg).toNat with
  | none =>
    simp only [hat] at h
    cases h
    exact .inl ⟨rfl, rfl⟩
  | some br =>
    simp only [hat, pure_is_ok] at h
    cases h
    exact .inr ⟨ofBe32 idx, ofBe32 beg, _, pr, br, s₂, hpr, hat, rfl, rfl⟩

/-- A message that left the files alone, or none. -/
def LeftFiles (disk disk' : Disk) (m : Option PeerMsg) : Prop :=
  disk' = disk ∧ ∀ msg, m ≠ some (.piece msg)

theorem LeftFiles.none {disk : Disk} : LeftFiles disk disk none :=
  ⟨rfl, fun _ heq => by cases heq⟩

theorem recvPayload_leftFiles {torrent : Metainfo} {type : MsgType} {left : Nat} {s s' : Socket}
    {disk disk' : Disk} {m : Option PeerMsg} (htype : type ≠ .msgPiece)
    (h : recvPayload torrent type left s disk = .ok (m, s', disk')) : LeftFiles disk disk' m := by
  cases type with
  | msgPiece => exact absurd rfl htype
  | msgCancel | msgKeepalive =>
    cases h
    exact .none
  | msgChoke | msgUnchoke | msgInterested | msgNotInterested =>
    obtain ⟨_, -, h⟩ := (seq_returns_iff _ _ _).mp h
    cases h
    exact ⟨rfl, fun _ heq => by cases heq⟩
  | msgHave | msgPort =>
    obtain ⟨_, -, h⟩ := (seq_returns_iff _ _ _).mp h
    rcases recvThen_returns h with ⟨rfl, rfl⟩ | ⟨bytes, s₃, h⟩
    · exact .none
    · cases h
      exact ⟨rfl, fun _ heq => by cases heq⟩
  | msgBitfield =>
    simp only [recvPayload] at h
    rcases recvThen_returns h with ⟨rfl, rfl⟩ | ⟨bytes, s₃, h⟩
    · exact .none
    · cases h
      exact ⟨rfl, fun _ heq => by cases heq⟩
  | msgRequest =>
    simp only [recvPayload] at h
    rcases recvThen_returns h with ⟨rfl, rfl⟩ | ⟨bytes, s₃, h⟩
    · exact .none
    · obtain ⟨_, -, h⟩ := (seq_returns_iff _ _ _).mp h
      cases h
      exact ⟨rfl, fun _ heq => by cases heq⟩

/-- **Only blocks reach the files.** -/
theorem peerMsgRecv_disk {torrent : Metainfo} {s s' : Socket} {disk disk' : Disk}
    {m : Option PeerMsg} (h : peerMsgRecv torrent s disk = .ok (m, s', disk')) :
    LeftFiles disk disk' m ∨
    ∃ msg ok, BlockCame torrent disk disk' msg ok ∧ m = if ok then some (.piece msg) else none := by
  rcases recvThen_returns h with ⟨rfl, rfl⟩ | ⟨word, s₁, h⟩
  · exact .inl .none
  simp only [recvBody] at h
  split at h
  · cases h
    exact .inl ⟨rfl, fun _ heq => by cases heq⟩
  rcases recvThen_returns h with ⟨rfl, rfl⟩ | ⟨code, s₂, h⟩
  · exact .inl .none
  simp only [recvTyped] at h
  split at h
  · cases h
    exact .inl .none
  rename_i type _
  split at h
  swap
  · cases h
    exact .inl .none
  rename_i hvalid
  by_cases htype : type = .msgPiece
  swap
  · exact .inl (recvPayload_leftFiles htype h)
  subst htype
  obtain ⟨_, -, h⟩ := (seq_returns_iff _ _ _).mp h
  obtain ⟨⟨piece, s₃, disk₃⟩, hpiece, h⟩ := (seq_returns_iff _ _ _).mp h
  cases h
  rcases peerMsgRecvPiece_returns hpiece with
    ⟨rfl, rfl⟩ | ⟨index, begin, ok, pr, br, s₄, hpr, hat, hmems, rfl⟩
  · exact .inl .none
  · refine .inr ⟨_, ok, ⟨?_, pr, br, s₄, _, hpr, hat, hmems⟩, by cases ok <;> rfl⟩
    -- `blocklen` is the length word less the three fields before the block
    have hge : 10 ≤ (ofBe32 word).toNat := by
      rw [validLen, if_pos rfl, Bool.and_eq_true, decide_eq_true_eq] at hvalid
      exact hvalid.1
    have hleft : 9 + wordSub (wordSub (wordSub (ofBe32 word).toNat 1) 4) 4
        = (ofBe32 word).toNat := by
      have hword := (ofBe32 word).toNat_lt
      unfold wordSub
      omega
    simp only [hleft]
    exact hvalid

/-! ## What the calls of the loop do to the thread -/

section Thread

variable {torrent : Metainfo} {t t' : PeerThread}

theorem timeouts_place {curr now : Int} (h : t.timeouts torrent curr now = .ok t') :
    t'.state = t.state ∧ (t'.pc = .events ∨ t'.pc = .closed) := by
  unfold PeerThread.timeouts at h
  split at h
  · cases h
    exact ⟨rfl, .inr rfl⟩
  · split at h
    · obtain ⟨⟨ok, sock⟩, -, h⟩ := (seq_returns_iff _ _ _).mp h
      cases ok <;> cases h
      · exact ⟨rfl, .inr rfl⟩
      · exact ⟨rfl, .inl rfl⟩
    · cases h
      exact ⟨rfl, .inl rfl⟩

/-- A round of `process_queued_messages` in which something was received. -/
theorem receive_place {buff : BuffState} {disk disk' : Disk} {now : Int} {m : Option PeerMsg}
    {s : Socket} (hready : peerMsgBuffNonempty buff = true)
    (hrecv : peerMsgRecv torrent t.sock disk = .ok (m, s, disk'))
    (h : t.receive torrent buff disk now = .ok t') :
    t'.state = t.state ∧ t'.pc = m.elim .closed .processing := by
  unfold PeerThread.receive at h
  rw [if_pos hready, hrecv, ok_bind] at h
  cases m <;> (cases h; exact ⟨rfl, rfl⟩)

/-- `process_msg`: everything but a block leaves the requests alone. -/
theorem processMsg_other {sha1 : List UInt8 → List UInt8} {realloc : RequestQueue.Realloc}
    {disk : Disk} {msg : PeerMsg} {sock sock' : Socket} {state state' : ConnState}
    {sh sh' : Shared} {events : List Event} (hmsg : ∀ piece, msg ≠ .piece piece)
    (h : processMsg sha1 torrent realloc disk msg sock state sh =
      .ok (sock', state', sh', events)) :
    state'.localRequests = state.localRequests ∧ sh' = sh ∧ events = [] := by
  cases msg with
  | keepalive | cancel | port | choke | unchoke | interested | notInterested =>
    cases h
    exact ⟨rfl, rfl, rfl⟩
  | haveMsg index =>
    obtain ⟨⟨sock₁, state₁⟩, hcase, h⟩ := (seq_returns_iff _ _ _).mp h
    cases h
    obtain ⟨-, interested, rfl⟩ := processHave_cases hcase
    exact ⟨rfl, rfl, rfl⟩
  | bitfield bits =>
    obtain ⟨⟨sock₁, state₁⟩, hcase, h⟩ := (seq_returns_iff _ _ _).mp h
    cases h
    obtain ⟨-, -, interested, rfl⟩ := processBitfield_cases hcase
    exact ⟨rfl, rfl, rfl⟩
  | request request =>
    obtain ⟨queue, -, h⟩ := (seq_returns_iff _ _ _).mp h
    cases queue <;> (cases h; exact ⟨rfl, rfl, rfl⟩)
  | piece piece => exact absurd rfl (hmsg piece)

/-- `send_requests` is the step of the client. -/
theorem sendRequests_client {sock : Socket} {state : ConnState} {w : Client} {conn : Connection}
    {r : SentRequests} (hconn : conn.localRequests = state.localRequests)
    (h : sendRequests torrent sock state w.sh = .ok r) :
    w.sendRequests torrent conn state.peerHave =
      ({ w with sh := r.sh }, { conn with localRequests := r.state.localRequests }) := by
  unfold sendRequests at h
  unfold Client.sendRequests
  rw [hconn]
  split at h
  · rename_i hfull
    cases h
    rw [if_pos hfull, ← hconn]
  · rename_i hfree
    rw [if_neg hfree]
    obtain ⟨⟨next, sh⟩, hnext, h⟩ := (seq_returns_iff _ _ _).mp h
    have hpick : torrentNextRequest w.sh state.peerHave = (next, sh) := by
      unfold torrentNextRequestLoad at hnext
      split at hnext
      · exact Except.ok.inj hnext
      · cases hnext
    rw [hpick]
    cases next with
    | none =>
      simp only at h
      split at h
      · obtain ⟨⟨sock₁, state₁⟩, hshow, h⟩ := (seq_returns_iff _ _ _).mp h
        cases h
        obtain ⟨interested, rfl⟩ := showNotInterested_only hshow
        simp only [← hconn]
      · cases h
        simp only [← hconn]
    | some index =>
      obtain ⟨pr, hpr, h⟩ := (seq_returns_iff _ _ _).mp h
      obtain ⟨⟨ok, sock₁, sent⟩, -, h⟩ := (seq_returns_iff _ _ _).mp h
      cases h
      simp only [hpr]

end Thread

/-! ## The relation -/

/-- Where the client has the connection of a thread that is at `pc`. -/
def LoopPc.place : LoopPc → ConnPc
  | .processing (.piece msg) => .receiving msg []
  | _ => .idle

/-- The connection of a thread. One that is closed does nothing any more. -/
def Follows : ThreadState → Connection → Prop
  | .created, conn => conn = ⟨[], .idle⟩
  | .running t, conn => t.pc = .closed ∨ conn = ⟨t.state.localRequests, t.pc.place⟩
  | .exited, _ => True

/-- The client a process is. -/
structure Process.Simulates (p : Process) (w : Client) : Prop where
  running : w.aborted = false
  sh : w.sh = p.sh
  disk : w.disk = p.disk
  threads : List.Forall₂ Follows p.threads w.conns

section Calls

variable {prog : Program} {p : Process} {w : Client} {c : Nat}

/-- The chunks of a block that broke off. -/
theorem store_reaches_some {sh : Shared} {ver : List (UInt32 × List UInt8)}
    {requests : List PieceRequest} {msg : PieceMsg} (hrun : w.aborted = false)
    (hc : c < w.conns.length) (mems : List FileMem) :
    ∀ {s s' : Socket} {disk disk' : Disk}, recvFilemems mems s disk = (false, s', disk') →
      ∃ conn, Reaches prog.sha1 prog.torrent w c
        ⟨sh, disk, ver, ⟨requests, .receiving msg mems⟩⟩ ⟨sh, disk', ver, conn⟩ := by
  induction mems with
  | nil =>
    intro s s' disk disk' h
    cases h
  | cons mem mems ih =>
    intro s s' disk disk' h
    simp only [recvFilemems] at h
    have hspec := peerRecvLoop_spec s mem.size [] (Nat.zero_le _)
    by_cases hok : (peerRecv s mem.size).ok = true
    · rw [if_pos hok] at h
      obtain ⟨-, hlen⟩ := peerRecv_ok hok
      obtain ⟨conn, hrest⟩ := ih h
      refine ⟨conn, .trans (.step (.store (peerRecv s mem.size).bytes) hrun hc ?_) hrest⟩
      simp only [Client.connStep]
      rw [if_pos ⟨Nat.le_of_eq hlen, fun hnil => by rw [← hlen, hnil]; rfl⟩]
      simp only [advanceMems, hlen, if_true]
      rfl
    · rw [if_neg hok] at h
      cases h
      -- a `recv` that failed at once has stored nothing
      by_cases hnil : (peerRecv s mem.size).bytes = []
      · rw [hnil, writeSeg_nil]
        exact ⟨_, .refl _⟩
      · refine ⟨⟨requests, .receiving msg
          (advanceMems mem mems (peerRecv s mem.size).bytes.length)⟩,
          .step (.store (peerRecv s mem.size).bytes) hrun hc ?_⟩
        simp only [Client.connStep]
        rw [if_pos ⟨hspec.le, fun heq => absurd heq hnil⟩]
        rfl

/-- **A received block** in the client. -/
theorem BlockCame.reaches {disk disk' : Disk} {msg : PieceMsg} {ok : Bool} {sh : Shared}
    {ver : List (UInt32 × List UInt8)} (requests : List PieceRequest)
    (h : BlockCame prog.torrent disk disk' msg ok) (hrun : w.aborted = false)
    (hc : c < w.conns.length) :
    ∃ conn, Reaches prog.sha1 prog.torrent w c ⟨sh, disk, ver, ⟨requests, .idle⟩⟩
        ⟨sh, disk', ver, conn⟩ ∧ (ok = true → conn = ⟨requests, .receiving msg []⟩) := by
  obtain ⟨pr, br, s, s', hpr, hat, hmems⟩ := h.stored
  have hframe : Reaches prog.sha1 prog.torrent w c ⟨sh, disk, ver, ⟨requests, .idle⟩⟩
      ⟨sh, disk, ver, ⟨requests, .receiving msg br.filemems⟩⟩ := by
    refine .step (.frame msg) hrun hc ?_
    simp only [Client.connStep, Client.frame]
    rw [if_pos h.valid, hpr]
    simp only [hat]
    rfl
  cases ok with
  | true =>
    exact ⟨_, hframe.trans (store_reaches hrun hc br.filemems hmems), fun _ => rfl⟩
  | false =>
    obtain ⟨conn, hstore⟩ := store_reaches_some hrun hc br.filemems hmems
    exact ⟨conn, hframe.trans hstore, fun hfalse => by cases hfalse⟩

/-- What a thread that follows `conn` does is done by `conn` in the client. -/
def Mirrored (prog : Program) (w : Client) (c : Nat) (ver : List (UInt32 × List UInt8))
    (p p' : Process) (conn : Connection) (t' : PeerThread) : Prop :=
  ∃ ver' conn', Reaches prog.sha1 prog.torrent w c ⟨p.sh, p.disk, ver, conn⟩
    ⟨p'.sh, p'.disk, ver', conn'⟩ ∧ Follows (.running t') conn'

theorem timeouts_mirrored {t t' : PeerThread} {curr now : Int}
    (ver : List (UInt32 × List UInt8)) (h : t.timeouts prog.torrent curr now = .ok t') :
    Mirrored prog w c ver p p ⟨t.state.localRequests, .idle⟩ t' := by
  obtain ⟨hstate, hplace⟩ := timeouts_place h
  refine ⟨ver, _, .refl _, ?_⟩
  rcases hplace with hpc' | hpc'
  · right
    rw [hstate, hpc']
    rfl
  · exact .inl hpc'

theorem events_mirrored {p' : Process} {thread : UInt64} {t t' : PeerThread}
    (ver : List (UInt32 × List UInt8)) (h : prog.events p thread t = .ok (p', t')) :
    Mirrored prog w c ver p p' ⟨t.state.localRequests, .idle⟩ t' := by
  obtain ⟨⟨queue', sock₁, localHave, sent⟩, -, h⟩ := (seq_returns_iff _ _ _).mp h
  obtain ⟨t₁, hevents, h⟩ := (seq_returns_iff _ _ _).mp h
  cases h
  obtain ⟨⟨queue₂, sock₂, localHave₂, sent₂⟩, -, hevents⟩ := (seq_returns_iff _ _ _).mp hevents
  cases hevents
  exact ⟨ver, _, .refl _, .inr rfl⟩

theorem receive_mirrored {p' : Process} {t t' : PeerThread} {buff : BuffState} {now : Int}
    (ver : List (UInt32 × List UInt8)) (hrun : w.aborted = false) (hc : c < w.conns.length)
    (h : prog.receive p t buff now = .ok (p', t')) :
    Mirrored prog w c ver p p' ⟨t.state.localRequests, .idle⟩ t' := by
  obtain ⟨t₁, hrecv, h⟩ := (seq_returns_iff _ _ _).mp h
  split at h
  · rename_i hready
    obtain ⟨⟨m, sock, disk⟩, hmsg, h⟩ := (seq_returns_iff _ _ _).mp h
    cases h
    obtain ⟨hstate, hpc⟩ := receive_place hready hmsg hrecv
    rcases peerMsgRecv_disk hmsg with ⟨rfl, hother⟩ | ⟨msg, ok, hcame, rfl⟩
    · refine ⟨ver, _, .refl _, ?_⟩
      cases m with
      | none => exact .inl hpc
      | some msg =>
        right
        rw [hstate, hpc]
        cases msg with
        | piece piece => exact absurd rfl (hother piece)
        | _ => rfl
    · obtain ⟨conn, hreach, hwhole⟩ :=
        hcame.reaches t.state.localRequests hrun hc
      refine ⟨ver, conn, hreach, ?_⟩
      cases ok with
      | true =>
        right
        rw [hwhole rfl, hstate, hpc]
        rfl
      | false => exact .inl hpc
  · rename_i hready
    cases h
    unfold PeerThread.receive at hrecv
    rw [if_neg hready] at hrecv
    cases hrecv
    exact ⟨ver, _, .refl _, .inr rfl⟩

theorem process_mirrored {p' : Process} {thread : UInt64} {t t' : PeerThread} {msg : PeerMsg}
    {realloc : RequestQueue.Realloc} {renamed : Nat → Bool} (ver : List (UInt32 × List UInt8))
    (hrun : w.aborted = false) (hc : c < w.conns.length)
    (h : prog.process p thread t msg realloc renamed = .ok (p', t')) :
    Mirrored prog w c ver p p' ⟨t.state.localRequests, (LoopPc.processing msg).place⟩ t' := by
  obtain ⟨⟨sock, state, sh, events⟩, hmsg, h⟩ := (seq_returns_iff _ _ _).mp h
  obtain ⟨t₁, hthread, h⟩ := (seq_returns_iff _ _ _).mp h
  obtain ⟨p₁, hcarry, h⟩ := (seq_returns_iff _ _ _).mp h
  cases h
  unfold PeerThread.process at hthread
  rw [hmsg, ok_bind] at hthread
  cases hthread
  have hframe := prog.carryOut_frame events hcarry
  rw [Mirrored, hframe.sh, hframe.disk]
  by_cases hpiece : ∃ piece, msg = .piece piece
  · obtain ⟨piece, rfl⟩ := hpiece
    obtain ⟨⟨requests, sock₁, sh₁, events₁⟩, hproc, hmsg⟩ := (seq_returns_iff _ _ _).mp hmsg
    cases hmsg
    have hscan : Reaches prog.sha1 prog.torrent w c
        ⟨p.sh, p.disk, ver, ⟨t.state.localRequests, .receiving piece []⟩⟩
        ⟨p.sh, p.disk, ver, ⟨t.state.localRequests, .scanning piece 0⟩⟩ :=
      .step .scan hrun hc rfl
    obtain ⟨ver', hloop⟩ := processPieceMsg_reaches hrun hc t.state.localRequests [] ver hproc
    exact ⟨ver', _, hscan.trans hloop, .inr rfl⟩
  · have hother : ∀ piece, msg ≠ .piece piece := fun piece heq => hpiece ⟨piece, heq⟩
    obtain ⟨hrequests, rfl, -⟩ := processMsg_other hother hmsg
    refine ⟨ver, _, .refl _, .inr ?_⟩
    rw [hrequests]
    cases msg with
    | piece piece => exact absurd rfl (hother piece)
    | _ => rfl

theorem requests_mirrored {p' : Process} {t t' : PeerThread} {now : Int}
    (ver : List (UInt32 × List UInt8)) (hrun : w.aborted = false) (hc : c < w.conns.length)
    (h : prog.requests p t now = .ok (p', t')) :
    Mirrored prog w c ver p p' ⟨t.state.localRequests, .idle⟩ t' := by
  obtain ⟨t₁, hthread, h⟩ := (seq_returns_iff _ _ _).mp h
  unfold PeerThread.requests at hthread
  split at h
  · rename_i hpeer
    cases h
    rw [if_pos hpeer] at hthread
    obtain ⟨⟨sock, state⟩, hservice, hthread⟩ := (seq_returns_iff _ _ _).mp hthread
    cases hthread
    obtain ⟨queue, sent, rfl⟩ := servicePeerRequests_cases hservice
    exact ⟨ver, _, .refl _, .inr rfl⟩
  · rename_i hpeer
    rw [if_neg hpeer] at hthread
    split at h
    · rename_i hasks
      rw [if_pos hasks] at hthread
      obtain ⟨r, hsend, h⟩ := (seq_returns_iff _ _ _).mp h
      cases h
      rw [hsend, ok_bind] at hthread
      cases hthread
      refine ⟨ver, ⟨r.state.localRequests, .idle⟩, ?_, ?_⟩
      · refine .step (.sendRequests t.state.peerHave) hrun hc ?_
        have hclient := @sendRequests_client prog.torrent t.sock t.state
          (w.put c ⟨p.sh, p.disk, ver, ⟨t.state.localRequests, .idle⟩⟩)
          ⟨t.state.localRequests, .idle⟩ r rfl hsend
        simp only [Client.connStep, hclient]
        rfl
      · cases hok : r.ok with
        | true => exact .inr rfl
        | false => exact .inl rfl
    · rename_i hasks
      rw [if_neg hasks] at hthread
      cases h
      cases hthread
      exact ⟨ver, _, .refl _, .inr rfl⟩

/-- **A call of the loop.** -/
theorem Program.Call.mirrored {p' : Process} {thread : UInt64} {t t' : PeerThread}
    {conn : Connection} (h : prog.Call p thread t (p', t')) (ver : List (UInt32 × List UInt8))
    (hrun : w.aborted = false) (hc : c < w.conns.length) (hconn : Follows (.running t) conn) :
    Mirrored prog w c ver p p' conn t' := by
  have hplace : t.pc ≠ .closed → conn = ⟨t.state.localRequests, t.pc.place⟩ := hconn.resolve_left
  generalize hr : (p', t') = r at h
  cases h with
  | timeouts hpc hcall =>
    cases hr
    rw [hplace (by rw [hpc]; simp), hpc]
    exact timeouts_mirrored ver hcall
  | events hpc hcall =>
    subst hr
    rw [hplace (by rw [hpc]; simp), hpc]
    exact events_mirrored ver hcall
  | receive hpc hcall =>
    subst hr
    rw [hplace (by rw [hpc]; simp), hpc]
    exact receive_mirrored ver hrun hc hcall
  | process hpc hcall =>
    subst hr
    rw [hplace (by rw [hpc]; simp), hpc]
    exact process_mirrored ver hrun hc hcall
  | requests hpc hcall =>
    subst hr
    rw [hplace (by rw [hpc]; simp), hpc]
    exact requests_mirrored ver hrun hc hcall

/-- A thread that has greeted its peer has asked for nothing. -/
theorem peerConnectionStart_place {torrent : Metainfo} {peerId : List UInt8} {g : Greeting}
    {t : PeerThread} (h : peerConnectionStart torrent peerId g = .ok (some t)) :
    t.state.localRequests = [] ∧ t.pc = .timeouts := by
  unfold peerConnectionStart at h
  split at h
  · cases h
  · split at h
    · obtain ⟨state, hinit, h⟩ := (seq_returns_iff _ _ _).mp h
      obtain ⟨⟨ok, sock⟩, -, h⟩ := (seq_returns_iff _ _ _).mp h
      cases ok with
      | false => cases h
      | true =>
        obtain ⟨⟨sock₁, state₁⟩, hunchoke, h⟩ := (seq_returns_iff _ _ _).mp h
        cases h
        refine ⟨?_, rfl⟩
        obtain ⟨localHave, -, hinit⟩ := (seq_returns_iff _ _ _).mp hinit
        cases hinit
        rcases sendThenUpdate_cases hunchoke with rfl | rfl <;> rfl
    · cases h

/-- The head of a thread touches only the queues. -/
theorem greet_frame {p' : Process} {thread : UInt64} {answers : GreetAnswers} {ts : ThreadState}
    (h : prog.greet p thread answers = .ok (p', ts)) :
    (∃ table, p' = { p with table := table }) ∧ Follows ts ⟨[], .idle⟩ := by
  unfold Program.greet at h
  split at h
  · cases h
    exact ⟨⟨p.table, rfl⟩, trivial⟩
  · obtain ⟨start, hstart, h⟩ := (seq_returns_iff _ _ _).mp h
    cases start with
    | some t =>
      cases h
      obtain ⟨hrequests, hpc⟩ := peerConnectionStart_place hstart
      refine ⟨⟨_, rfl⟩, .inr ?_⟩
      rw [hrequests, hpc]
      rfl
    | none =>
      cases h
      exact ⟨⟨_, rfl⟩, trivial⟩

/-- Only a thread in its loop asks for a piece. -/
def OnlyRunningAsk (p : Process) (w w' : Client) : Prop :=
  ∀ (c : Nat) (conn : Connection), w'.conns[c]? = some conn → conn.hasAsked = true →
    w.conns[c]? = some conn ∨ ∃ t, p.threads[c]? = some (.running t)

theorem OnlyRunningAsk.refl (p : Process) (w : Client) : OnlyRunningAsk p w w :=
  fun _ _ hconn _ => .inl hconn

theorem OnlyRunningAsk.of_set {w' : Client} {conn : Connection}
    (hconns : w'.conns = w.conns.set c conn)
    (hone : conn.hasAsked = true → ∃ t, p.threads[c]? = some (.running t)) :
    OnlyRunningAsk p w w' := by
  intro i conn' hconn' hasked
  rw [hconns] at hconn'
  by_cases hi : c = i
  · subst hi
    obtain ⟨hlt, hget⟩ := List.getElem?_eq_some_iff.mp hconn'
    rw [List.getElem_set_self] at hget
    rw [← hget] at hasked
    exact .inr (hone hasked)
  · rw [List.getElem?_set_ne hi] at hconn'
    exact .inl hconn'

/-- The step of one thread, from what its connection does. -/
theorem Process.Simulates.put {p' : Process} {ts : ThreadState} {conn conn' : Connection}
    {ver' : List (UInt32 × List UInt8)} (hsim : p.Simulates w) (hconn : w.conns[c]? = some conn)
    (hthreads : p'.threads = p.threads)
    (hreaches : Reaches prog.sha1 prog.torrent w c ⟨p.sh, p.disk, w.verified, conn⟩
      ⟨p'.sh, p'.disk, ver', conn'⟩) (hfollows : Follows ts conn') :
    ∃ bs w', Run (Client.step prog.sha1 prog.torrent) unguarded w bs w' ∧
      Process.Simulates { p' with threads := p'.threads.set c ts } w' ∧
      w'.conns = w.conns.set c conn' := by
  obtain ⟨bs, hbs⟩ := hreaches
  obtain ⟨hlt, hget⟩ := List.getElem?_eq_some_iff.mp hconn
  have hself : w.put c ⟨p.sh, p.disk, w.verified, conn⟩ = w := by
    rw [Client.put, ← hsim.sh, ← hsim.disk, ← hget, List.set_getElem_self]
  rw [hself] at hbs
  refine ⟨bs, _, hbs, ⟨hsim.running, rfl, rfl, ?_⟩, rfl⟩
  rw [hthreads]
  exact forall₂_set hsim.threads hfollows

/-- **One step of the process.** -/
theorem Program.Step.simulated {p' : Process} (h : prog.Step p p') (hsim : p.Simulates w) :
    ∃ bs w', Run (Client.step prog.sha1 prog.torrent) unguarded w bs w' ∧ p'.Simulates w' ∧
      OnlyRunningAsk p w w' := by
  cases h with
  | faulted =>
    exact ⟨[], w, .nil, ⟨hsim.running, hsim.sh, hsim.disk, hsim.threads⟩, .refl p w⟩
  | announce hmain =>
    exact ⟨[], w, .nil, ⟨hsim.running, hsim.sh, hsim.disk, hsim.threads⟩, .refl p w⟩
  | @main a main hother hmain =>
    cases hcreates : a.creates with
    | false => exact ⟨[], w, .nil, ⟨hsim.running, hsim.sh, hsim.disk, hsim.threads⟩, .refl p w⟩
    | true =>
      have hconnect : w.step prog.sha1 prog.torrent .connect =
          some { w with conns := w.conns ++ [⟨[], .idle⟩] } := by
        rw [Client.step, if_neg (by rw [hsim.running]; decide)]
      refine ⟨[.connect], _, .cons trivial hconnect .nil,
        ⟨hsim.running, hsim.sh, hsim.disk, ?_⟩, ?_⟩
      · exact List.rel_append hsim.threads (.cons rfl .nil)
      · intro c conn hconn hasked
        simp only [List.getElem?_append] at hconn
        split at hconn
        · exact .inl hconn
        · rw [List.mem_singleton.mp (List.mem_of_getElem? hconn)] at hasked
          cases hasked
  | @greet c conn answers p' ts hmain hthread hgreet =>
    obtain ⟨conn', hconn', hfollows⟩ := forall₂_getElem? hsim.threads hthread
    obtain ⟨⟨table, rfl⟩, hstarted⟩ := greet_frame hgreet
    cases hfollows
    have hthreads : ({ p with table := table } : Process).threads = p.threads := rfl
    obtain ⟨bs, w', hbs, hsim', hconns⟩ :=
      hsim.put hconn' hthreads (.refl ⟨p.sh, p.disk, w.verified, _⟩) hstarted
    exact ⟨bs, w', hbs, hsim', .of_set hconns fun hasked => by cases hasked⟩
  | @call c conn t t' p' hmain hthread hcall =>
    obtain ⟨conn', hconn', hfollows⟩ := forall₂_getElem? hsim.threads hthread
    obtain ⟨hlt, -⟩ := List.getElem?_eq_some_iff.mp hconn'
    obtain ⟨ver', conn'', hreaches, hfollows'⟩ :=
      hcall.mirrored w.verified hsim.running hlt hfollows
    obtain ⟨bs, w', hbs, hsim', hconns⟩ := hsim.put hconn' hcall.frame.threads hreaches hfollows'
    exact ⟨bs, w', hbs, hsim', .of_set hconns fun _ => ⟨t, hthread⟩⟩
  | @leave c conn t hmain hthread hpc =>
    obtain ⟨conn', hconn', -⟩ := forall₂_getElem? hsim.threads hthread
    have hgone : Follows .exited conn' := trivial
    exact ⟨[], w, .nil, ⟨hsim.running, hsim.sh, hsim.disk,
      forall₂_set_left hsim.threads hconn' hgone⟩, .refl p w⟩

end Calls

/-- The digests of the ten bytes `1, …, 10` and of the `info` dictionary below. -/
def onePieceSha1 (bytes : List UInt8) : List UInt8 :=
  if bytes.length = 10 then tenByteSha1 bytes
  else [69, 200, 180, 241, 48, 203, 202, 186, 111, 15, 69, 97, 212, 241, 27, 132, 193, 237, 189, 1]

/-- A torrent of one piece, in the file `a`. -/
def onePieceDescription : Description where
  announce := [104, 116, 116, 112, 58, 47, 47, 116]
  announceList := none
  name := [97]
  pieceLength := 16384
  pieces := tenByteSha1 []
  layout := .single 10

/-- What `parse_file` makes of it. -/
def onePieceProgram : Program where
  torrent := onePieceDescription.toMetainfo (onePieceSha1 []) onePieceDescription.dlFiles
  peerId := List.replicate 20 3
  sha1 := onePieceSha1
  tcb := selfPointer

theorem parseFile_onePiece :
    ∃ fuel, parseFile onePieceSha1 fuel none (fun _ => ⟨700, 5⟩)
      (encode onePieceDescription.toValue) = .ok onePieceProgram.torrent := by
  have hparse := parseFile_description onePieceSha1 none (fun _ => ⟨700, 5⟩)
    (d := onePieceDescription) (Description.good (by decide)) (by decide) (by decide +kernel)
    (Nat.le_refl _)
  have hhash : onePieceSha1 (encode onePieceDescription.infoValue) = onePieceSha1 [] := by
    decide +kernel
  rw [hhash] at hparse
  exact ⟨_, hparse⟩

/-- The process with its file created and no queue. -/
def onePieceInit : Process :=
  onePieceProgram.init [List.replicate 10 0] (fun _ => none)
    (createdNames [[46, 47, 97]] Directory.empty)

/-- The block of the piece. -/
def onePieceBlock : BlockFrame := ⟨0, 0, [1, 2, 3, 4, 5, 6, 7, 8, 9, 10]⟩

/-- A peer that has the piece, unchokes at once and sends the block. -/
def onePieceSeed : Socket where
  rx := handshakeBytes (List.replicate 20 2) (onePieceSha1 []) ++
    encodeMsg onePieceProgram.torrent (.bitfield [128]) ++
    encodeMsg onePieceProgram.torrent .unchoke ++ onePieceBlock.encode
  tx := []
  recvPlan := fun _ => some 65536
  sendPlan := fun _ => some 65536

/-- A round of `process_queued_messages` that finds these bytes. -/
def arrived (bytes : List UInt8) : LoopInput := .receive ⟨bytes, false, [], false, 0⟩ 1000

/-- The tracker names one peer; its thread downloads the piece; the tracker is
told. -/
def onePieceActions : List ProcessAction :=
  [.main (.announce false (some ⟨1800, 1, 0, [⟨[10, 0, 0, 1], [26, 225]⟩]⟩)),
    .main (.connect (.created 7)), .main .sleep,
    .greet 0 ⟨some onePieceSeed, true, fun _ => 0, 1000⟩,
    .loop 0 (.timeouts 1000 1000), .loop 0 .events,
    .loop 0 (arrived (encodeMsg onePieceProgram.torrent (.bitfield [128]))),
    .loop 0 (.process none fun _ => true),
    .loop 0 (arrived (encodeMsg onePieceProgram.torrent .unchoke)),
    .loop 0 (.process none fun _ => true), .loop 0 (arrived []), .loop 0 (.requests 1001),
    .loop 0 (.timeouts 1001 1001), .loop 0 .events, .loop 0 (arrived onePieceBlock.encode),
    .loop 0 (.process none fun _ => true), .main .wake, .main (.announce true none)]

end BtClient

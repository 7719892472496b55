import BtClient.Connection.Client
import BtClient.Peer.Framing

/-!
# A connection alone is the sequential model

The steps of `Client` and the functions of `PieceMsg` are two readings of the
same code. Here they are tied together: whatever `handlePieceFrame` computes
for one frame, a connection of the client reaches by its own steps, with the
same files, shared state and requests. So a run of frames on one connection is
a run of the client in which the others stand still.
-/

namespace BtClient

open CLib

/-- Only the payload of a `MSG_PIECE` frame becomes a block. -/
theorem recvPayload_piece {torrent : Metainfo} {type : MsgType} {left : Nat} {s s' : Socket}
    {disk disk' : Disk} {msg : PieceMsg}
    (h : recvPayload torrent type left s disk = .ok (some (.piece msg), s', disk')) :
    type = .msgPiece ∧ peerMsgRecvPiece torrent left s disk = .ok (some msg, s', disk') := by
  cases type with
  | msgCancel | msgKeepalive => cases h
  | msgChoke | msgUnchoke | msgInterested | msgNotInterested =>
    obtain ⟨_, -, h⟩ := (seq_returns_iff _ _ _).mp h
    cases h
  | msgHave | msgPort =>
    obtain ⟨_, -, h⟩ := (seq_returns_iff _ _ _).mp h
    obtain ⟨_, _, -, -, h⟩ := recvThen_accepted h
    cases h
  | msgBitfield =>
    simp only [recvPayload] at h
    obtain ⟨_, _, -, -, h⟩ := recvThen_accepted h
    cases h
  | msgRequest =>
    simp only [recvPayload] at h
    obtain ⟨_, _, -, -, h⟩ := recvThen_accepted h
    obtain ⟨_, -, h⟩ := (seq_returns_iff _ _ _).mp h
    cases h
  | msgPiece =>
    obtain ⟨_, -, h⟩ := (seq_returns_iff _ _ _).mp h
    obtain ⟨⟨piece, s₁, disk₁⟩, hpiece, h⟩ := (seq_returns_iff _ _ _).mp h
    cases piece with
    | none => cases h
    | some piece =>
      cases h
      exact ⟨rfl, hpiece⟩

/-- What an accepted `MSG_PIECE` says about the receive path. -/
theorem peerMsgRecv_piece {torrent : Metainfo} {s s' : Socket} {disk disk' : Disk} {msg : PieceMsg}
    (h : peerMsgRecv torrent s disk = .ok (some (.piece msg), s', disk')) :
    validLen .msgPiece torrent (9 + msg.blocklen) = true ∧
      ∃ pr br s₁, pieceRequestCreate torrent msg.index = .ok pr ∧
        pieceRequestBlockAt pr msg.begin.toNat = some br ∧
        recvFilemems br.filemems s₁ disk = (true, s', disk') := by
  obtain ⟨word, s₁, -, -, ⟨-, hmsg, -⟩ | ⟨code, type, s₂, -, -, -, hvalid, hpayload⟩⟩ :=
    peerMsgRecv_cases h
  · cases hmsg
  obtain ⟨rfl, hpiece⟩ := recvPayload_piece hpayload
  obtain ⟨idx, beg, pr, br, s₃, -, -, -, hpr, hat, hmems, rfl⟩ := peerMsgRecvPiece_cases hpiece
  refine ⟨?_, pr, br, s₃, hpr, hat, hmems⟩
  -- `blocklen` is the length word less the three fields before the block
  have hword := (ofBe32 word).toNat_lt
  have hge : 10 ≤ (ofBe32 word).toNat := by
    rw [validLen, if_pos rfl, Bool.and_eq_true, decide_eq_true_eq] at hvalid
    exact hvalid.1
  have hleft : 9 + wordSub (wordSub (wordSub (ofBe32 word).toNat 1) 4) 4
      = (ofBe32 word).toNat := by
    unfold wordSub
    omega
  simp only [hleft]
  exact hvalid

/-! ## Local runs -/

/-- What the steps of one connection change. -/
structure Local where
  sh : Shared
  disk : Disk
  verified : List (UInt32 × List UInt8)
  conn : Connection

/-- The client in which connection `c` and the shared parts are as in `l`. -/
def Client.put (w : Client) (c : Nat) (l : Local) : Client :=
  { w with sh := l.sh, disk := l.disk, verified := l.verified, conns := w.conns.set c l.conn }

/-- Connection `c` gets from `l` to `l'` by steps of its own. -/
def Reaches (sha1 : List UInt8 → List UInt8) (torrent : Metainfo) (w : Client) (c : Nat)
    (l l' : Local) : Prop :=
  ∃ as, Run (Client.step sha1 torrent) unguarded (w.put c l) as (w.put c l')

section Runs

variable {sha1 : List UInt8 → List UInt8} {torrent : Metainfo} {w : Client} {c : Nat}

theorem Reaches.refl (l : Local) : Reaches sha1 torrent w c l l := ⟨[], .nil⟩

theorem Reaches.trans {l l' l'' : Local} (h : Reaches sha1 torrent w c l l')
    (h' : Reaches sha1 torrent w c l' l'') : Reaches sha1 torrent w c l l'' := by
  obtain ⟨as, has⟩ := h
  obtain ⟨bs, hbs⟩ := h'
  exact ⟨as ++ bs, has.append hbs⟩

/-- One step of the connection. -/
theorem Reaches.step {l l' : Local} (a : ConnAction) (hrun : w.aborted = false)
    (hc : c < w.conns.length)
    (h : (w.put c l).connStep sha1 torrent l.conn a = some
      ({ w.put c l with sh := l'.sh, disk := l'.disk, verified := l'.verified }, l'.conn)) :
    Reaches sha1 torrent w c l l' := by
  refine ⟨[.conn c a], .cons trivial ?_ .nil⟩
  have hget : (w.put c l).conns[c]? = some l.conn := List.getElem?_set_self hc
  have hrun' : (w.put c l).aborted = false := hrun
  rw [Client.step, if_neg (by rw [hrun']; decide)]
  simp only [hget, Option.bind_some, h, Option.map_some, Option.some.injEq]
  simp only [Client.put, List.set_set]

/-- The chunks of a block, one for each slice. -/
theorem store_reaches {sh : Shared} {ver : List (UInt32 × List UInt8)}
    {requests : List PieceRequest} {msg : PieceMsg} (hrun : w.aborted = false)
    (hc : c < w.conns.length) (mems : List FileMem) :
    ∀ {s s' : Socket} {disk disk' : Disk}, recvFilemems mems s disk = (true, s', disk') →
      Reaches sha1 torrent w c ⟨sh, disk, ver, ⟨requests, .receiving msg mems⟩⟩
        ⟨sh, disk', ver, ⟨requests, .receiving msg []⟩⟩ := by
  induction mems with
  | nil =>
    intro s s' disk disk' h
    cases h
    exact .refl _
  | cons mem mems ih =>
    intro s s' disk disk' h
    simp only [recvFilemems] at h
    by_cases hok : (peerRecv s mem.size).ok = true
    swap
    · rw [if_neg hok] at h
      cases h
    rw [if_pos hok] at h
    obtain ⟨-, hlen⟩ := peerRecv_ok hok
    refine .trans (.step (.store (peerRecv s mem.size).bytes) hrun hc ?_) (ih h)
    simp only [Client.connStep]
    rw [if_pos ⟨Nat.le_of_eq hlen, fun hnil => by rw [← hlen, hnil]; rfl⟩]
    simp only [advanceMems, hlen, if_true]
    rfl

/-- The rounds of `torrent_sha1_verify`. -/
theorem hash_reaches {sh : Shared} {disk : Disk} {ver : List (UInt32 × List UInt8)}
    {requests : List PieceRequest} {msg : PieceMsg} {i : Nat} (hrun : w.aborted = false)
    (hc : c < w.conns.length) (mems : List FileMem) :
    ∀ fed : List UInt8,
      Reaches sha1 torrent w c ⟨sh, disk, ver, ⟨requests, .hashing msg i fed mems⟩⟩
        ⟨sh, disk, ver, ⟨requests, .hashing msg i (fed ++ mems.flatMap (readSeg disk)) []⟩⟩ := by
  induction mems with
  | nil =>
    intro fed
    rw [List.flatMap_nil, List.append_nil]
    exact .refl _
  | cons mem mems ih =>
    intro fed
    have hnext := ih (fed ++ readSeg disk mem)
    rw [List.append_assoc, ← List.flatMap_cons] at hnext
    exact .trans (.step .hash hrun hc rfl) hnext

/-- A request without blocks left: hash, record, finish. -/
theorem finishPiece_reaches {disk : Disk} {sh sh' : Shared} (ver : List (UInt32 × List UInt8))
    (requests : List PieceRequest) {msg : PieceMsg} (i : Nat) {pr : PieceRequest}
    {sock sock' : Socket} {events : List Event} (hrun : w.aborted = false)
    (hc : c < w.conns.length) (hpr : pieceRequestCreate torrent msg.index = .ok pr)
    (h : finishPiece sha1 torrent disk sock sh msg.index = .ok (sock', sh', events)) :
    ∃ ver', Reaches sha1 torrent w c
      ⟨sh, disk, ver, ⟨requests, .hashing msg i [] (requestMems pr)⟩⟩
      ⟨sh', disk, ver', ⟨requests, .scanning msg (i + 1)⟩⟩ := by
  obtain ⟨⟨valid, bytes⟩, hver, h⟩ := (seq_returns_iff _ _ _).mp h
  obtain ⟨fed, hfeed, hver⟩ := (seq_returns_iff _ _ _).mp hver
  have hfed : (requestMems pr).flatMap (readSeg disk) = fed := by
    obtain ⟨_, -, hfeed⟩ := (seq_returns_iff _ _ _).mp hfeed
    obtain ⟨pr', hpr', hfeed⟩ := (seq_returns_iff _ _ _).mp hfeed
    rw [hpr] at hpr'
    cases hpr'
    cases hfeed
    rw [requestMems, List.flatMap_assoc]
  have hhash : Reaches sha1 torrent w c
      ⟨sh, disk, ver, ⟨requests, .hashing msg i [] (requestMems pr)⟩⟩
      ⟨sh, disk, ver, ⟨requests, .hashing msg i fed []⟩⟩ := by
    rw [← hfed]
    exact hash_reaches hrun hc (requestMems pr) []
  -- both models compare the same bytes with the same hash
  obtain ⟨hvalid, rfl⟩ := Prod.mk.inj (Except.ok.inj hver)
  have hcheck : Reaches sha1 torrent w c
      ⟨sh, disk, ver, ⟨requests, .hashing msg i fed []⟩⟩
      ⟨sh, disk, if valid then ver ++ [(msg.index, fed)] else ver,
        ⟨requests, .checked msg i valid⟩⟩ := by
    refine .step .hash hrun hc ?_
    simp only [Client.connStep, hvalid]
    rfl
  refine ⟨if valid then ver ++ [(msg.index, fed)] else ver, hhash.trans (hcheck.trans ?_)⟩
  cases valid with
  | false =>
    cases h
    exact .step .record hrun hc rfl
  | true =>
    obtain ⟨⟨sock₁, sh₁, ev₁⟩, hcomp, h⟩ := (seq_returns_iff _ _ _).mp h
    cases h
    obtain ⟨_, -, hcomp⟩ := (seq_returns_iff _ _ _).mp hcomp
    obtain ⟨⟨sh₂, completed⟩, hsec, hcomp⟩ := (seq_returns_iff _ _ _).mp hcomp
    obtain ⟨⟨_, sock₂⟩, -, hcomp⟩ := (seq_returns_iff _ _ _).mp hcomp
    have hrecord : Reaches sha1 torrent w c
        ⟨sh, disk, ver ++ [(msg.index, fed)], ⟨requests, .checked msg i true⟩⟩
        ⟨sh₂, disk, ver ++ [(msg.index, fed)], ⟨requests, .finishing msg i completed⟩⟩ := by
      refine .step .record hrun hc ?_
      simp only [Client.connStep, Client.record, if_true]
      rw [show (w.put c ⟨sh, disk, ver ++ [(msg.index, fed)], ⟨requests, .checked msg i true⟩⟩).sh
        = sh from rfl, hsec]
      rfl
    refine hrecord.trans (.step .finish hrun hc ?_)
    cases completed with
    | true => cases hcomp; rfl
    | false => cases hcomp; rfl

/-- That the verification returned says that its assertion and its request
passed. -/
theorem finishPiece_created {disk : Disk} {sh sh' : Shared} {index : UInt32} {sock sock' : Socket}
    {events : List Event}
    (h : finishPiece sha1 torrent disk sock sh index = .ok (sock', sh', events)) :
    index.toNat < torrent.info.numPieces ∧ ∃ pr, pieceRequestCreate torrent index = .ok pr := by
  obtain ⟨_, hver, -⟩ := (seq_returns_iff _ _ _).mp h
  obtain ⟨_, hfeed, -⟩ := (seq_returns_iff _ _ _).mp hver
  obtain ⟨_, hcheck, hfeed⟩ := (seq_returns_iff _ _ _).mp hfeed
  obtain ⟨pr, hpr, -⟩ := (seq_returns_iff _ _ _).mp hfeed
  exact ⟨by simpa using check_eq_ok.mp hcheck, pr, hpr⟩

/-- The loop of `process_piece_msg` from position `done.length` on. -/
theorem processPieceMsg_reaches {disk : Disk} {msg : PieceMsg} (hrun : w.aborted = false)
    (hc : c < w.conns.length) (rest : List PieceRequest) :
    ∀ (done : List PieceRequest) (ver : List (UInt32 × List UInt8)) {rest' : List PieceRequest}
      {sock sock' : Socket} {sh sh' : Shared} {events : List Event},
      processPieceMsg sha1 torrent disk msg rest sock sh = .ok (rest', sock', sh', events) →
      ∃ ver', Reaches sha1 torrent w c
        ⟨sh, disk, ver, ⟨done ++ rest, .scanning msg done.length⟩⟩
        ⟨sh', disk, ver', ⟨done ++ rest', .idle⟩⟩ := by
  induction rest with
  | nil =>
    intro done ver rest' sock sock' sh sh' events h
    cases h
    refine ⟨ver, .step .scan hrun hc ?_⟩
    simp [Client.connStep, Client.scan, Client.put]
  | cons curr rest ih =>
    intro done ver requests' sock sock' sh sh' events h
    have hcurr : (done ++ curr :: rest)[done.length]? = some curr := by simp
    have hset : (done ++ curr :: rest).set done.length (countBlock msg curr)
        = done ++ [countBlock msg curr] ++ rest := by simp
    -- from the next entry on, whatever this one left behind
    have hnext : ∀ (curr' : PieceRequest) (ver₁ : List (UInt32 × List UInt8)) {sh₁ : Shared}
        {sock₁ : Socket} {rest₁ : List PieceRequest} {sock₂ : Socket} {sh₂ : Shared}
        {ev : List Event},
        processPieceMsg sha1 torrent disk msg rest sock₁ sh₁ = .ok (rest₁, sock₂, sh₂, ev) →
        ∃ ver₂, Reaches sha1 torrent w c
          ⟨sh₁, disk, ver₁, ⟨done ++ [curr'] ++ rest, .scanning msg (done.length + 1)⟩⟩
          ⟨sh₂, disk, ver₂, ⟨done ++ curr' :: rest₁, .idle⟩⟩ := by
      intro curr' ver₁ sh₁ sock₁ rest₁ sock₂ sh₂ ev hrest
      obtain ⟨ver₂, hmore⟩ := ih (done ++ [curr']) ver₁ hrest
      exact ⟨ver₂, by simpa using hmore⟩
    rcases processPieceMsg_cons h with ⟨rest₁, hother, rfl, hrest⟩ |
      ⟨rest₁, hmatch, rfl, hleft, hrest⟩ |
      ⟨rest₁, sock₁, sh₁, finished, more, hmatch, rfl, hzero, hfin, hrest, -⟩
    · obtain ⟨ver₂, hmore⟩ := hnext curr ver hrest
      refine ⟨ver₂, .trans (.step .scan hrun hc ?_) hmore⟩
      simp only [Client.connStep, Client.scan, hcurr]
      rw [if_neg hother, List.append_assoc]
      rfl
    · obtain ⟨ver₂, hmore⟩ := hnext (countBlock msg curr) ver hrest
      refine ⟨ver₂, .trans (.step .scan hrun hc ?_) hmore⟩
      simp only [Client.connStep, Client.scan, hcurr]
      rw [if_pos hmatch, if_neg hleft, hset]
      rfl
    · obtain ⟨hindex, pr, hpr⟩ := finishPiece_created hfin
      obtain ⟨ver₁, hdone⟩ := finishPiece_reaches ver
        (done ++ [countBlock msg curr] ++ rest) done.length hrun hc hpr hfin
      obtain ⟨ver₂, hmore⟩ := hnext (countBlock msg curr) ver₁ hrest
      refine ⟨ver₂, .trans (.step .scan hrun hc ?_) (hdone.trans hmore)⟩
      simp only [Client.connStep, Client.scan, hcurr]
      rw [if_pos hmatch, if_pos hzero, countBlock_pieceIndex, hmatch, if_pos hindex, hpr, hset]
      rfl

/-- **One frame of the sequential model** is a run of the connection's own
steps, to the same files, shared state and requests. -/
theorem handlePieceFrame_reaches {conn conn' : Conn} {sh sh' : Shared} {events : List Event}
    {ver : List (UInt32 × List UInt8)} (hrun : w.aborted = false) (hc : c < w.conns.length)
    (h : handlePieceFrame sha1 torrent sh conn = .ok (some (conn', sh', events))) :
    ∃ ver', Reaches sha1 torrent w c ⟨sh, conn.disk, ver, ⟨conn.localRequests, .idle⟩⟩
      ⟨sh', conn'.disk, ver', ⟨conn'.localRequests, .idle⟩⟩ := by
  obtain ⟨⟨m, s, disk⟩, hrecv, h⟩ := (seq_returns_iff _ _ _).mp h
  cases m with
  | none => cases h
  | some m =>
    cases m with
    | piece msg =>
      obtain ⟨⟨requests, s', sh₁, ev⟩, hproc, h⟩ := (seq_returns_iff _ _ _).mp h
      cases h
      obtain ⟨hvalid, pr, br, s₁, hpr, hat, hmems⟩ := peerMsgRecv_piece hrecv
      have hframe : Reaches sha1 torrent w c ⟨sh, conn.disk, ver, ⟨conn.localRequests, .idle⟩⟩
          ⟨sh, conn.disk, ver, ⟨conn.localRequests, .receiving msg br.filemems⟩⟩ := by
        refine .step (.frame msg) hrun hc ?_
        simp only [Client.connStep, Client.frame]
        rw [if_pos hvalid, hpr]
        simp only [hat]
        rfl
      have hstore : Reaches sha1 torrent w c
          ⟨sh, conn.disk, ver, ⟨conn.localRequests, .receiving msg br.filemems⟩⟩
          ⟨sh, disk, ver, ⟨conn.localRequests, .receiving msg []⟩⟩ :=
        store_reaches hrun hc br.filemems hmems
      have hscan : Reaches sha1 torrent w c
          ⟨sh, disk, ver, ⟨conn.localRequests, .receiving msg []⟩⟩
          ⟨sh, disk, ver, ⟨conn.localRequests, .scanning msg 0⟩⟩ := .step .scan hrun hc rfl
      obtain ⟨ver', hloop⟩ := processPieceMsg_reaches hrun hc conn.localRequests [] ver hproc
      exact ⟨ver', hframe.trans (hstore.trans (hscan.trans hloop))⟩
    | keepalive | choke | unchoke | interested | notInterested | haveMsg _ | bitfield _
    | request _ | cancel | port _ => cases h

end Runs

end BtClient

import BtClient.Connection.OnePiece

/-!
# What ordinary runs keep

A run is ordinary when no frame names a piece that begins behind the content
and no failed check finds its piece finished. An ordinary run keeps the client
running, its counter right and its buffers in place, whatever else the peers
send and however the connections interleave.
-/

namespace BtClient

open CLib

/-- The step names no piece behind the content, and records no failed check of
a finished piece. -/
def Ordinary (torrent : Metainfo) (w : Client) : ClientAction → Prop
  | .conn _ (.frame msg) => pieceStart torrent msg.index ≤ torrent.totalLength
  | .conn c .record =>
    ∀ conn msg i, w.conns[c]? = some conn → conn.pc = .checked msg i false →
      w.sh.pieceStates[msg.index.toNat]? ≠ some .stateHave
  | _ => True

/-- What holds at a connection's place: it stores inside the files, and it
hashes a piece it asked for. -/
def ConnPc.InPlace (sizes : List Nat) (asked : List Nat) : ConnPc → Prop
  | .receiving _ mems => ∀ mem ∈ mems, mem.Inside sizes
  | .hashing msg _ _ _ => msg.index.toNat ∈ asked
  | .checked msg _ _ => msg.index.toNat ∈ asked
  | _ => True

/-- What holds of a connection: it has asked for pieces of the torrent. -/
structure Connection.Healthy (torrent : Metainfo) (conn : Connection) : Prop where
  asked : ∀ k ∈ conn.asked, k < torrent.info.numPieces
  place : conn.pc.InPlace torrent.fileSizes conn.asked

/-- The shared parts are in order. -/
structure Client.Sound (torrent : Metainfo) (w : Client) : Prop where
  running : w.aborted = false
  shared : w.sh.Consistent torrent.info.numPieces
  completed : missing w.sh.pieceStates = 0 → w.sh.completed = true
  sized : Sized w.disk torrent.fileSizes

/-- So is every connection. -/
structure Client.Healthy (torrent : Metainfo) (w : Client) : Prop where
  sound : w.Sound torrent
  conns : ∀ conn ∈ w.conns, conn.Healthy torrent

/-- The torrents every piece of which begins inside the content, and whose
pieces a `uint32_t` counts. -/
structure Metainfo.Addressable (torrent : Metainfo) : Prop where
  pos : 1 ≤ torrent.info.numPieces
  pieces : torrent.info.numPieces ≤ 2 ^ 32
  inside : ∀ i : UInt32, i.toNat < torrent.info.numPieces →
    pieceStart torrent i ≤ torrent.totalLength

section Steps

variable {sha1 : List UInt8 → List UInt8} {torrent : Metainfo} {w w' : Client}
  {conn conn' : Connection}

/-- Marking a missing piece otherwise leaves it missing. -/
theorem Client.Sound.mark (h : w.Sound torrent) {k : Nat} {old new : PieceState}
    (hget : w.sh.pieceStates[k]? = some old) (hold : old ≠ .stateHave) (hnew : new ≠ .stateHave) :
    Client.Sound torrent
      { w with sh := { w.sh with pieceStates := w.sh.pieceStates.set k new } } := by
  have hmiss := missing_set new hget
  have hcount := h.shared.count
  simp only [hold, hnew, if_false] at hmiss
  refine ⟨h.running, ⟨by simpa using h.shared.length, ?_, h.shared.word⟩, ?_, h.sized⟩
  · simp only
    omega
  · intro hzero
    exact h.completed (by simp only at hzero; omega)

/-- `send_requests`. -/
theorem sendRequests_healthy (htorrent : torrent.Addressable) (h : w.Sound torrent)
    (hconn : conn.Healthy torrent) (hidle : conn.pc = .idle) (bf : List UInt8) :
    (w.sendRequests torrent conn bf).1.Sound torrent ∧
      (w.sendRequests torrent conn bf).2.Healthy torrent := by
  unfold Client.sendRequests
  split
  · exact ⟨h, hconn⟩
  · rcases torrentNextRequest_cases w.sh bf with hno | ⟨k, state, hget, hne, -, hsome⟩
    · rw [hno]
      exact ⟨h, hconn⟩
    · obtain ⟨hlt, -⟩ := List.getElem?_eq_some_iff.mp hget
      rw [h.shared.length] at hlt
      have hk : k % 2 ^ 32 = k := Nat.mod_eq_of_lt (Nat.lt_of_lt_of_le hlt htorrent.pieces)
      have hnat : (UInt32.ofNat k).toNat = k := by rw [UInt32.toNat_ofNat', hk]
      obtain ⟨pr, hpr, hsch⟩ := (pieceRequestCreate_spec torrent (UInt32.ofNat k)).1
        (htorrent.inside _ (by rwa [hnat]))
      rw [hsome, hk]
      simp only [hpr]
      refine ⟨h.mark hget hne (by decide), ?_, ?_⟩
      · intro j hj
        rw [Connection.asked, List.map_append, List.mem_append] at hj
        rcases hj with hold | hnew
        · exact hconn.asked j hold
        · rw [List.map_singleton, List.mem_singleton, hsch.indexed, hnat] at hnew
          rwa [hnew]
      · simp only [hidle]
        trivial

/-- The head of an ordinary frame. -/
theorem frame_healthy (h : w.Sound torrent) (hconn : conn.Healthy torrent) {msg : PieceMsg}
    (hmsg : pieceStart torrent msg.index ≤ torrent.totalLength) :
    (w.frame torrent conn msg).1.Sound torrent ∧
      (w.frame torrent conn msg).2.Healthy torrent := by
  obtain ⟨pr, hpr, hsch⟩ := (pieceRequestCreate_spec torrent msg.index).1 hmsg
  unfold Client.frame
  split
  · rw [hpr]
    simp only
    cases hat : pieceRequestBlockAt pr msg.begin.toNat with
    | none => exact ⟨h, hconn.asked, trivial⟩
    | some br =>
      -- the slices of a scheduled block lie inside the files
      obtain ⟨j, hj, hget⟩ := List.mem_iff_getElem.mp (List.mem_of_find?_eq_some hat)
      have hblock := hsch.schedule.block j br (by rw [List.getElem?_eq_getElem hj, hget])
      exact ⟨h, hconn.asked, hblock.1.tiles.inside⟩
  · exact ⟨h, hconn.asked, trivial⟩

/-- A round of `process_piece_msg`. -/
theorem scan_healthy (htorrent : torrent.Addressable) (h : w.Sound torrent)
    (hconn : conn.Healthy torrent) (msg : PieceMsg) (i : Nat) :
    (w.scan torrent conn msg i).1.Sound torrent ∧
      (w.scan torrent conn msg i).2.Healthy torrent := by
  unfold Client.scan
  cases hcurr : conn.localRequests[i]? with
  | none => exact ⟨h, hconn.asked, trivial⟩
  | some curr =>
    have hsame := @asked_set_countBlock msg _ _ _ hcurr
    have hmem : curr.pieceIndex.toNat ∈ conn.asked :=
      List.mem_map_of_mem (List.mem_of_getElem? hcurr)
    have hasked : ∀ k ∈ (conn.localRequests.set i (countBlock msg curr)).map
        (fun r => r.pieceIndex.toNat), k < torrent.info.numPieces := by
      rw [hsame]
      exact hconn.asked
    simp only
    by_cases hmatch : curr.pieceIndex = msg.index
    · rw [if_pos hmatch]
      split
      · have hlt := hconn.asked _ hmem
        obtain ⟨pr, hpr, -⟩ := (pieceRequestCreate_spec torrent curr.pieceIndex).1
          (htorrent.inside _ hlt)
        rw [countBlock_pieceIndex, if_pos hlt, hpr]
        refine ⟨h, hasked, ?_⟩
        show msg.index.toNat ∈ Connection.asked _
        rw [Connection.asked, hsame, ← hmatch]
        exact hmem
      · exact ⟨h, hasked, trivial⟩
    · rw [if_neg hmatch]
      exact ⟨h, hconn.asked, trivial⟩

/-- The outcome of a check is recorded; a failed one of a missing piece. -/
theorem record_healthy (h : w.Sound torrent) (hconn : conn.Healthy torrent) {msg : PieceMsg}
    {i : Nat} {valid : Bool} (hpc : conn.pc = .checked msg i valid)
    (hfail : valid = false → w.sh.pieceStates[msg.index.toNat]? ≠ some .stateHave) :
    (w.record torrent conn msg i valid).1.Sound torrent ∧
      (w.record torrent conn msg i valid).2.Healthy torrent := by
  have hlt : msg.index.toNat < torrent.info.numPieces := by
    apply hconn.asked
    have hplace := hconn.place
    rwa [hpc] at hplace
  unfold Client.record
  cases valid with
  | false =>
    have hget := List.getElem?_eq_getElem (l := w.sh.pieceStates) (i := msg.index.toNat)
      (by rwa [h.shared.length])
    refine ⟨h.mark hget (fun heq => hfail rfl (by rw [hget, heq])) (by decide), hconn.asked,
      trivial⟩
  | true =>
    rw [if_pos rfl]
    rcases completionSection_cases h.shared hlt with ⟨-, hsec⟩ | ⟨state, hget, hne, hsec⟩
    · rw [hsec]
      exact ⟨h, hconn.asked, trivial⟩
    · rw [hsec]
      refine ⟨⟨h.running, h.shared.complete hget hne _, fun hzero => ?_, h.sized⟩, hconn.asked,
        trivial⟩
      have hset := missing_set .stateHave hget
      have hcount := h.shared.count
      simp only [hne, if_false, if_true] at hset hzero
      have hone : w.sh.piecesLeft = 1 := by omega
      simp [hone]

/-- **One step of a connection.** -/
theorem connStep_healthy (htorrent : torrent.Addressable) (h : w.Sound torrent)
    (hconn : conn.Healthy torrent) {c : Nat} {a : ConnAction} (hget : w.conns[c]? = some conn)
    (hord : Ordinary torrent w (.conn c a))
    (hstep : w.connStep sha1 torrent conn a = some (w', conn')) :
    w'.Sound torrent ∧ conn'.Healthy torrent := by
  have hplace := hconn.place
  unfold Client.connStep at hstep
  split at hstep
  case h_1 bf hpc =>
    have hok := sendRequests_healthy htorrent h hconn hpc bf
    rwa [Option.some.inj hstep] at hok
  case h_2 msg hpc =>
    have hok := frame_healthy h hconn hord
    rwa [Option.some.inj hstep] at hok
  case h_3 msg mem mems bytes hpc =>
    split at hstep
    · rename_i hfits
      cases hstep
      rw [hpc] at hplace
      have hin : mem.Inside torrent.fileSizes := hplace mem List.mem_cons_self
      refine ⟨⟨h.running, h.shared, h.completed, writeSeg_sized h.sized hin hfits.1⟩,
        hconn.asked, ?_⟩
      intro seg hseg
      unfold advanceMems at hseg
      split at hseg
      · exact hplace seg (List.mem_cons_of_mem _ hseg)
      · rcases List.mem_cons.mp hseg with rfl | hseg
        · obtain ⟨n, hn, hle⟩ := hin
          exact ⟨n, hn, by simp only; omega⟩
        · exact hplace seg (List.mem_cons_of_mem _ hseg)
    · cases hstep
  case h_4 => cases hstep; exact ⟨h, hconn.asked, trivial⟩
  case h_5 => cases hstep; exact ⟨h, hconn.asked, trivial⟩
  case h_6 msg i hpc =>
    have hok := scan_healthy htorrent h hconn msg i
    rwa [Option.some.inj hstep] at hok
  case h_7 msg i fed mem mems hpc =>
    cases hstep
    rw [hpc] at hplace
    exact ⟨h, hconn.asked, hplace⟩
  case h_8 msg i fed hpc =>
    cases hstep
    rw [hpc] at hplace
    exact ⟨⟨h.running, h.shared, h.completed, h.sized⟩, hconn.asked, hplace⟩
  case h_9 msg i valid hpc =>
    have hok := record_healthy h hconn hpc (by rintro rfl; exact hord conn msg i hget hpc)
    rwa [Option.some.inj hstep] at hok
  case h_10 msg i completed hpc =>
    cases hstep
    refine ⟨?_, hconn.asked, trivial⟩
    cases completed with
    | false => exact ⟨h.running, h.shared, h.completed, h.sized⟩
    | true => exact ⟨h.running, h.shared.seeding, fun _ => rfl, h.sized⟩
  case h_11 => cases hstep

/-- **One step of the client.** -/
theorem Client.Healthy.step (htorrent : torrent.Addressable) (h : w.Healthy torrent)
    {a : ClientAction} (hord : Ordinary torrent w a) (hstep : w.step sha1 torrent a = some w') :
    w'.Healthy torrent := by
  unfold Client.step at hstep
  split at hstep
  · cases hstep
  cases a with
  | connect =>
    cases hstep
    refine ⟨⟨h.sound.running, h.sound.shared, h.sound.completed, h.sound.sized⟩, ?_⟩
    intro conn hconn
    rcases List.mem_append.mp hconn with hold | hnew
    · exact h.conns conn hold
    · rw [List.mem_singleton.mp hnew]
      exact ⟨fun _ hk => absurd hk List.not_mem_nil, trivial⟩
  | conn c a =>
    obtain ⟨conn, hget, hmap⟩ := Option.bind_eq_some_iff.mp hstep
    obtain ⟨⟨w₁, conn'⟩, hconnStep, rfl⟩ := Option.map_eq_some_iff.mp hmap
    obtain ⟨hsound, hhealthy⟩ := connStep_healthy htorrent h.sound
      (h.conns conn (List.mem_of_getElem? hget)) hget hord hconnStep
    refine ⟨⟨hsound.running, hsound.shared, hsound.completed, hsound.sized⟩, ?_⟩
    intro other hother
    rcases List.mem_or_eq_of_mem_set hother with hold | rfl
    · rw [connStep_conns hconnStep] at hold
      exact h.conns other hold
    · exact hhealthy

end Steps

/-- **An ordinary run keeps the client in order.** -/
theorem Client.run_healthy {sha1 : List UInt8 → List UInt8} {torrent : Metainfo} {disk : Disk}
    {as : List ClientAction} {w : Client} (htorrent : torrent.Addressable)
    (hsized : Sized disk torrent.fileSizes)
    (hrun : Run (Client.step sha1 torrent) (Ordinary torrent) (Client.init torrent disk) as w) :
    w.Healthy torrent := by
  refine hrun.invariant ⟨⟨rfl, ?_, ?_, hsized⟩, fun conn hconn => absurd hconn List.not_mem_nil⟩
    fun _ _ _ h hord hstep => h.step htorrent hord hstep
  · exact sharedInit_consistent (Nat.lt_of_le_of_lt htorrent.pieces (by decide))
  · intro hzero
    have hpos := htorrent.pos
    simp only [Client.init, sharedInit, missing_replicate] at hzero
    omega

end BtClient

import BtClient.Connection.Client
import BtClient.Connection.Selection
import BtClient.PieceRequest.Cover

/-!
# Verified data on disk

The receive path stores a block before anything looks at it, so the bytes of a
finished piece are safe only as long as nobody sends a block for it. The guard
`StoresAside` names the condition: a chunk is stored where no piece lies that
is `HAVE`, or that some connection is hashing, or has hashed and not yet
recorded. Under it every `HAVE` piece keeps the bytes that were hashed.
-/

namespace BtClient

open CLib

/-- The slices of the files that hold a piece. -/
def pieceMems (torrent : Metainfo) (i : UInt32) : List FileMem :=
  match pieceRequestCreate torrent i with
  | .ok pr => requestMems pr
  | .error _ => []

/-- The bytes of a piece on disk. -/
def pieceBytes (torrent : Metainfo) (disk : Disk) (i : UInt32) : List UInt8 :=
  (pieceMems torrent i).flatMap (readSeg disk)

/-- They are what `torrent_sha1_verify` hashes. -/
theorem pieceBytes_eq_feed {torrent : Metainfo} {disk : Disk} {i : UInt32} {bytes : List UInt8}
    (h : sha1Feed torrent disk i = .ok bytes) : pieceBytes torrent disk i = bytes := by
  obtain ⟨_, -, h⟩ := (seq_returns_iff _ _ _).mp h
  obtain ⟨pr, hpr, h⟩ := (seq_returns_iff _ _ _).mp h
  cases h
  simp only [pieceBytes, pieceMems, hpr, requestMems]
  rw [List.flatMap_assoc]

/-- The connection is hashing piece `i`, or has found it valid and not recorded
that yet. -/
def ConnPc.Verifying (i : UInt32) : ConnPc → Prop
  | .hashing msg _ _ _ => msg.index = i
  | .checked msg _ true => msg.index = i
  | _ => False

/-- The pieces whose bytes count. -/
def Client.Protected (w : Client) (i : UInt32) : Prop :=
  w.sh.pieceStates[i.toNat]? = some .stateHave ∨ ∃ conn ∈ w.conns, conn.pc.Verifying i

/-- A store goes to no byte of a protected piece. -/
def StoresAside (torrent : Metainfo) (w : Client) : ClientAction → Prop
  | .conn c (.store bytes) =>
    ∀ conn msg mem mems, w.conns[c]? = some conn → conn.pc = .receiving msg (mem :: mems) →
      ∀ i, w.Protected i → ∀ seg ∈ pieceMems torrent i, mem.Apart bytes.length seg
  | _ => True

/-! ## The invariant -/

/-- What the local variables of a connection say about the disk. -/
def ConnOk (torrent : Metainfo) (disk : Disk) (verified : List (UInt32 × List UInt8)) :
    ConnPc → Prop
  | .receiving _ mems => ∀ mem ∈ mems, mem.Inside torrent.fileSizes
  | .hashing msg _ fed mems =>
    ∃ done, pieceMems torrent msg.index = done ++ mems ∧ fed = done.flatMap (readSeg disk)
  | .checked msg _ true => (msg.index, pieceBytes torrent disk msg.index) ∈ verified
  | _ => True

/-- The run invariant: a `HAVE` piece has on disk what was hashed for it. -/
structure Client.Inv (sha1 : List UInt8 → List UInt8) (torrent : Metainfo) (w : Client) :
    Prop where
  sized : Sized w.disk torrent.fileSizes
  pieces : ∀ k : Nat, w.sh.pieceStates[k]? = some .stateHave →
    ∃ i : UInt32, i.toNat = k ∧ (i, pieceBytes torrent w.disk i) ∈ w.verified
  conns : ∀ conn ∈ w.conns, ConnOk torrent w.disk w.verified conn.pc
  hashes : ∀ x ∈ w.verified, torrent.info.pieces.getD x.1.toNat [] = sha1 x.2

section Steps

variable {sha1 : List UInt8 → List UInt8} {torrent : Metainfo} {w w' : Client}

theorem Client.init_inv {disk : Disk} (hsized : Sized disk torrent.fileSizes) :
    (Client.init torrent disk).Inv sha1 torrent := by
  refine ⟨hsized, ?_, by simp [Client.init], by simp [Client.init]⟩
  intro k hk
  simp only [Client.init, sharedInit, List.getElem?_replicate] at hk
  split at hk <;> cases hk

theorem ConnOk.mono {disk : Disk} {verified verified' : List (UInt32 × List UInt8)} {pc : ConnPc}
    (h : ConnOk torrent disk verified pc) (hsub : ∀ x ∈ verified, x ∈ verified') :
    ConnOk torrent disk verified' pc := by
  match pc, h with
  | .idle, _ => trivial
  | .receiving _ _, h => exact h
  | .scanning _ _, _ => trivial
  | .hashing _ _ _ _, h => exact h
  | .checked _ _ true, h => exact hsub _ h
  | .checked _ _ false, _ => trivial
  | .finishing _ _ _, _ => trivial
  | .closed, _ => trivial

/-- What a step of a connection may do, a store apart. -/
structure StepOk (sha1 : List UInt8 → List UInt8) (torrent : Metainfo) (w w' : Client)
    (pc : ConnPc) : Prop where
  conns : w'.conns = w.conns
  disk : w'.disk = w.disk
  grows : ∀ x ∈ w.verified, x ∈ w'.verified
  hashes : ∀ x ∈ w'.verified, torrent.info.pieces.getD x.1.toNat [] = sha1 x.2
  pieces : ∀ k : Nat, w'.sh.pieceStates[k]? = some .stateHave →
    w.sh.pieceStates[k]? = some .stateHave ∨
      ∃ i : UInt32, i.toNat = k ∧ (i, pieceBytes torrent w.disk i) ∈ w.verified
  conn : ConnOk torrent w.disk w'.verified pc

/-- A step that leaves the client alone. -/
theorem StepOk.of_pc (h : w.Inv sha1 torrent) {pc : ConnPc}
    (hpc : ConnOk torrent w.disk w.verified pc) : StepOk sha1 torrent w w pc :=
  ⟨rfl, rfl, fun _ hx => hx, h.hashes, fun _ hk => .inl hk, hpc⟩

/-- A step that only changes the shared state, and makes nothing `HAVE`. -/
theorem StepOk.of_sh (h : w.Inv sha1 torrent) {sh : Shared} {pc : ConnPc} {flag : Bool}
    (hsh : ∀ k : Nat, sh.pieceStates[k]? = some .stateHave →
      w.sh.pieceStates[k]? = some .stateHave)
    (hpc : ConnOk torrent w.disk w.verified pc) :
    StepOk sha1 torrent w { w with sh := sh, aborted := flag } pc :=
  ⟨rfl, rfl, fun _ hx => hx, h.hashes, fun k hk => .inl (hsh k hk), hpc⟩

/-- `send_requests`. -/
theorem sendRequests_ok (h : w.Inv sha1 torrent) {conn : Connection} (bf : List UInt8)
    (hconn : ConnOk torrent w.disk w.verified conn.pc) :
    StepOk sha1 torrent w (w.sendRequests torrent conn bf).1 (w.sendRequests torrent conn bf).2.pc
      := by
  unfold Client.sendRequests
  split
  · exact .of_pc h hconn
  · rcases torrentNextRequest_cases w.sh bf with hnone | ⟨k, state, -, -, -, hsome⟩
    · rw [hnone]
      exact .of_pc h hconn
    · rw [hsome]
      have hset : ∀ j : Nat, (w.sh.pieceStates.set (k % 2 ^ 32) .stateRequested)[j]?
          = some .stateHave → w.sh.pieceStates[j]? = some .stateHave :=
        fun j hj => have_of_set (by decide) hj
      simp only
      split
      · exact .of_sh h hset hconn
      · exact .of_sh h hset hconn

/-- The head of a frame. -/
theorem frame_ok (h : w.Inv sha1 torrent) {conn : Connection} (msg : PieceMsg)
    (hconn : ConnOk torrent w.disk w.verified conn.pc) :
    StepOk sha1 torrent w (w.frame torrent conn msg).1 (w.frame torrent conn msg).2.pc := by
  unfold Client.frame
  split
  · cases hpr : pieceRequestCreate torrent msg.index with
    | error e => exact .of_sh h (fun _ hk => hk) hconn
    | ok pr =>
      simp only
      cases hat : pieceRequestBlockAt pr msg.begin.toNat with
      | none => exact .of_pc h trivial
      | some br =>
        -- the slices of a scheduled block lie inside the files
        refine .of_pc h ?_
        obtain ⟨k, hk, hget⟩ := List.mem_iff_getElem.mp (List.mem_of_find?_eq_some hat)
        have hblock := (scheduled_of_create hpr).schedule.block k br
          (by rw [List.getElem?_eq_getElem hk, hget])
        exact hblock.1.tiles.inside
  · exact .of_pc h trivial

/-- A round of `process_piece_msg`. -/
theorem scan_ok (h : w.Inv sha1 torrent) {conn : Connection} (msg : PieceMsg) (i : Nat)
    (hconn : ConnOk torrent w.disk w.verified conn.pc) :
    StepOk sha1 torrent w (w.scan torrent conn msg i).1 (w.scan torrent conn msg i).2.pc := by
  unfold Client.scan
  cases hcurr : conn.localRequests[i]? with
  | none => exact .of_pc h trivial
  | some curr =>
    simp only
    by_cases hmatch : curr.pieceIndex = msg.index
    · rw [if_pos hmatch]
      split
      · split
        · cases hpr : pieceRequestCreate torrent (countBlock msg curr).pieceIndex with
          | error e => exact .of_sh h (fun _ hk => hk) hconn
          | ok pr =>
            rw [countBlock_pieceIndex, hmatch] at hpr
            exact .of_pc h ⟨[], by simp [pieceMems, hpr], rfl⟩
        · exact .of_sh h (fun _ hk => hk) hconn
      · exact .of_pc h trivial
    · rw [if_neg hmatch]
      exact .of_pc h trivial

/-- The outcome of a verification is recorded. -/
theorem record_ok (h : w.Inv sha1 torrent) {conn : Connection} {msg : PieceMsg} {i : Nat}
    {valid : Bool} (hpc : conn.pc = .checked msg i valid)
    (hconn : ConnOk torrent w.disk w.verified conn.pc) :
    StepOk sha1 torrent w (w.record torrent conn msg i valid).1
      (w.record torrent conn msg i valid).2.pc := by
  unfold Client.record
  cases valid with
  | false => exact .of_sh h (fun k hk => have_of_set (by decide) hk) trivial
  | true =>
    rw [if_pos rfl]
    cases hsec : completionSection torrent.info.numPieces w.sh msg.index.toNat with
    | error e => exact .of_sh h (fun _ hk => hk) hconn
    | ok r =>
      obtain ⟨sh, completed⟩ := r
      rw [hpc] at hconn
      refine ⟨rfl, rfl, fun _ hx => hx, h.hashes, ?_, trivial⟩
      intro k hk
      rcases completionSection_have hsec hk with hold | hnew
      · exact .inl hold
      · exact .inr ⟨msg.index, hnew.symm, hconn⟩

/-- **One step of a connection**, a store apart. The split follows the places
of a connection; the pairs not listed are not enabled. -/
theorem connStep_ok (h : w.Inv sha1 torrent) {conn : Connection} {conn' : Connection}
    {a : ConnAction} (hconn : ConnOk torrent w.disk w.verified conn.pc)
    (ha : ∀ bytes, a ≠ .store bytes)
    (hstep : w.connStep sha1 torrent conn a = some (w', conn')) :
    StepOk sha1 torrent w w' conn'.pc := by
  unfold Client.connStep at hstep
  split at hstep
  case h_1 bf hpc =>
    have hok := sendRequests_ok h bf hconn
    rwa [Option.some.inj hstep] at hok
  case h_2 msg hpc =>
    have hok := frame_ok h msg hconn
    rwa [Option.some.inj hstep] at hok
  case h_3 bytes hpc => exact absurd rfl (ha bytes)
  case h_4 => cases hstep; exact .of_pc h trivial
  case h_5 => cases hstep; exact .of_pc h trivial
  case h_6 msg i hpc =>
    have hok := scan_ok h msg i hconn
    rwa [Option.some.inj hstep] at hok
  -- one more slice is fed to the hash
  case h_7 msg i fed mem mems hpc =>
    cases hstep
    rw [hpc] at hconn
    obtain ⟨done, hmems, rfl⟩ := hconn
    exact .of_pc h ⟨done ++ [mem], by rw [hmems]; simp, by simp⟩
  -- all slices are fed: what was hashed is the piece as it is on disk now
  case h_8 msg i fed hpc =>
    rw [hpc] at hconn
    obtain ⟨done, hmems, rfl⟩ := hconn
    rw [List.append_nil] at hmems
    have hfed : done.flatMap (readSeg w.disk) = pieceBytes torrent w.disk msg.index := by
      rw [pieceBytes, hmems]
    rw [hfed] at hstep
    by_cases hvalid : (torrent.info.pieces.getD msg.index.toNat []
        == sha1 (pieceBytes torrent w.disk msg.index)) = true
    · -- the log grows by the bytes that are on disk now
      simp only [hvalid, if_true, Option.some.injEq, Prod.mk.injEq] at hstep
      obtain ⟨rfl, rfl⟩ := hstep
      refine ⟨rfl, rfl, fun x hx => List.mem_append_left _ hx, ?_, fun k hk => .inl hk, ?_⟩
      · intro x hx
        rcases List.mem_append.mp hx with hx | hx
        · exact h.hashes x hx
        · rw [List.mem_singleton] at hx
          subst hx
          exact beq_iff_eq.mp hvalid
      · exact List.mem_append_right _ (List.mem_singleton.mpr rfl)
    · simp only [hvalid, Bool.false_eq_true, if_false, Option.some.injEq, Prod.mk.injEq] at hstep
      obtain ⟨rfl, rfl⟩ := hstep
      exact .of_pc h trivial
  case h_9 msg i valid hpc =>
    have hok := record_ok h hpc hconn
    rwa [Option.some.inj hstep] at hok
  case h_10 msg i completed hpc =>
    cases hstep
    refine ⟨rfl, rfl, fun _ hx => hx, h.hashes, fun k hk => .inl ?_, trivial⟩
    cases completed <;> exact hk
  case h_11 => cases hstep

/-- From the step of a connection to the client. -/
theorem Client.Inv.of_stepOk (h : w.Inv sha1 torrent) {c : Nat} {conn' : Connection}
    (hok : StepOk sha1 torrent w w' conn'.pc) :
    ({ w' with conns := w'.conns.set c conn' } : Client).Inv sha1 torrent := by
  refine ⟨by rw [hok.disk]; exact h.sized, ?_, ?_, hok.hashes⟩
  · intro k hk
    simp only
    rw [hok.disk]
    rcases hok.pieces k hk with hold | ⟨i, hi, hmem⟩
    · obtain ⟨i, hi, hmem⟩ := h.pieces k hold
      exact ⟨i, hi, hok.grows _ hmem⟩
    · exact ⟨i, hi, hok.grows _ hmem⟩
  · intro conn hin
    simp only at hin ⊢
    rw [hok.conns] at hin
    rw [hok.disk]
    rcases List.mem_or_eq_of_mem_set hin with hold | rfl
    · exact (h.conns conn hold).mono hok.grows
    · exact hok.conn

/-! ## Stores -/

/-- A piece none of whose slices is touched keeps its bytes. -/
theorem flatMap_readSeg_congr {disk disk' : Disk} {mems : List FileMem}
    (h : ∀ seg ∈ mems, readSeg disk' seg = readSeg disk seg) :
    mems.flatMap (readSeg disk') = mems.flatMap (readSeg disk) := by
  apply List.flatMap_congr
  exact h

/-- A connection that verifies a piece whose bytes are kept. -/
theorem ConnOk.keep {disk disk' : Disk} {verified : List (UInt32 × List UInt8)} {pc : ConnPc}
    (h : ConnOk torrent disk verified pc)
    (hkeep : ∀ i, pc.Verifying i → ∀ seg ∈ pieceMems torrent i,
      readSeg disk' seg = readSeg disk seg) : ConnOk torrent disk' verified pc := by
  match pc, h, hkeep with
  | .idle, _, _ => trivial
  | .receiving _ _, h, _ => exact h
  | .scanning _ _, _, _ => trivial
  | .hashing msg i fed mems, ⟨done, hmems, hfed⟩, hkeep =>
    refine ⟨done, hmems, ?_⟩
    rw [hfed]
    symm
    apply flatMap_readSeg_congr
    intro seg hseg
    exact hkeep msg.index rfl seg (by rw [hmems]; exact List.mem_append_left _ hseg)
  | .checked msg i true, h, hkeep =>
    show (msg.index, pieceBytes torrent disk' msg.index) ∈ verified
    rw [pieceBytes, flatMap_readSeg_congr (hkeep msg.index rfl)]
    exact h
  | .checked _ _ false, _, _ => trivial
  | .finishing _ _ _, _, _ => trivial
  | .closed, _, _ => trivial

/-- What a store does, and that it was enabled. -/
theorem step_store {c : Nat} {bytes : List UInt8}
    (hstep : w.step sha1 torrent (.conn c (.store bytes)) = some w') :
    ∃ conn msg mem mems, w.conns[c]? = some conn ∧ conn.pc = .receiving msg (mem :: mems) ∧
      bytes.length ≤ mem.size ∧
      w' = { w with
        disk := writeSeg w.disk mem bytes
        conns := w.conns.set c
          { conn with pc := .receiving msg (advanceMems mem mems bytes.length) } } := by
  unfold Client.step at hstep
  split at hstep
  · cases hstep
  · obtain ⟨conn, hconn, hstep⟩ := Option.bind_eq_some_iff.mp hstep
    obtain ⟨⟨w₁, conn'⟩, hs, rfl⟩ := Option.map_eq_some_iff.mp hstep
    unfold Client.connStep at hs
    -- a store is enabled in one place only
    split at hs <;> try contradiction
    rename_i msg mem mems bytes' hpc ha
    cases ha
    split at hs
    · rename_i hlen
      cases hs
      exact ⟨conn, msg, mem, mems, hconn, hpc, hlen.1, rfl⟩
    · cases hs

/-- A store aside keeps the bytes of every protected piece. -/
theorem store_keeps (h : w.Inv sha1 torrent) {c : Nat} {bytes : List UInt8}
    (hguard : StoresAside torrent w (.conn c (.store bytes)))
    (hstep : w.step sha1 torrent (.conn c (.store bytes)) = some w') {i : UInt32}
    (hi : w.Protected i) :
    ∀ seg ∈ pieceMems torrent i, readSeg w'.disk seg = readSeg w.disk seg := by
  obtain ⟨conn, msg, mem, mems, hconn, hpc, hlen, rfl⟩ := step_store hstep
  have hok := h.conns conn (List.mem_of_getElem? hconn)
  rw [hpc] at hok
  intro seg hseg
  exact readSeg_writeSeg_apart h.sized (hok mem (by simp)) hlen
    (hguard conn msg mem mems hconn hpc i hi seg hseg)

theorem Client.Inv.store (h : w.Inv sha1 torrent) {c : Nat} {bytes : List UInt8}
    (hguard : StoresAside torrent w (.conn c (.store bytes)))
    (hstep : w.step sha1 torrent (.conn c (.store bytes)) = some w') : w'.Inv sha1 torrent := by
  have hkeep := fun i hi => store_keeps h hguard hstep (i := i) hi
  obtain ⟨conn, msg, mem, mems, hconn, hpc, hlen, rfl⟩ := step_store hstep
  have hok := h.conns conn (List.mem_of_getElem? hconn)
  rw [hpc] at hok
  refine ⟨writeSeg_sized h.sized (hok mem (by simp)) hlen, ?_, ?_, h.hashes⟩
  · -- a `HAVE` piece is protected, so its bytes are the ones that were hashed
    intro k hk
    obtain ⟨i, hi, hmem⟩ := h.pieces k hk
    refine ⟨i, hi, ?_⟩
    rw [pieceBytes, flatMap_readSeg_congr (hkeep i (.inl (by rw [hi]; exact hk)))]
    exact hmem
  · intro conn' hin
    rcases List.mem_or_eq_of_mem_set hin with hold | rfl
    · exact (h.conns conn' hold).keep (fun i hv => hkeep i (.inr ⟨conn', hold, hv⟩))
    · -- what is left of the slices still lies inside the files
      show ∀ m ∈ advanceMems mem mems bytes.length, m.Inside torrent.fileSizes
      intro m hm
      unfold advanceMems at hm
      split at hm
      · exact hok m (List.mem_cons_of_mem _ hm)
      · rcases List.mem_cons.mp hm with rfl | hm
        · obtain ⟨n, hn, hle⟩ := hok mem (by simp)
          exact ⟨n, hn, by simp only; omega⟩
        · exact hok m (List.mem_cons_of_mem _ hm)

/-! ## Runs -/

/-- **Every step keeps the invariant**, a store if it goes aside. -/
theorem Client.Inv.step (h : w.Inv sha1 torrent) {a : ClientAction}
    (hguard : StoresAside torrent w a) (hstep : w.step sha1 torrent a = some w') :
    w'.Inv sha1 torrent := by
  by_cases hstore : ∃ c bytes, a = .conn c (.store bytes)
  · obtain ⟨c, bytes, rfl⟩ := hstore
    exact h.store hguard hstep
  · unfold Client.step at hstep
    split at hstep
    · cases hstep
    cases a with
    | connect =>
      cases hstep
      refine ⟨h.sized, h.pieces, ?_, h.hashes⟩
      intro conn hin
      rcases List.mem_append.mp hin with hin | hin
      · exact h.conns conn hin
      · rw [List.mem_singleton] at hin
        subst hin
        trivial
    | conn c a =>
      obtain ⟨conn, hconn, hstep⟩ := Option.bind_eq_some_iff.mp hstep
      obtain ⟨⟨w₁, conn'⟩, hs, rfl⟩ := Option.map_eq_some_iff.mp hstep
      have hok := connStep_ok h (h.conns conn (List.mem_of_getElem? hconn))
        (fun bytes ha => hstore ⟨c, bytes, by rw [ha]⟩) hs
      exact h.of_stepOk hok

end Steps

/-- **Verified data is kept.** In every run whose stores all go aside, a piece
that is `HAVE` has on disk bytes that passed `torrent_sha1_verify` for it, and
no store changes a byte of a `HAVE` piece. -/
theorem verified_data_kept (sha1 : List UInt8 → List UInt8) (torrent : Metainfo) (disk : Disk)
    (hsized : Sized disk torrent.fileSizes) (as : List ClientAction) (w : Client)
    (hrun : Run (Client.step sha1 torrent) (StoresAside torrent) (Client.init torrent disk) as w) :
    (∀ k : Nat, w.sh.pieceStates[k]? = some .stateHave →
      ∃ i : UInt32, i.toNat = k ∧ (i, pieceBytes torrent w.disk i) ∈ w.verified ∧
        torrent.info.pieces.getD k [] = sha1 (pieceBytes torrent w.disk i)) ∧
    ∀ c bytes w', StoresAside torrent w (.conn c (.store bytes)) →
      w.step sha1 torrent (.conn c (.store bytes)) = some w' →
      ∀ i : UInt32, w.sh.pieceStates[i.toNat]? = some .stateHave →
        pieceBytes torrent w'.disk i = pieceBytes torrent w.disk i := by
  have hinv : w.Inv sha1 torrent := by
    refine hrun.invariant (Client.init_inv hsized) ?_
    intro t a u ht hg hs
    exact ht.step hg hs
  constructor
  · intro k hk
    obtain ⟨i, hi, hmem⟩ := hinv.pieces k hk
    have hhash := hinv.hashes _ hmem
    rw [hi] at hhash
    exact ⟨i, hi, hmem, hhash⟩
  · intro c bytes w' hguard hstep i hi
    exact flatMap_readSeg_congr (store_keeps hinv hguard hstep (.inl hi))

/-! ## A small torrent -/

/-- One piece of ten bytes; its hash is that of the bytes `1, …, 10`. -/
def tenByteTorrent : Metainfo where
  announce := none
  announceList := []
  info := ⟨.infoSingle, 16384, [], 1, [[197, 57, 30, 48, 138, 242, 91, 66, 213, 147, 77, 106, 32,
    26, 52, 232, 152, 210, 85, 198]], 10, 1, []⟩
  infoHash := []
  maxPeers := 0
  sh := sharedInit 1
  files := [⟨10, []⟩]

/-- The digest of `1, …, 10`, which is all that is hashed below. -/
def tenByteSha1 (_ : List UInt8) : List UInt8 :=
  [197, 57, 30, 48, 138, 242, 91, 66, 213, 147, 77, 106, 32, 26, 52, 232, 152, 210, 85, 198]

/-- Connection `0` downloads the piece; connection `1` only exists. -/
def downloadActions : List ClientAction :=
  [.connect, .connect, .conn 0 (.sendRequests [128]), .conn 0 (.frame ⟨0, 0, 10⟩),
    .conn 0 (.store [1, 2, 3, 4]), .conn 0 (.store [5, 6, 7, 8, 9, 10]), .conn 0 .scan,
    .conn 0 .scan, .conn 0 .hash, .conn 0 .hash, .conn 0 .record]

/-- The peer of connection `1` then sends the block, unasked and with other
bytes: it is stored over the finished piece. -/
theorem unrequested_block_overwrites :
    ∃ w w', Run (Client.step tenByteSha1 tenByteTorrent) unguarded
        (Client.init tenByteTorrent [List.replicate 10 0])
        (downloadActions ++ [.conn 1 (.frame ⟨0, 0, 10⟩)]) w ∧
      w.step tenByteSha1 tenByteTorrent (.conn 1 (.store (List.replicate 10 0))) = some w' ∧
      w.sh.pieceStates = [.stateHave] ∧ w'.sh.pieceStates = [.stateHave] ∧
      pieceBytes tenByteTorrent w.disk 0 = [1, 2, 3, 4, 5, 6, 7, 8, 9, 10] ∧
      pieceBytes tenByteTorrent w'.disk 0 = List.replicate 10 0 ∧
      ∀ bytes, (0, bytes) ∈ w'.verified → bytes ≠ pieceBytes tenByteTorrent w'.disk 0 := by
  have hexec : ((exec (Client.step tenByteSha1 tenByteTorrent) unguarded
      (Client.init tenByteTorrent [List.replicate 10 0])
      (downloadActions ++ [.conn 1 (.frame ⟨0, 0, 10⟩)])).bind fun w =>
        (w.step tenByteSha1 tenByteTorrent (.conn 1 (.store (List.replicate 10 0)))).map fun w' =>
          (w.sh.pieceStates, w'.sh.pieceStates, w.disk, w'.disk, w'.verified))
      = some ([.stateHave], [.stateHave], [[1, 2, 3, 4, 5, 6, 7, 8, 9, 10]],
        [List.replicate 10 0], [(0, [1, 2, 3, 4, 5, 6, 7, 8, 9, 10])]) := rfl
  obtain ⟨w, hw, hrest⟩ := Option.bind_eq_some_iff.mp hexec
  obtain ⟨w', hw', hobs⟩ := Option.map_eq_some_iff.mp hrest
  simp only [Prod.mk.injEq] at hobs
  obtain ⟨h1, h2, h3, h4, h5⟩ := hobs
  refine ⟨w, w', .of_exec _ hw, hw', h1, h2, by rw [h3]; decide, by rw [h4]; decide, ?_⟩
  intro bytes hmem
  rw [h5, List.mem_singleton, Prod.mk.injEq] at hmem
  rw [h4, hmem.2]
  decide

/-- The connection is not verifying a piece. -/
def ConnPc.quiet : ConnPc → Bool
  | .hashing _ _ _ _ | .checked _ _ _ => false
  | _ => true

/-- Nothing is finished or being verified when a chunk is stored. -/
def StoresEarly (w : Client) : ClientAction → Prop
  | .conn _ (.store _) =>
    (w.sh.pieceStates.all (· != .stateHave) && w.conns.all fun conn => conn.pc.quiet) = true
  | _ => True

instance (w : Client) : (a : ClientAction) → Decidable (StoresEarly w a)
  | .conn _ (.store _) => inferInstanceAs (Decidable (_ = true))
  | .connect | .conn _ (.sendRequests _) | .conn _ (.frame _) | .conn _ .disconnect
  | .conn _ .scan | .conn _ .hash | .conn _ .record | .conn _ .finish => .isTrue trivial

theorem StoresEarly.storesAside (torrent : Metainfo) {w : Client} {a : ClientAction}
    (h : StoresEarly w a) : StoresAside torrent w a := by
  match a, h with
  | .conn c (.store bytes), h =>
    obtain ⟨hhave, hquiet⟩ := Bool.and_eq_true_iff.mp h
    intro conn msg mem mems _ _ i hprot
    exfalso
    rcases hprot with hi | ⟨conn, hin, hv⟩
    · have := List.all_eq_true.mp hhave _ (List.mem_of_getElem? hi)
      simp at this
    · have hq := List.all_eq_true.mp hquiet conn hin
      revert hv hq
      cases conn.pc <;> simp [ConnPc.Verifying, ConnPc.quiet]
  | .connect, _ | .conn _ (.sendRequests _), _ | .conn _ (.frame _), _ | .conn _ .disconnect, _
  | .conn _ .scan, _ | .conn _ .hash, _ | .conn _ .record, _ | .conn _ .finish, _ => trivial

/-- The download alone: the finished piece is what was hashed. -/
theorem verified_data_kept_download :
    ∃ w, Run (Client.step tenByteSha1 tenByteTorrent) (StoresAside tenByteTorrent)
        (Client.init tenByteTorrent [List.replicate 10 0]) downloadActions w ∧
      w.sh.pieceStates[0]? = some .stateHave ∧
      ∃ i : UInt32, i.toNat = 0 ∧ (i, pieceBytes tenByteTorrent w.disk i) ∈ w.verified := by
  have hexec : (exec (Client.step tenByteSha1 tenByteTorrent) StoresEarly
      (Client.init tenByteTorrent [List.replicate 10 0]) downloadActions).map
        (fun w => w.sh.pieceStates[0]?) = some (some .stateHave) := rfl
  obtain ⟨w, hw, hobs⟩ := Option.map_eq_some_iff.mp hexec
  have hrun := (Run.of_exec _ hw).mono (fun _ _ h => h.storesAside tenByteTorrent)
  obtain ⟨i, hi, hmem, -⟩ := (verified_data_kept tenByteSha1 tenByteTorrent
    [List.replicate 10 0] rfl downloadActions w hrun).1 0 hobs
  exact ⟨w, hrun, hobs, i, hi, hmem⟩

end BtClient

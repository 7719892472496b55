import BtClient.Connection.Immutable
import Mathlib.Data.List.Perm.Basic

/-!
# One piece for each connection

`send_requests` asks for a piece only while `local_requests` is empty, and
nothing takes a request off that list again. So a connection asks for one piece
in its life. A piece becomes `HAVE` only through a connection that asked for
it, whatever the peers send and however the threads interleave: a client never
has more pieces than it has started connections.
-/

namespace BtClient

open CLib

/-- The pieces a connection has asked for. -/
def Connection.asked (conn : Connection) : List Nat :=
  conn.localRequests.map fun r => r.pieceIndex.toNat

/-- While a piece is hashed, and until the outcome is recorded, it is one the
connection asked for. -/
def ConnPc.HashesAsked (asked : List Nat) : ConnPc → Prop
  | .hashing msg _ _ _ => msg.index.toNat ∈ asked
  | .checked msg _ _ => msg.index.toNat ∈ asked
  | _ => True

/-- What holds of a connection. -/
structure Connection.AsksOnce (conn : Connection) : Prop where
  one : conn.asked.length ≤ 1
  hashes : conn.pc.HashesAsked conn.asked

/-- What holds of the client: every piece that is `HAVE` was asked for. -/
structure Client.AsksOnce (w : Client) : Prop where
  conns : ∀ conn ∈ w.conns, conn.AsksOnce
  pieces : ∀ k : Nat, w.sh.pieceStates[k]? = some .stateHave →
    ∃ conn ∈ w.conns, k ∈ conn.asked

/-! ## One step -/

/-- **What a step of a connection does to its requests**: they stay, or the
first one is made; a piece that becomes `HAVE` is among them. -/
structure AskStep (w w' : Client) (conn conn' : Connection) : Prop where
  conns : w'.conns = w.conns
  asked : conn'.asked = conn.asked ∨ conn.asked = [] ∧ conn'.asked.length = 1
  hashes : conn'.pc.HashesAsked conn'.asked
  pieces : ∀ k : Nat, w'.sh.pieceStates[k]? = some .stateHave →
    w.sh.pieceStates[k]? = some .stateHave ∨ k ∈ conn.asked

section Steps

variable {sha1 : List UInt8 → List UInt8} {torrent : Metainfo} {w w' : Client}
  {conn conn' : Connection}

theorem AskStep.of_pc {pc : ConnPc} (h : pc.HashesAsked conn.asked) :
    AskStep w w conn { conn with pc := pc } :=
  ⟨rfl, .inl rfl, h, fun _ hk => .inl hk⟩

theorem AskStep.of_sh {sh : Shared} {flag : Bool} (h : conn.pc.HashesAsked conn.asked)
    (hsh : ∀ k : Nat, sh.pieceStates[k]? = some .stateHave →
      w.sh.pieceStates[k]? = some .stateHave) :
    AskStep w { w with sh := sh, aborted := flag } conn conn :=
  ⟨rfl, .inl rfl, h, fun k hk => .inl (hsh k hk)⟩

theorem asked_set_countBlock {msg : PieceMsg} {requests : List PieceRequest} {i : Nat}
    {curr : PieceRequest} (hcurr : requests[i]? = some curr) :
    ((requests.set i (countBlock msg curr)).map fun r => r.pieceIndex.toNat) =
      requests.map fun r => r.pieceIndex.toNat := by
  obtain ⟨hi, rfl⟩ := List.getElem?_eq_some_iff.mp hcurr
  rw [List.map_set, countBlock_pieceIndex]
  apply List.ext_getElem
  · rw [List.length_set]
  · intro j hj hj'
    rw [List.getElem_set]
    split
    · subst_vars
      rw [List.getElem_map]
    · rfl

/-- `send_requests`. -/
theorem sendRequests_asks (h : conn.AsksOnce) (hidle : conn.pc = .idle) (bf : List UInt8) :
    AskStep w (w.sendRequests torrent conn bf).1 conn (w.sendRequests torrent conn bf).2 := by
  unfold Client.sendRequests
  split
  · exact ⟨rfl, .inl rfl, h.hashes, fun _ hk => .inl hk⟩
  · rename_i hnone
    have hempty : conn.localRequests = [] := List.eq_nil_of_length_eq_zero (by omega)
    rcases torrentNextRequest_cases w.sh bf with hno | ⟨k, state, -, -, -, hsome⟩
    · rw [hno]
      exact ⟨rfl, .inl rfl, h.hashes, fun _ hk => .inl hk⟩
    · rw [hsome]
      have hset : ∀ j : Nat, (w.sh.pieceStates.set (k % 2 ^ 32) .stateRequested)[j]?
          = some .stateHave → w.sh.pieceStates[j]? = some .stateHave :=
        fun j hj => have_of_set (by decide) hj
      simp only
      split
      · exact .of_sh h.hashes hset
      · have hnothing : conn.asked = [] := by rw [Connection.asked, hempty, List.map_nil]
        refine ⟨rfl, .inr ⟨hnothing, ?_⟩, ?_, fun j hj => .inl (hset j hj)⟩
        · rw [Connection.asked, hempty]
          rfl
        · show ConnPc.HashesAsked _ conn.pc
          rw [hidle]
          trivial

/-- The head of a frame. -/
theorem frame_asks (h : conn.AsksOnce) (msg : PieceMsg) :
    AskStep w (w.frame torrent conn msg).1 conn (w.frame torrent conn msg).2 := by
  unfold Client.frame
  split
  · split
    · exact .of_sh h.hashes fun _ hk => hk
    · split
      · exact .of_pc trivial
      · exact .of_pc trivial
  · exact .of_pc trivial

/-- A round of `process_piece_msg`. -/
theorem scan_asks (h : conn.AsksOnce) (msg : PieceMsg) (i : Nat) :
    AskStep w (w.scan torrent conn msg i).1 conn (w.scan torrent conn msg i).2 := by
  unfold Client.scan
  cases hcurr : conn.localRequests[i]? with
  | none => exact .of_pc trivial
  | some curr =>
    have hsame := @asked_set_countBlock msg _ _ _ hcurr
    simp only
    by_cases hmatch : curr.pieceIndex = msg.index
    · rw [if_pos hmatch]
      split
      · split
        · split
          · exact .of_sh h.hashes fun _ hk => hk
          · refine ⟨rfl, .inl hsame, ?_, fun _ hk => .inl hk⟩
            show msg.index.toNat ∈ Connection.asked _
            rw [Connection.asked, hsame, ← hmatch]
            exact List.mem_map_of_mem (List.mem_of_getElem? hcurr)
        · exact .of_sh h.hashes fun _ hk => hk
      · exact ⟨rfl, .inl hsame, trivial, fun _ hk => .inl hk⟩
    · rw [if_neg hmatch]
      exact .of_pc trivial

/-- The outcome of a verification is recorded. -/
theorem record_asks (h : conn.AsksOnce) {msg : PieceMsg} {i : Nat} {valid : Bool}
    (hpc : conn.pc = .checked msg i valid) :
    AskStep w (w.record torrent conn msg i valid).1 conn
      (w.record torrent conn msg i valid).2 := by
  have hasked : msg.index.toNat ∈ conn.asked := by
    have := h.hashes
    rwa [hpc] at this
  unfold Client.record
  cases valid with
  | false => exact ⟨rfl, .inl rfl, trivial, fun k hk => .inl (have_of_set (by decide) hk)⟩
  | true =>
    rw [if_pos rfl]
    cases hsec : completionSection torrent.info.numPieces w.sh msg.index.toNat with
    | error e => exact .of_sh h.hashes fun _ hk => hk
    | ok r =>
      obtain ⟨sh, completed⟩ := r
      refine ⟨rfl, .inl rfl, trivial, fun k hk => ?_⟩
      rcases completionSection_have hsec hk with hold | hnew
      · exact .inl hold
      · rw [hnew]
        exact .inr hasked

/-- **One step of a connection.** -/
theorem connStep_asks (h : conn.AsksOnce) {a : ConnAction}
    (hstep : w.connStep sha1 torrent conn a = some (w', conn')) : AskStep w w' conn conn' := by
  have hhashes := h.hashes
  unfold Client.connStep at hstep
  split at hstep
  case h_1 bf hpc =>
    have hok : AskStep w (w.sendRequests torrent conn bf).1 conn
      (w.sendRequests torrent conn bf).2 := sendRequests_asks h hpc bf
    rwa [Option.some.inj hstep] at hok
  case h_2 msg hpc =>
    have hok : AskStep w (w.frame torrent conn msg).1 conn (w.frame torrent conn msg).2 :=
      frame_asks h msg
    rwa [Option.some.inj hstep] at hok
  case h_3 =>
    split at hstep
    · cases hstep
      exact ⟨rfl, .inl rfl, trivial, fun _ hk => .inl hk⟩
    · cases hstep
  case h_4 => cases hstep; exact .of_pc trivial
  case h_5 => cases hstep; exact .of_pc trivial
  case h_6 msg i hpc =>
    have hok : AskStep w (w.scan torrent conn msg i).1 conn (w.scan torrent conn msg i).2 :=
      scan_asks h msg i
    rwa [Option.some.inj hstep] at hok
  -- hashing goes on with the same message
  case h_7 msg i fed mem mems hpc =>
    cases hstep
    rw [hpc] at hhashes
    exact .of_pc hhashes
  case h_8 msg i fed hpc =>
    cases hstep
    rw [hpc] at hhashes
    exact ⟨rfl, .inl rfl, hhashes, fun _ hk => .inl hk⟩
  case h_9 msg i valid hpc =>
    have hok : AskStep w (w.record torrent conn msg i valid).1 conn
      (w.record torrent conn msg i valid).2 := record_asks h hpc
    rwa [Option.some.inj hstep] at hok
  case h_10 msg i completed hpc =>
    cases hstep
    refine ⟨rfl, .inl rfl, trivial, fun k hk => .inl ?_⟩
    cases completed <;> exact hk
  case h_11 => cases hstep

theorem AskStep.asksOnce (hstep : AskStep w w' conn conn') (h : conn.AsksOnce) :
    conn'.AsksOnce := by
  refine ⟨?_, hstep.hashes⟩
  rcases hstep.asked with hsame | ⟨-, hone⟩
  · rw [hsame]
    exact h.one
  · exact hone.le

/-- A request is kept. -/
theorem AskStep.mem (hstep : AskStep w w' conn conn') {k : Nat} (hk : k ∈ conn.asked) :
    k ∈ conn'.asked := by
  rcases hstep.asked with hsame | ⟨hnone, -⟩
  · rwa [hsame]
  · rw [hnone] at hk
    cases hk

/-- **One step of the client.** -/
theorem Client.AsksOnce.step (h : w.AsksOnce) {a : ClientAction}
    (hstep : w.step sha1 torrent a = some w') : w'.AsksOnce := by
  unfold Client.step at hstep
  split at hstep
  · cases hstep
  cases a with
  | connect =>
    cases hstep
    refine ⟨?_, fun k hk => ?_⟩
    · intro conn hconn
      rcases List.mem_append.mp hconn with hold | hnew
      · exact h.conns conn hold
      · rw [List.mem_singleton.mp hnew]
        exact ⟨Nat.zero_le _, trivial⟩
    · obtain ⟨conn, hconn, hasked⟩ := h.pieces k hk
      exact ⟨conn, List.mem_append_left _ hconn, hasked⟩
  | conn c a =>
    obtain ⟨conn, hconn, hmap⟩ := Option.bind_eq_some_iff.mp hstep
    obtain ⟨⟨w₁, conn'⟩, hconnStep, hres⟩ := Option.map_eq_some_iff.mp hmap
    subst hres
    have hmem : conn ∈ w.conns := List.mem_of_getElem? hconn
    have hok := connStep_asks (h.conns conn hmem) hconnStep
    obtain ⟨hc, rfl⟩ := List.getElem?_eq_some_iff.mp hconn
    -- whoever asked for a piece still has the request
    have hkeep : ∀ other ∈ w.conns, ∀ k ∈ other.asked,
        ∃ conn ∈ w₁.conns.set c conn', k ∈ conn.asked := by
      rw [hok.conns]
      intro other hother k hk
      obtain ⟨d, hd, rfl⟩ := List.getElem_of_mem hother
      by_cases hcd : c = d
      · subst hcd
        exact ⟨conn', List.mem_set hc conn', hok.mem hk⟩
      · have hget : (w.conns.set c conn')[d]? = some w.conns[d] := by
          rw [List.getElem?_set_ne hcd, List.getElem?_eq_getElem hd]
        exact ⟨w.conns[d], List.mem_of_getElem? hget, hk⟩
    refine ⟨?_, fun k hk => ?_⟩
    · intro other hother
      rcases List.mem_or_eq_of_mem_set hother with hold | rfl
      · rw [hok.conns] at hold
        exact h.conns other hold
      · exact hok.asksOnce (h.conns _ hmem)
    · rcases hok.pieces k hk with hold | hnew
      · obtain ⟨other, hother, hasked⟩ := h.pieces k hold
        exact hkeep other hother k hasked
      · exact hkeep _ hmem k hnew

end Steps

/-! ## Whole runs -/

theorem Client.init_asksOnce (torrent : Metainfo) (disk : Disk) :
    (Client.init torrent disk).AsksOnce := by
  refine ⟨fun conn hconn => absurd hconn List.not_mem_nil, fun k hk => ?_⟩
  simp only [Client.init, sharedInit, List.getElem?_replicate] at hk
  split at hk <;> cases hk

/-- A list has no more copies of `a` than there are places given for them. -/
theorem count_le_of_places {α : Type} [DecidableEq α] {l : List α} {a : α} {places : List Nat}
    (h : ∀ k : Nat, l[k]? = some a → k ∈ places) : l.count a ≤ places.length := by
  have hnodup : ((l.zipIdx.filter fun x => x.1 == a).map Prod.snd).Nodup := by
    refine List.Nodup.sublist (List.filter_sublist.map Prod.snd) ?_
    rw [List.zipIdx_map_snd]
    exact List.nodup_range'
  have hsub : ((l.zipIdx.filter fun x => x.1 == a).map Prod.snd) ⊆ places := by
    intro k hk
    obtain ⟨⟨b, j⟩, hx, rfl⟩ := List.mem_map.mp hk
    obtain ⟨hx, hb⟩ := List.mem_filter.mp hx
    refine h j ?_
    rw [← beq_iff_eq.mp hb]
    exact List.mem_zipIdx_iff_getElem?.mp hx
  calc l.count a
      = (l.zipIdx.filter fun x => x.1 == a).length := by
        rw [← List.countP_eq_length_filter]
        conv_lhs => rw [← List.zipIdx_map_fst 0 l]
        rw [List.count, List.countP_map]
        rfl
    _ = ((l.zipIdx.filter fun x => x.1 == a).map Prod.snd).length := by rw [List.length_map]
    _ ≤ places.length := (List.subperm_of_subset hnodup hsub).length_le

/-- The connections that have asked for a piece. -/
def Connection.hasAsked (conn : Connection) : Bool := !conn.localRequests.isEmpty

theorem length_asked_le (conns : List Connection) :
    (∀ conn ∈ conns, conn.AsksOnce) →
      (conns.flatMap Connection.asked).length ≤ conns.countP Connection.hasAsked := by
  induction conns with
  | nil => intro _; exact Nat.le_refl _
  | cons conn conns ih =>
    intro h
    obtain ⟨hconn, hconns⟩ := List.forall_mem_cons.mp h
    rw [List.flatMap_cons, List.length_append, List.countP_cons]
    have hrest := ih hconns
    have hone := hconn.one
    by_cases hempty : conn.localRequests = []
    · have hnone : conn.asked = [] := by rw [Connection.asked, hempty, List.map_nil]
      rw [hnone, List.length_nil]
      omega
    · have hasked : conn.hasAsked = true := by simpa [Connection.hasAsked] using hempty
      rw [if_pos hasked]
      omega

theorem Client.AsksOnce.have_le {w : Client} (h : w.AsksOnce) :
    w.sh.pieceStates.count .stateHave ≤ w.conns.countP Connection.hasAsked := by
  refine (count_le_of_places fun k hk => ?_).trans (length_asked_le w.conns h.conns)
  obtain ⟨conn, hconn, hasked⟩ := h.pieces k hk
  exact List.mem_flatMap.mpr ⟨conn, hconn, hasked⟩

/-- A connection touches the list of the connections only in its own place. -/
theorem connStep_conns {sha1 : List UInt8 → List UInt8} {torrent : Metainfo} {w w' : Client}
    {conn conn' : Connection} {a : ConnAction}
    (hstep : w.connStep sha1 torrent conn a = some (w', conn')) : w'.conns = w.conns := by
  have hw : ∀ {r : Client × Connection}, some r = some (w', conn') → r.1.conns = w.conns →
      w'.conns = w.conns := by
    intro r hr hconns
    rwa [Option.some.inj hr] at hconns
  unfold Client.connStep at hstep
  split at hstep
  case h_1 bf _ =>
    refine hw hstep ?_
    unfold Client.sendRequests
    split
    · rfl
    · split
      · rfl
      · split <;> rfl
  case h_2 msg _ =>
    refine hw hstep ?_
    unfold Client.frame
    split
    · split
      · rfl
      · split <;> rfl
    · rfl
  case h_3 =>
    split at hstep
    · exact hw hstep rfl
    · cases hstep
  case h_6 msg i _ =>
    refine hw hstep ?_
    unfold Client.scan
    split
    · rfl
    · simp only
      split
      · split
        · split
          · split <;> rfl
          · rfl
        · rfl
      · rfl
  case h_9 msg i valid _ =>
    refine hw hstep ?_
    unfold Client.record
    split
    · split <;> rfl
    · rfl
  case h_11 => cases hstep
  all_goals exact hw hstep rfl

/-- The connections started in a run are those of its actions. -/
theorem length_conns {sha1 : List UInt8 → List UInt8} {torrent : Metainfo}
    {as : List ClientAction} {w w' : Client}
    (hrun : Run (Client.step sha1 torrent) unguarded w as w') :
    w'.conns.length = w.conns.length + as.count .connect := by
  induction hrun with
  | nil => rfl
  | @snoc as w₁ w₂ a _ _ hstep ih =>
    rw [List.count_append, ← Nat.add_assoc, ← ih]
    unfold Client.step at hstep
    split at hstep
    · cases hstep
    cases a with
    | connect =>
      cases hstep
      rw [List.length_append]
      rfl
    | conn c a =>
      obtain ⟨conn, hconn, hmap⟩ := Option.bind_eq_some_iff.mp hstep
      obtain ⟨⟨w₃, conn'⟩, hconnStep, rfl⟩ := Option.map_eq_some_iff.mp hmap
      rw [List.length_set, connStep_conns hconnStep]
      rfl

/-- **No more pieces than connections.** In every state of every run of the
client, however its connections interleave and whatever their peers send: each
connection has asked for at most one piece, and the pieces that are `HAVE` are
no more than the connections that have asked for one, and so no more than the
connections started. -/
theorem have_le_connections {sha1 : List UInt8 → List UInt8} {torrent : Metainfo} {disk : Disk}
    {as : List ClientAction} {w : Client}
    (hrun : Run (Client.step sha1 torrent) unguarded (Client.init torrent disk) as w) :
    (∀ conn ∈ w.conns, conn.localRequests.length ≤ 1) ∧
      w.sh.pieceStates.count .stateHave ≤ w.conns.countP Connection.hasAsked ∧
      w.conns.countP Connection.hasAsked ≤ as.count .connect := by
  have hinv : w.AsksOnce := hrun.invariant (Client.init_asksOnce torrent disk)
    fun _ _ _ h _ hstep => h.step hstep
  refine ⟨fun conn hconn => ?_, hinv.have_le, ?_⟩
  · have hone := (hinv.conns conn hconn).one
    rwa [Connection.asked, List.length_map] at hone
  · have hconns := length_conns hrun
    rw [show (Client.init torrent disk).conns.length = 0 from rfl, Nat.zero_add] at hconns
    rw [← hconns]
    exact List.countP_le_length

/-- Two connections, of which one downloads the only piece. -/
theorem have_le_connections_download :
    ∃ w, Run (Client.step tenByteSha1 tenByteTorrent) unguarded
        (Client.init tenByteTorrent [List.replicate 10 0]) downloadActions w ∧
      w.sh.pieceStates.count .stateHave = 1 ∧ w.conns.countP Connection.hasAsked = 1 ∧
      w.sh.pieceStates.count .stateHave ≤ w.conns.countP Connection.hasAsked := by
  have hexec : (exec (Client.step tenByteSha1 tenByteTorrent) unguarded
      (Client.init tenByteTorrent [List.replicate 10 0]) downloadActions).map
        (fun w => (w.sh.pieceStates.count .stateHave, w.conns.countP Connection.hasAsked))
      = some (1, 1) := rfl
  obtain ⟨w, hw, hobs⟩ := Option.map_eq_some_iff.mp hexec
  obtain ⟨hhave, hasked⟩ := Prod.mk.inj hobs
  exact ⟨w, .of_exec _ hw, hhave, hasked, (have_le_connections (.of_exec _ hw)).2.1⟩

end BtClient

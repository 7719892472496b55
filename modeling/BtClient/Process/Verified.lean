import BtClient.Process.Completion

/-!
# Only verified pieces are announced

A piece becomes `HAVE` in one place only, behind a successful
`torrent_sha1_verify`. So in every run of the process, whatever the peers send
and however the threads interleave, a piece that is `HAVE` had on disk, at some
moment of the run, bytes with the digest of the metainfo.
-/

namespace BtClient

open CLib

/-- `torrent_sha1_verify` finds the piece on this disk valid. -/
def Verifies (sha1 : List UInt8 → List UInt8) (torrent : Metainfo) (disk : Disk) (k : Nat) : Prop :=
  ∃ index : UInt32, index.toNat = k ∧
    ∃ bytes, torrentSha1Verify sha1 torrent disk index = .ok (true, bytes)

/-- A call makes no piece `HAVE` that the disk does not verify. -/
def OnlyVerified (sha1 : List UInt8 → List UInt8) (torrent : Metainfo) (disk : Disk)
    (sh sh' : Shared) : Prop :=
  ∀ k : Nat, sh'.pieceStates[k]? = some .stateHave →
    sh.pieceStates[k]? = some .stateHave ∨ Verifies sha1 torrent disk k

section Sections

variable {sha1 : List UInt8 → List UInt8} {torrent : Metainfo} {disk : Disk}

theorem OnlyVerified.refl (sh : Shared) : OnlyVerified sha1 torrent disk sh sh :=
  fun _ hk => .inl hk

theorem OnlyVerified.trans {sh sh₁ sh₂ : Shared} (h : OnlyVerified sha1 torrent disk sh sh₁)
    (h' : OnlyVerified sha1 torrent disk sh₁ sh₂) : OnlyVerified sha1 torrent disk sh sh₂ := by
  intro k hk
  rcases h' k hk with hk | hverified
  · exact h k hk
  · exact .inr hverified

theorem handlePieceDlCompletion_have {sock sock' : Socket} {sh sh' : Shared} {index : UInt32}
    {events : List Event}
    (h : handlePieceDlCompletion torrent sock sh index = .ok (sock', sh', events)) {k : Nat}
    (hk : sh'.pieceStates[k]? = some .stateHave) :
    sh.pieceStates[k]? = some .stateHave ∨ k = index.toNat := by
  obtain ⟨_, -, h⟩ := (seq_returns_iff _ _ _).mp h
  obtain ⟨⟨sh₁, completed⟩, hsec, h⟩ := (seq_returns_iff _ _ _).mp h
  obtain ⟨⟨_, sock₁⟩, -, h⟩ := (seq_returns_iff _ _ _).mp h
  have hstates : sh'.pieceStates = sh₁.pieceStates := by
    cases completed <;> (cases h; rfl)
  rw [hstates] at hk
  exact completionSection_have hsec hk

theorem finishPiece_onlyVerified {sock sock' : Socket} {sh sh' : Shared} {index : UInt32}
    {events : List Event}
    (h : finishPiece sha1 torrent disk sock sh index = .ok (sock', sh', events)) :
    OnlyVerified sha1 torrent disk sh sh' := by
  obtain ⟨⟨valid, bytes⟩, hverify, h⟩ := (seq_returns_iff _ _ _).mp h
  intro k hk
  cases valid with
  | false =>
    cases h
    exact .inl (have_of_set (by decide) hk)
  | true =>
    obtain ⟨⟨sock₁, sh₁, events₁⟩, hcomp, h⟩ := (seq_returns_iff _ _ _).mp h
    cases h
    rcases handlePieceDlCompletion_have hcomp hk with hk | rfl
    · exact .inl hk
    · exact .inr ⟨index, rfl, bytes, hverify⟩

theorem processPieceMsg_onlyVerified {msg : PieceMsg} (requests : List PieceRequest) :
    ∀ {requests' : List PieceRequest} {sock sock' : Socket} {sh sh' : Shared}
      {events : List Event},
      processPieceMsg sha1 torrent disk msg requests sock sh = .ok (requests', sock', sh', events) →
      OnlyVerified sha1 torrent disk sh sh' := by
  induction requests with
  | nil =>
    intro requests' sock sock' sh sh' events h
    cases h
    exact .refl _
  | cons curr rest ih =>
    intro requests' sock sock' sh sh' events h
    rcases processPieceMsg_cons h with ⟨rest', -, -, hrest⟩ | ⟨rest', -, -, -, hrest⟩ |
      ⟨rest', sock₁, sh₁, finished, more, -, -, -, hfinish, hrest, rfl⟩
    · exact ih hrest
    · exact ih hrest
    · exact (finishPiece_onlyVerified hfinish).trans (ih hrest)

theorem processMsg_onlyVerified {realloc : RequestQueue.Realloc} {msg : PeerMsg}
    {sock sock' : Socket} {state state' : ConnState} {sh sh' : Shared} {events : List Event}
    (h : processMsg sha1 torrent realloc disk msg sock state sh =
      .ok (sock', state', sh', events)) : OnlyVerified sha1 torrent disk sh sh' := by
  by_cases hpiece : ∃ piece, msg = .piece piece
  · obtain ⟨piece, rfl⟩ := hpiece
    obtain ⟨⟨requests, sock₁, sh₁, events₁⟩, hproc, h⟩ := (seq_returns_iff _ _ _).mp h
    cases h
    exact processPieceMsg_onlyVerified _ hproc
  · obtain ⟨-, rfl, rfl⟩ := processMsg_other (fun piece heq => hpiece ⟨piece, heq⟩) h
    exact .refl _

end Sections

section Steps

variable {prog : Program} {p p' : Process}

/-- A call of the loop. -/
theorem Program.Call.onlyVerified {thread : UInt64} {t t' : PeerThread}
    (h : prog.Call p thread t (p', t')) :
    OnlyVerified prog.sha1 prog.torrent p.disk p.sh p'.sh := by
  generalize hr : (p', t') = r at h
  cases h with
  | timeouts hpc hcall =>
    cases hr
    exact .refl _
  | events hpc hcall =>
    subst hr
    obtain ⟨_, -, hcall⟩ := (seq_returns_iff _ _ _).mp hcall
    obtain ⟨_, -, hcall⟩ := (seq_returns_iff _ _ _).mp hcall
    cases hcall
    exact .refl _
  | receive hpc hcall =>
    subst hr
    obtain ⟨_, -, hcall⟩ := (seq_returns_iff _ _ _).mp hcall
    split at hcall
    · obtain ⟨_, -, hcall⟩ := (seq_returns_iff _ _ _).mp hcall
      cases hcall
      exact .refl _
    · cases hcall
      exact .refl _
  | process hpc hcall =>
    subst hr
    obtain ⟨⟨_, _, sh, events⟩, hmsg, hcall⟩ := (seq_returns_iff _ _ _).mp hcall
    obtain ⟨_, -, hcall⟩ := (seq_returns_iff _ _ _).mp hcall
    obtain ⟨p₁, hcarry, hcall⟩ := (seq_returns_iff _ _ _).mp hcall
    cases hcall
    rw [(prog.carryOut_frame events hcarry).sh]
    exact processMsg_onlyVerified hmsg
  | requests hpc hcall =>
    subst hr
    obtain ⟨_, -, hcall⟩ := (seq_returns_iff _ _ _).mp hcall
    split at hcall
    · cases hcall
      exact .refl _
    · split at hcall
      · obtain ⟨r, hsend, hcall⟩ := (seq_returns_iff _ _ _).mp hcall
        cases hcall
        intro k hk
        rcases sendRequests_shared hsend with hsh | ⟨j, hsh⟩
        · rw [hsh] at hk
          exact .inl hk
        · rw [hsh] at hk
          exact .inl (have_of_set (by decide) hk)
      · cases hcall
        exact .refl _

theorem Program.Step.onlyVerified (h : prog.Step p p') :
    OnlyVerified prog.sha1 prog.torrent p.disk p.sh p'.sh := by
  cases h with
  | faulted | announce | main | leave => exact .refl _
  | greet _ _ hgreet =>
    obtain ⟨⟨table, rfl⟩, -⟩ := greet_frame hgreet
    exact .refl _
  | call _ _ hcall => exact hcall.onlyVerified

end Steps

end BtClient

import ConsensusBft.Consensus.Reference
import ConsensusBft.Consensus.Stages

/-!
# Arithmetic on heights and rounds

What happens where the arithmetic of the engine leaves the range of `u64`.

* `E.build checks` : the engine built with overflow checks, or without.
* `externalProcess_builds` : unless the build with checks panics, both builds do the same.
* `ProposalOverflows`, `VoteOverflows` : the messages whose processing overflows.
* `noOverflow_iff` : **these are the only ones**, in every state.
* `vote_before_status_panics` : before the first status every genuine message overflows.
-/

namespace ConsensusBft

open Exec (Panics Sim Tracks)

variable {F : Type} {E : Env F} {s : State F}

/-- The engine built with overflow checks, or without. -/
def Env.build (E : Env F) (checks : Bool) : Env F := { E with overflowChecks := checks }

/-! ### The two builds -/

theorem add64_tracks {ε : Type} (a b : UInt64) :
    Tracks (add64 (ε := ε) true a b) (add64 false a b) := by
  unfold add64
  by_cases h : (true : Bool) = true ∧ 2 ^ 64 ≤ a.toNat + b.toNat
  · exact .inl (if_pos h)
  · exact .inr (by rw [if_neg h]; rfl)

theorem sub64_tracks {ε : Type} (a b : UInt64) :
    Tracks (sub64 (ε := ε) true a b) (sub64 false a b) := by
  unfold sub64
  by_cases h : (true : Bool) = true ∧ a < b
  · exact .inl (if_pos h)
  · exact .inr (by rw [if_neg h]; rfl)

theorem extract_tracks (b : Bytes) : Tracks (extract true b) (extract false b) := by
  unfold extract
  by_cases h : b.length < 8
  · rw [if_pos h, if_pos h]
    exact .refl _
  · rw [if_neg h, if_neg h]
    exact (add64_tracks _ _).bind fun _ _ => .refl _

theorem decodeBlock_tracks (b : Bytes) : Tracks (decodeBlock true b) (decodeBlock false b) :=
  (Tracks.refl _).bind fun _ _ => (extract_tracks _).bind fun _ _ => .refl _

theorem decodeProposal_tracks [Content F] (bytes : Bytes) :
    Tracks (decodeProposal (E.build true) bytes) (decodeProposal (E.build false) bytes) :=
  (extract_tracks bytes).mapErr.bind fun _ _ => (Tracks.refl _).bind fun _ _ =>
    (decodeBlock_tracks _).mapErr.bind fun _ _ => .refl _

theorem save_builds (io : ℕ → IoOutcome) (height : UInt64) (mtype : UInt8) (msg : Bytes)
    (w : WalState) :
    Sim True Eq (Wal.save io true height mtype msg) (Wal.save io false height mtype msg) w w := by
  rw [Wal.save_eq, Wal.save_eq]
  refine .bind ?_ ?_
  · exact .bind_get (.ite Iff.rfl (fun _ => .refl _ _) fun _ =>
      .bind_lift (.inr ⟨trivial, add64_tracks _ _⟩) rfl fun _ _ => .refl _ _)
  · rintro far w₁ _ - rfl
    exact .refl _ _

theorem saveJson_builds (s : State F) (height : UInt64) (tag : UInt8) (name : String)
    (json : Option Bytes) : Sim True Eq (saveJson (E.build true) height tag name json)
      (saveJson (E.build false) height tag name json) s s := by
  unfold saveJson
  cases json with
  | none => exact .refl _ _
  | some msg =>
    refine .bind (.zoomTry (save_builds _ _ _ _ _)) ?_
    rintro res s₁ _ - rfl
    exact .refl _ _

theorem checkProposer_builds (s : State F) (height round : UInt64) (address : Address) :
    Sim True Eq (checkProposer (E.build true) height round address)
      (checkProposer (E.build false) height round address) s s :=
  .bind_get (.bind_rejectIf Iff.rfl rfl fun _ =>
    .bind_lift (.inr ⟨trivial, add64_tracks _ _⟩) rfl fun _ _ => .refl _ _)

theorem addLockVote_builds (s : State F) (height round : UInt64) (hash : Hash)
    (set : Finset Address) (sv : SignedVote) :
    Sim True Eq (addLockVote (E.build true) height round hash set sv)
      (addLockVote (E.build false) height round hash set sv) s s := by
  refine .bind ?_ ?_
  · exact .bind_get (.bind_lift (.inr ⟨trivial, sub64_tracks _ _⟩) rfl fun _ _ => .refl _ _)
  · rintro sender s₁ _ - rfl
    exact .refl _ _

theorem checkLockVotes_builds (s : State F) (msg : SignedProposal) (hash : Hash) :
    Sim True Eq (checkLockVotes (E.build true) msg hash) (checkLockVotes (E.build false) msg hash)
      s s := by
  unfold checkLockVotes
  dsimp only
  cases msg.proposal.lockRound with
  | none => exact .refl _ _
  | some round =>
    refine .bind (.foldlM ?_ rfl) ?_
    · rintro set sv _ s₁ _ rfl
      exact addLockVote_builds _ _ _ _ _ _
    · rintro set s₁ _ - rfl
      exact .refl _ _

theorem judgeProposal_builds (s : State F) (msg : SignedProposal) (prev : UInt64)
    (bytes : Bytes) : Sim True Eq (judgeProposal (E.build true) msg prev bytes)
      (judgeProposal (E.build false) msg prev bytes) s s := by
  refine .bind_modify (.bind (checkProposer_builds _ _ _ _) ?_)
  rintro _ s₁ _ - rfl
  refine .bind (checkLockVotes_builds _ _ _) ?_
  rintro _ s₂ _ - rfl
  unfold answerProposal
  refine .ite Iff.rfl (fun _ => .refl _ _) fun _ => .bind (.refl _ _) ?_
  rintro resp s₃ _ - rfl
  refine .bind (.bind_get (.bind_rejectIf Iff.rfl rfl fun _ =>
    .bind_lift (.inr ⟨trivial, sub64_tracks _ _⟩) rfl fun _ _ => .refl _ _)) ?_
  rintro _ s₄ _ - rfl
  exact .refl _ _

theorem handleSignedProposal_builds (s : State F) (msg : SignedProposal) (needWal : Bool)
    (bytes : Bytes) : Sim True Eq (handleSignedProposal (E.build true) msg needWal bytes)
      (handleSignedProposal (E.build false) msg needWal bytes) s s := by
  rw [handleSignedProposal_eq, handleSignedProposal_eq]
  refine .bind (.refl _ _) ?_
  rintro address s₁ _ - rfl
  refine .bind_rejectIf Iff.rfl rfl fun _ => .bind_get (.bind_lift
    (.inr ⟨trivial, sub64_tracks _ _⟩) rfl fun prev _ => .bind_rejectIf Iff.rfl rfl fun _ =>
    .bind (.doIf Iff.rfl (fun _ => saveJson_builds _ _ _ _ _) rfl) ?_)
  rintro _ s₂ _ - rfl
  exact judgeProposal_builds _ _ _ _

theorem handleSignedVote_builds (s : State F) (msg : SignedVote) (needWal : Bool) :
    Sim True Eq (handleSignedVote (E.build true) msg needWal)
      (handleSignedVote (E.build false) msg needWal) s s := by
  rw [handleSignedVote_eq, handleSignedVote_eq]
  refine .bind (.refl _ _) ?_
  rintro address s₁ _ - rfl
  refine .bind_get (.bind_lift (.inr ⟨trivial, sub64_tracks _ _⟩) rfl fun prev _ =>
    .bind_rejectIf Iff.rfl rfl fun _ => .bind_rejectIf Iff.rfl rfl fun _ =>
    .bind (.doIf Iff.rfl (fun _ => .bind
      (.doIf Iff.rfl (fun _ => saveJson_builds _ _ _ _ _) rfl) ?_) rfl) ?_)
  · rintro _ s₂ _ - rfl
    exact .refl _ _
  · rintro _ s₂ _ - rfl
    exact .refl _ _

/-- **Unless the build with overflow checks panics, both builds do the same with a signed
message.** -/
theorem externalProcess_builds [Content F] (s : State F) {m : ConsensusInput}
    (hm : ∀ rs, m ≠ .status rs) : Sim True Eq (externalProcess (E.build true) m)
      (externalProcess (E.build false) m) s s := by
  cases m with
  | signedProposal bytes =>
    refine .bind_lift (.inr ⟨trivial, decodeProposal_tracks bytes⟩) rfl fun decoded _ =>
      .bind_modify ?_
    refine .bind_get (.ite Iff.rfl (fun _ => .bind (.doIf Iff.rfl (fun _ =>
      .bind_rejectIf Iff.rfl rfl fun _ => ?_) rfl) ?_) fun _ => ?_)
    · refine .bind (.zoomTry (save_builds _ _ _ _ _)) ?_
      rintro res s₁ _ - rfl
      exact .refl _ _
    · rintro _ s₁ _ - rfl
      exact .refl _ _
    · refine .bind (handleSignedProposal_builds _ _ _ _) ?_
      rintro _ s₁ _ - rfl
      exact .refl _ _
  | signedVote bytes =>
    refine .bind_lift (.inl rfl) rfl fun sv _ => .bind (handleSignedVote_builds _ _ _) ?_
    rintro _ s₁ _ - rfl
    exact .refl _ _
  | status rs => exact absurd rfl (hm rs)

/-! ### Where the build with checks panics -/

/-- A proposal that is handled in a state in which this overflows. -/
def HandlingOverflows (E : Env F) (s : State F) (sp : SignedProposal) : Prop :=
  let proposal := sp.proposal
  E.support.verifySignature sp.signature (E.support.hash proposal.rlpBytes) =
      .ok proposal.proposer ∧
    (s.eng.height = 0 ∨ s.eng.height - 1 ≤ proposal.height ∧
      (E.walOn = true ∧ (E.serde.signedProposal.toString sp).isSome ∧
          Wal.Full s.eng.walLog proposal.height ∨
        (E.walOn = true → ∃ msg, E.serde.signedProposal.toString sp = some msg ∧
            Logs (E.build true) s proposal.height msg) ∧
          s.eng.authority.listAt proposal.height ≠ [] ∧
          2 ^ 64 ≤ proposal.height.toNat + proposal.round.toNat))

/-- A proposal is received in a state in which its processing overflows. -/
def ProposalOverflows (E : Env F) (s : State F) (sp : SignedProposal) (bytes : Bytes) : Prop :=
  if inWindow sp.proposal.height s.eng.height then
    E.walOn = true ∧ isUtf8 bytes = true ∧ Wal.Full s.eng.walLog sp.proposal.height
  else HandlingOverflows E s sp

/-- A vote is received in a state in which its processing overflows. -/
def VoteOverflows (E : Env F) (s : State F) (sv : SignedVote) : Prop :=
  let vote := sv.vote
  ∃ address, E.support.verifySignature sv.signature (E.support.hash vote.rlpBytes) = .ok address ∧
    (s.eng.height = 0 ∨ vote.voter = address ∧ s.eng.height ≤ vote.height ∧
      (vote.height - s.eng.height).toNat < CACHE_NUMBER ∧ E.walOn = true ∧
      (E.serde.signedVote.toString sv).isSome ∧ Wal.Full s.eng.walLog vote.height)

theorem panics_bind_verifySignature {α : Type} {sig : Signature} {hash : Hash}
    {f : Address → EngineM F α} : Panics (verifySignature E sig hash >>= f) s ↔
      ∃ address, E.support.verifySignature sig hash = .ok address ∧ Panics (f address) s := by
  unfold verifySignature
  cases E.support.verifySignature sig hash with
  | ok a => simp [orErr]
  | error e => simp [orErr, Exec.panics_throw]

theorem panics_bind_sub64 {α : Type} {f : UInt64 → EngineM F α} {n : UInt64} :
    Panics (Exec.lift (sub64 true n 1) >>= f) s ↔
      n = 0 ∨ n ≠ 0 ∧ Panics (f (n - 1)) s := by
  rw [Exec.panics_bind_lift, sub64_eq_panicked]
  by_cases hn : n = 0
  · simp [hn]
  · have hlt : ¬ n < 1 := by grind
    simp [hn, hlt, sub64_height]

theorem handleSignedProposal_panics_iff (msg : SignedProposal) (bytes : Bytes) :
    Panics (handleSignedProposal (E.build true) msg true bytes) s ↔ HandlingOverflows E s msg := by
  have hjudge : s.eng.height ≠ 0 → ∀ w, Panics (judgeProposal (E.build true) msg
      (s.eng.height - 1) bytes) (s.setWal w) ↔
        s.eng.authority.listAt msg.proposal.height ≠ [] ∧ (E.build true).overflowChecks = true ∧
          2 ^ 64 ≤ msg.proposal.height.toNat + msg.proposal.round.toNat :=
    fun hs w => judgeProposal_panics_iff (s := s.setWal w) hs
  unfold HandlingOverflows
  rw [handleSignedProposal_eq, panics_bind_verifySignature]
  constructor
  · rintro ⟨address, hsig, hp⟩
    rw [Exec.panics_bind_rejectIf] at hp
    obtain ⟨hproposer, hp⟩ := hp
    obtain rfl := not_not.1 hproposer
    refine ⟨hsig, ?_⟩
    rcases panics_bind_sub64.1 hp with hzero | ⟨hne, hp⟩
    · exact .inl hzero
    · rw [Exec.panics_bind_rejectIf, UInt64.not_lt] at hp
      have h := (panics_bind_logIf (hjudge hne)).1 hp.2
      exact .inr ⟨hp.1, by simpa [Env.build] using h⟩
  · rintro ⟨hsig, h⟩
    refine ⟨_, hsig, Exec.panics_bind_rejectIf.2 ⟨by simp, panics_bind_sub64.2 ?_⟩⟩
    by_cases hzero : s.eng.height = 0
    · exact .inl hzero
    · obtain ⟨hle, h⟩ := h.resolve_left hzero
      refine .inr ⟨hzero, Exec.panics_bind_rejectIf.2 ⟨UInt64.not_lt.2 hle, ?_⟩⟩
      refine (panics_bind_logIf (hjudge hzero)).2 ?_
      simpa [Env.build] using h

theorem admitVote_calm (msg : SignedVote) : ¬ Panics (admitVote msg) s := by
  intro h
  unfold admitVote checkVoteSender at h
  rw [Exec.panics_bind_modify, bind_assoc, Exec.panics_bind_get, Exec.panics_bind_rejectIf] at h
  exact Exec.panics_pure.1 h.2

theorem handleSignedVote_panics_iff (msg : SignedVote) :
    Panics (handleSignedVote (E.build true) msg true) s ↔ VoteOverflows E s msg := by
  -- a vote of a later height is cached, any other one is admitted
  have hrest : ∀ w, Panics (Exec.doIf (s.eng.height < msg.vote.height) (do
      modify fun s : State F =>
        { s with eng.voteCache := s.eng.voteCache.pushEntry msg.vote.height msg }
      throw (.err .futureMsg)) >>= fun _ => admitVote msg) (s.setWal w) ↔ False := by
    intro w
    rw [Exec.panics_bind_doIf, bind_assoc, Exec.panics_bind_modify]
    simp [admitVote_calm, Exec.panics_throw]
  unfold VoteOverflows
  rw [handleSignedVote_eq, panics_bind_verifySignature]
  refine exists_congr fun address => and_congr_right fun _ => ?_
  rw [Exec.panics_bind_get]
  refine panics_bind_sub64.trans ?_
  by_cases hzero : s.eng.height = 0
  · simp [hzero]
  simp only [hzero, false_or, ne_eq, not_false_eq_true, true_and]
  rw [Exec.panics_bind_rejectIf, Exec.panics_bind_rejectIf, Exec.panics_bind_doIf, bind_assoc,
    panics_bind_logIf hrest]
  have hprev : s.eng.height ≤ msg.vote.height → s.eng.height - 1 ≤ msg.vote.height := by
    intro hle
    rw [UInt64.le_iff_toNat_le] at hle ⊢
    have hone : 1 ≤ s.eng.height := by grind
    rw [UInt64.toNat_sub_of_le _ _ hone]
    omega
  simp only [Env.build, Bool.and_true, Bool.and_eq_true, decide_eq_true_eq, UInt64.not_lt,
    not_not, admitVote_calm, and_false, or_false, true_and]
  tauto

variable [Content F]

/-- The arithmetic of the engine stays in range while a message is processed: the build with
overflow checks does not panic, and the one without does the same. -/
def NoOverflow (E : Env F) (m : ConsensusInput) (s : State F) : Prop :=
  ¬ Panics (externalProcess (E.build true) m) s ∧
    Exec.result (externalProcess (E.build false) m) s =
      Exec.result (externalProcess (E.build true) m) s

theorem noOverflow_iff_not_panics {m : ConsensusInput} (hm : ∀ rs, m ≠ .status rs) :
    NoOverflow E m s ↔ ¬ Panics (externalProcess (E.build true) m) s := by
  refine and_iff_left_of_imp fun hp => ?_
  obtain ⟨hout, hstate⟩ := (externalProcess_builds s hm).of_not_panics hp
  exact (Prod.ext hout hstate).symm

omit [Content F] in
theorem sendBft_calm (msg : CoreInput) (name : String) (s : State F) :
    ¬ Panics (sendBft E msg name) s := by
  intro h
  unfold sendBft at h
  rw [Exec.panics_bind_get, Exec.panics_bind_modify] at h
  exact Exec.panics_rejectIf.1 h

omit [Content F] in
theorem sendProposal_calm (p : BftProposal) (resp : Option VerifyResp) (s : State F) :
    ¬ Panics (sendProposal E p resp) s := by
  intro h
  rcases Exec.panics_bind.1 h with h | ⟨_, s₁, -, h⟩
  · exact sendBft_calm _ _ _ h
  · cases resp with
    | none => exact Exec.panics_pure.1 h
    | some r => exact sendBft_calm _ _ _ h

theorem processSignedProposal_panics_iff {bytes : Bytes} {sp : SignedProposal} {block : F}
    {hash : Hash} (hd : decodeProposal (E.build true) bytes = .ok (sp, block, hash)) :
    Panics (processSignedProposal (E.build true) bytes) s ↔ ProposalOverflows E s sp bytes := by
  unfold processSignedProposal ProposalOverflows
  rw [Exec.panics_bind_lift, hd]
  simp only [reduceCtorEq, Except.ok.injEq, exists_eq_left', false_or]
  rw [Exec.panics_bind_modify]
  unfold receiveProposal
  rw [Exec.panics_bind_get]
  by_cases hw : inWindow sp.proposal.height s.eng.height = true
  · -- a proposal of the window is logged as it came
    rw [if_pos hw, if_pos hw]
    change Panics (Exec.doIf (E.walOn = true) (Exec.rejectIf (isUtf8 bytes = false) _ >>= fun _ =>
      saveJson (E.build true) sp.proposal.height LOG_TYPE_SIGNED_PROPOSAL "SignedProposal"
        (some bytes)) >>= _) _ ↔ _
    rw [Exec.panics_bind, Exec.panics_doIf, Exec.panics_bind_rejectIf,
      (saveJson_spec _ _ _ _ _ _).1]
    simp [Env.build, Panics]
  · rw [if_neg hw, if_neg hw]
    unfold forwardProposal
    rw [Exec.panics_bind, handleSignedProposal_panics_iff]
    refine or_iff_left ?_
    rintro ⟨r, s₁, -, h⟩
    exact sendProposal_calm _ _ _ h

omit [Content F] in
theorem processSignedVote_panics_iff {bytes : Bytes} {sv : SignedVote}
    (hd : SignedVote.decode E.rlp bytes = .ok sv) :
    Panics (processSignedVote (E.build true) bytes) s ↔ VoteOverflows E s sv := by
  have hd' : SignedVote.decode (E.build true).rlp bytes = .ok sv := hd
  unfold processSignedVote
  rw [Exec.panics_bind_lift, hd']
  simp only [Exec.mapErr, reduceCtorEq, Except.ok.injEq, exists_eq_left', false_or]
  unfold forwardVote
  rw [Exec.panics_bind, handleSignedVote_panics_iff]
  refine or_iff_left ?_
  rintro ⟨v, s₁, -, h⟩
  exact sendBft_calm _ _ _ h

/-- **The arithmetic of the engine stays in range on a message from outside exactly if it is not one
of those that overflow**, in every state of the engine. -/
theorem noOverflow_iff (E : Env F) (s : State F) :
    (∀ bytes sp block hash, decodeProposal (E.build true) bytes = .ok (sp, block, hash) →
      (NoOverflow E (.signedProposal bytes) s ↔ ¬ ProposalOverflows E s sp bytes)) ∧
    ∀ bytes sv, SignedVote.decode E.rlp bytes = .ok sv →
      (NoOverflow E (.signedVote bytes) s ↔ ¬ VoteOverflows E s sv) := by
  constructor
  · intro bytes sp block hash hd
    rw [noOverflow_iff_not_panics (by simp)]
    exact not_congr (processSignedProposal_panics_iff hd)
  · intro bytes sv hd
    rw [noOverflow_iff_not_panics (by simp)]
    exact not_congr (processSignedVote_panics_iff hd)

/-- A prevote of the node `[7]` at height `1`. -/
def ownPrevote : SignedVote := Reference.signedVote .prevote 1 0 [9] [7]

theorem ownPrevote_decode :
    SignedVote.decode (Reference.env [7]).rlp ownPrevote.rlpBytes = .ok ownPrevote := by
  decide +kernel

theorem noOverflow_ready :
    ∃ p, Life (Reference.env [7]) [7] Reference.disk (Reference.readyRun [7]) p ∧
      NoOverflow (Reference.env [7]) (.signedVote ownPrevote.rlpBytes) p.state := by
  obtain ⟨p, hl, hf⟩ := Reference.exists_life (Reference.env [7]) [7] (Reference.readyRun [7])
    (fun p => decide (p.state.eng.height = 1)) (by decide +kernel)
  have hone := of_decide_eq_true hf
  refine ⟨p, hl, ((noOverflow_iff _ _).2 _ _ ownPrevote_decode).2 ?_⟩
  rintro ⟨address, -, hzero | ⟨-, -, -, hwal, -⟩⟩
  · rw [hone] at hzero
    cases hzero
  · cases hwal

/-- **Before the first status, a genuine vote makes the engine panic.** -/
theorem vote_before_status_panics :
    ∃ p, Life (Reference.env [7]) [7] Reference.disk [] p ∧
      SignedVote.decode (Reference.env [7]).rlp ownPrevote.rlpBytes = .ok ownPrevote ∧
      Panics (externalProcess (Reference.env [7]) (.signedVote ownPrevote.rlpBytes)) p.state ∧
      ¬ NoOverflow (Reference.env [7]) (.signedVote ownPrevote.rlpBytes) p.state := by
  obtain ⟨p, hl, hf⟩ := Reference.exists_life (Reference.env [7]) [7] []
    (fun p => decide (p.state.eng.height = 0)) (by decide +kernel)
  have hpanics : Panics (externalProcess (Reference.env [7]) (.signedVote ownPrevote.rlpBytes))
      p.state :=
    (processSignedVote_panics_iff (E := Reference.env [7]) ownPrevote_decode).2
      ⟨[7], rfl, .inl (of_decide_eq_true hf)⟩
  exact ⟨p, hl, ownPrevote_decode, hpanics, fun h => h.1 hpanics⟩

end ConsensusBft

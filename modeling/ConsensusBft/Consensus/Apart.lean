import ConsensusBft.Consensus.Stages

/-!
# States that differ in the log

* `Apart s t` : the states are the same but for the log and the disk; `Beside W s t` : these are
  related by `W`.
* `settleProposal`, `settleVote`, `settleCommit` : what is done with a message once it is logged.
* The lemmas `_beside` : what follows the logging does not depend on the log, and keeps every
  relation between two logs; `walState_of_beside` : so it does not touch the log.
-/

namespace ConsensusBft

open Exec (Sim)

variable {F : Type} {E : Env F} {s t : State F} {W : WalState → WalState → Prop}

/-! ### States that differ in the log -/

/-- A call without what it knows of the log. -/
def Call.unlogged (c : Call F) : Call F :=
  { c with eng.walLog := ⟨[], 0⟩, disk := ⟨false, none, ∅, 0⟩ }

/-- The states are the same but for the log and the disk. -/
def Apart (s t : State F) : Prop :=
  ∃ w calls, t = { s.setWal w with calls } ∧ calls.map Call.unlogged = s.calls.map Call.unlogged

/-- The states are the same but for the log and the disk, which are related. -/
def Beside (W : WalState → WalState → Prop) (s t : State F) : Prop :=
  ∃ w calls, t = { s.setWal w with calls } ∧
    calls.map Call.unlogged = s.calls.map Call.unlogged ∧ W s.walState w

theorem Apart.setWal (s : State F) (w : WalState) : Apart s (s.setWal w) := ⟨w, s.calls, rfl, rfl⟩

theorem Apart.beside (h : Apart s t) : Beside (fun _ _ => True) s t := by
  obtain ⟨w, calls, ht, hc⟩ := h
  exact ⟨w, calls, ht, hc, trivial⟩

namespace Beside

theorem apart (h : Beside W s t) : Apart s t := by
  obtain ⟨w, calls, ht, hc, -⟩ := h
  exact ⟨w, calls, ht, hc⟩

theorem walState (h : Beside W s t) : W s.walState t.walState := by
  obtain ⟨w, calls, rfl, -, hw⟩ := h
  exact hw

theorem setWal {w w' : WalState} (h : Beside W s t) (hw : W w w') :
    Beside W (s.setWal w) (t.setWal w') := by
  obtain ⟨_, calls, rfl, hc, -⟩ := h
  exact ⟨w', calls, rfl, hc, hw⟩

theorem length_eq (h : Beside W s t) : t.calls.length = s.calls.length := by
  obtain ⟨w, calls, rfl, hc, -⟩ := h
  simpa using congrArg List.length hc

theorem height_eq (h : Beside W s t) : t.eng.height = s.eng.height := by
  obtain ⟨w, calls, rfl, -⟩ := h
  rfl

theorem verifiedBlock_eq (h : Beside W s t) : t.eng.verifiedBlock = s.eng.verifiedBlock := by
  obtain ⟨w, calls, rfl, -⟩ := h
  rfl

theorem blockOriginCache_eq (h : Beside W s t) :
    t.eng.blockOriginCache = s.eng.blockOriginCache := by
  obtain ⟨w, calls, rfl, -⟩ := h
  rfl

theorem proof_eq (h : Beside W s t) : t.eng.proof = s.eng.proof := by
  obtain ⟨w, calls, rfl, -⟩ := h
  rfl

theorem record (h : Beside W s t) (e : Event F) : Beside W (s.record e) (t.record e) := by
  obtain ⟨w, calls, rfl, hc, hw⟩ := h
  exact ⟨w, _, rfl, by simp only [State.record, List.map_append, hc]; rfl, hw⟩

end Beside

/-- **What keeps every relation between two logs does not touch the log.** -/
theorem walState_of_beside {α : Type} {m : EngineM F α}
    (h : ∀ W (t : State F), Beside W s t → Sim False (Beside W) m m s t) :
    (Exec.result m s).2.walState = s.walState :=
  ((h (fun w _ => w = s.walState) s ⟨s.walState, s.calls, rfl, rfl, rfl⟩).resolve_left
    And.left).2.walState

/-! ### Calls and checks -/

theorem sendBft_beside (h : Beside W s t) (msg : CoreInput) (name : String) :
    Sim False (Beside W) (sendBft E msg name) (sendBft E msg name) s t := by
  refine .bind_get (.bind_modify ?_)
  rw [h.length_eq]
  exact .rejectIf Iff.rfl (h.record _)

theorem callTransmit_beside (h : Beside W s t) (msg : ConsensusOutput F) :
    Sim False (Beside W) (callTransmit E msg) (callTransmit E msg) s t := by
  refine .bind_get (.bind_modify ?_)
  rw [h.length_eq]
  exact .pure (h.record _)

theorem callCommit_beside (h : Beside W s t) (c : Commit F) :
    Sim False (Beside W) (callCommit E c) (callCommit E c) s t := by
  refine .bind_get (.bind_modify ?_)
  rw [h.length_eq]
  exact .pure (h.record _)

theorem callSign_beside (h : Beside W s t) (hash : Hash) :
    Sim False (Beside W) (callSign E hash) (callSign E hash) s t := by
  refine .bind_get (.bind_modify ?_)
  rw [h.length_eq]
  exact .pure (h.record _)

theorem orErr_beside {ε α : Type} (h : Beside W s t) (x : Except ε α) (f : ε → ConsensusError) :
    Sim False (Beside W) (orErr x f) (orErr x f) s t := by
  cases x with
  | ok a => exact .pure h
  | error e => exact .throw h

theorem checkProposer_beside (h : Beside W s t) (height round : UInt64) (address : Address) :
    Sim False (Beside W) (checkProposer E height round address)
      (checkProposer E height round address) s t := by
  obtain ⟨w, calls, rfl, hc⟩ := h
  have h : Beside W s { s.setWal w with calls } := ⟨w, calls, rfl, hc⟩
  exact .bind_get (.bind_rejectIf Iff.rfl h fun _ =>
    .bind_lift (.inl rfl) h fun _ _ => .rejectIf Iff.rfl h)

theorem addLockVote_beside (h : Beside W s t) (height round : UInt64) (hash : Hash)
    (set : Finset Address) (sv : SignedVote) :
    Sim False (Beside W) (addLockVote E height round hash set sv)
      (addLockVote E height round hash set sv) s t := by
  refine .bind ?_ fun sender s₁ t₁ _ h₁ =>
    .bind_rejectIf Iff.rfl h₁ fun _ => .pure h₁
  obtain ⟨w, calls, rfl, hc⟩ := h
  have h : Beside W s { s.setWal w with calls } := ⟨w, calls, rfl, hc⟩
  refine .bind_get (.bind_lift (.inl rfl) h fun _ _ => .bind_rejectIf Iff.rfl h fun _ =>
    .bind_rejectIf Iff.rfl h fun _ => .bind_rejectIf Iff.rfl h fun _ =>
    .bind (orErr_beside h _ _) ?_)
  rintro address s₁ t₁ - ⟨w₁, calls₁, rfl, hc₁⟩
  exact .bind_rejectIf Iff.rfl ⟨w₁, calls₁, rfl, hc₁⟩ fun _ =>
    .bind_modify (.pure ⟨w₁, calls₁, rfl, hc₁⟩)

theorem checkLockVotes_beside (h : Beside W s t) (msg : SignedProposal) (hash : Hash) :
    Sim False (Beside W) (checkLockVotes E msg hash) (checkLockVotes E msg hash) s t := by
  unfold checkLockVotes
  dsimp only
  cases msg.proposal.lockRound with
  | none => exact .pure h
  | some round =>
    refine .bind (.foldlM (fun set sv _ s t h => addLockVote_beside h _ _ _ set sv) h) ?_
    rintro set s₁ t₁ - ⟨w₁, calls₁, rfl, hc₁⟩
    exact .bind_get (.rejectIf Iff.rfl ⟨w₁, calls₁, rfl, hc₁⟩)

theorem checkProposal_beside (h : Beside W s t) (hash : Hash) (block : F) (bytes : Bytes)
    (isLock isBySelf : Bool) :
    Sim False (Beside W) (checkProposal E hash block bytes isLock isBySelf)
      (checkProposal E hash block bytes isLock isBySelf) s t := by
  refine .bind_get ?_
  dsimp only
  rw [h.length_eq]
  obtain ⟨w, calls, ht, hc⟩ := h.record (.checkProposal hash block bytes isLock isBySelf
    (E.support.checkProposal s.calls.length hash block bytes isLock isBySelf))
  refine .modify ⟨w, calls, ?_, hc⟩
  rw [ht]
  obtain ⟨w, calls, rfl, hc⟩ := h
  rfl

theorem verdictOf_beside (h : Beside W s t) (hash : Hash) (bytes : Bytes) (isLock : Bool) :
    Sim False (Beside W) (verdictOf E hash bytes isLock) (verdictOf E hash bytes isLock) s t := by
  have hv : t.eng.verifiedBlock = s.eng.verifiedBlock := h.verifiedBlock_eq
  have hb : t.eng.blockOriginCache = s.eng.blockOriginCache := h.blockOriginCache_eq
  refine .bind_get ?_
  rw [hv, hb]
  cases s.eng.verifiedBlock.lookup hash with
  | some isPass => exact .pure h
  | none =>
    cases s.eng.blockOriginCache.lookup hash with
    | some block => exact .bind (checkProposal_beside h _ _ _ _ _) fun _ _ _ _ h => .pure h
    | none => exact .throw h

theorem checkProofOf_beside (h : Beside W s t) (height : UInt64) (proof : Proof) :
    Sim False (Beside W) (checkProofOf E height proof) (checkProofOf E height proof) s t := by
  obtain ⟨w, calls, rfl, hc⟩ := h
  have h : Beside W s { s.setWal w with calls } := ⟨w, calls, rfl, hc⟩
  refine .bind_get (.bind_rejectIf Iff.rfl h fun _ => .bind_lift (.inl rfl) h fun _ _ =>
    .bind_rejectIf Iff.rfl h fun _ => .doIf Iff.rfl (fun _ => ?_) h)
  exact .modify ⟨w, calls, rfl, hc⟩

/-! ### What follows the logging of a message from outside -/

theorem answerProposal_beside (h : Beside W s t) (msg : SignedProposal) (prev : UInt64)
    (bytes : Bytes) :
    Sim False (Beside W) (answerProposal E msg prev bytes) (answerProposal E msg prev bytes) s t :=
  .ite Iff.rfl (fun _ => .pure h) fun _ => .bind (verdictOf_beside h _ _ _) fun _ _ _ _ h₁ =>
    .bind (checkProofOf_beside h₁ _ _) fun _ _ _ _ h₂ => .pure h₂

theorem sendProposal_beside (h : Beside W s t) (p : BftProposal) (resp : Option VerifyResp) :
    Sim False (Beside W) (sendProposal E p resp) (sendProposal E p resp) s t := by
  refine .bind (sendBft_beside h _ _) fun _ s₁ t₁ _ h₁ => ?_
  cases resp with
  | none => exact .pure h₁
  | some r => exact sendBft_beside h₁ _ _

/-- What follows the logging of a proposal: it is judged, and handed to the BFT core. -/
def settleProposal (E : Env F) (msg : SignedProposal) (prev : UInt64) (bytes : Bytes) :
    EngineM F PUnit := do
  let (proposal, verifyResp) ← judgeProposal E msg prev bytes
  sendProposal E proposal verifyResp

/-- What follows the logging of a vote: one of a later height is cached, any other one is admitted
and handed to the BFT core. -/
def settleVote (E : Env F) (current : UInt64) (msg : SignedVote) : EngineM F PUnit := do
  Exec.doIf (current < msg.vote.height) do
    modify fun s => { s with eng.voteCache := s.eng.voteCache.pushEntry msg.vote.height msg }
    throw (.err .futureMsg)
  let vote ← admitVote msg
  sendBft E (.vote vote) "BftVote"

theorem settleProposal_beside (h : Beside W s t) (msg : SignedProposal) (prev : UInt64)
    (bytes : Bytes) :
    Sim False (Beside W) (settleProposal E msg prev bytes) (settleProposal E msg prev bytes)
      s t := by
  refine .bind (.bind_modify (.bind (checkProposer_beside ?_ _ _ _) fun _ _ _ _ h₁ =>
    .bind (checkLockVotes_beside h₁ _ _) fun _ _ _ _ h₂ => answerProposal_beside h₂ _ _ _))
    fun _ _ _ _ h => sendProposal_beside h _ _
  obtain ⟨w, calls, rfl, hc⟩ := h
  exact ⟨w, calls, rfl, hc⟩

theorem cacheVote_beside {α : Type} (h : Beside W s t) (msg : SignedVote) :
    Sim False (Beside W) (do
        modify fun s : State F =>
          { s with eng.voteCache := s.eng.voteCache.pushEntry msg.vote.height msg }
        throw (.err .futureMsg) : EngineM F α)
      (do
        modify fun s : State F =>
          { s with eng.voteCache := s.eng.voteCache.pushEntry msg.vote.height msg }
        throw (.err .futureMsg)) s t := by
  obtain ⟨w, calls, rfl, hc⟩ := h
  exact .bind_modify (.throw ⟨w, calls, rfl, hc⟩)

theorem admitVote_beside (h : Beside W s t) (msg : SignedVote) :
    Sim False (Beside W) (admitVote msg) (admitVote msg) s t := by
  obtain ⟨w, calls, rfl, hc⟩ := h
  exact .bind_modify (.bind (.bind_get (.rejectIf Iff.rfl ⟨w, calls, rfl, hc⟩)) fun _ _ _ _ h =>
    .pure h)

theorem settleVote_beside (h : Beside W s t) (current : UInt64) (msg : SignedVote) :
    Sim False (Beside W) (settleVote E current msg) (settleVote E current msg) s t :=
  .bind (.doIf Iff.rfl (fun _ => cacheVote_beside h msg) h) fun _ _ _ _ h₁ =>
    .bind (admitVote_beside h₁ msg) fun _ _ _ _ h₂ => sendBft_beside h₂ _ _

theorem settleProposal_apart (h : Apart s t) (msg : SignedProposal) (prev : UInt64)
    (bytes : Bytes) :
    Sim False Apart (settleProposal E msg prev bytes) (settleProposal E msg prev bytes) s t :=
  (settleProposal_beside h.beside msg prev bytes).mono fun _ _ => Beside.apart

theorem settleVote_apart (h : Apart s t) (current : UInt64) (msg : SignedVote) :
    Sim False Apart (settleVote E current msg) (settleVote E current msg) s t :=
  (settleVote_beside h.beside current msg).mono fun _ _ => Beside.apart

/-- A vote that is not logged. -/
theorem handleSignedVote_beside (h : Beside W s t) (msg : SignedVote) :
    Sim False (Beside W) (handleSignedVote E msg false) (handleSignedVote E msg false) s t := by
  rw [handleSignedVote_eq]
  refine .bind (orErr_beside h _ _) fun address s₁ t₁ _ h₁ => .bind_get ?_
  rw [h₁.height_eq]
  refine .bind_lift (.inl rfl) h₁ fun prev _ => .bind_rejectIf Iff.rfl h₁ fun _ =>
    .bind_rejectIf Iff.rfl h₁ fun _ => .bind (.doIf Iff.rfl (fun _ => ?_) h₁) fun _ _ _ _ h₂ =>
      admitVote_beside h₂ msg
  refine .bind (.doIf Iff.rfl (fun hlog => absurd hlog (by simp)) h₁) fun _ s₂ t₂ _ h₂ => ?_
  exact .doIf Iff.rfl (fun _ => cacheVote_beside h₂ msg) h₂

/-! ### What follows the logging of a message of the BFT core -/

theorem getVoteSet_beside (h : Beside W s t) (height round : UInt64) (voteType : VoteType) :
    Sim False (Beside W) (getVoteSet height round voteType) (getVoteSet height round voteType)
      s t := by
  obtain ⟨w, calls, rfl, hc⟩ := h
  exact .bind_get (.bind_modify (.pure ⟨w, calls, rfl, hc⟩))

theorem collectLockVotes_beside (h : Beside W s t) (p : BftProposal) :
    Sim False (Beside W) (collectLockVotes p) (collectLockVotes p) s t := by
  refine .ite Iff.rfl (fun _ => .bind (getVoteSet_beside h _ _ _) fun voteSet s₁ t₁ _ h₁ => ?_)
    fun _ => .pure h
  cases voteSet with
  | none => exact .throw h₁
  | some voteSet => exact .lift h₁

theorem proofFor_beside (h : Beside W s t) (hash : Hash) :
    Sim False (Beside W) (proofFor hash) (proofFor hash) s t := by
  refine .bind_get ?_
  rw [h.height_eq, h.proof_eq]
  refine .ite Iff.rfl (fun _ => .pure h) fun _ => ?_
  cases s.eng.proof with
  | none => exact .throw h
  | some proof => exact .pure h

theorem buildSignedProposal_beside (h : Beside W s t) (p : BftProposal) :
    Sim False (Beside W) (buildSignedProposal E p) (buildSignedProposal E p) s t := by
  refine .bind_get (.bind_rejectIf (by rw [h.height_eq, h.proof_eq]) h fun _ => ?_)
  exact .bind (collectLockVotes_beside h p) fun _ _ _ _ h₁ =>
    .bind (proofFor_beside h₁ _) fun _ _ _ _ h₂ => .bind (callSign_beside h₂ _) fun _ _ _ _ h₃ =>
    .bind (orErr_beside h₃ _ _) fun _ _ _ _ h₄ => .pure h₄

theorem handleProposal_beside [Content F] (h : Beside W s t) (p : BftProposal) :
    Sim False (Beside W) (handleProposal E p false) (handleProposal E p false) s t := by
  unfold handleProposal
  refine .bind_get (.bind_rejectIf (by rw [h.height_eq]) h fun _ => ?_)
  refine .bind (.doIf Iff.rfl (fun hlog => absurd hlog (by simp)) h) fun _ s₁ t₁ _ h₁ => ?_
  refine .bind (buildSignedProposal_beside h₁ p) ?_
  rintro sp s₂ _ - ⟨w, calls, rfl, hc⟩
  refine .bind_modify (.bind_get ?_)
  have h₂ : Beside W { s₂ with eng.proposals := (s₂.eng.proposals.add p.height p.round sp).2 }
      { { s₂.setWal w with calls } with
        eng.proposals := (s₂.eng.proposals.add p.height p.round sp).2 } := ⟨w, calls, rfl, hc⟩
  dsimp only [State.setWal]
  cases s₂.eng.blockOriginCache.lookup p.content with
  | none => exact .throw h₂
  | some content =>
    exact .bind (orErr_beside h₂ _ _) fun _ _ _ _ h₃ =>
      .bind (checkProposal_beside h₃ _ _ _ _ _) fun _ _ _ _ h₄ => .pure h₄

theorem handleVote_beside (h : Beside W s t) (v : BftVote) :
    Sim False (Beside W) (handleVote E v false) (handleVote E v false) s t := by
  unfold handleVote
  refine .bind_get (.bind_rejectIf (by rw [h.height_eq]) h fun _ => ?_)
  refine .bind (.doIf Iff.rfl (fun hlog => absurd hlog (by simp)) h) fun _ _ _ _ h₁ =>
    .bind (callSign_beside h₁ _) fun _ _ _ _ h₂ => .bind (orErr_beside h₂ _ _) ?_
  rintro signature s₃ _ - ⟨w, calls, rfl, hc⟩
  exact .bind_modify (.pure ⟨w, calls, rfl, hc⟩)

/-- What follows the logging of a commit. -/
def settleCommit (commit : BftCommit) : EngineM F (Commit F) := do
  let s ← get
  match s.eng.blockOriginCache.lookup commit.proposal with
  | some proposal => do
    let proof ← generateProof commit.height commit.round commit.proposal commit.lockVotes
    modify fun s => { s with eng.proof := some proof }
    return { height := commit.height, result := proposal, proof, address := commit.address }
  | none => throw (.err .loseBlock)

theorem handleCommit_eq (E : Env F) (c : BftCommit) (needWal : Bool) :
    handleCommit E c needWal = (do
      let s ← get
      Exec.rejectIf (c.height < s.eng.height) .bftCoreErr
      Exec.doIf (E.walOn && needWal)
        (saveJson E c.height LOG_TYPE_COMMIT "BftCommit" (E.serde.bftCommit.toString c))
      settleCommit c) := rfl

theorem settleCommit_beside (h : Beside W s t) (c : BftCommit) :
    Sim False (Beside W) (settleCommit c) (settleCommit c) s t := by
  refine .bind_get ?_
  rw [h.blockOriginCache_eq]
  cases s.eng.blockOriginCache.lookup c.proposal with
  | none => exact .throw h
  | some block =>
    refine .bind (.bind (getVoteSet_beside h _ _ _) fun voteSet s₁ t₁ _ h₁ => ?_) ?_
    · cases voteSet with
      | none => exact .throw h₁
      | some voteSet => exact .bind_lift (.inl rfl) h₁ fun _ _ => .pure h₁
    · rintro proof s₁ _ - ⟨w, calls, rfl, hc⟩
      exact .bind_modify (.pure ⟨w, calls, rfl, hc⟩)

/-! ### Feeds and verdicts -/

theorem acceptFeed_beside [Content F] (h : Beside W s t) (f : Feed F) (name : String) :
    Sim False (Beside W) (acceptFeed E f name) (acceptFeed E f name) s t := by
  refine .bind (sendBft_beside h _ _) ?_
  rintro _ s₁ _ - ⟨w, calls, rfl, hc⟩
  exact .modify ⟨w, calls, rfl, hc⟩

theorem acceptVerdict_beside (h : Beside W s t) (vr : VerifyResp) (name : String) :
    Sim False (Beside W) (acceptVerdict E vr name) (acceptVerdict E vr name) s t := by
  refine .bind (sendBft_beside h _ _) ?_
  rintro _ s₁ _ - ⟨w, calls, rfl, hc⟩
  exact .modify ⟨w, calls, rfl, hc⟩

end ConsensusBft

import ConsensusBft.Consensus.Moves
import ConsensusBft.Logic.Sim
import ConsensusBft.Wal.Save

/-!
# The stages of a signed message

`handle_signed_proposal` checks a proposal, logs it and judges it, `handle_signed_vote` checks a
vote, logs it and admits it.

* `judgeProposal`, `admitVote` : what follows the logging.
* `Logs E s height msg` : the logging of `msg` succeeds.
* `judgeProposal_panics_iff` : judging a proposal panics only where the proposer is computed.
-/

namespace ConsensusBft

open Exec (Panics wp rejectIf doIf lift)

variable {F : Type} {E : Env F} {s : State F}

/-! ### Stages -/

/-- The last part of `handle_signed_proposal`: what follows the check of the lock votes. -/
def answerProposal (E : Env F) (msg : SignedProposal) (prev : UInt64) (bytes : Bytes) :
    EngineM F (BftProposal × Option VerifyResp) :=
  let proposal := msg.proposal
  if proposal.height = prev then
    return (proposal.toBftProposal proposal.hash, some ⟨true, proposal.hash⟩)
  else do
    let verifyResp ← verdictOf E proposal.hash bytes proposal.lockRound.isSome
    checkProofOf E proposal.height proposal.proof
    return (proposal.toBftProposal proposal.hash, verifyResp)

/-- The part of `handle_signed_proposal` that follows the logging. -/
def judgeProposal (E : Env F) (msg : SignedProposal) (prev : UInt64) (bytes : Bytes) :
    EngineM F (BftProposal × Option VerifyResp) := do
  let proposal := msg.proposal
  modify fun s =>
    { s with eng.proposals := (s.eng.proposals.add proposal.height proposal.round msg).2 }
  checkProposer E proposal.height proposal.round proposal.proposer
  checkLockVotes E msg proposal.hash
  answerProposal E msg prev bytes

theorem handleSignedProposal_eq (E : Env F) (msg : SignedProposal) (needWal : Bool)
    (bytes : Bytes) : handleSignedProposal E msg needWal bytes = (do
      let address ← verifySignature E msg.signature (E.support.hash msg.proposal.rlpBytes)
      rejectIf (msg.proposal.proposer ≠ address) .signatureErr
      let s ← get
      let prev ← lift (sub64 E.overflowChecks s.eng.height 1)
      rejectIf (msg.proposal.height < prev) .obsoleteMsg
      doIf (E.walOn && needWal)
        (saveJson E msg.proposal.height LOG_TYPE_SIGNED_PROPOSAL "SignedProposal"
          (E.serde.signedProposal.toString msg))
      judgeProposal E msg prev bytes) := rfl

/-- The part of `handle_signed_vote` that follows the logging. -/
def admitVote (msg : SignedVote) : EngineM F BftVote := do
  let vote := msg.vote
  modify fun s => { s with eng.votes :=
    (s.eng.votes.add vote.height vote.round vote.voteType vote.toBftVote msg).2 }
  checkVoteSender vote.height vote.voter
  return vote.toBftVote

theorem handleSignedVote_eq (E : Env F) (msg : SignedVote) (needWal : Bool) :
    handleSignedVote E msg needWal = (do
      let address ← verifySignature E msg.signature (E.support.hash msg.vote.rlpBytes)
      let s ← get
      let prev ← lift (sub64 E.overflowChecks s.eng.height 1)
      rejectIf (msg.vote.height < prev) .obsoleteMsg
      rejectIf (msg.vote.voter ≠ address) .signatureErr
      doIf (s.eng.height ≤ msg.vote.height) do
        doIf (E.walOn && decide ((msg.vote.height - s.eng.height).toNat < CACHE_NUMBER) && needWal)
          (saveJson E msg.vote.height LOG_TYPE_RAW_BYTES "SignedVote"
            (E.serde.signedVote.toString msg))
        doIf (s.eng.height < msg.vote.height) do
          modify fun s =>
            { s with eng.voteCache := s.eng.voteCache.pushEntry msg.vote.height msg }
          throw (.err .futureMsg)
      admitVote msg) := rfl

/-! ### Logging -/

/-- The logging of a record succeeds. -/
def Logs (E : Env F) (s : State F) (height : UInt64) (msg : Bytes) : Prop :=
  ¬ (E.overflowChecks = true ∧ Wal.Full s.eng.walLog height) ∧
    Wal.Works E.io s.disk.ops (Wal.saveOps s.eng.walLog height msg)

/-- **When logging a message panics, and when it succeeds.** -/
theorem saveJson_spec (E : Env F) (s : State F) (height : UInt64) (tag : UInt8) (name : String)
    (json : Option Bytes) :
    (Panics (saveJson E height tag name json) s ↔
      json.isSome ∧ E.overflowChecks = true ∧ Wal.Full s.eng.walLog height) ∧
    ((Exec.result (saveJson E height tag name json) s).1 = .ok ⟨⟩ ↔
      ∃ msg, json = some msg ∧ Logs E s height msg) := by
  cases json with
  | none => exact ⟨by simp [saveJson, Panics], by simp [saveJson]⟩
  | some msg =>
    obtain ⟨hpanics, hreturns⟩ := Wal.save_spec E.io E.overflowChecks height tag msg s.walState
    have hlogs : Logs E s height msg ↔
        Wal.Returns (Wal.save E.io E.overflowChecks height tag msg) s.walState := hreturns.symm
    have hfull : E.overflowChecks = true ∧ Wal.Full s.eng.walLog height ↔
        Panics (Wal.save E.io E.overflowChecks height tag msg) s.walState := hpanics.symm
    simp only [Option.isSome_some, true_and, Option.some.injEq, exists_eq_left', hlogs, hfull]
    unfold saveJson walSave Wal.Returns Panics wp
    simp only [Exec.result_bind, Exec.result_zoomTry]
    cases Exec.result (Wal.save E.io E.overflowChecks height tag msg) s.walState with
    | mk r w =>
      cases r with
      | ok n => simp [Exec.capture, orErr]
      | error e => cases e <;> simp [Exec.capture, orErr]

/-- Logging a message or not, before something that does not depend on the log. -/
theorem panics_bind_logIf {α : Type} {c : Prop} [Decidable c] {height : UInt64} {tag : UInt8}
    {name : String} {json : Option Bytes} {f : PUnit → EngineM F α} {P : Prop}
    (hf : ∀ w, Panics (f ⟨⟩) (s.setWal w) ↔ P) :
    Panics (doIf c (saveJson E height tag name json) >>= f) s ↔
      (c ∧ json.isSome ∧ E.overflowChecks = true ∧ Wal.Full s.eng.walLog height) ∨
        ((c → ∃ msg, json = some msg ∧ Logs E s height msg) ∧ P) := by
  obtain ⟨hpanics, hok⟩ := saveJson_spec E s height tag name json
  have hleaves := saveJson_leaves (E := E) height tag name json s
  rw [Exec.panics_bind_doIf]
  by_cases hc : c
  · rw [Exec.panics_bind, hpanics, ← hok]
    cases hr : Exec.result (saveJson E height tag name json) s with
    | mk r s' =>
      cases r with
      | ok a =>
        obtain ⟨w, rfl⟩ := hleaves.ok hr
        simp [hc, hf]
      | error e => simp [hc]
  · have hP : Panics (f ⟨⟩) s ↔ P := hf s.walState
    simp [hc, hP]

/-! ### Judging -/

theorem wp_orErr {ε α : Type} {x : Except ε α} {f : ε → ConsensusError} {Q : α → State F → Prop}
    {R : Stop ConsensusError → State F → Prop} :
    wp (orErr x f) Q R s ↔
      (∀ a, x = .ok a → Q a s) ∧ ∀ e, x = .error e → R (.err (f e)) s := by
  cases x <;> simp [orErr]

/-- The height stays, and there is no panic. -/
abbrev Calm {α : Type} (m : EngineM F α) (s : State F) : Prop :=
  wp m (fun _ s' => s'.eng.height = s.eng.height) (fun e _ => e ≠ .panicked) s

theorem sub64_height (checks : Bool) {n : UInt64} (hn : n ≠ 0) :
    sub64 (ε := ConsensusError) checks n 1 = .ok (n - 1) := sub64_of_le (by grind)

theorem addLockVote_calm (hs : s.eng.height ≠ 0) (height round : UInt64) (hash : Hash)
    (set : Finset Address) (sv : SignedVote) :
    Calm (addLockVote E height round hash set sv) s := by
  unfold addLockVote checkSignedVote verifySignature
  simp only [bind_assoc]
  refine Exec.wp_bind.2 (Exec.wp_get.2 (Exec.wp_bind.2 (Exec.wp_lift.2 ⟨fun prev _ => ?_, ?_⟩)))
  · refine Exec.wp_bind.2 (Exec.wp_rejectIf.2 ⟨by simp, fun _ => Exec.wp_bind.2
      (Exec.wp_rejectIf.2 ⟨by simp, fun _ => Exec.wp_bind.2
      (Exec.wp_rejectIf.2 ⟨by simp, fun _ => Exec.wp_bind.2
      (wp_orErr.2 ⟨fun a _ => ?_, by simp⟩)⟩)⟩)⟩)
    refine Exec.wp_bind.2 (Exec.wp_rejectIf.2 ⟨by simp, fun _ => Exec.wp_bind.2 ?_⟩)
    exact Exec.wp_bind.2 (Exec.wp_bind.2 (Exec.wp_rejectIf.2 ⟨by simp, fun _ => rfl⟩))
  · intro e he
    rw [sub64_height _ hs] at he
    cases he

theorem checkLockVotes_calm (hs : s.eng.height ≠ 0) (msg : SignedProposal) (hash : Hash) :
    Calm (checkLockVotes E msg hash) s := by
  unfold checkLockVotes
  dsimp only
  cases msg.proposal.lockRound with
  | none => exact rfl
  | some round =>
    refine Exec.wp_bind.2 (Exec.wp.mono (Exec.wp_foldlM
      (I := fun _ (s' : State F) => s'.eng.height = s.eng.height) ?_ rfl) ?_ fun _ _ h => h)
    · intro set sv _ s' hs'
      exact (addLockVote_calm (by rwa [hs']) _ _ _ set sv).mono (fun _ _ h => h.trans hs')
        fun _ _ h => h
    · intro set s' hs'
      exact Exec.wp_bind.2 (Exec.wp_rejectIf.2 ⟨by simp, fun _ => hs'⟩)

theorem verdictOf_calm (hash : Hash) (bytes : Bytes) (isLock : Bool) :
    Calm (verdictOf E hash bytes isLock) s := by
  unfold verdictOf
  refine Exec.wp_bind.2 (Exec.wp_get.2 ?_)
  cases s.eng.verifiedBlock.lookup hash with
  | some isPass => exact rfl
  | none =>
    cases s.eng.blockOriginCache.lookup hash with
    | none => simp
    | some content => exact rfl

theorem checkProofOf_calm (hs : s.eng.height ≠ 0) (height : UInt64) (proof : Proof) :
    Calm (checkProofOf E height proof) s := by
  unfold checkProofOf
  refine Exec.wp_bind.2 (Exec.wp_get.2 (Exec.wp_bind.2 (Exec.wp_rejectIf.2 ⟨by simp, fun hh =>
    Exec.wp_bind.2 (Exec.wp_lift.2 ⟨fun prev _ => ?_, ?_⟩)⟩)))
  · refine Exec.wp_bind.2 (Exec.wp_rejectIf.2 ⟨by simp, fun _ => ?_⟩)
    exact Exec.wp_doIf.2 ⟨fun _ => rfl, fun _ => rfl⟩
  · intro e he
    rw [not_not.1 hh, sub64_height _ hs] at he
    cases he

theorem answerProposal_calm (hs : s.eng.height ≠ 0) (msg : SignedProposal) (prev : UInt64)
    (bytes : Bytes) : Calm (answerProposal E msg prev bytes) s := by
  unfold answerProposal
  refine Exec.wp_ite.2 ⟨fun _ => rfl, fun _ => Exec.wp_bind.2 ?_⟩
  refine (verdictOf_calm _ _ _).mono (fun _ s₁ h₁ => Exec.wp_bind.2 ?_) fun _ _ h => h
  refine (checkProofOf_calm (by rwa [h₁]) _ _).mono (fun _ _ h => ?_) fun _ _ h => h
  exact h.trans h₁

theorem checkProposer_panics_iff {height round : UInt64} {address : Address} :
    Panics (checkProposer E height round address) s ↔ s.eng.authority.listAt height ≠ [] ∧
      E.overflowChecks = true ∧ 2 ^ 64 ≤ height.toNat + round.toNat := by
  unfold checkProposer
  rw [Exec.panics_bind_get, Exec.panics_bind_rejectIf, Exec.panics_bind_lift, add64_eq_panicked]
  simp only [Exec.panics_rejectIf, and_false, exists_false, or_false]

theorem checkProposer_keeps (height round : UInt64) (address : Address) (s : State F) :
    wp (checkProposer E height round address) (fun _ s' => s' = s) (fun _ s' => s' = s) s := by
  unfold checkProposer
  refine Exec.wp_bind.2 (Exec.wp_get.2 (Exec.wp_bind.2 (Exec.wp_rejectIf.2 ⟨fun _ => rfl,
    fun _ => Exec.wp_bind.2 (Exec.wp_lift.2 ⟨fun nonce _ => ?_, fun _ _ => rfl⟩)⟩)))
  exact Exec.wp_rejectIf.2 ⟨fun _ => rfl, fun _ => rfl⟩

/-- **Judging a proposal panics only where its proposer is computed.** -/
theorem judgeProposal_panics_iff (hs : s.eng.height ≠ 0) {msg : SignedProposal} {prev : UInt64}
    {bytes : Bytes} : Panics (judgeProposal E msg prev bytes) s ↔
      s.eng.authority.listAt msg.proposal.height ≠ [] ∧ E.overflowChecks = true ∧
        2 ^ 64 ≤ msg.proposal.height.toNat + msg.proposal.round.toNat := by
  unfold judgeProposal
  rw [Exec.panics_bind_modify, Exec.panics_bind, checkProposer_panics_iff]
  refine or_iff_left ?_
  rintro ⟨a, s₁, hr, hpanics⟩
  have hs₁ : s₁.eng.height = s.eng.height := by
    rw [(checkProposer_keeps _ _ _ _).ok hr]
  refine Exec.not_panics_of_wp (Q := fun _ _ => True) (E := fun e _ => e ≠ .panicked)
    (Exec.wp_bind.2 ?_) (fun _ h => h rfl) hpanics
  refine (checkLockVotes_calm (by rwa [hs₁]) msg _).mono (fun _ s₂ h₂ => ?_) fun _ _ h => h
  exact (answerProposal_calm (by rwa [h₂, hs₁]) msg prev bytes).mono (fun _ _ _ => trivial)
    fun _ _ h => h

end ConsensusBft

import ConsensusBft.Consensus.Decoding
import ConsensusBft.Consensus.Emission
import ConsensusBft.Consensus.Stages

/-!
# What ends the engine thread

A panic ends the thread.  In a build without overflow checks, only the bytes of a message can make
it panic: the state of the engine, the disk and the application have no part in it.

* The lemmas `_noPanic` : no method panics once its message is decoded.
* `Lethal E p i` : the turns that bring such bytes, or a signed vote of a foreign type; `Due p i` :
  the turns that the thread can take.
* `thread_ends_iff` : **the thread ends exactly in these turns.**
-/

namespace ConsensusBft

open Exec (NoPanic Panics)

variable {F : Type} {E : Env F}

/-! ### The log -/

namespace Wal

variable (io : ℕ → IoOutcome)

theorem attempt_noPanic : NoPanic (Disk.attempt io) := by
  refine .bind (.bind .get fun _ => .bind (.modify _) fun _ => .pure _) fun r => ?_
  cases r with
  | fail n => exact .throw _
  | _ => exact .pure _

theorem setIndexLen_noPanic (n : ℕ) : NoPanic (Disk.setIndexLen io n) := by
  refine .bind (.bind .get fun _ => .bind (.modify _) fun _ => .pure _) fun r => ?_
  cases r with
  | fail n => exact .pure _
  | _ => exact .modify _

theorem writeIndex_noPanic (b : Bytes) : NoPanic (Disk.writeIndex io b) := by
  refine .bind (.bind .get fun _ => .bind (.modify _) fun _ => .pure _) fun r => ?_
  cases r with
  | fail n => exact .bind (.modify _) fun _ => .throw _
  | _ => exact .modify _

theorem removeLog_noPanic (h : UInt64) : NoPanic (Disk.removeLog io h) := by
  refine .bind (.bind .get fun _ => .bind (.modify _) fun _ => .pure _) fun r => ?_
  cases r with
  | fail n => exact .pure _
  | _ => exact .modify _

theorem setHeight_noPanic (height : UInt64) : NoPanic (setHeight io height) := by
  refine .bind (.modify _) fun _ => .bind (.zoom (attempt_noPanic io)) fun _ =>
    .bind (.zoom (setIndexLen_noPanic io _)) fun _ => .bind (.zoom (writeIndex_noPanic io _))
    fun _ => .bind (.zoom (attempt_noPanic io)) fun _ => .bind (.zoom ?_) fun _ =>
    .bind (.modify _) fun _ => .doIf fun _ => .bind .get fun _ => .bind (.forM fun h _ =>
      .zoom (removeLog_noPanic io h)) fun _ => .modify _
  exact .bind (attempt_noPanic io) fun _ => .modify _

end Wal

/-! ### Calls and checks -/

theorem orErr_noPanic {ε α : Type} (x : Except ε α) (f : ε → ConsensusError) :
    NoPanic (orErr x f : EngineM F α) := by
  cases x with
  | ok a => exact .pure a
  | error e => exact .throw _

theorem sendBft_noPanic (msg : CoreInput) (name : String) : NoPanic (sendBft E msg name) :=
  .bind .get fun _ => .bind (.modify _) fun _ => .rejectIf _ _

theorem callTransmit_noPanic (msg : ConsensusOutput F) : NoPanic (callTransmit E msg) :=
  .bind .get fun _ => .bind (.modify _) fun _ => .pure _

theorem callCommit_noPanic (c : Commit F) : NoPanic (callCommit E c) :=
  .bind .get fun _ => .bind (.modify _) fun _ => .pure _

theorem callSign_noPanic (hash : Hash) : NoPanic (callSign E hash) :=
  .bind .get fun _ => .bind (.modify _) fun _ => .pure _

theorem checkProposal_noPanic (hash : Hash) (block : F) (bytes : Bytes) (isLock isBySelf : Bool) :
    NoPanic (checkProposal E hash block bytes isLock isBySelf) := .bind .get fun _ => .modify _

theorem askForProposal_noPanic (height : UInt64) : NoPanic (askForProposal E height) := by
  refine .bind .get fun s => .bind (.modify _) fun _ => ?_
  cases E.support.getContent s.calls.length height with
  | ok content => exact .modify _
  | error e => exact .pure _

theorem verdictOf_noPanic (hash : Hash) (bytes : Bytes) (isLock : Bool) :
    NoPanic (verdictOf E hash bytes isLock) := by
  refine .bind .get fun s => ?_
  cases s.eng.verifiedBlock.lookup hash with
  | some isPass => exact .pure _
  | none =>
    cases s.eng.blockOriginCache.lookup hash with
    | some content => exact .bind (checkProposal_noPanic ..) fun _ => .pure _
    | none => exact .throw _

theorem getVoteSet_noPanic (height round : UInt64) (voteType : VoteType) :
    NoPanic (getVoteSet (F := F) height round voteType) :=
  .bind .get fun _ => .bind (.modify _) fun _ => .pure _

theorem loadJson_noPanic {α : Type} (json : Json α) (name : String) (msg : Bytes) :
    NoPanic (loadJson (F := F) json name msg) := by
  unfold loadJson
  cases json.fromSlice msg with
  | some a => exact .pure a
  | none => exact .throw _

theorem signed_ne_panicked (vs : VoteSet) (v : BftVote) : vs.signed v ≠ .error .panicked := by
  unfold VoteSet.signed
  cases vs.votePair.lookup v <;> simp

section

variable (hbuild : E.overflowChecks = false)

include hbuild

theorem saveJson_noPanic (height : UInt64) (tag : UInt8) (name : String) (json : Option Bytes) :
    NoPanic (saveJson E height tag name json) := by
  refine ⟨fun s h => ?_⟩
  have hchecks := ((saveJson_spec E s height tag name json).1.1 h).2.1
  simp [hbuild] at hchecks

theorem walSave_noPanic (height : UInt64) (tag : UInt8) (msg : Bytes) :
    NoPanic (walSave E height tag msg) := by
  refine .zoomTry ⟨fun w h => ?_⟩
  have hchecks := ((Wal.save_spec E.io E.overflowChecks height tag msg w).1.1 h).1
  simp [hbuild] at hchecks

theorem sub64_ne_panicked (a b : UInt64) :
    sub64 (ε := ConsensusError) E.overflowChecks a b ≠ .error .panicked := by
  simp [sub64_eq_panicked, hbuild]

theorem checkProposer_noPanic (height round : UInt64) (address : Address) :
    NoPanic (checkProposer E height round address) := by
  refine ⟨fun s h => ?_⟩
  have hchecks := (checkProposer_panics_iff.1 h).2.1
  simp [hbuild] at hchecks

theorem checkLockVotes_noPanic (msg : SignedProposal) (hash : Hash) :
    NoPanic (checkLockVotes E msg hash) := by
  unfold checkLockVotes
  dsimp only
  cases msg.proposal.lockRound with
  | none => exact .pure _
  | some round =>
    refine .bind (.foldlM fun set sv _ => .bind ?_ fun _ => .bind (.rejectIf _ _) fun _ =>
      .pure _) fun _ => .bind .get fun _ => .rejectIf _ _
    -- a lock vote
    exact .bind .get fun _ => .bind (.lift (sub64_ne_panicked hbuild _ _)) fun _ =>
      .bind (.rejectIf _ _) fun _ => .bind (.rejectIf _ _) fun _ => .bind (.rejectIf _ _) fun _ =>
      .bind (orErr_noPanic _ _) fun _ => .bind (.rejectIf _ _) fun _ =>
      .bind (.modify _) fun _ => .pure _

theorem checkProofOf_noPanic (height : UInt64) (proof : Proof) :
    NoPanic (checkProofOf E height proof) :=
  .bind .get fun _ => .bind (.rejectIf _ _) fun _ =>
    .bind (.lift (sub64_ne_panicked hbuild _ _)) fun _ => .bind (.rejectIf _ _) fun _ =>
    .doIf fun _ => .modify _

/-! ### Messages from other nodes -/

theorem handleSignedProposal_noPanic (msg : SignedProposal) (needWal : Bool) (bytes : Bytes) :
    NoPanic (handleSignedProposal E msg needWal bytes) := by
  refine .bind (orErr_noPanic _ _) fun _ => .bind (.rejectIf _ _) fun _ => .bind .get fun _ =>
    .bind (.lift (sub64_ne_panicked hbuild _ _)) fun _ => .bind (.rejectIf _ _) fun _ =>
    .bind (.doIf fun _ => saveJson_noPanic hbuild ..) fun _ => .bind (.modify _) fun _ =>
    .bind (checkProposer_noPanic hbuild ..) fun _ => .bind (checkLockVotes_noPanic hbuild ..)
    fun _ => .ite (fun _ => .pure _) fun _ => ?_
  exact .bind (verdictOf_noPanic ..) fun _ => .bind (checkProofOf_noPanic hbuild ..) fun _ =>
    .pure _

theorem handleSignedVote_noPanic (msg : SignedVote) (needWal : Bool) :
    NoPanic (handleSignedVote E msg needWal) := by
  refine .bind (orErr_noPanic _ _) fun _ => .bind .get fun _ =>
    .bind (.lift (sub64_ne_panicked hbuild _ _)) fun _ => .bind (.rejectIf _ _) fun _ =>
    .bind (.rejectIf _ _) fun _ => .bind (.doIf fun _ => ?_) fun _ => .bind (.modify _) fun _ =>
    .bind (.bind .get fun _ => .rejectIf _ _) fun _ => .pure _
  exact .bind (.doIf fun _ => saveJson_noPanic hbuild ..) fun _ => .doIf fun _ =>
    .bind (.modify _) fun _ => .throw _

omit hbuild in
theorem sendProposal_noPanic (p : BftProposal) (resp : Option VerifyResp) :
    NoPanic (sendProposal E p resp) := by
  refine .bind (sendBft_noPanic ..) fun _ => ?_
  cases resp with
  | some r => exact sendBft_noPanic ..
  | none => exact .pure _

theorem forwardProposal_noPanic (sp : SignedProposal) (bytes : Bytes) :
    NoPanic (forwardProposal E sp bytes) :=
  .bind (handleSignedProposal_noPanic hbuild ..) fun _ => sendProposal_noPanic ..

theorem forwardVote_noPanic (sv : SignedVote) : NoPanic (forwardVote E sv) :=
  .bind (handleSignedVote_noPanic hbuild ..) fun _ => sendBft_noPanic ..

theorem handleRichStatus_noPanic (msg : Status) (needWal : Bool) :
    NoPanic (handleRichStatus E msg needWal) := by
  refine .bind .get fun _ => .bind (.rejectIf _ _) fun _ =>
    .bind (.doIf fun _ => saveJson_noPanic hbuild ..) fun _ => .bind (.modify _) fun _ =>
    .bind ?_ fun _ => .pure _
  -- `goto_new_height`
  exact .bind (.modify _) fun _ => .bind (.lift (by simp [add64_eq_panicked, hbuild])) fun _ =>
    .bind (.modify _) fun _ => .bind (.zoomTry (Wal.setHeight_noPanic _ _)) fun _ =>
    .bind (orErr_noPanic _ _) fun _ => .pure _

theorem processStatus_noPanic (rs : Status) : NoPanic (processStatus E rs) := by
  refine .bind (handleRichStatus_noPanic hbuild ..) fun _ => .bind ?_ fun _ =>
    .bind (sendBft_noPanic ..) fun _ => .bind .get fun _ => .bind ?_ fun _ =>
    .bind .get fun _ => ?_
  · -- `switchPower`
    refine .bind .get fun _ => .ite (fun _ => .ite (fun _ => ?_) fun _ => .pure _) fun _ =>
      .ite (fun _ => ?_) fun _ => .pure _
    · exact .bind (.modify _) fun _ => sendBft_noPanic ..
    · exact .bind (.modify _) fun _ => sendBft_noPanic ..
  · refine .bind .get fun s => ?_
    dsimp only
    split
    · exact .pure _
    · exact .bind (.modify _) fun _ => .forM fun _ _ => forwardProposal_noPanic hbuild ..
  · refine .bind .get fun s => ?_
    dsimp only
    split
    · exact .pure _
    · exact .bind (.modify _) fun _ => .forM fun _ _ => forwardVote_noPanic hbuild _

theorem receiveProposal_noPanic (sp : SignedProposal) (block : F) (bytes : Bytes) :
    NoPanic (receiveProposal E sp block bytes) := by
  refine .bind .get fun s => .ite (fun _ => ?_) fun _ => forwardProposal_noPanic hbuild ..
  refine .bind (.doIf fun _ => .bind (.rejectIf _ _) fun _ => ?_) fun _ => .modify _
  exact .bind (walSave_noPanic hbuild ..) fun _ => .bind (orErr_noPanic _ _) fun _ => .pure _

omit hbuild in
theorem collectLockVotes_noPanic (p : BftProposal) : NoPanic (collectLockVotes (F := F) p) := by
  refine .ite (fun _ => .bind (getVoteSet_noPanic ..) fun voteSet => ?_) fun _ => .pure _
  cases voteSet with
  | none => exact .throw _
  | some voteSet =>
    refine .lift fun h => ?_
    obtain ⟨_, v, _, -, -, h⟩ := Outcome.mapM_eq_panicked.1 h
    exact signed_ne_panicked voteSet v h

omit hbuild in
/-- **The proof that `build_signed_proposal` unwraps is there.** -/
theorem buildSignedProposal_noPanic (p : BftProposal) : NoPanic (buildSignedProposal E p) := by
  refine ⟨fun s h => ?_⟩
  unfold buildSignedProposal at h
  rw [Exec.panics_bind_get, Exec.panics_bind_rejectIf] at h
  obtain ⟨hproof, h⟩ := h
  rcases Exec.panics_bind.1 h with h | ⟨l, s₁, hr, h⟩
  · exact (collectLockVotes_noPanic p).not_panics s h
  obtain ⟨-, votes, rfl⟩ := (collectLockVotes_finds p s).ok hr
  rcases Exec.panics_bind.1 h with h | ⟨proof, s₂, -, h⟩
  · unfold proofFor at h
    rw [Exec.panics_bind_get] at h
    dsimp only at h
    split_ifs at h with hone
    · exact Exec.panics_pure.1 h
    · cases hp : s.eng.proof with
      | some proof =>
        rw [hp] at h
        exact Exec.panics_pure.1 h
      | none => exact hproof ⟨by rw [hp]; rfl, hone⟩
  · have hrest : NoPanic (do
        let sig ← callSign E (E.support.hash (Proposal.mk p.height p.round p.content proof
          p.lockRound l p.proposer).rlpBytes)
        let sig ← orErr sig fun e => .supportErr ("Sign proposal error " ++ e)
        return (SignedProposal.mk (Proposal.mk p.height p.round p.content proof p.lockRound l
          p.proposer) sig)) :=
      .bind (callSign_noPanic _) fun _ => .bind (orErr_noPanic _ _) fun _ => .pure _
    exact hrest.not_panics s₂ h

/-! ### Messages of the BFT core -/

theorem handleProposal_noPanic [Content F] (p : BftProposal) (needWal : Bool) :
    NoPanic (handleProposal E p needWal) := by
  refine .bind .get fun _ => .bind (.rejectIf _ _) fun _ =>
    .bind (.doIf fun _ => saveJson_noPanic hbuild ..) fun _ =>
    .bind (buildSignedProposal_noPanic p) fun _ => .bind (.modify _) fun _ => .bind .get fun s => ?_
  cases s.eng.blockOriginCache.lookup p.content with
  | none => exact .throw _
  | some content =>
    exact .bind (orErr_noPanic _ _) fun _ => .bind (checkProposal_noPanic ..) fun _ => .pure _

theorem handleVote_noPanic (v : BftVote) (needWal : Bool) : NoPanic (handleVote E v needWal) :=
  .bind .get fun _ => .bind (.rejectIf _ _) fun _ =>
    .bind (.doIf fun _ => saveJson_noPanic hbuild ..) fun _ => .bind (callSign_noPanic _) fun _ =>
    .bind (orErr_noPanic _ _) fun _ => .bind (.modify _) fun _ => .pure _

theorem handleCommit_noPanic (c : BftCommit) (needWal : Bool) :
    NoPanic (handleCommit E c needWal) := by
  refine .bind .get fun _ => .bind (.rejectIf _ _) fun _ =>
    .bind (.doIf fun _ => saveJson_noPanic hbuild ..) fun _ => .bind .get fun s => ?_
  cases s.eng.blockOriginCache.lookup c.proposal with
  | none => exact .throw _
  | some block =>
    refine .bind (.bind (getVoteSet_noPanic ..) fun voteSet => ?_) fun _ =>
      .bind (.modify _) fun _ => .pure _
    cases voteSet with
    | none => exact .throw _
    | some voteSet =>
      refine .bind (.lift (Outcome.foldlM_ne_panicked fun tmp v h => ?_)) fun _ => .pure _
      rcases Outcome.bind_eq_panicked.1 h with h | ⟨_, -, h⟩
      · exact signed_ne_panicked voteSet v h
      · exact nomatch h

theorem coreProcess_noPanic [Content F] (m : CoreOutput) : NoPanic (coreProcess E m) := by
  cases m with
  | proposal p =>
    exact .bind (handleProposal_noPanic hbuild ..) fun _ => .bind (callTransmit_noPanic _) fun _ =>
      .bind (orErr_noPanic _ _) fun _ => .pure _
  | vote v =>
    exact .bind (handleVote_noPanic hbuild ..) fun _ => .bind (callTransmit_noPanic _) fun _ =>
      .bind (orErr_noPanic _ _) fun _ => .pure _
  | commit c =>
    exact .bind (handleCommit_noPanic hbuild ..) fun _ => .bind (callCommit_noPanic _) fun _ =>
      .bind (orErr_noPanic _ _) fun _ => processStatus_noPanic hbuild _
  | getProposalRequest h => exact askForProposal_noPanic h

/-! ### Feeds and verdicts -/

omit hbuild in
theorem acceptFeed_noPanic [Content F] (f : Feed F) (name : String) :
    NoPanic (acceptFeed E f name) := .bind (sendBft_noPanic ..) fun _ => .modify _

omit hbuild in
theorem acceptVerdict_noPanic (vr : VerifyResp) (name : String) :
    NoPanic (acceptVerdict E vr name) := .bind (sendBft_noPanic ..) fun _ => .modify _

theorem asyncProcess_noPanic [Content F] (m : AsyncMsg F) : NoPanic (asyncProcess E m) := by
  cases m with
  | verifyResp vr =>
    exact .bind (acceptVerdict_noPanic ..) fun _ => .doIf fun _ => .bind .get fun _ =>
      saveJson_noPanic hbuild ..
  | feed f =>
    exact .bind (acceptFeed_noPanic ..) fun _ => .doIf fun _ => .bind .get fun _ =>
      saveJson_noPanic hbuild ..

end

/-! ### Messages from outside -/

section

variable [Content F]

variable (hbuild : E.overflowChecks = false) {s : State F}

include hbuild

theorem processSignedProposal_lethal {bytes : Bytes} :
    Panics (processSignedProposal E bytes) s ↔ LethalBytes E bytes := by
  unfold processSignedProposal
  rw [Exec.panics_bind_lift, decodeProposal_eq_panicked]
  refine or_iff_left ?_
  rintro ⟨⟨sp, block, hash⟩, -, h⟩
  exact (NoPanic.bind (.modify _) fun _ => receiveProposal_noPanic hbuild sp block bytes).not_panics
    s h

omit [Content F] in
theorem processSignedVote_lethal {bytes : Bytes} :
    Panics (processSignedVote E bytes) s ↔ ForeignSignedVote E.rlp bytes := by
  unfold processSignedVote
  rw [Exec.panics_bind_lift, Exec.mapErr_eq_panicked, SignedVote.decode_eq_panicked]
  exact or_iff_left fun ⟨sv, _, h⟩ => (forwardVote_noPanic hbuild sv).not_panics s h

theorem loadSignedProposal_lethal {bytes : Bytes} :
    Panics (loadSignedProposal E bytes) s ↔ LethalBytes E bytes := by
  unfold loadSignedProposal
  rw [Exec.panics_bind_lift, decodeLogged_eq_panicked]
  refine or_iff_left ?_
  rintro ⟨⟨sp, block, hash⟩, -, h⟩
  have hrest : NoPanic (replayProposal E sp block bytes) :=
    .bind .get fun _ => .bind (.doIf fun _ => .modify _) fun _ => forwardProposal_noPanic hbuild ..
  exact (NoPanic.bind (.modify _) fun _ => hrest).not_panics s h

/-- **A record makes the replay panic exactly if it is a signed proposal with lethal bytes.** -/
theorem loadRecord_lethal {record : UInt8 × Bytes} : Panics (loadRecord E record) s ↔
    record.1 = LOG_TYPE_SIGNED_PROPOSAL ∧ LethalBytes E record.2 := by
  obtain ⟨tag, bytes⟩ := record
  dsimp only [loadRecord]
  by_cases htag : tag = LOG_TYPE_SIGNED_PROPOSAL
  · rw [if_pos htag, loadSignedProposal_lethal hbuild, and_iff_right htag]
  rw [if_neg htag]
  refine iff_of_false (NoPanic.not_panics ?_ s) fun h => htag h.1
  refine .ite (fun _ => ?_) fun _ => .ite (fun _ => ?_) fun _ => .ite (fun _ => ?_) fun _ =>
    .ite (fun _ => ?_) fun _ => .ite (fun _ => ?_) fun _ => .ite (fun _ => ?_) fun _ =>
    .ite (fun _ => ?_) fun _ => .pure _
  · exact .bind (loadJson_noPanic ..) fun _ => .ifOk (handleSignedVote_noPanic hbuild ..) fun _ =>
      sendBft_noPanic ..
  · exact .bind (loadJson_noPanic ..) fun _ => .ifOk (handleRichStatus_noPanic hbuild ..) fun _ =>
      sendBft_noPanic ..
  · exact .bind (loadJson_noPanic ..) fun _ => acceptFeed_noPanic ..
  · exact .bind (loadJson_noPanic ..) fun _ => acceptVerdict_noPanic ..
  · exact .bind (loadJson_noPanic ..) fun _ => .ifOk (handleProposal_noPanic hbuild ..) fun _ =>
      .bind (callTransmit_noPanic _) fun _ => .bind (orErr_noPanic _ _) fun _ => .pure _
  · exact .bind (loadJson_noPanic ..) fun _ => .ifOk (handleVote_noPanic hbuild ..) fun _ =>
      .bind (callTransmit_noPanic _) fun _ => .bind (orErr_noPanic _ _) fun _ => .pure _
  · exact .bind (loadJson_noPanic ..) fun _ => .ifOk (handleCommit_noPanic hbuild ..) fun _ =>
      .bind (callCommit_noPanic _) fun _ => .bind (orErr_noPanic _ _) fun _ => .pure _

omit hbuild

/-! ### Turns -/

omit [Content F] in
/-- The turns that the thread can take. -/
def Due (p : Process F) : Input → Prop
  | .replay => p.pending ≠ []
  | .async => p.pending = [] ∧ p.state.asyncQueue ≠ []
  | _ => p.pending = []

omit [Content F] in
/-- The turns that bring lethal bytes or a signed vote of a foreign type. -/
inductive Lethal (E : Env F) (p : Process F) : Input → Prop
  | proposal {bytes : Bytes} (h : LethalBytes E bytes) :
      Lethal E p (.external (.signedProposal bytes))
  | vote {bytes : Bytes} (h : ForeignSignedVote E.rlp bytes) :
      Lethal E p (.external (.signedVote bytes))
  | record {bytes : Bytes} {records : List (UInt8 × Bytes)}
      (pending : p.pending = (LOG_TYPE_SIGNED_PROPOSAL, bytes) :: records)
      (h : LethalBytes E bytes) : Lethal E p .replay

variable {p : Process F} {i : Input}

theorem replayNext_eq_none {record : UInt8 × Bytes} {records : List (UInt8 × Bytes)}
    (hp : p.pending = record :: records) :
    replayNext E p = none ↔ Panics (loadRecord E record) p.state := by
  unfold replayNext Panics
  rw [hp]
  dsimp only
  cases Exec.result (loadRecord E record) p.state with
  | mk r s' =>
    cases r with
    | ok a => simp
    | error e => cases e <;> simp

theorem liveNext_eq_none (hi : i ≠ .replay) (hp : p.pending = []) :
    next E i p = none ↔ liveNext E p.state i = none := by
  cases i with
  | replay => exact absurd rfl hi
  | _ => simp [next, hp]

/-- **In a build without overflow checks the engine thread ends exactly at the bytes that make
decoding panic**: on no other turn that it can take, whatever the engine, the disk and the
application are like. -/
theorem thread_ends_iff (hbuild : E.overflowChecks = false) (hdue : Due p i) :
    next E i p = none ↔ Lethal E p i := by
  cases i with
  | replay =>
    obtain ⟨⟨tag, bytes⟩, records, hp⟩ := List.exists_cons_of_ne_nil hdue
    refine (replayNext_eq_none hp).trans ((loadRecord_lethal hbuild).trans ⟨?_, fun h => ?_⟩)
    · rintro ⟨rfl, h⟩
      exact .record hp h
    · cases h with
      | record pending h =>
        obtain ⟨rfl, -⟩ := Prod.mk.inj (List.cons.inj (hp.symm.trans pending)).1
        obtain ⟨-, rfl⟩ := Prod.mk.inj (List.cons.inj (hp.symm.trans pending)).1
        exact ⟨rfl, h⟩
  | async =>
    obtain ⟨hp, hqueue⟩ := hdue
    obtain ⟨msg, queue, hq⟩ := List.exists_cons_of_ne_nil hqueue
    refine iff_of_false ?_ nofun
    rw [liveNext_eq_none (by simp) hp]
    unfold liveNext
    rw [hq]
    exact fun h => (asyncProcess_noPanic hbuild msg).not_panics _ (Exec.survive_eq_none.1 h)
  | core msg =>
    refine iff_of_false ?_ nofun
    rw [liveNext_eq_none (by simp) hdue]
    exact fun h => (coreProcess_noPanic hbuild msg).not_panics _ (Exec.survive_eq_none.1 h)
  | external msg =>
    rw [liveNext_eq_none (by simp) hdue]
    refine Exec.survive_eq_none.trans ?_
    cases msg with
    | signedProposal bytes =>
      refine (processSignedProposal_lethal hbuild).trans ⟨.proposal, fun h => ?_⟩
      cases h with
      | proposal h => exact h
    | signedVote bytes =>
      refine (processSignedVote_lethal hbuild).trans ⟨.vote, fun h => ?_⟩
      cases h with
      | vote h => exact h
    | status rs => exact iff_of_false ((processStatus_noPanic hbuild rs).not_panics _) nofun

end

/-- A signed vote of type `2` ends the thread of the only authority. -/
theorem thread_ends_foreign :
    ∃ p, Life { Reference.env [7] with overflowChecks := false } [7] Reference.disk
        (Reference.readyRun [7]) p ∧
      next { Reference.env [7] with overflowChecks := false }
        (.external (.signedVote (emptySignedVote 2))) p = none := by
  obtain ⟨p, hl, hf⟩ := Reference.exists_life { Reference.env [7] with overflowChecks := false } [7]
    (Reference.readyRun [7]) (fun p => p.pending = []) (by decide +kernel)
  have hpending : p.pending = [] := of_decide_eq_true hf
  have hdue : Due p (.external (.signedVote (emptySignedVote 2))) := hpending
  refine ⟨p, hl, (thread_ends_iff rfl hdue).2 (.vote ?_)⟩
  exact SignedVote.decode_eq_panicked.1 rfl

end ConsensusBft

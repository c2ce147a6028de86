import ConsensusBft.Consensus.RejectedVotes

/-!
# What a rejected proposal leaves behind

`external_process` caches the block of a proposal before any test, stores the proposal before the
test of its proposer and lock votes while it tests them, and asks the application about the block
before the test of the proof.

* `Unmoved s s'` : the cached blocks, the proposals, the votes, the cached proposals and the proof
  are as before; the application was not asked about a block and no verdict was handed out.
* `answerProposal_leaves`, `settleProposal_clean_iff` : what the answer to a proposal and the tests
  before it leave behind.
* `Clean E s bytes` : the proposal leaves nothing behind if it is rejected.
* `rejected_proposal_iff` : **a rejected proposal changes nothing if and only if it is clean.**
-/

namespace ConsensusBft

open Exec (wp wp_bind)

variable {F : Type} {E : Env F} {s s' s₁ : State F} {sp : SignedProposal} {bytes : Bytes}
variable {e : Stop ConsensusError}

/-! ### What a rejected proposal should not do -/

/-- The call asks the application about a block, or hands a verdict to the BFT core. -/
def Call.judges (c : Call F) : Bool :=
  match c.event with
  | .checkProposal .. => true
  | .bft (.verifyResp _) _ => true
  | _ => false

/-- The calls that ask the application about a block or hand out a verdict. -/
def State.verdictCalls (s : State F) : List (Call F) := s.calls.filter Call.judges

/-- The blocks, the proposals, the votes, the caches and the proof are as before; the application
was not asked about a block and no verdict was handed out. -/
structure Unmoved (s s' : State F) : Prop where
  blockOriginCache : s'.eng.blockOriginCache = s.eng.blockOriginCache
  proposals : s'.eng.proposals = s.eng.proposals
  votes : s'.eng.votes.Same s.eng.votes
  proposalCache : s'.eng.proposalCache = s.eng.proposalCache
  proof : s'.eng.proof = s.eng.proof
  verdictCalls : s'.verdictCalls = s.verdictCalls

/-! ### The answer to a proposal -/

/-- A proposal that passes the tests of its proposer and of its lock leaves nothing behind if it is
rejected after them: the application is not asked about its block, and if it cannot be handed to the
BFT core its verdict is not handed out either and its proof is not kept. -/
structure AnswerClean (E : Env F) (s : State F) (proposal : Proposal) : Prop where
  unasked : proposal.height ≠ s.eng.height - 1 →
    (s.eng.verifiedBlock.lookup proposal.hash).isSome ∨
      s.eng.blockOriginCache.lookup proposal.hash = none
  undelivered : proposal.height = s.eng.height - 1 ∨ AnswerPasses E s.eng proposal →
    E.delivers s.calls.length = false
  unkept : proposal.height ≠ s.eng.height - 1 → AnswerPasses E s.eng proposal →
    s.eng.keptProof proposal.proof = s.eng.proof

theorem verdictCalls_record (s : State F) (e : Event F) :
    (s.record e).verdictCalls = s.verdictCalls ++ [⟨s.eng, s.disk, e⟩].filter Call.judges :=
  List.filter_append ..

/-- A proposal that is not handed to the BFT core, and one whose verdict is not. -/
theorem sendProposal_error {p : BftProposal} {resp : Option VerifyResp}
    (h : Exec.result (sendProposal E p resp) s = (.error e, s')) : s'.eng = s.eng ∧
      (E.delivers s.calls.length = false ∧ s'.verdictCalls = s.verdictCalls ∨
        E.delivers s.calls.length = true ∧ s.verdictCalls.length < s'.verdictCalls.length) := by
  unfold sendProposal at h
  have hfirst := result_sendBft (E := E) s (.proposal p) "BftProposal"
  have hcalls : (s.record (.bft (.proposal p) (E.delivers s.calls.length))).verdictCalls =
      s.verdictCalls := (verdictCalls_record s _).trans (List.append_nil _)
  cases hd : E.delivers s.calls.length with
  | false =>
    rw [hd] at hfirst hcalls
    rw [Exec.result_bind_error hfirst] at h
    obtain ⟨-, rfl⟩ := Prod.mk.inj h
    exact ⟨rfl, .inl ⟨rfl, hcalls⟩⟩
  | true =>
    rw [hd] at hfirst hcalls
    rw [Exec.result_bind_ok hfirst] at h
    cases resp with
    | none => exact nomatch h
    | some r =>
      rw [result_sendBft] at h
      obtain ⟨-, rfl⟩ := Prod.mk.inj h
      refine ⟨rfl, .inr ⟨rfl, ?_⟩⟩
      rw [verdictCalls_record, hcalls, List.length_append]
      exact Nat.lt_succ_self _

/-- The verdict on a block is known; or the application is asked about the block; or the block is
not known either. -/
theorem verdictOf_cases (s : State F) (hash : Hash) (bytes : Bytes) (isLock : Bool) :
    (∃ isPass, s.eng.verifiedBlock.lookup hash = some isPass ∧
      Exec.result (verdictOf E hash bytes isLock) s = (.ok (some ⟨isPass, hash⟩), s)) ∨
    (s.eng.verifiedBlock.lookup hash = none ∧ (s.eng.blockOriginCache.lookup hash).isSome ∧
      ∃ s', Exec.result (verdictOf E hash bytes isLock) s = (.ok none, s') ∧ s'.eng = s.eng ∧
        s.verdictCalls.length < s'.verdictCalls.length) ∨
    (s.eng.verifiedBlock.lookup hash = none ∧ s.eng.blockOriginCache.lookup hash = none ∧
      Exec.result (verdictOf E hash bytes isLock) s = (.error (.err .loseBlock), s)) := by
  unfold verdictOf
  rw [Exec.result_bind_get]
  cases hv : s.eng.verifiedBlock.lookup hash with
  | some isPass => exact .inl ⟨isPass, rfl, rfl⟩
  | none =>
    cases hb : s.eng.blockOriginCache.lookup hash with
    | none => exact .inr (.inr ⟨rfl, rfl, rfl⟩)
    | some block =>
      refine .inr (.inl ⟨rfl, rfl, _, rfl, rfl, ?_⟩)
      change s.verdictCalls.length < (s.record _).verdictCalls.length
      rw [verdictCalls_record, List.length_append]
      exact Nat.lt_succ_self _

/-- Once the verdict is known or asked for, the proof is tested and the proposal is handed out. -/
theorem proven_error {p : BftProposal} {resp : Option VerifyResp} {proposal : Proposal}
    (hs : s.eng.height ≠ 0) (h : Exec.result (do
      checkProofOf E proposal.height proposal.proof
      sendProposal E p resp) s = (.error e, s')) :
    (¬ ProofPasses E s.eng proposal ∧ s' = s) ∨
    (ProofPasses E s.eng proposal ∧
      s'.eng = { s.eng with proof := s.eng.keptProof proposal.proof } ∧
      (E.delivers s.calls.length = false ∧ s'.verdictCalls = s.verdictCalls ∨
        E.delivers s.calls.length = true ∧ s.verdictCalls.length < s'.verdictCalls.length)) := by
  have hproof := checkProofOf_wp (E := E) s proposal hs
  cases hr : Exec.result (checkProofOf E proposal.height proposal.proof) s with
  | mk r s₁ =>
    cases r with
    | error e' =>
      rw [Exec.result_bind_error hr] at h
      obtain ⟨-, rfl⟩ := Prod.mk.inj h
      obtain ⟨rfl, hnot⟩ := hproof.error hr
      exact .inl ⟨hnot, rfl⟩
    | ok _ =>
      rw [Exec.result_bind_ok hr] at h
      obtain ⟨rfl, hpass⟩ := hproof.ok hr
      exact .inr ⟨hpass, sendProposal_error h⟩

/-- Nothing but the proof and the calls may have changed, and they did not exactly if the answer is
clean. -/
def AnswerLeaves (E : Env F) (s s' : State F) (proposal : Proposal) : Prop :=
  s'.eng = { s.eng with proof := s'.eng.proof } ∧
    (s'.eng.proof = s.eng.proof ∧ s'.verdictCalls = s.verdictCalls ↔ AnswerClean E s proposal)

/-- A proposal of the height before has its verdict. -/
theorem previous_leaves {p : BftProposal} {resp : Option VerifyResp} {proposal : Proposal}
    (heq : proposal.height = s.eng.height - 1)
    (h : Exec.result (sendProposal E p resp) s = (.error e, s')) :
    AnswerLeaves E s s' proposal := by
  obtain ⟨heng, ⟨hd, hcalls⟩ | ⟨hd, hcalls⟩⟩ := sendProposal_error h
  · refine ⟨by rw [heng], iff_of_true ⟨by rw [heng], hcalls⟩ ?_⟩
    exact ⟨fun hne => absurd heq hne, fun _ => hd, fun hne => absurd heq hne⟩
  · refine ⟨by rw [heng], iff_of_false (fun h => ?_) fun h => ?_⟩
    · exact hcalls.ne' (congrArg List.length h.2)
    · exact Bool.false_ne_true ((h.undelivered (.inl heq)).symm.trans hd)

/-- A proposal whose block has a verdict. -/
theorem known_leaves {p : BftProposal} {resp : Option VerifyResp} {proposal : Proposal}
    (hne : proposal.height ≠ s.eng.height - 1) (hs : s.eng.height ≠ 0)
    (hknown : (s.eng.verifiedBlock.lookup proposal.hash).isSome) (h : Exec.result (do
      checkProofOf E proposal.height proposal.proof
      sendProposal E p resp) s = (.error e, s')) : AnswerLeaves E s s' proposal := by
  have hanswer : AnswerPasses E s.eng proposal ↔ ProofPasses E s.eng proposal :=
    ⟨fun h => ⟨h.height, h.proof⟩, fun h => ⟨.inl hknown, h.1, h.2⟩⟩
  rcases proven_error hs h with ⟨hnot, rfl⟩ | ⟨hpass, heng, ⟨hd, hcalls⟩ | ⟨hd, hcalls⟩⟩
  · refine ⟨rfl, iff_of_true ⟨rfl, rfl⟩ ⟨fun _ => .inl hknown, fun h => ?_, fun _ h => ?_⟩⟩
    · exact absurd (hanswer.1 (h.resolve_left hne)) hnot
    · exact absurd (hanswer.1 h) hnot
  · have hproof : s'.eng.proof = s.eng.keptProof proposal.proof := by rw [heng]
    unfold AnswerLeaves
    rw [hproof, and_iff_left hcalls]
    refine ⟨heng, fun hkept => ⟨fun _ => .inl hknown, fun _ => hd, fun _ _ => hkept⟩, fun h => ?_⟩
    exact h.unkept hne (hanswer.2 hpass)
  · refine ⟨by rw [heng], iff_of_false (fun h => ?_) fun h => ?_⟩
    · exact hcalls.ne' (congrArg List.length h.2)
    · exact Bool.false_ne_true ((h.undelivered (.inr (hanswer.2 hpass))).symm.trans hd)

/-- A proposal about whose block the application is asked. -/
theorem asked_leaves {p : BftProposal} {resp : Option VerifyResp} {proposal : Proposal}
    (hne : proposal.height ≠ s.eng.height - 1) (hs : s.eng.height ≠ 0)
    (hv : s.eng.verifiedBlock.lookup proposal.hash = none)
    (hb : (s.eng.blockOriginCache.lookup proposal.hash).isSome) (heng : s₁.eng = s.eng)
    (hcalls : s.verdictCalls.length < s₁.verdictCalls.length) (h : Exec.result (do
      checkProofOf E proposal.height proposal.proof
      sendProposal E p resp) s₁ = (.error e, s')) : AnswerLeaves E s s' proposal := by
  have hunclean : ¬ AnswerClean E s proposal := by
    intro h
    rcases h.unasked hne with h | h
    · simp [hv] at h
    · simp [h] at hb
  rcases proven_error (by rwa [heng]) h with ⟨-, rfl⟩ | ⟨-, heng', hsent⟩
  · exact ⟨by rw [heng], iff_of_false (fun h => hcalls.ne' (congrArg List.length h.2)) hunclean⟩
  · refine ⟨by rw [heng', heng], iff_of_false (fun h => ?_) hunclean⟩
    have hlen := congrArg List.length h.2
    rcases hsent with ⟨-, hcalls'⟩ | ⟨-, hcalls'⟩
    · rw [hcalls'] at hlen
      omega
    · omega

/-- A proposal whose block is not known. -/
theorem unknown_leaves {proposal : Proposal} (hne : proposal.height ≠ s.eng.height - 1)
    (hv : s.eng.verifiedBlock.lookup proposal.hash = none)
    (hb : s.eng.blockOriginCache.lookup proposal.hash = none) : AnswerLeaves E s s proposal := by
  have hunknown : ¬ AnswerPasses E s.eng proposal := fun h => by simpa [hv, hb] using h.block
  refine ⟨rfl, iff_of_true ⟨rfl, rfl⟩ ⟨fun _ => .inr hb, fun h => ?_, fun _ h => ?_⟩⟩
  · exact absurd (h.resolve_left hne) hunknown
  · exact absurd h hunknown

/-- **What the answer to a proposal leaves behind** where it is an error. -/
theorem answerProposal_leaves (hs : s.eng.height ≠ 0)
    (h : Exec.result (answerProposal E sp (s.eng.height - 1) bytes >>= fun x =>
      sendProposal E x.1 x.2) s = (.error e, s')) : AnswerLeaves E s s' sp.proposal := by
  unfold answerProposal at h
  by_cases heq : sp.proposal.height = s.eng.height - 1
  · rw [if_pos heq, pure_bind] at h
    exact previous_leaves heq h
  rw [if_neg heq] at h
  simp only [bind_assoc, pure_bind] at h
  rcases verdictOf_cases (E := E) s sp.proposal.hash bytes sp.proposal.lockRound.isSome with
    ⟨isPass, hv, hr⟩ | ⟨hv, hb, s₁, hr, heng₁, hcalls₁⟩ | ⟨hv, hb, hr⟩
  · rw [Exec.result_bind_ok hr] at h
    exact known_leaves heq hs (by rw [hv]; rfl) h
  · rw [Exec.result_bind_ok hr] at h
    exact asked_leaves heq hs hv hb heng₁ hcalls₁ h
  · rw [Exec.result_bind_error hr] at h
    obtain ⟨-, rfl⟩ := Prod.mk.inj h
    exact unknown_leaves heq hv hb

/-! ### The tests of a proposal -/

/-- A proposal that is tested leaves nothing behind if it is rejected: its round has a proposal, and
its height and round are those used last; the lock votes that are stored are the latest; and so is
the answer to it clean. -/
structure TestedClean (E : Env F) (s : State F) (sp : SignedProposal) : Prop where
  stored : s.eng.proposals.Latest sp.proposal.height sp.proposal.round
  locks : ProposerPasses E s.eng.authority sp.proposal → LockVotesLatest E s.eng sp
  answer : ProposerPasses E s.eng.authority sp.proposal → LockPasses E s.eng sp →
    AnswerClean E s sp.proposal

/-- The answer depends neither on the votes and the proposals nor on the log. -/
theorem answerClean_congr {t : State F} {votes : VoteCollector} {proposals : ProposalCollector}
    {walLog : Wal} (heng : t.eng = { s.eng with votes, proposals, walLog })
    (hcalls : t.calls = s.calls) :
    AnswerClean E t sp.proposal ↔ AnswerClean E s sp.proposal := by
  have hpasses : AnswerPasses E t.eng sp.proposal ↔ AnswerPasses E s.eng sp.proposal := by
    rw [heng]
    exact ⟨fun h => ⟨h.block, h.height, h.proof⟩, fun h => ⟨h.block, h.height, h.proof⟩⟩
  have hheight : t.eng.height = s.eng.height := by rw [heng]
  have hverified : t.eng.verifiedBlock = s.eng.verifiedBlock := by rw [heng]
  have hblocks : t.eng.blockOriginCache = s.eng.blockOriginCache := by rw [heng]
  have hproof : t.eng.proof = s.eng.proof := by rw [heng]
  have hkept : t.eng.keptProof sp.proposal.proof = s.eng.keptProof sp.proposal.proof := by
    rw [heng]
    rfl
  constructor <;> rintro ⟨hunasked, hundelivered, hunkept⟩
  · rw [hheight, hverified, hblocks] at hunasked
    rw [hheight, hcalls, hpasses] at hundelivered
    rw [hheight, hkept, hproof, hpasses] at hunkept
    exact ⟨hunasked, hundelivered, hunkept⟩
  · rw [← hheight, ← hverified, ← hblocks] at hunasked
    rw [← hheight, ← hcalls, ← hpasses] at hundelivered
    rw [← hheight, ← hkept, ← hproof, ← hpasses] at hunkept
    exact ⟨hunasked, hundelivered, hunkept⟩

theorem testedClean_setWal (w : WalState) :
    TestedClean E (s.setWal w) sp ↔ TestedClean E s sp := by
  have hanswer : AnswerClean E (s.setWal w) sp.proposal ↔ AnswerClean E s sp.proposal :=
    answerClean_congr rfl rfl
  exact ⟨fun h => ⟨h.stored, h.locks, fun hp hl => hanswer.1 (h.answer hp hl)⟩,
    fun h => ⟨h.stored, h.locks, fun hp hl => hanswer.2 (h.answer hp hl)⟩⟩

/-- **What a proposal that is tested leaves behind** where it is rejected. -/
theorem settleProposal_clean_iff (hs : s.eng.height ≠ 0)
    (h : Exec.result (settleProposal E sp (s.eng.height - 1) bytes) s = (.error e, s')) :
    s'.eng.blockOriginCache = s.eng.blockOriginCache ∧ (Unmoved s s' ↔ TestedClean E s sp) := by
  have hstored : (s.eng.proposals.add sp.proposal.height sp.proposal.round sp).2 =
      s.eng.proposals ↔ s.eng.proposals.Latest sp.proposal.height sp.proposal.round :=
    ProposalCollector.add_eq_iff
  rcases settleProposal_cases (E := E) s sp (s.eng.height - 1) bytes with
    ⟨hp, e', hres⟩ | ⟨hp, votes, hadded, ⟨hlock, e', hres⟩ | ⟨hlock, hres⟩⟩
  · obtain ⟨-, rfl⟩ := Prod.mk.inj (h.symm.trans hres)
    refine ⟨rfl, fun h => ⟨hstored.1 h.proposals, fun h => absurd h hp, fun h => absurd h hp⟩,
      fun h => ?_⟩
    exact ⟨rfl, hstored.2 h.stored, .refl _, rfl, rfl, rfl⟩
  · obtain ⟨-, rfl⟩ := Prod.mk.inj (h.symm.trans hres)
    refine ⟨rfl, fun h => ⟨hstored.1 h.proposals, fun _ => hadded.same_iff.1 h.votes,
      fun _ h => absurd h hlock⟩, fun h => ?_⟩
    exact ⟨rfl, hstored.2 h.stored, hadded.same_iff.2 (h.locks hp), rfl, rfl, rfl⟩
  · rw [hres] at h
    obtain ⟨heng, hclean⟩ := answerProposal_leaves (s := s.filed sp votes) hs h
    have hanswer : AnswerClean E (s.filed sp votes) sp.proposal ↔ AnswerClean E s sp.proposal :=
      answerClean_congr rfl rfl
    rw [hanswer] at hclean
    have hproposals : s'.eng.proposals =
        (s.eng.proposals.add sp.proposal.height sp.proposal.round sp).2 := by rw [heng]; rfl
    have hvotes : s'.eng.votes = votes := by rw [heng]; rfl
    refine ⟨by rw [heng]; rfl, fun h => ⟨?_, fun _ => ?_, fun _ _ => ?_⟩, fun h => ?_⟩
    · exact hstored.1 (hproposals.symm.trans h.proposals)
    · exact hadded.same_iff.1 (hvotes ▸ h.votes)
    · exact hclean.1 ⟨h.proof, h.verdictCalls⟩
    · obtain ⟨hproof, hcalls⟩ := hclean.2 (h.answer hp hlock)
      refine ⟨by rw [heng]; rfl, hproposals.trans (hstored.2 h.stored), ?_, by rw [heng]; rfl,
        hproof, hcalls⟩
      rw [hvotes]
      exact hadded.same_iff.2 (h.locks hp)

/-! ### The input as a whole -/

/-- The proposal is tested: it is not cached for a later height, its signature is that of its
proposer, its height passes, and it is logged if it is to be. -/
structure Tested (E : Env F) (s : State F) (sp : SignedProposal) : Prop where
  outside : inWindow sp.proposal.height s.eng.height = false
  genuine : sp.Genuine E
  height : LockHeight E s.eng.height sp.proposal.height
  logged : E.walOn = true → ∃ msg, E.serde.signedProposal.toString sp = some msg ∧
    Logs E s sp.proposal.height msg

/-- The logging of a proposal that is cached for a later height. -/
def logReceived (E : Env F) (height : UInt64) (bytes : Bytes) : EngineM F PUnit :=
  Exec.doIf (E.walOn = true) do
    Exec.rejectIf (isUtf8 bytes = false) (.serJsonErr "SignedProposal")
    saveJson E height LOG_TYPE_SIGNED_PROPOSAL "SignedProposal" (some bytes)

theorem logReceived_leaves (s : State F) (height : UInt64) (bytes : Bytes) :
    wp (logReceived E height bytes) (fun _ _ => True) (fun _ s' => ∃ w, s' = s.setWal w) s := by
  refine Exec.wp_doIf.2 ⟨fun _ => wp_bind.2 (Exec.wp_rejectIf.2
    ⟨fun _ => ⟨s.walState, rfl⟩, fun _ => ?_⟩), fun _ => trivial⟩
  exact (saveJson_leaves height LOG_TYPE_SIGNED_PROPOSAL "SignedProposal" (some bytes) s).mono
    (fun _ _ _ => trivial) fun _ _ h => h

/-- **What a proposal leaves behind** where it is rejected, apart from its block. -/
theorem receiveProposal_clean_iff {block : F} (hs : s.eng.height ≠ 0)
    (h : Exec.result (receiveProposal E sp block bytes) s = (.error e, s')) :
    s'.eng.blockOriginCache = s.eng.blockOriginCache ∧
      (Unmoved s s' ↔ (Tested E s sp → TestedClean E s sp)) := by
  have early : ∀ w, ¬ Tested E s sp → s' = s.setWal w →
      s'.eng.blockOriginCache = s.eng.blockOriginCache ∧
        (Unmoved s s' ↔ (Tested E s sp → TestedClean E s sp)) := by
    rintro w hnot rfl
    exact ⟨rfl, iff_of_true ⟨rfl, rfl, .refl _, rfl, rfl, rfl⟩ fun h => absurd h hnot⟩
  unfold receiveProposal at h
  rw [Exec.result_bind_get] at h
  by_cases hw : inWindow sp.proposal.height s.eng.height = true
  · -- the proposal cannot be logged, and is not cached
    rw [if_pos hw] at h
    have hleaves := logReceived_leaves (E := E) s sp.proposal.height bytes
    cases hr : Exec.result (logReceived E sp.proposal.height bytes) s with
    | mk r s₁ =>
      cases r with
      | ok _ => exact nomatch (Exec.result_bind_ok hr).symm.trans h
      | error e' =>
        obtain ⟨w, rfl⟩ := hleaves.error hr
        obtain ⟨-, rfl⟩ := Prod.mk.inj ((Exec.result_bind_error hr).symm.trans h)
        exact early w (fun h => by simp [h.outside] at hw) rfl
  rw [if_neg hw] at h
  obtain ⟨hpass, hfail⟩ := forwardProposal_result (E := E) s sp bytes E.walOn
  by_cases hg : sp.Genuine E ∧ LockHeight E s.eng.height sp.proposal.height
  swap
  · obtain ⟨e', he⟩ := hfail hg
    exact early s.walState (fun h => hg ⟨h.genuine, h.height⟩)
      (congrArg Prod.snd (h.symm.trans he))
  rcases logIf_result (E := E) s (E.walOn = true) sp.proposal.height LOG_TYPE_SIGNED_PROPOSAL
    "SignedProposal" (E.serde.signedProposal.toString sp) with
    ⟨hlogged, w, hlog⟩ | ⟨hnot, e', w, hlog⟩
  · have hsettle := (h.symm.trans (hpass hg)).trans (Exec.result_bind_ok hlog)
    obtain ⟨hblocks, hclean⟩ := settleProposal_clean_iff (s := s.setWal w) hs hsettle.symm
    rw [testedClean_setWal] at hclean
    refine ⟨hblocks, fun h _ => hclean.1 ?_, fun h => ?_⟩
    · exact ⟨h.1, h.2, h.3, h.4, h.5, h.6⟩
    · have hmoved := hclean.2 (h ⟨Bool.eq_false_iff.2 hw, hg.1, hg.2, hlogged⟩)
      exact ⟨hmoved.1, hmoved.2, hmoved.3, hmoved.4, hmoved.5, hmoved.6⟩
  · have hstop := (h.symm.trans (hpass hg)).trans (Exec.result_bind_error hlog)
    exact early w (fun h => hnot h.logged) (congrArg Prod.snd hstop)

/-- The proposal leaves nothing behind if it is rejected: its block is cached already, and if it is
tested it is clean. -/
def Clean [Content F] (E : Env F) (s : State F) (bytes : Bytes) : Prop :=
  ∀ sp block hash, decodeProposal E bytes = .ok (sp, block, hash) →
    (s.eng.blockOriginCache.lookup hash).isSome ∧ (Tested E s sp → TestedClean E s sp)

/-- **A rejected proposal changes nothing if and only if it is clean.** -/
theorem rejected_proposal_iff [Content F] {e : ConsensusError} (hs : s.eng.height ≠ 0)
    (h : Exec.result (externalProcess E (.signedProposal bytes)) s = (.error (.err e), s')) :
    Unmoved s s' ↔ Clean E s bytes := by
  unfold Clean
  cases hd : decodeProposal E bytes with
  | error e' =>
    have hstop : Exec.result (externalProcess E (.signedProposal bytes)) s = (.error e', s) :=
      Exec.result_bind_lift_error hd _ _
    obtain ⟨-, rfl⟩ := Prod.mk.inj (h.symm.trans hstop)
    exact iff_of_true ⟨rfl, rfl, .refl _, rfl, rfl, rfl⟩ nofun
  | ok x =>
    obtain ⟨sp, block, hash⟩ := x
    have hreceive : Exec.result (receiveProposal E sp block bytes)
        { s with eng := s.eng.withBlock hash block } = (.error (.err e), s') :=
      (Exec.result_bind_lift hd _ _).symm.trans h
    obtain ⟨hblocks, hclean⟩ :=
      receiveProposal_clean_iff (s := { s with eng := s.eng.withBlock hash block }) hs hreceive
    have key : Unmoved s s' ↔ (s.eng.blockOriginCache.lookup hash).isSome ∧
        (Tested E s sp → TestedClean E s sp) := by
      by_cases hknown : (s.eng.blockOriginCache.lookup hash).isSome
      · obtain ⟨known, hlookup⟩ := Option.isSome_iff_exists.1 hknown
        have hsame : ({ s with eng := s.eng.withBlock hash block } : State F) = s := by
          unfold Consensus.withBlock
          rw [HashMap.orInsert_of_some hlookup]
        rw [hsame] at hclean
        rw [hclean, and_iff_right hknown]
      · refine iff_of_false (fun hmoved => hknown ?_) fun h => hknown h.1
        rw [← hmoved.blockOriginCache, hblocks]
        change (AList.lookup hash (s.eng.blockOriginCache.orInsert hash block)).isSome
        rw [HashMap.lookup_orInsert, if_pos rfl]
        rfl
    refine ⟨fun hmoved sp' block' hash' heq => ?_, fun h => key.2 (h sp block hash rfl)⟩
    obtain ⟨rfl, rfl, rfl⟩ : sp = sp' ∧ block = block' ∧ hash = hash' := by simpa using heq
    exact key.1 hmoved

/-! ### Runs -/

/-- A proposal for height `1` by a node that is no authority. -/
def strangerProposal : Bytes :=
  Reference.proposalBytes (Reference.signedProposal 1 0 [1] none [] [9]) [1] [1]

theorem decode_strangerProposal {sp : SignedProposal} {block : Block} {hash : Hash}
    (h : decodeProposal (Reference.env [7]) strangerProposal = .ok (sp, block, hash)) :
    (sp.proposal.height, sp.proposal.round, sp.proposal.proposer, hash) = (1, 0, [9], [1]) := by
  have hfields : (decodeProposal (Reference.env [7]) strangerProposal).map
      (fun x => (x.1.proposal.height, x.1.proposal.round, x.1.proposal.proposer, x.2.2)) =
      .ok (1, 0, [9], [1]) := by decide +kernel
  rw [h] at hfields
  exact Except.ok.inj hfields

/-- When it comes again it is rejected again, and changes nothing any more. -/
theorem rejected_proposal_iff_again : ∃ p s, Life (Reference.env [7]) [7] Reference.disk
      (Reference.readyRun [7] ++ [.external (.signedProposal strangerProposal)]) p ∧
    Exec.result (externalProcess (Reference.env [7]) (.signedProposal strangerProposal)) p.state =
      (.error (.err .invalidProposer), s) ∧ Unmoved p.state s := by
  obtain ⟨p, hl, hf⟩ := Reference.exists_life (Reference.env [7]) [7]
    (Reference.readyRun [7] ++ [.external (.signedProposal strangerProposal)])
    (fun p =>
      let r := Exec.result (externalProcess (Reference.env [7])
        (.signedProposal strangerProposal)) p.state
      let proposals := p.state.eng.proposals.proposals
      decide (p.state.eng.height ≠ 0) && Exec.failsWith .invalidProposer r.1 &&
        (p.state.eng.blockOriginCache.lookup [1]).isSome &&
        decide (proposals.map.keys.head? = some 1) &&
        ((proposals.peek 1).any fun rp : ProposalRoundCollector =>
          (rp.roundProposals.peek 0).isSome &&
            decide (rp.roundProposals.map.keys.head? = some 0)) &&
        decide ((intoAddrSet (p.state.eng.authority.listAt 1))[
          1 % (p.state.eng.authority.listAt 1).length]? ≠ some [9]))
    (by decide +kernel)
  simp only [Bool.and_eq_true, decide_eq_true_eq] at hf
  obtain ⟨⟨⟨⟨⟨hheight, hfails⟩, hknown⟩, hhead⟩, hround⟩, hstranger⟩ := hf
  have hres := Exec.failsWith_iff.1 hfails
  refine ⟨p, _, hl, Prod.ext hres rfl, (rejected_proposal_iff hheight (Prod.ext hres rfl)).2 ?_⟩
  intro sp block hash hd
  have hfields := decode_strangerProposal hd
  simp only [Prod.mk.injEq] at hfields
  obtain ⟨hh, hr, hproposer, rfl⟩ := hfields
  refine ⟨hknown, fun _ => ?_⟩
  have hno : ¬ ProposerPasses (Reference.env [7]) p.state.eng.authority sp.proposal := by
    intro h
    have hproposes := h.proposes
    rw [hh, hr, hproposer] at hproposes
    exact hstranger hproposes
  obtain ⟨rp, hrp, hlast⟩ := (Option.any_eq_true _ _).1 hround
  simp only [Bool.and_eq_true, decide_eq_true_eq] at hlast
  obtain ⟨w, hw⟩ := Option.isSome_iff_exists.1 hlast.1
  refine ⟨?_, fun h => absurd h hno, fun h => absurd h hno⟩
  rw [hh, hr]
  exact ⟨rp, w, LruCache.recent_empty_iff.2 ⟨hhead, hrp⟩,
    LruCache.recent_empty_iff.2 ⟨hlast.2, hw⟩⟩

/-- A proposal of the only authority, `16` heights ahead of height `1`. -/
def distantProposal : Bytes :=
  Reference.proposalBytes (Reference.signedProposal 17 0 [1] none [] [7]) [1] [1]

/-- **A proposal that is too far ahead is rejected**; its block is cached, it is stored, and the
application was asked about the block. -/
theorem distant_proposal_asked : ∃ p s, Life (Reference.env [7]) [7] Reference.disk
      (Reference.readyRun [7]) p ∧ p.state.eng.height = 1 ∧
    Exec.result (externalProcess (Reference.env [7]) (.signedProposal distantProposal)) p.state =
      (.error (.err .proofErr), s) ∧ ¬ Unmoved p.state s ∧
    (p.state.eng.blockOriginCache.lookup [1]).isNone ∧
    (s.eng.blockOriginCache.lookup [1]).isSome ∧ (s.eng.proposals.proposals.peek 17).isSome ∧
    p.state.verdictCalls = [] ∧ s.verdictCalls ≠ [] := by
  obtain ⟨p, hl, hf⟩ := Reference.exists_life (Reference.env [7]) [7] (Reference.readyRun [7])
    (fun p =>
      let r := Exec.result (externalProcess (Reference.env [7])
        (.signedProposal distantProposal)) p.state
      decide (p.state.eng.height = 1) && Exec.failsWith .proofErr r.1 &&
        (p.state.eng.blockOriginCache.lookup [1]).isNone &&
        (r.2.eng.blockOriginCache.lookup [1]).isSome &&
        (r.2.eng.proposals.proposals.peek 17).isSome &&
        p.state.verdictCalls.isEmpty && !r.2.verdictCalls.isEmpty)
    (by decide +kernel)
  simp only [Bool.and_eq_true, decide_eq_true_eq, Bool.not_eq_true', List.isEmpty_iff,
    List.isEmpty_eq_false_iff] at hf
  obtain ⟨⟨⟨⟨⟨⟨hheight, hfails⟩, hnone⟩, hcached⟩, hstored⟩, hbefore⟩, hafter⟩ := hf
  refine ⟨p, _, hl, hheight, Prod.ext (Exec.failsWith_iff.1 hfails) rfl, fun h => ?_, hnone,
    hcached, hstored, hbefore, hafter⟩
  exact hafter (h.verdictCalls.trans hbefore)

end ConsensusBft

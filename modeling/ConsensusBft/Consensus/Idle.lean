import ConsensusBft.Collection.Recency
import ConsensusBft.Consensus.Apart
import ConsensusBft.Consensus.LockVotes
import ConsensusBft.Consensus.ProofCheck

/-!
# Messages that are rejected without a trace

* `SameEffects` : two turns do the same to the BFT core, the caches and the votes.
* `Idle` : a turn rejects its message, sends nothing and leaves caches and votes.
* `sameEffects_logIf` : **logging a message first changes nothing if and only if the logging
  succeeds or the message is rejected anyway.**
* `settleProposal_idle_iff`, `settleVote_idle_iff` : **which messages are rejected without a
  trace.**
-/

namespace ConsensusBft

open Exec (Sim)

variable {F : Type} {E : Env F} {s t : State F}

/-! ### What the log may not change -/

/-- The message that a call sends to the BFT core. -/
def Call.sent (c : Call F) : Option CoreInput :=
  match c.event with
  | .bft msg _ => some msg
  | _ => none

/-- The messages that were sent to the BFT core. -/
def State.sentBft (s : State F) : List CoreInput := s.calls.filterMap Call.sent

/-- Two turns accept the same, send the same to the BFT core, and leave the same caches and the
same votes. -/
structure SameEffects (r r' : Outcome ConsensusError PUnit × State F) : Prop where
  accepts : r.1 = .ok ⟨⟩ ↔ r'.1 = .ok ⟨⟩
  sent : r.2.sentBft = r'.2.sentBft
  proposalCache : r.2.eng.proposalCache = r'.2.eng.proposalCache
  voteCache : r.2.eng.voteCache = r'.2.eng.voteCache
  votes : r.2.eng.votes.Same r'.2.eng.votes

theorem SameEffects.symm {r r' : Outcome ConsensusError PUnit × State F} (h : SameEffects r r') :
    SameEffects r' r :=
  ⟨h.accepts.symm, h.sent.symm, h.proposalCache.symm, h.voteCache.symm, h.votes.symm⟩

theorem Apart.sentBft_eq (h : Apart s t) : t.sentBft = s.sentBft := by
  have key : ∀ calls : List (Call F),
      calls.filterMap Call.sent = (calls.map Call.unlogged).filterMap Call.sent := by
    intro calls
    rw [List.filterMap_map]
    rfl
  obtain ⟨w, calls, rfl, hc⟩ := h
  change calls.filterMap Call.sent = _
  rw [key, hc, ← key]
  rfl

theorem SameEffects.of_sim {m m' : EngineM F PUnit} (h : Sim False Apart m m' s t) :
    SameEffects (Exec.result m s) (Exec.result m' t) := by
  obtain ⟨hout, happart⟩ := h.resolve_left And.left
  refine ⟨by rw [hout], happart.sentBft_eq.symm, ?_, ?_, ?_⟩
  all_goals
    obtain ⟨w, calls, ht, -⟩ := happart
    rw [ht]
  · rfl
  · rfl
  · exact .refl _

/-- The computation rejects its message and leaves no trace of it. -/
structure Idle (m : EngineM F PUnit) (s : State F) : Prop where
  rejects : (Exec.result m s).1 ≠ .ok ⟨⟩
  sent : (Exec.result m s).2.sentBft = s.sentBft
  proposalCache : (Exec.result m s).2.eng.proposalCache = s.eng.proposalCache
  voteCache : (Exec.result m s).2.eng.voteCache = s.eng.voteCache
  votes : (Exec.result m s).2.eng.votes.Same s.eng.votes

/-- A turn that is rejected and touches the log only. -/
theorem sameEffects_of_stop {m : EngineM F PUnit} {e : Stop ConsensusError} {w : WalState} :
    SameEffects (.error e, s.setWal w) (Exec.result m s) ↔ Idle m s := by
  constructor
  · intro h
    exact ⟨fun hok => absurd (h.accepts.2 hok) (by simp), h.sent.symm, h.proposalCache.symm,
      h.voteCache.symm, h.votes.symm⟩
  · intro h
    refine ⟨?_, h.sent.symm, h.proposalCache.symm, h.voteCache.symm, h.votes.symm⟩
    exact ⟨nofun, fun hok => absurd hok h.rejects⟩

/-- **Logging a message first changes nothing if and only if the logging succeeds or the message is
rejected anyway**, without a trace. -/
theorem sameEffects_logIf {c : Prop} [Decidable c] {height : UInt64} {tag : UInt8} {name : String}
    {json : Option Bytes} {m : EngineM F PUnit} (hm : ∀ w, Sim False Apart m m s (s.setWal w)) :
    SameEffects (Exec.result (Exec.doIf c (saveJson E height tag name json) >>= fun _ => m) s)
        (Exec.result m s) ↔
      (c → (∃ msg, json = some msg ∧ Logs E s height msg) ∨ Idle m s) := by
  obtain ⟨-, hok⟩ := saveJson_spec E s height tag name json
  have hleaves := saveJson_leaves (E := E) height tag name json s
  by_cases hc : c
  · simp only [hc, true_imp_iff, ← hok]
    cases hr : Exec.result (saveJson E height tag name json) s with
    | mk r s' =>
      cases r with
      | ok a =>
        obtain ⟨w, rfl⟩ := hleaves.ok hr
        rw [Exec.result_bind_ok ((Exec.result_doIf_of hc _ s).trans hr)]
        exact iff_of_true (SameEffects.of_sim (hm w)).symm (.inl rfl)
      | error e =>
        obtain ⟨w, rfl⟩ := hleaves.error hr
        rw [Exec.result_bind_error ((Exec.result_doIf_of hc _ s).trans hr), sameEffects_of_stop]
        simp
  · rw [Exec.result_bind_ok (Exec.result_doIf_of_not hc _ s)]
    exact iff_of_true (SameEffects.of_sim (hm s.walState)) fun h => absurd h hc

/-! ### When a message is rejected anyway -/

/-- The tests of the proposer. -/
structure ProposerPasses (E : Env F) (authority : AuthorityManage) (proposal : Proposal) :
    Prop where
  known : authority.listAt proposal.height ≠ []
  inRange : E.overflowChecks = true → proposal.height.toNat + proposal.round.toNat < 2 ^ 64
  proposes : authority.Proposes proposal.height proposal.round proposal.proposer

/-- A lock vote is stored: it and the lock votes before it are valid, and those before it are by
distinct voters that were not seen before. -/
def StoredAmong (E : Env F) (authority : AuthorityManage) (current height : UInt64) (hash : Hash)
    (seen : Finset Address) (votes : List SignedVote) (sv : SignedVote) : Prop :=
  ∃ before after, votes = before ++ sv :: after ∧
    LockVotesPass E authority current height hash seen before ∧ LockHeight E current height ∧
    LockVoteValid E authority height hash sv

/-- A lock vote of the proposal is stored. -/
def LockVoteStored (E : Env F) (eng : Consensus F) (sp : SignedProposal) (sv : SignedVote) :
    Prop :=
  StoredAmong E eng.authority eng.height sp.proposal.height sp.proposal.hash ∅
    sp.proposal.lockVotes sv

/-- All lock votes that are stored are the latest. -/
def LockVotesLatest (E : Env F) (eng : Consensus F) (sp : SignedProposal) : Prop :=
  ∀ round, sp.proposal.lockRound = some round → ∀ sv, LockVoteStored E eng sp sv →
    eng.votes.Latest sp.proposal.height round .prevote sv.vote.toBftVote

/-- A proposal of the current height is answered: its block has a verdict or is known, and its
proof is accepted. -/
structure AnswerPasses (E : Env F) (eng : Consensus F) (proposal : Proposal) : Prop where
  block : (eng.verifiedBlock.lookup proposal.hash).isSome ∨
    (eng.blockOriginCache.lookup proposal.hash).isSome
  height : proposal.height = eng.height
  proof : verifyProof E proposal.proof (eng.height - 1) (proofAuthorities eng) = true

/-- The tests that a proposal undergoes after it was logged. -/
structure ProposalPasses (E : Env F) (eng : Consensus F) (sp : SignedProposal) : Prop where
  proposer : ProposerPasses E eng.authority sp.proposal
  lock : ∀ round, sp.proposal.lockRound = some round → LockVotesValid E eng.authority sp ∧
    LockHeightPasses E eng.height sp ∧ OldQuorum eng.authority sp
  answer : sp.proposal.height = eng.height - 1 ∨ AnswerPasses E eng sp.proposal

/-- The lock votes of the proposal pass, if it has a lock round. -/
def LockPasses (E : Env F) (eng : Consensus F) (sp : SignedProposal) : Prop :=
  ∀ round, sp.proposal.lockRound = some round → LockVotesValid E eng.authority sp ∧
    LockHeightPasses E eng.height sp ∧ OldQuorum eng.authority sp

theorem checkProposer_result (s : State F) (proposal : Proposal) :
    (ProposerPasses E s.eng.authority proposal → Exec.result
      (checkProposer E proposal.height proposal.round proposal.proposer) s = (.ok ⟨⟩, s)) ∧
    (¬ ProposerPasses E s.eng.authority proposal → ∃ e, Exec.result
      (checkProposer E proposal.height proposal.round proposal.proposer) s = (.error e, s)) := by
  unfold checkProposer
  simp only [Exec.result_bind_get]
  by_cases hnil : s.eng.authority.listAt proposal.height = []
  · rw [Exec.result_bind_rejectIf_of hnil]
    exact ⟨fun h => absurd hnil h.known, fun _ => ⟨_, rfl⟩⟩
  rw [Exec.result_bind_rejectIf hnil]
  by_cases hover : E.overflowChecks = true ∧
      2 ^ 64 ≤ proposal.height.toNat + proposal.round.toNat
  · rw [Exec.result_bind_lift_error (add64_eq_panicked.2 hover)]
    exact ⟨fun h => absurd (h.inRange hover.1) (by omega), fun _ => ⟨_, rfl⟩⟩
  have hadd : add64 (ε := ConsensusError) E.overflowChecks proposal.height proposal.round =
      .ok (proposal.height + proposal.round) := by
    unfold add64
    rw [if_neg hover]
  rw [Exec.result_bind_lift hadd]
  by_cases hprop : (intoAddrSet (s.eng.authority.listAt proposal.height))[
      (proposal.height + proposal.round).toNat %
        (s.eng.authority.listAt proposal.height).length]? = some proposal.proposer
  · rw [Exec.result_rejectIf_of_not (not_not.2 hprop)]
    exact ⟨fun _ => rfl,
      fun h => absurd ⟨hnil, fun hc => not_le.1 fun hle => hover ⟨hc, hle⟩, hprop⟩ h⟩
  · rw [Exec.result_rejectIf_of hprop]
    exact ⟨fun h => absurd h.proposes hprop, fun _ => ⟨_, rfl⟩⟩

section

variable {height round current : UInt64} {hash : Hash} {sv : SignedVote}
  {authority : AuthorityManage} {seen : Finset Address} {votes : List SignedVote}

theorem storedAmong_cons {w : SignedVote} :
    StoredAmong E authority current height hash seen (sv :: votes) w ↔
      (LockHeight E current height ∧ LockVoteValid E authority height hash sv) ∧
        (w = sv ∨ sv.vote.voter ∉ seen ∧
          StoredAmong E authority current height hash (insert sv.vote.voter seen) votes w) := by
  constructor
  · rintro ⟨before, after, hsplit, hpass, hheight, hvalid⟩
    cases before with
    | nil =>
      obtain ⟨rfl, rfl⟩ := List.cons.inj hsplit
      exact ⟨⟨hheight, hvalid⟩, .inl rfl⟩
    | cons x before =>
      obtain ⟨rfl, rfl⟩ := List.cons.inj hsplit
      obtain ⟨hsv, hnew, hpass⟩ := lockVotesPass_cons.1 hpass
      exact ⟨hsv, .inr ⟨hnew, before, after, rfl, hpass, hheight, hvalid⟩⟩
  · rintro ⟨⟨hheight, hvalid⟩, rfl | ⟨hnew, before, after, rfl, hpass, -, hw⟩⟩
    · refine ⟨[], votes, rfl, ⟨fun h => absurd rfl h, nofun, List.nodup_nil, nofun⟩, hheight,
        hvalid⟩
    · exact ⟨sv :: before, after, rfl, lockVotesPass_cons.2 ⟨⟨hheight, hvalid⟩, hnew, hpass⟩,
        hheight, hw⟩

/-- A lock vote that is rejected leaves no trace. -/
theorem checkSignedVote_keeps (s : State F) (height round : UInt64) (hash : Hash)
    (sv : SignedVote) :
    Exec.wp (checkSignedVote E height round hash sv) (fun _ _ => True) (fun _ s' => s' = s) s := by
  unfold checkSignedVote verifySignature
  refine Exec.wp_bind.2 (Exec.wp_get.2 (Exec.wp_bind.2 (Exec.wp_lift.2 ⟨fun prev _ => ?_,
    fun _ _ => rfl⟩)))
  refine Exec.wp_bind.2 (Exec.wp_rejectIf.2 ⟨fun _ => rfl, fun _ => Exec.wp_bind.2
    (Exec.wp_rejectIf.2 ⟨fun _ => rfl, fun _ => Exec.wp_bind.2 (Exec.wp_rejectIf.2 ⟨fun _ => rfl,
    fun _ => Exec.wp_bind.2 (wp_orErr.2 ⟨fun a _ => ?_, fun _ _ => rfl⟩)⟩)⟩)⟩)
  exact Exec.wp_bind.2 (Exec.wp_rejectIf.2 ⟨fun _ => rfl, fun _ => trivial⟩)

/-- **The loop over the lock votes** changes the votes only, and stores those that are to be
stored. -/
theorem foldlM_addLockVote_stores (s : State F) (height round : UInt64) (hash : Hash)
    (votes : List SignedVote) (seen : Finset Address) :
    ∃ added, (Exec.result (votes.foldlM (addLockVote E height round hash) seen) s).2 =
        { s with eng.votes := s.eng.votes.addAll height round .prevote added } ∧
      ∀ w, w ∈ added ↔
        StoredAmong E s.eng.authority s.eng.height height hash seen votes w := by
  induction votes generalizing seen s with
  | nil =>
    refine ⟨[], rfl, fun w => iff_of_false (by simp) ?_⟩
    rintro ⟨before, after, hsplit, -⟩
    simp at hsplit
  | cons sv votes ih =>
    rw [List.foldlM_cons]
    simp only [storedAmong_cons]
    obtain ⟨hok, herr⟩ := checkSignedVote_result (E := E) (s := s) height round hash sv
    by_cases hv : LockHeight E s.eng.height height ∧ LockVoteValid E s.eng.authority height hash sv
    · have hres := hok hv.1 hv.2
      by_cases hnew : sv.vote.voter ∈ seen
      · -- the vote is stored before its voter is found to be known
        have hdup : Exec.result (addLockVote E height round hash seen sv) s =
            (.error (.err .blockVerifyDiff), { s with eng.votes :=
              (s.eng.votes.add height round .prevote sv.vote.toBftVote sv).2 }) :=
          (Exec.result_bind_ok hres).trans (Exec.result_bind_rejectIf_of hnew _ _ _)
        rw [Exec.result_bind_error hdup]
        exact ⟨[sv], rfl, fun w => by simp [hv, hnew]⟩
      · have hadd : Exec.result (addLockVote E height round hash seen sv) s =
            (.ok (insert sv.vote.voter seen), { s with eng.votes :=
              (s.eng.votes.add height round .prevote sv.vote.toBftVote sv).2 }) :=
          (Exec.result_bind_ok hres).trans (Exec.result_bind_rejectIf hnew _ _ _)
        obtain ⟨added, hstate, hmem⟩ := ih { s with eng.votes :=
          (s.eng.votes.add height round .prevote sv.vote.toBftVote sv).2 }
          (insert sv.vote.voter seen)
        rw [Exec.result_bind_ok hadd, hstate]
        exact ⟨sv :: added, rfl, fun w => by simp [hv, hnew, hmem]⟩
    · obtain ⟨e, s', hres⟩ := herr hv
      obtain rfl := (checkSignedVote_keeps s height round hash sv).error hres
      have hadd : Exec.result (addLockVote E height round hash seen sv) s' = (.error e, s') :=
        Exec.result_bind_error hres
      rw [Exec.result_bind_error hadd]
      exact ⟨[], rfl, fun w => by simp [hv]⟩

end

/-- The votes once the lock votes of the proposal were stored that are to be stored. -/
structure LockVotesAdded (E : Env F) (eng : Consensus F) (sp : SignedProposal)
    (votes : VoteCollector) : Prop where
  unlocked : sp.proposal.lockRound = none → votes = eng.votes
  locked : ∀ round, sp.proposal.lockRound = some round → ∃ added,
    votes = eng.votes.addAll sp.proposal.height round .prevote added ∧
      ∀ sv, sv ∈ added ↔ LockVoteStored E eng sp sv

theorem LockVotesAdded.same_iff {eng : Consensus F} {sp : SignedProposal} {votes : VoteCollector}
    (h : LockVotesAdded E eng sp votes) : votes.Same eng.votes ↔ LockVotesLatest E eng sp := by
  unfold LockVotesLatest
  cases hround : sp.proposal.lockRound with
  | none =>
    rw [h.unlocked hround]
    exact iff_of_true (.refl _) nofun
  | some round =>
    obtain ⟨added, rfl, hmem⟩ := h.locked round hround
    simp only [VoteCollector.same_addAll_iff, hmem, Option.some.injEq, forall_eq']

/-- **The check of the lock votes** stores lock votes and changes nothing else. -/
theorem checkLockVotes_stores (s : State F) (sp : SignedProposal) :
    ∃ votes, (Exec.result (checkLockVotes E sp sp.proposal.hash) s).2 =
        { s with eng.votes := votes } ∧ LockVotesAdded E s.eng sp votes := by
  unfold checkLockVotes
  dsimp only
  cases hround : sp.proposal.lockRound with
  | none => exact ⟨s.eng.votes, rfl, fun _ => rfl, fun round h => nomatch hround.symm.trans h⟩
  | some round =>
    obtain ⟨added, hstate, hmem⟩ := foldlM_addLockVote_stores (E := E) s sp.proposal.height round
      sp.proposal.hash sp.proposal.lockVotes ∅
    refine ⟨s.eng.votes.addAll sp.proposal.height round .prevote added, ?_,
      fun h => (nomatch hround.symm.trans h), fun round' h => ?_⟩
    · rw [← hstate]
      dsimp only
      rw [Exec.result_bind]
      cases Exec.result (sp.proposal.lockVotes.foldlM
        (addLockVote E sp.proposal.height round sp.proposal.hash) ∅) s with
      | mk r s' =>
        cases r with
        | error e => rfl
        | ok set =>
          dsimp only
          rw [Exec.result_bind_get]
          by_cases hc : ¬ (s'.eng.authority.isAboveThreshold set.card
              (decide (sp.proposal.height = s'.eng.authority.authorityHOld)) = true ∧
            s'.eng.authority.containsSender set
              (decide (sp.proposal.height = s'.eng.authority.authorityHOld)) = true)
          · rw [Exec.result_rejectIf_of hc]
          · rw [Exec.result_rejectIf_of_not hc]
    · obtain rfl := Option.some.inj (hround.symm.trans h)
      exact ⟨added, rfl, hmem⟩

/-- The BFT core was sent nothing, and caches and votes are as before. -/
structure Silent (s s' : State F) : Prop where
  sent : s'.sentBft = s.sentBft
  proposalCache : s'.eng.proposalCache = s.eng.proposalCache
  voteCache : s'.eng.voteCache = s.eng.voteCache
  votes : s'.eng.votes = s.eng.votes

theorem Silent.refl (s : State F) : Silent s s := ⟨rfl, rfl, rfl, rfl⟩

theorem sentBft_record (s : State F) (e : Event F) :
    (s.record e).sentBft = s.sentBft ++ (Call.sent ⟨s.eng, s.disk, e⟩).toList := by
  unfold State.sentBft State.record
  cases h : Call.sent ⟨s.eng, s.disk, e⟩ <;> simp [List.filterMap_append, h]

theorem checkProposal_silent (s : State F) (hash : Hash) (block : F) (bytes : Bytes)
    (isLock isBySelf : Bool) : Exec.wp (checkProposal E hash block bytes isLock isBySelf)
      (fun _ s' => s'.eng = s.eng ∧ s'.sentBft = s.sentBft) (fun _ _ => False) s := by
  unfold checkProposal
  refine Exec.wp_bind.2 (Exec.wp_get.2 ((Exec.wp_modify _).2 ⟨rfl, ?_⟩))
  change (s.record _).sentBft = _
  rw [sentBft_record]
  exact List.append_nil _

theorem verdictOf_silent (s : State F) (hash : Hash) (bytes : Bytes) (isLock : Bool) :
    Exec.wp (verdictOf E hash bytes isLock)
      (fun _ s' => (s'.eng = s.eng ∧ s'.sentBft = s.sentBft) ∧
        ((s.eng.verifiedBlock.lookup hash).isSome ∨ (s.eng.blockOriginCache.lookup hash).isSome))
      (fun _ s' => s' = s ∧
        ¬ ((s.eng.verifiedBlock.lookup hash).isSome ∨ (s.eng.blockOriginCache.lookup hash).isSome))
      s := by
  unfold verdictOf
  refine Exec.wp_bind.2 (Exec.wp_get.2 ?_)
  cases s.eng.verifiedBlock.lookup hash with
  | some isPass => simp
  | none =>
    cases s.eng.blockOriginCache.lookup hash with
    | none => simp
    | some block =>
      refine Exec.wp_bind.2 ((checkProposal_silent s _ _ _ _ _).mono (fun _ s' h => ?_)
        fun _ _ h => h.elim)
      exact ⟨h, by simp⟩

/-- The proof that is kept when one is accepted: it stays if it is of the height before. -/
def Consensus.keptProof (eng : Consensus F) (proof : Proof) : Option Proof :=
  if eng.proof.map Proof.height ≠ some (eng.height - 1) then some proof else eng.proof

/-- The tests of a proof: it is for the current height, and the engine verifies it. -/
def ProofPasses (E : Env F) (eng : Consensus F) (proposal : Proposal) : Prop :=
  proposal.height = eng.height ∧
    verifyProof E proposal.proof (eng.height - 1) (proofAuthorities eng) = true

/-- **The check of a proof** may keep the proof, and changes nothing else. -/
theorem checkProofOf_wp (s : State F) (proposal : Proposal) (hs : s.eng.height ≠ 0) :
    Exec.wp (checkProofOf E proposal.height proposal.proof)
      (fun _ s' => s' = { s with eng.proof := s.eng.keptProof proposal.proof } ∧
        ProofPasses E s.eng proposal)
      (fun _ s' => s' = s ∧ ¬ ProofPasses E s.eng proposal) s := by
  unfold checkProofOf Consensus.keptProof
  refine Exec.wp_bind.2 (Exec.wp_get.2 (Exec.wp_bind.2 (Exec.wp_rejectIf.2
    ⟨fun hne => ⟨rfl, fun h => hne h.1⟩, fun heq => ?_⟩)))
  rw [not_not.1 heq]
  refine Exec.wp_bind.2 (Exec.wp_lift.2 ⟨fun prev hprev => ?_, fun e he => ?_⟩)
  · obtain rfl : prev = s.eng.height - 1 := by
      rw [sub64_height _ hs] at hprev
      exact (Except.ok.inj hprev).symm
    refine Exec.wp_bind.2 (Exec.wp_rejectIf.2 ⟨fun hv => ⟨rfl, fun h => ?_⟩, fun hv => ?_⟩)
    · exact Bool.false_ne_true (hv.symm.trans h.2)
    · have hpass : ProofPasses E s.eng proposal := ⟨not_not.1 heq, Bool.eq_true_of_not_eq_false hv⟩
      refine Exec.wp_doIf.2 ⟨fun hstale => ⟨?_, hpass⟩, fun hfresh => ⟨?_, hpass⟩⟩
      · rw [if_pos hstale]
      · rw [if_neg hfresh]
  · rw [sub64_height _ hs] at he
    cases he

/-- **A proposal that passed the other tests is answered or rejected** in silence. -/
theorem answerProposal_silent (s : State F) (sp : SignedProposal) (bytes : Bytes)
    (hh : LockHeight E s.eng.height sp.proposal.height) :
    Exec.wp (answerProposal E sp (s.eng.height - 1) bytes)
      (fun _ s' => Silent s s' ∧
        (sp.proposal.height = s.eng.height - 1 ∨ AnswerPasses E s.eng sp.proposal))
      (fun _ s' => Silent s s' ∧
        ¬ (sp.proposal.height = s.eng.height - 1 ∨ AnswerPasses E s.eng sp.proposal)) s := by
  unfold answerProposal
  refine Exec.wp_ite.2 ⟨fun heq => ⟨.refl s, .inl heq⟩, fun hne => Exec.wp_bind.2 ?_⟩
  have hs : s.eng.height ≠ 0 := by
    intro hzero
    have hle := hh.2
    rw [hzero] at hle hne
    exact hne (UInt64.le_antisymm (by grind) hle)
  refine (verdictOf_silent s _ _ _).mono (fun _ s₁ h₁ => Exec.wp_bind.2 ?_) fun _ s₁ h₁ => ?_
  · obtain ⟨⟨heng, hsent⟩, hknown⟩ := h₁
    refine (checkProofOf_wp s₁ sp.proposal (by rwa [heng])).mono (fun _ s₂ h₂ => ?_)
      fun _ s₂ h₂ => ?_
    · obtain ⟨rfl, hpass⟩ := h₂
      rw [heng] at hpass
      refine ⟨⟨hsent, ?_, ?_, ?_⟩, .inr ⟨hknown, hpass.1, hpass.2⟩⟩ <;> dsimp only <;> rw [heng]
    · obtain ⟨rfl, hnot⟩ := h₂
      rw [heng] at hnot
      refine ⟨⟨hsent, by rw [heng], by rw [heng], by rw [heng]⟩, ?_⟩
      rintro (heq | ⟨-, hheight, hproof⟩)
      · exact hne heq
      · exact hnot ⟨hheight, hproof⟩
  · obtain ⟨rfl, hunknown⟩ := h₁
    refine ⟨.refl _, ?_⟩
    rintro (heq | hanswer)
    · exact hne heq
    · exact hunknown hanswer.block

/-- What is handed to the BFT core is sent. -/
theorem sendBft_sends (s : State F) (msg : CoreInput) (name : String) :
    (Exec.result (sendBft E msg name) s).2.sentBft = s.sentBft ++ [msg] := by
  rw [result_sendBft]
  exact sentBft_record s (.bft msg (E.delivers s.calls.length))

theorem sendProposal_sends (s : State F) (p : BftProposal) (resp : Option VerifyResp) :
    (Exec.result (sendProposal E p resp) s).2.sentBft ≠ s.sentBft := by
  have hfirst := sendBft_sends (E := E) s (.proposal p) "BftProposal"
  unfold sendProposal
  rw [Exec.result_bind]
  cases hr : Exec.result (sendBft E (.proposal p) "BftProposal") s with
  | mk r s₁ =>
    rw [hr] at hfirst
    cases r with
    | error e => simp [hfirst]
    | ok _ =>
      cases resp with
      | none => simp [hfirst]
      | some vr => simp [sendBft_sends, hfirst]

/-- A turn that is rejected, sends nothing and leaves the caches. -/
theorem idle_of_error {m : EngineM F PUnit} {e : Stop ConsensusError} {s' : State F}
    (h : Exec.result m s = (.error e, s')) (hsent : s'.sentBft = s.sentBft)
    (hproposals : s'.eng.proposalCache = s.eng.proposalCache)
    (hvotes : s'.eng.voteCache = s.eng.voteCache) :
    Idle m s ↔ s'.eng.votes.Same s.eng.votes := by
  constructor
  · intro hidle
    simpa [h] using hidle.votes
  · intro hsame
    refine ⟨?_, ?_, ?_, ?_, ?_⟩ <;> simp [h, hsent, hproposals, hvotes, hsame]

/-- Where the block and the proof are tested last, a proposal leaves no trace if and only if it
fails one of these tests and the votes are the same until then. -/
theorem answered_idle_iff {m : EngineM F PUnit} {s₁ : State F} {sp : SignedProposal}
    {bytes : Bytes} (hm : Exec.result m s = Exec.result
      (answerProposal E sp (s₁.eng.height - 1) bytes >>= fun x => sendProposal E x.1 x.2) s₁)
    (hh : LockHeight E s₁.eng.height sp.proposal.height) (hsent : s₁.sentBft = s.sentBft)
    (hproposals : s₁.eng.proposalCache = s.eng.proposalCache)
    (hvotes : s₁.eng.voteCache = s.eng.voteCache) :
    Idle m s ↔ ¬ (sp.proposal.height = s₁.eng.height - 1 ∨ AnswerPasses E s₁.eng sp.proposal) ∧
      s₁.eng.votes.Same s.eng.votes := by
  have hanswer := answerProposal_silent (E := E) s₁ sp bytes hh
  cases hans : Exec.result (answerProposal E sp (s₁.eng.height - 1) bytes) s₁ with
  | mk r s₂ =>
    cases r with
    | error e =>
      obtain ⟨hsilent, hnot⟩ := hanswer.error hans
      rw [idle_of_error (hm.trans (Exec.result_bind_error hans)) (hsilent.sent.trans hsent)
        (hsilent.proposalCache.trans hproposals) (hsilent.voteCache.trans hvotes), hsilent.votes,
        and_iff_right hnot]
    | ok x =>
      -- it is handed to the BFT core
      obtain ⟨hsilent, hyes⟩ := hanswer.ok hans
      refine iff_of_false (fun hidle => ?_) fun h => h.1 hyes
      have hsends := sendProposal_sends (E := E) s₂ x.1 x.2
      rw [Exec.result_bind_ok hans] at hm
      rw [← hm, hidle.sent] at hsends
      exact hsends (hsilent.sent.trans hsent).symm

theorem checkLockVotes_ok_iff_passes (s : State F) (sp : SignedProposal) :
    (Exec.result (checkLockVotes E sp sp.proposal.hash) s).1 = .ok ⟨⟩ ↔
      LockPasses E s.eng sp := by
  unfold LockPasses
  cases hround : sp.proposal.lockRound with
  | none => simp [checkLockVotes, hround]
  | some round =>
    rw [checkLockVotes_ok_iff hround]
    simp

/-- The state once a proposal is stored, with the given votes. -/
def State.filed (s : State F) (sp : SignedProposal) (votes : VoteCollector) : State F := { s with
  eng.proposals := (s.eng.proposals.add sp.proposal.height sp.proposal.round sp).2
  eng.votes := votes }

/-- **The tests of a proposal in their order**: the proposal is stored before its proposer is
tested, and lock votes are stored while they are tested. -/
theorem settleProposal_cases (s : State F) (sp : SignedProposal) (prev : UInt64) (bytes : Bytes) :
    (¬ ProposerPasses E s.eng.authority sp.proposal ∧ ∃ e,
      Exec.result (settleProposal E sp prev bytes) s = (.error e, s.filed sp s.eng.votes)) ∨
    (ProposerPasses E s.eng.authority sp.proposal ∧ ∃ votes, LockVotesAdded E s.eng sp votes ∧
      ((¬ LockPasses E s.eng sp ∧ ∃ e,
        Exec.result (settleProposal E sp prev bytes) s = (.error e, s.filed sp votes)) ∨
      (LockPasses E s.eng sp ∧ Exec.result (settleProposal E sp prev bytes) s =
        Exec.result (answerProposal E sp prev bytes >>= fun x => sendProposal E x.1 x.2)
          (s.filed sp votes)))) := by
  have hsettle : Exec.result (settleProposal E sp prev bytes) s =
      Exec.result (checkProposer E sp.proposal.height sp.proposal.round sp.proposal.proposer
        >>= fun _ => checkLockVotes E sp sp.proposal.hash >>= fun _ =>
        answerProposal E sp prev bytes >>= fun x => sendProposal E x.1 x.2)
        (s.filed sp s.eng.votes) := by
    unfold settleProposal judgeProposal
    simp only [bind_assoc]
    rfl
  obtain ⟨hproposer, hnoproposer⟩ := checkProposer_result (E := E) (s.filed sp s.eng.votes)
    sp.proposal
  by_cases hp : ProposerPasses E s.eng.authority sp.proposal
  swap
  · obtain ⟨e, hres⟩ := hnoproposer hp
    exact .inl ⟨hp, e, hsettle.trans (Exec.result_bind_error hres)⟩
  rw [Exec.result_bind_ok (hproposer hp)] at hsettle
  obtain ⟨votes, hstate, hadded⟩ := checkLockVotes_stores (E := E) (s.filed sp s.eng.votes) sp
  have hlock := checkLockVotes_ok_iff_passes (E := E) (s.filed sp s.eng.votes) sp
  refine .inr ⟨hp, votes, ⟨hadded.unlocked, hadded.locked⟩, ?_⟩
  cases hres : Exec.result (checkLockVotes E sp sp.proposal.hash) (s.filed sp s.eng.votes) with
  | mk r s₁ =>
    rw [hres] at hstate hlock
    obtain rfl : s₁ = s.filed sp votes := hstate
    cases r with
    | error e =>
      exact .inl ⟨fun h => (nomatch hlock.2 h), e, hsettle.trans (Exec.result_bind_error hres)⟩
    | ok _ => exact .inr ⟨hlock.1 rfl, hsettle.trans (Exec.result_bind_ok hres)⟩

/-- **A proposal is rejected without a trace if and only if it fails a test**, and the lock votes
that were stored until then are the latest. -/
theorem settleProposal_idle_iff (s : State F) (sp : SignedProposal) (bytes : Bytes)
    (hh : LockHeight E s.eng.height sp.proposal.height) :
    Idle (settleProposal E sp (s.eng.height - 1) bytes) s ↔
      ¬ ProposalPasses E s.eng sp ∧
        (ProposerPasses E s.eng.authority sp.proposal → LockVotesLatest E s.eng sp) := by
  rcases settleProposal_cases (E := E) s sp (s.eng.height - 1) bytes with
    ⟨hp, e, hres⟩ | ⟨hp, votes, hadded, ⟨hlock, e, hres⟩ | ⟨hlock, hres⟩⟩
  · -- another node proposes
    rw [idle_of_error hres rfl rfl rfl]
    exact iff_of_true (.refl _) ⟨fun h => hp h.proposer, fun h => absurd h hp⟩
  · rw [idle_of_error hres rfl rfl rfl]
    exact hadded.same_iff.trans
      ⟨fun h => ⟨fun hpass => hlock hpass.lock, fun _ => h⟩, fun h => h.2 hp⟩
  · have hpasses : (sp.proposal.height = s.eng.height - 1 ∨
        AnswerPasses E (s.filed sp votes).eng sp.proposal) ↔ ProposalPasses E s.eng sp :=
      ⟨fun h => ⟨hp, hlock, h.imp_right fun h => ⟨h.block, h.height, h.proof⟩⟩,
        fun h => h.answer.imp_right fun h => ⟨h.block, h.height, h.proof⟩⟩
    have hidle := @answered_idle_iff F E s _ (s.filed sp votes) sp bytes hres hh rfl rfl rfl
    refine hidle.trans ?_
    exact and_congr (not_congr hpasses) (hadded.same_iff.trans ⟨fun h _ => h, fun h => h hp⟩)

/-- A vote of a later height is cached. -/
theorem settleVote_of_lt {s : State F} {sv : SignedVote} (hlt : s.eng.height < sv.vote.height) :
    Exec.result (settleVote E s.eng.height sv) s = (.error (.err .futureMsg),
      { s with eng.voteCache := s.eng.voteCache.pushEntry sv.vote.height sv }) :=
  Exec.result_bind_error (Exec.result_doIf_of hlt _ s)

/-- Any other vote is stored, and handed to the BFT core if its sender is an authority. -/
theorem settleVote_of_not_lt {s : State F} {sv : SignedVote}
    (hlt : ¬ s.eng.height < sv.vote.height) :
    Exec.result (settleVote E s.eng.height sv) s = Exec.result (do
        checkVoteSender sv.vote.height sv.vote.voter
        sendBft E (.vote sv.vote.toBftVote) "BftVote")
      { s with eng.votes := (s.eng.votes.add sv.vote.height sv.vote.round sv.vote.voteType
          sv.vote.toBftVote sv).2 } := by
  refine (Exec.result_bind_ok (Exec.result_doIf_of_not hlt _ s)).trans ?_
  unfold admitVote
  simp only [bind_assoc, pure_bind]
  rfl

/-- **A vote is rejected without a trace if and only if it is of no later height, its sender is no
authority, and it is the latest vote.** -/
theorem settleVote_idle_iff (s : State F) (sv : SignedVote) :
    Idle (settleVote E s.eng.height sv) s ↔ ¬ s.eng.height < sv.vote.height ∧
      sv.vote.voter ∉ s.eng.authority.setAt sv.vote.height ∧ s.eng.votes.Latest sv.vote.height
        sv.vote.round sv.vote.voteType sv.vote.toBftVote := by
  by_cases hlt : s.eng.height < sv.vote.height
  · refine iff_of_false (fun hidle => ?_) fun h => h.1 hlt
    have hcache : s.eng.voteCache.pushEntry sv.vote.height sv = s.eng.voteCache := by
      simpa [settleVote_of_lt hlt] using hidle.voteCache
    have hlookup := HashMap.lookup_pushEntry s.eng.voteCache sv.vote.height sv.vote.height sv
    rw [hcache, if_pos rfl] at hlookup
    cases hl : s.eng.voteCache.lookup sv.vote.height <;> simp [hl] at hlookup
  rw [and_iff_right hlt]
  obtain ⟨s₁, hs₁⟩ : ∃ s₁ : State F, s₁ = { s with eng.votes := (s.eng.votes.add sv.vote.height
    sv.vote.round sv.vote.voteType sv.vote.toBftVote sv).2 } := ⟨_, rfl⟩
  have hsame : s₁.eng.votes.Same s.eng.votes ↔ s.eng.votes.Latest sv.vote.height
      sv.vote.round sv.vote.voteType sv.vote.toBftVote := by
    rw [hs₁]
    exact VoteCollector.same_add_iff
  have hsettle := settleVote_of_not_lt (E := E) hlt
  rw [← hs₁] at hsettle
  by_cases hmem : sv.vote.voter ∈ s.eng.authority.setAt sv.vote.height
  · refine iff_of_false (fun hidle => ?_) fun h => h.1 hmem
    have hadmitted : Exec.result (checkVoteSender (F := F) sv.vote.height sv.vote.voter) s₁ =
        (.ok ⟨⟩, s₁) := Exec.result_rejectIf_of_not (by rw [hs₁]; exact not_not.2 hmem) _ _
    have hsent := hidle.sent
    rw [hsettle, Exec.result_bind_ok hadmitted, sendBft_sends, hs₁] at hsent
    change s.sentBft ++ _ = s.sentBft at hsent
    simp at hsent
  · have hreject : Exec.result (checkVoteSender (F := F) sv.vote.height sv.vote.voter) s₁ =
        (.error (.err .invalidVoter), s₁) :=
      Exec.result_rejectIf_of (by rw [hs₁]; exact hmem) _ _
    rw [and_iff_right hmem, ← hsame]
    exact idle_of_error (hsettle.trans (Exec.result_bind_error hreject)) (by rw [hs₁]; rfl)
      (by rw [hs₁]) (by rw [hs₁])

end ConsensusBft

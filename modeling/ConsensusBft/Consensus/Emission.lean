import ConsensusBft.Consensus.Life

/-!
# What the engine proposes and commits

* `LockVotesOf eng p l` : the signed votes that a proposal of the BFT core is sent with.
* `ProofOf eng p proof` : the proof that it is sent with.
* `Built E s p sp` : `sp` is what `build_signed_proposal` makes of `p`.
* `Emitted E s p bytes` : `bytes` is what `handle_proposal` makes of `p`, the block included.
* `OnlyCalls P s s'` : all calls between the two states satisfy `P`.
* `Prepares s s'` : what the engine does with a message of its BFT core before it hands it out.
* `handleProposal_emits` : **this is all that `handle_proposal` returns.**
* `handleCommit_leaves` : what `handle_commit` leaves, whether it returns a commit or not.
-/

namespace ConsensusBft

open Exec (Steps doIf)

variable {F : Type} [Content F] {E : Env F} {s s' s'' : State F} {p : BftProposal}

/-! ### Calls between two states -/

/-- The calls made since `s`. -/
def State.callsSince (s' s : State F) : List (Call F) := s'.calls.drop s.calls.length

/-- The call hands out a message to the network, or a commit to the application. -/
def Event.isOutput : Event F → Bool
  | .transmit _ _ | .commit _ _ => true
  | _ => false

/-- All calls that were made between the two states satisfy `P`. -/
def OnlyCalls (P : Event F → Prop) (s s' : State F) : Prop :=
  ∃ calls, s'.calls = s.calls ++ calls ∧ ∀ call ∈ calls, P call.event

namespace OnlyCalls

variable {P Q : Event F → Prop}

omit [Content F]

theorem of_calls_eq (h : s'.calls = s.calls) : OnlyCalls P s s' :=
  ⟨[], by rw [h, List.append_nil], List.forall_mem_nil _⟩

theorem trans (h : OnlyCalls P s s') (h' : OnlyCalls P s' s'') : OnlyCalls P s s'' := by
  obtain ⟨l, hl, hP⟩ := h
  obtain ⟨l', hl', hP'⟩ := h'
  refine ⟨l ++ l', by rw [hl', hl, List.append_assoc], ?_⟩
  intro call hmem
  rcases List.mem_append.1 hmem with hmem | hmem
  · exact hP call hmem
  · exact hP' call hmem

theorem of_moves (h : Relation.ReflTransGen (OnlyCalls P) s s') : OnlyCalls P s s' := by
  induction h with
  | refl => exact of_calls_eq rfl
  | tail _ h' ih => exact ih.trans h'

theorem record {e : Event F} (h : P e) : OnlyCalls P s (s.record e) := by
  refine ⟨[⟨s.eng, s.disk, e⟩], rfl, ?_⟩
  intro call hmem
  obtain rfl := List.mem_singleton.1 hmem
  exact h

theorem mono (h : OnlyCalls P s s') (hQ : ∀ e, P e → Q e) : OnlyCalls Q s s' := by
  obtain ⟨l, hl, hP⟩ := h
  exact ⟨l, hl, fun call hmem => hQ _ (hP call hmem)⟩

theorem of_mem {call : Call F} (h : OnlyCalls P s s') (hmem : call ∈ s'.callsSince s) :
    P call.event := by
  obtain ⟨l, hl, hP⟩ := h
  rw [State.callsSince, hl, List.drop_left] at hmem
  exact hP call hmem

end OnlyCalls

/-- What the engine does with a message of its BFT core before it hands it out: it logs it, has it
signed and its block checked, and uses the votes, the proposals and the proof. -/
inductive Prepares : State F → State F → Prop
  | log (s : State F) (w : WalState) : Prepares s (s.setWal w)
  | sign (s : State F) (hash : Hash) (res : Except String Signature) :
      Prepares s (s.record (.sign hash res))
  | check (s : State F) (hash : Hash) (block : F) (bytes : Bytes) (isLock isBySelf : Bool)
      (res : Except String Unit) (queue : List (AsyncMsg F)) : Prepares s { s.record
        (.checkProposal hash block bytes isLock isBySelf res) with asyncQueue := queue }
  | votes (s : State F) (votes : VoteCollector) : Prepares s { s with eng.votes := votes }
  | proposals (s : State F) (proposals : ProposalCollector) :
      Prepares s { s with eng.proposals := proposals }
  | proof (s : State F) (proof : Option Proof) : Prepares s { s with eng.proof := proof }

omit [Content F] in
/-- The only calls are for a signature, and for the check of a block. -/
theorem Prepares.onlyCalls {P : Event F → Prop} (h : Prepares s s')
    (hsign : ∀ hash res, P (.sign hash res)) (hcheck : ∀ hash block bytes isLock isBySelf res,
      P (.checkProposal hash block bytes isLock isBySelf res)) : OnlyCalls P s s' := by
  cases h with
  | sign hash res => exact .record (hsign hash res)
  | check hash block bytes isLock isBySelf res queue =>
    have hrecord : OnlyCalls P s (s.record (.checkProposal hash block bytes isLock isBySelf res)) :=
      .record (hcheck ..)
    exact hrecord.trans (.of_calls_eq rfl)
  | _ => exact .of_calls_eq rfl

/-! ### Proposals -/

/-- The signed votes that go with the lock votes of a proposal, found under its height and round. -/
def LockVotesOf (eng : Consensus F) (p : BftProposal) (l : List SignedVote) : Prop :=
  if p.lockRound.isSome then ∃ vs, eng.votes.voteSet p.height p.round .prevote = some vs ∧
    p.lockVotes.mapM vs.signed = .ok l
  else l = []

/-- The proof of a proposal: an empty one at height `1`, later the one that is kept. -/
def ProofOf (eng : Consensus F) (p : BftProposal) (proof : Proof) : Prop :=
  if eng.height = 1 then proof = ⟨p.content, 0, 0, ∅⟩ else eng.proof = some proof

/-- What `build_signed_proposal` makes of a proposal of the BFT core. -/
structure Built (E : Env F) (s : State F) (p : BftProposal) (sp : SignedProposal) : Prop where
  height : sp.proposal.height = p.height
  round : sp.proposal.round = p.round
  hash : sp.proposal.hash = p.content
  lockRound : sp.proposal.lockRound = p.lockRound
  proposer : sp.proposal.proposer = p.proposer
  lockVotes : LockVotesOf s.eng p sp.proposal.lockVotes
  proof : ProofOf s.eng p sp.proposal.proof
  signed : ∃ n, E.support.sign n (E.support.hash sp.proposal.rlpBytes) = .ok sp.signature

/-- What `handle_proposal` makes of it: the signed proposal together with the block that is cached
under its hash. -/
structure Emitted (E : Env F) (s : State F) (p : BftProposal) (bytes : Bytes)
    (sp : SignedProposal) (content : F) (encoded : Bytes) : Prop extends Built E s p sp where
  current : p.height = s.eng.height
  cached : s.eng.blockOriginCache.lookup p.content = some content
  encode_eq : Content.encode content = .ok encoded
  bytes_eq : bytes = combine sp.rlpBytes (encodeBlock s.eng.height encoded p.content)

omit [Content F] in
theorem collectLockVotes_finds (p : BftProposal) (s : State F) :
    Steps Prepares (collectLockVotes p) (fun l s' => LockVotesOf s.eng p l ∧
      ∃ votes, s' = { s with eng.votes := votes }) s := by
  unfold collectLockVotes LockVotesOf
  by_cases hlock : p.lockRound.isSome
  · simp only [hlock, if_true]
    unfold getVoteSet
    simp only [bind_assoc, pure_bind]
    refine .bind_get (.bind_modify (.votes _ _) ?_)
    rw [VoteCollector.getVoteSet_fst]
    cases hvs : s.eng.votes.voteSet p.height p.round .prevote with
    | none => exact .throw
    | some vs => exact .lift fun l hl => ⟨⟨vs, rfl, hl⟩, _, rfl⟩
  · simp only [hlock]
    exact .pure ⟨rfl, s.eng.votes, rfl⟩

omit [Content F] in
theorem proofFor_finds (p : BftProposal) (s : State F) :
    Steps Prepares (proofFor p.content) (fun proof s' => ProofOf s.eng p proof ∧ s' = s) s := by
  unfold proofFor ProofOf
  refine .bind_get (.ite (fun hone => .pure ?_) fun hne => ?_)
  · exact ⟨by rw [if_pos hone], rfl⟩
  · cases s.eng.proof with
    | some proof => exact .pure ⟨by rw [if_neg hne], rfl⟩
    | none => exact .throw

omit [Content F] in
/-- **This is all that `build_signed_proposal` returns.** -/
theorem buildSignedProposal_builds (p : BftProposal) (s : State F) :
    Steps Prepares (buildSignedProposal E p) (fun sp s' => Built E s p sp ∧
      s'.eng.height = s.eng.height ∧ s'.eng.blockOriginCache = s.eng.blockOriginCache ∧
      ∃ eng files, s'.calls = s.calls ++
        [⟨eng, files, .sign (E.support.hash sp.proposal.rlpBytes) (.ok sp.signature)⟩]) s := by
  unfold buildSignedProposal callSign
  refine .bind_get (.bind_rejectIf fun _ => ?_)
  refine .bind (collectLockVotes_finds p s) ?_
  rintro l s₁ - ⟨hl, votes, rfl⟩
  refine .bind (proofFor_finds p _) ?_
  rintro proof s₂ - ⟨hproof, rfl⟩
  simp only [bind_assoc, pure_bind]
  refine .bind_get (.bind_modify (.sign _ _ _) (Steps.bind_orErr fun sig hsig => .pure ?_))
  exact ⟨⟨rfl, rfl, rfl, rfl, rfl, hl, hproof, _, hsig⟩, rfl, rfl, _, _, by rw [hsig]; rfl⟩

/-- **This is all that `handle_proposal` returns.**  It has the proposal signed, and has its block
checked. -/
theorem handleProposal_emits (p : BftProposal) (needWal : Bool) (s : State F) :
    Steps Prepares (handleProposal E p needWal) (fun bytes s' =>
      ∃ sp content encoded, Emitted E s p bytes sp content encoded ∧ ∃ eng files check,
        s'.calls = s.calls ++ [⟨eng, files, .sign (E.support.hash sp.proposal.rlpBytes)
          (.ok sp.signature)⟩, check]) s := by
  unfold handleProposal
  refine .bind_get (.bind_rejectIf fun hne => ?_)
  refine .bind (logIf_moves fun _ _ _ => .log _ _) ?_
  rintro _ s₁ - ⟨w, rfl⟩
  refine .bind (buildSignedProposal_builds p (s.setWal w)) ?_
  rintro sp s₂ - ⟨hb, hheight, hblocks, eng, files, hcalls⟩
  refine .bind_modify (.proposals _ _) (.bind_get ?_)
  dsimp only
  rw [hheight, hblocks]
  cases hl : (s.setWal w).eng.blockOriginCache.lookup p.content with
  | none => exact .throw
  | some content =>
    refine Steps.bind_orErr fun encoded henc => ?_
    unfold checkProposal
    simp only [bind_assoc]
    refine .bind_get (.bind_modify (.check ..) (.pure ⟨sp, content, encoded, ?_, eng, files, ?_⟩))
    · exact ⟨⟨hb.height, hb.round, hb.hash, hb.lockRound, hb.proposer, hb.lockVotes, hb.proof,
        hb.signed⟩, not_not.1 hne, hl, henc, rfl⟩
    · exact ⟨_, (congrArg (· ++ [_]) hcalls).trans (List.append_assoc s.calls _ _)⟩

/-! ### Votes -/

omit [Content F] in
theorem handleVote_prepares (v : BftVote) (needWal : Bool) (s : State F) :
    Steps Prepares (handleVote E v needWal) (fun _ _ => True) s := by
  unfold handleVote callSign
  refine .bind_get (.bind_rejectIf fun _ => .bind (logIf_moves fun _ _ _ => .log _ _) ?_)
  intro _ _ _ _
  simp only [bind_assoc, pure_bind]
  exact .bind_get (.bind_modify (.sign _ _ _) (Steps.bind_orErr fun _ _ =>
    .bind_modify (.votes _ _) (.pure trivial)))

/-! ### Commits -/

omit [Content F] in
theorem handleCommit_prepares (c : BftCommit) (needWal : Bool) (s : State F) :
    Steps Prepares (handleCommit E c needWal) (fun _ _ => True) s := by
  unfold handleCommit generateProof getVoteSet
  refine .bind_get (.bind_rejectIf fun _ => .bind (logIf_moves fun _ _ _ => .log _ _)
    fun _ s₁ _ _ => .bind_get ?_)
  cases s₁.eng.blockOriginCache.lookup c.proposal with
  | none => exact .throw
  | some block =>
    refine .bind (P := fun _ _ => True) ?_ fun proof _ _ _ =>
      .bind_modify (.proof _ _) (.pure trivial)
    refine .bind (P := fun _ _ => True)
      (.bind_get (.bind_modify (.votes _ _) (.pure trivial))) fun voteSet _ _ _ => ?_
    cases voteSet with
    | none => exact .throw
    | some voteSet => exact .bind_lift fun _ _ => .pure trivial

omit [Content F] in
theorem generateProof_leaves (height round : UInt64) (blockHash : Hash) (votes : List BftVote)
    (s : State F) : Exec.wp (generateProof height round blockHash votes)
      (fun proof s' => s'.eng.height = s.eng.height ∧ s'.calls = s.calls ∧ proof.height = height)
      (fun _ s' => s'.eng.height = s.eng.height ∧ s'.calls = s.calls ∧
        s'.eng.proof = s.eng.proof) s := by
  unfold generateProof getVoteSet
  simp only [bind_assoc, pure_bind]
  refine Exec.wp_bind.2 (Exec.wp_get.2 (Exec.wp_bind.2 ((Exec.wp_modify _).2 ?_)))
  rw [VoteCollector.getVoteSet_fst]
  cases s.eng.votes.voteSet height round .precommit with
  | none => exact ⟨rfl, rfl, rfl⟩
  | some vs =>
    exact Exec.wp_bind.2 (Exec.wp_lift.2 ⟨fun _ _ => ⟨rfl, rfl, rfl⟩, fun _ _ => ⟨rfl, rfl, rfl⟩⟩)

omit [Content F] in
/-- **A commit that is handled leaves its own proof; one that is not leaves the proof as it is.**
No call is made. -/
theorem handleCommit_leaves (c : BftCommit) (needWal : Bool) (s : State F) :
    Exec.wp (handleCommit E c needWal)
      (fun commit s' => s'.eng.height = s.eng.height ∧ s'.calls = s.calls ∧
        s'.eng.proof = some commit.proof ∧ commit.proof.height = c.height ∧
        commit.height = c.height ∧ s.eng.height ≤ c.height)
      (fun _ s' => s'.eng.height = s.eng.height ∧ s'.calls = s.calls ∧
        s'.eng.proof = s.eng.proof) s := by
  unfold handleCommit
  refine Exec.wp_bind.2 (Exec.wp_get.2 (Exec.wp_bind.2 (Exec.wp_rejectIf.2
    ⟨fun _ => ⟨rfl, rfl, rfl⟩, fun hge => Exec.wp_bind.2 ?_⟩)))
  have logged : Exec.wp (doIf (E.walOn && needWal)
      (saveJson E c.height LOG_TYPE_COMMIT "BftCommit" (E.serde.bftCommit.toString c)))
      (fun _ s' => ∃ w, s' = s.setWal w) (fun _ s' => ∃ w, s' = s.setWal w) s :=
    Exec.wp_doIf.2 ⟨fun _ => saveJson_leaves _ _ _ _ s, fun _ => ⟨s.walState, rfl⟩⟩
  refine logged.mono ?_ ?_
  · rintro _ _ ⟨w, rfl⟩
    refine Exec.wp_bind.2 (Exec.wp_get.2 ?_)
    dsimp only
    cases (s.setWal w).eng.blockOriginCache.lookup c.proposal with
    | none => exact ⟨rfl, rfl, rfl⟩
    | some block =>
      refine Exec.wp_bind.2 ((generateProof_leaves _ _ _ _ (s.setWal w)).mono ?_ fun _ _ h => h)
      exact fun proof s' h => ⟨h.1, h.2.1, rfl, h.2.2, rfl, UInt64.not_lt.1 hge⟩
  · rintro _ _ ⟨w, rfl⟩
    exact ⟨rfl, rfl, rfl⟩

end ConsensusBft

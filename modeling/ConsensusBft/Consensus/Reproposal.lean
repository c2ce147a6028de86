import ConsensusBft.Consensus.Reference

/-!
# Proposing a locked block again

A BFT core that is locked on a block proposes it again in later rounds, with the prevotes of the
lock.  The signed copies of these votes are looked up in the collector.

* `BuildsWith E s p l` : the engine builds a signed proposal for `p` with the lock votes `l`.
* `buildSignedProposal_result` : what `buildSignedProposal` returns for a locked proposal.
* `RoundHolds eng p round` : the collector holds the same copies under the round of the **proposal**
  as under the round of the lock.
* `reproposal_iff` : **a locked block is proposed again with its justification if and only if the
  round of the proposal holds it**; `lock_not_reproposed` : the next round does not.
-/

namespace ConsensusBft

variable {F : Type} {E : Env F} {s : State F} {p : BftProposal} {round : UInt64}

/-- All lock votes are found if and only if each has a signed copy. -/
theorem mapM_signed_eq_ok {vs : VoteSet} {votes : List BftVote} {l : List SignedVote} :
    votes.mapM vs.signed = .ok l ↔ votes.map (fun v => vs.votePair.lookup v) = l.map some := by
  induction votes generalizing l with
  | nil =>
    change Except.ok [] = Except.ok l ↔ [] = l.map some
    cases l <;> simp
  | cons v votes ih =>
    rw [List.mapM_cons]
    cases hv : vs.signed v with
    | error e =>
      have hnone : vs.votePair.lookup v = none := by
        by_contra hne
        obtain ⟨sv, hsv⟩ := Option.ne_none_iff_exists'.1 hne
        exact nomatch hv.symm.trans (VoteSet.signed_eq_ok.2 hsv)
      cases l with
      | nil => exact ⟨nofun, nofun⟩
      | cons sv l => simp [hnone, bind, Except.bind]
    | ok sv =>
      have hsome := VoteSet.signed_eq_ok.1 hv
      cases hrest : votes.mapM vs.signed with
      | error e =>
        have hne : ∀ l' : List SignedVote,
            votes.map (fun v => vs.votePair.lookup v) ≠ l'.map some := by
          intro l' hl'
          exact nomatch hrest.symm.trans (ih.2 hl')
        cases l with
        | nil => exact ⟨nofun, nofun⟩
        | cons sv' l => simp [hsome, hne l, bind, Except.bind]
      | ok l' =>
        have hl' := ih.1 hrest
        cases l with
        | nil => simp [bind, Except.bind, pure, Except.pure]
        | cons sv' l =>
          have hinj : Function.Injective (List.map (some : SignedVote → Option SignedVote)) :=
            List.map_injective_iff.2 (Option.some_injective SignedVote)
          simp [hsome, hl', bind, Except.bind, pure, Except.pure, hinj.eq_iff]

/-- The engine has the proof that its proposals carry. -/
def ProofUsable (eng : Consensus F) : Prop := eng.height = 1 ∨ eng.proof.isSome

theorem proofFor_result (hash : Hash) (h : ProofUsable s.eng) :
    ∃ proof, Exec.result (proofFor hash) s = (.ok proof, s) := by
  unfold proofFor
  rw [Exec.result_bind_get]
  by_cases hone : s.eng.height = 1
  · rw [if_pos hone]
    exact ⟨_, rfl⟩
  · rw [if_neg hone]
    obtain ⟨proof, hproof⟩ := Option.isSome_iff_exists.1 (h.resolve_left hone)
    rw [hproof]
    exact ⟨proof, rfl⟩

/-- The engine builds a signed proposal for `p` with the lock votes `l`. -/
def BuildsWith (E : Env F) (s : State F) (p : BftProposal) (l : List SignedVote) : Prop :=
  ∃ sp s', Exec.result (buildSignedProposal E p) s = (.ok sp, s') ∧ sp.proposal.lockVotes = l

/-- **What `buildSignedProposal` returns for a locked proposal**: the lock votes are the signed
copies found under the round of the proposal. -/
theorem buildSignedProposal_result (hproof : ProofUsable s.eng)
    (hsign : ∀ n hash, ∃ sig, E.support.sign n hash = .ok sig)
    (hlock : p.lockRound = some round) (l : List SignedVote) :
    BuildsWith E s p l ↔ ∃ vs, s.eng.votes.voteSet p.height p.round .prevote = some vs ∧
      p.lockVotes.mapM vs.signed = .ok l := by
  have husable : ¬ (s.eng.proof.isNone ∧ s.eng.height ≠ 1) := by
    rintro ⟨hnone, hne⟩
    have hsome := hproof.resolve_left hne
    rw [Option.isNone_iff_eq_none] at hnone
    simp [hnone] at hsome
  let s₁ : State F :=
    { s with eng.votes := (s.eng.votes.getVoteSet p.height p.round .prevote).2 }
  have hvotes : Exec.result (getVoteSet p.height p.round .prevote) s =
      (.ok (s.eng.votes.voteSet p.height p.round .prevote), s₁) := result_getVoteSet ..
  have hcollect : Exec.result (collectLockVotes p) s =
      ((s.eng.votes.voteSet p.height p.round .prevote).elim (.error (.err .noVoteset))
        fun vs => p.lockVotes.mapM vs.signed, s₁) := by
    unfold collectLockVotes
    rw [if_pos (by rw [hlock]; rfl), Exec.result_bind_ok hvotes]
    cases s.eng.votes.voteSet p.height p.round .prevote <;> rfl
  have hbuild : ∀ r, Exec.result (collectLockVotes p) s = (r, s₁) →
      (BuildsWith E s p l ↔ r = .ok l) := by
    intro r hr
    unfold BuildsWith buildSignedProposal
    rw [Exec.result_bind_get, Exec.result_bind_rejectIf husable]
    cases r with
    | error e =>
      simp [Exec.result_bind_error hr]
    | ok lockVotes =>
      -- neither the proof nor the signature can fail
      obtain ⟨proof, hp⟩ := proofFor_result (s := s₁) p.content hproof
      rw [Exec.result_bind_ok hr, Exec.result_bind_ok hp]
      dsimp only
      simp only [callSign, bind_assoc, pure_bind, Exec.result_bind_get, Exec.result_bind_modify]
      obtain ⟨sig, hsig⟩ := hsign s₁.calls.length (E.support.hash (Proposal.rlpBytes
        { height := p.height, round := p.round, hash := p.content, proof,
          lockRound := p.lockRound, lockVotes, proposer := p.proposer }))
      rw [hsig]
      constructor
      · rintro ⟨sp, s', hres, rfl⟩
        obtain rfl := Except.ok.inj (congrArg Prod.fst hres)
        rfl
      · intro heq
        obtain rfl := Except.ok.inj heq
        exact ⟨_, _, rfl, rfl⟩
  rw [hbuild _ hcollect]
  cases s.eng.votes.voteSet p.height p.round .prevote <;> simp

/-- The collector holds the signed copies of the lock votes under the round of the proposal, the
same ones as under the round of the lock. -/
def RoundHolds (eng : Consensus F) (p : BftProposal) (round : UInt64) : Prop :=
  ∃ vs, eng.votes.voteSet p.height p.round .prevote = some vs ∧
    ∀ v ∈ p.lockVotes, vs.votePair.lookup v = eng.votes.stored p.height round .prevote v

/-- **A locked block is proposed again with its justification if and only if the round of the
proposal holds the lock votes.**  In particular it is if the proposal is of the round of the lock
and has lock votes at all. -/
theorem reproposal_iff (s : State F) (p : BftProposal) (round : UInt64) (copies : List SignedVote)
    (hproof : ProofUsable s.eng) (hsign : ∀ n hash, ∃ sig, E.support.sign n hash = .ok sig)
    (hlock : p.lockRound = some round)
    (hcopies : p.lockVotes.map (s.eng.votes.stored p.height round .prevote) = copies.map some) :
    (BuildsWith E s p copies ↔ RoundHolds s.eng p round) ∧
      (p.round = round → p.lockVotes ≠ [] → RoundHolds s.eng p round) := by
  rw [buildSignedProposal_result hproof hsign hlock]
  constructor
  · refine exists_congr fun vs => and_congr_right fun _ => ?_
    rw [mapM_signed_eq_ok, ← hcopies, List.map_inj_left]
  · rintro rfl hne
    -- a vote that is stored is stored in a vote set
    obtain ⟨v, hv⟩ := List.exists_mem_of_ne_nil _ hne
    have hmem : s.eng.votes.stored p.height p.round .prevote v ∈ copies.map some := by
      rw [← hcopies]
      exact List.mem_map_of_mem hv
    obtain ⟨sv, -, hsv⟩ := List.mem_map.1 hmem
    rw [VoteCollector.stored_eq] at hsv
    obtain ⟨vs, hvs, -⟩ := Option.bind_eq_some_iff.1 hsv.symm
    refine ⟨vs, hvs, ?_⟩
    intro v _
    rw [VoteCollector.stored_eq, hvs]
    rfl

/-- The prevote of the only authority for round `0`. -/
def lockVote : SignedVote := Reference.signedVote .prevote 1 0 [5] [7]

/-- The only authority prevotes in round `0`. -/
def lockRun : List Input := Reference.readyRun [7] ++ [.core (.vote lockVote.vote.toBftVote)]

/-- It proposes the block again in the given round. -/
def lockedAgain (round : UInt64) : BftProposal :=
  ⟨1, round, [5], some 0, [lockVote.vote.toBftVote], [7]⟩

/-- The lock vote is stored under round `0`. -/
theorem exists_lockRun (f : Process Block → Bool)
    (hf : (Reference.run (Reference.env [7]) [7] lockRun).any (fun p => decide
      (p.state.eng.height = 1 ∧ p.state.eng.votes.stored 1 0 .prevote lockVote.vote.toBftVote =
        some lockVote) && f p) = true) :
    ∃ p, Life (Reference.env [7]) [7] Reference.disk lockRun p ∧ ProofUsable p.state.eng ∧
      (∀ round, (lockedAgain round).lockVotes.map (p.state.eng.votes.stored 1 0 .prevote) =
        [lockVote].map some) ∧ f p = true := by
  obtain ⟨p, hp, h⟩ := Reference.exists_life (Reference.env [7]) [7] lockRun _ hf
  obtain ⟨h, hfp⟩ := Bool.and_eq_true_iff.1 h
  obtain ⟨hheight, hst⟩ := of_decide_eq_true h
  refine ⟨p, hp, Or.inl hheight, fun round => ?_, hfp⟩
  rw [lockedAgain, List.map_singleton, hst]
  rfl

/-- In round `0` the block is proposed again with the vote. -/
theorem reproposal_iff_same_round :
    ∃ p, Life (Reference.env [7]) [7] Reference.disk lockRun p ∧
      BuildsWith (Reference.env [7]) p.state (lockedAgain 0) [lockVote] := by
  obtain ⟨p, hp, hproof, hcopies, -⟩ := exists_lockRun (fun _ => true) (by decide +kernel)
  have hiff := reproposal_iff (E := Reference.env [7]) p.state (lockedAgain 0) 0 [lockVote] hproof
    (fun _ _ => ⟨[7], rfl⟩) rfl (hcopies 0)
  exact ⟨p, hp, hiff.1.2 (hiff.2 rfl (by decide))⟩

/-- In round `1` it is not: no vote set is found. -/
theorem lock_not_reproposed :
    ∃ p, Life (Reference.env [7]) [7] Reference.disk lockRun p ∧ ProofUsable p.state.eng ∧
      (lockedAgain 1).lockVotes.map (p.state.eng.votes.stored 1 0 .prevote) =
        [lockVote].map some ∧
      ∃ s', Exec.result (buildSignedProposal (Reference.env [7]) (lockedAgain 1)) p.state =
        (.error (.err .noVoteset), s') := by
  obtain ⟨p, hp, hproof, hcopies, hf⟩ := exists_lockRun (fun p => Exec.failsWith .noVoteset
    (Exec.result (buildSignedProposal (Reference.env [7]) (lockedAgain 1)) p.state).1)
    (by decide +kernel)
  exact ⟨p, hp, hproof, hcopies 1, _, Prod.ext (Exec.failsWith_iff.1 hf) rfl⟩

end ConsensusBft

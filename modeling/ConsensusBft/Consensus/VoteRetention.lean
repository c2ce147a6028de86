import ConsensusBft.Consensus.Reference

/-!
# Accepted votes stay available

The collector keeps the votes of the sixteen heights that were used last and, at each height, of
the sixteen rounds that were used last.

* `Accepted E h r t bv s s'` : a vote of the current height was accepted, or the node made it.
* `footprint E H R h r` : the messages that use only the heights of `H` besides `h` and, at `h`,
  only the rounds of `R` besides `r`.
* `Undisturbed E h r s p` : only such messages were taken since, for less than sixteen other heights
  and less than sixteen other rounds.
* `accepted_votes_available` : **an accepted vote stays available as long as it is undisturbed**,
  and so a proof can be made of such votes.
* `flooded_vote_lost` : sixteen rejected votes of a stranger are enough to lose one.
-/

namespace ConsensusBft

open Exec (Steps)
open VoteCollector (Kept)

variable {F : Type} [Content F] {E : Env F} {s s' : State F} {H R : Finset UInt64}
variable {h r : UInt64} {t : VoteType} {bv : BftVote} {sv : SignedVote}

/-! ### Acceptance -/

/-- A vote of the current height was accepted by `handle_signed_vote`, or made by `handle_vote`. -/
inductive Accepted (E : Env F) :
    UInt64 → UInt64 → VoteType → BftVote → State F → State F → Prop
  | network {sv : SignedVote} {needWal : Bool} {v : BftVote} {s s' : State F}
      (accepted : Exec.result (handleSignedVote E sv needWal) s = (.ok v, s'))
      (current : sv.vote.height = s.eng.height) :
      Accepted E sv.vote.height sv.vote.round sv.vote.voteType v s s'
  | own {v : BftVote} {needWal : Bool} {sv : SignedVote} {s s' : State F}
      (made : Exec.result (handleVote E v needWal) s = (.ok sv, s'))
      (current : v.height = s.eng.height) :
      Accepted E v.height v.round v.voteType.toVoteType v s s'

omit [Content F] in
/-- A vote that is accepted was just added to the collector. -/
theorem handleSignedVote_adds (sv : SignedVote) (needWal : Bool) :
    Steps (fun _ _ => True) (handleSignedVote E sv needWal) (fun v s' => ∃ vc : VoteCollector,
      s'.eng.votes = (vc.add sv.vote.height sv.vote.round sv.vote.voteType v sv).2) s := by
  unfold handleSignedVote
  refine Steps.bind_verifySignature fun a _ => .bind_get (.bind_lift fun _ _ =>
    .bind_rejectIf fun _ => .bind_rejectIf fun _ => ?_)
  refine .bind (P := fun _ _ => True) (.doIf (fun _ => ?_) fun _ => trivial) fun _ s₁ _ _ => ?_
  · refine .bind (logIf_moves fun _ _ _ => trivial) fun _ _ _ _ =>
      .doIf (fun _ => ?_) fun _ => trivial
    exact .bind_modify trivial .throw
  · refine .bind_modify trivial (.bind (checkVoteSender_moves ..) fun _ s₂ _ hs₂ => .pure ?_)
    rw [hs₂.1]
    exact ⟨s₁.eng.votes, rfl⟩

omit [Content F] in
/-- So was a vote that the node made. -/
theorem handleVote_adds (v : BftVote) (needWal : Bool) :
    Steps (fun _ _ => True) (handleVote E v needWal) (fun sv s' => ∃ vc : VoteCollector,
      s'.eng.votes = (vc.add v.height v.round v.voteType.toVoteType v sv).2) s := by
  unfold handleVote callSign
  refine .bind_get (.bind_rejectIf fun _ => ?_)
  refine .bind (logIf_moves fun _ _ _ => trivial) ?_
  intro _ _ _ _
  simp only [bind_assoc, pure_bind]
  refine .bind_get (.bind_modify trivial (Steps.bind_orErr fun _ _ => ?_))
  exact .bind_modify trivial (.pure ⟨_, rfl⟩)

/-- **An accepted vote is kept**, and nothing else was used since. -/
theorem Accepted.kept (ha : Accepted E h r t bv s s') :
    (∃ sv, Kept ∅ ∅ h r t bv sv s'.eng.votes) ∧ s'.eng.height = h := by
  cases ha with
  | @network sv needWal _ _ _ accepted current =>
    obtain ⟨vc, hvc⟩ := (handleSignedVote_adds sv needWal).ok accepted
    have hm := (handleSignedVote_moves (E := E) (s := s)
      (show (Source.all F).vote sv from trivial) needWal).reached accepted
    exact ⟨⟨_, hvc ▸ Kept.of_add vc ..⟩, (Stills.height_eq hm).trans current.symm⟩
  | @own _ needWal _ _ _ made current =>
    obtain ⟨vc, hvc⟩ := (handleVote_adds bv needWal).ok made
    have hm := (handleVote_moves (E := E) (S := Source.all F) (s := s) (v := bv) trivial
      needWal).reached made
    exact ⟨⟨_, hvc ▸ Kept.of_add vc ..⟩, (Stills.height_eq hm).trans current.symm⟩

/-! ### What does not disturb a vote -/

/-- The coordinates are `h` and `r`, another height of `H`, or another round of `R` at `h`. -/
def Within (H R : Finset UInt64) (h r h' r' : UInt64) : Prop :=
  (h' ≠ h → h' ∈ H) ∧ (h' = h → r' ≠ r → r' ∈ R)

/-- The messages that use the collector within `H` and `R` only.  A vote is used if it is genuine
and not ahead of `h`, a proposal if it is genuine and a lock vote of it is. -/
def footprint (E : Env F) (H R : Finset UInt64) (h r : UInt64) : Supply F where
  vote sv := sv.Genuine E → sv.vote.height ≤ h → Within H R h r sv.vote.height sv.vote.round
  proposal sp := sp.Genuine E → ∀ round, sp.proposal.lockRound = some round →
    ∀ sv ∈ sp.proposal.lockVotes, sv.Genuine E → Within H R h r sp.proposal.height round
  block _ _ := True
  core
    | .proposal p => p.lockRound.isSome → Within H R h r p.height p.round
    | .vote v => Within H R h r v.height v.round
    | .commit c => Within H R h r c.height c.round
    | .getProposalRequest _ => True

/-- A vote is kept, and the engine is still at its height. -/
def KeptAt (H R : Finset UInt64) (h r : UInt64) (t : VoteType) (bv : BftVote) (sv : SignedVote)
    (s : State F) : Prop :=
  Kept H R h r t bv sv s.eng.votes ∧ s.eng.height = h

/-- **Every update within the footprint keeps the vote**, as long as the height stays. -/
theorem Level.kept (hH : H.card < CACHE_NUMBER) (hR : R.card < CACHE_NUMBER)
    (hs : Level E (footprint E H R h r) s s') (hk : KeptAt H R h r t bv sv s) :
    KeptAt H R h r t bv sv s' := by
  obtain ⟨hkept, hheight⟩ := hk
  refine ⟨?_, hs.height_eq.trans hheight⟩
  cases hs.update with
  | addVote h' r' t' v sv' filed =>
    -- the three ways of filing a vote are the three kinds of coordinates that the footprint bounds
    have hw : Within H R h r h' r' := by
      cases filed with
      | network received genuine height_le => exact received genuine (hheight ▸ height_le)
      | lock received proposed lock mem genuine => exact received proposed _ lock _ mem genuine
      | own received signed => exact received
    exact hkept.add hw.1 hw.2 hH hR
  | readVotes h' r' t' consulted =>
    have hw : Within H R h r h' r' := by
      cases consulted with
      | proposal received locked => exact received locked
      | commit received => exact received
    exact hkept.getVoteSet hw.1 hw.2 hH hR
  | _ => exact hkept

/-- The engine went from `s`, in the middle of a turn, to `p`.  The height did not move, and only
messages within a footprint of less than sixteen other heights and less than sixteen other rounds
were taken. -/
def Undisturbed (E : Env F) (h r : UInt64) (s : State F) (p : Process F) : Prop :=
  ∃ H R : Finset UInt64, H.card < CACHE_NUMBER ∧ R.card < CACHE_NUMBER ∧
    ∃ s₁ is, Relation.ReflTransGen (Level E (footprint E H R h r)) s s₁ ∧
      Machine.runFrom (next E) ⟨s₁, []⟩ is = some p ∧
      Machine.EachStep (next E) (fun p i => KeepsHeight i ∧ Supplied E (footprint E H R h r) p i)
        ⟨s₁, []⟩ is

/-- **An accepted vote is still stored if it is undisturbed.** -/
theorem Accepted.stored {s₁ : State F} {p : Process F} (ha : Accepted E h r t bv s s₁)
    (hu : Undisturbed E h r s₁ p) : ∃ sv, p.state.eng.votes.stored h r t bv = some sv := by
  obtain ⟨H, R, hH, hR, s₂, is, hrest, hrun, hin⟩ := hu
  obtain ⟨⟨sv, hkept⟩, hheight⟩ := ha.kept
  have keep : ∀ s s' : State F, Relation.ReflTransGen (Level E (footprint E H R h r)) s s' →
      KeptAt H R h r t bv sv s → KeptAt H R h r t bv sv s' := by
    intro s s' hm hk
    exact Exec.invariant_of_moves (I := KeptAt H R h r t bv sv)
      (fun _ _ => Level.kept hH hR) hm hk
  have h₁ : KeptAt H R h r t bv sv s₁ :=
    ⟨hkept.mono (Finset.empty_subset H) (Finset.empty_subset R), hheight⟩
  have hp : KeptAt H R h r t bv sv p.state := by
    refine Machine.invariant_of_eachStep (I := fun p => KeptAt H R h r t bv sv p.state)
      (keep s₁ s₂ hrest h₁) ?_ hrun hin
    intro p i p' hk hC hn
    have hi : i ≠ .replay := by
      rintro rfl
      exact hC.1
    obtain ⟨s', -, hl, rfl⟩ := live_of_next hi hn
    exact keep p.state s' (liveNext_level hC.1 hC.2 hl) hk
  exact ⟨sv, hp.1.stored⟩

/-! ### Proofs of available votes -/

theorem collectSignatures_total {vs : VoteSet} {votes : List BftVote}
    (hall : ∀ v ∈ votes, ∃ sv, vs.votePair.lookup v = some sv) :
    ∃ m, collectSignatures vs votes = .ok m := by
  unfold collectSignatures
  generalize (∅ : HashMap Address Signature) = acc
  induction votes generalizing acc with
  | nil => exact ⟨acc, rfl⟩
  | cons v votes ih =>
    obtain ⟨sv, hsv⟩ := hall v List.mem_cons_self
    obtain ⟨m, hm⟩ := ih (fun w hw => hall w (List.mem_cons_of_mem v hw))
      (acc.orInsert v.voter sv.signature)
    refine ⟨m, ?_⟩
    have hadd : addSignature vs acc v = .ok (acc.orInsert v.voter sv.signature) := by
      simp only [addSignature, VoteSet.signed, hsv]
      rfl
    rw [List.foldlM_cons, hadd]
    exact hm

omit [Content F] in
/-- A proof can be made of stored precommits. -/
theorem generateProof_ok {hash : Hash} {votes : List BftVote} (hne : votes ≠ [])
    (hall : ∀ v ∈ votes, ∃ sv, s.eng.votes.stored h r .precommit v = some sv) :
    ∃ proof s', Exec.result (generateProof h r hash votes) s = (.ok proof, s') := by
  obtain ⟨v, hv⟩ := List.exists_mem_of_ne_nil votes hne
  obtain ⟨sv, hsv⟩ := hall v hv
  rw [VoteCollector.stored_eq] at hsv
  obtain ⟨vs, hvs, -⟩ := Option.bind_eq_some_iff.1 hsv
  have hvotes : ∀ v ∈ votes, ∃ sv, vs.votePair.lookup v = some sv := by
    intro v hv
    obtain ⟨sv, hst⟩ := hall v hv
    rw [VoteCollector.stored_eq, hvs] at hst
    exact ⟨sv, hst⟩
  obtain ⟨m, hm⟩ := collectSignatures_total hvotes
  unfold generateProof
  rw [Exec.result_bind_ok (result_getVoteSet h r .precommit s), hvs]
  dsimp only
  rw [Exec.result_bind_lift hm]
  exact ⟨_, _, rfl⟩

/-- **Accepted votes stay available** as long as they are undisturbed: the vote set of their height,
round and type still contains them, and a proof can be made of a commit of such precommits. -/
theorem accepted_votes_available (E : Env F) (h r : UInt64) (p : Process F) :
    (∀ t bv s s', Accepted E h r t bv s s' → Undisturbed E h r s' p →
      ∃ vs, (p.state.eng.votes.getVoteSet h r t).1 = some vs ∧ (vs.votePair.lookup bv).isSome) ∧
    ∀ hash votes, votes ≠ [] → (∀ v ∈ votes, ∃ s s', Accepted E h r .precommit v s s' ∧
        Undisturbed E h r s' p) →
      ∃ proof s', Exec.result (generateProof h r hash votes) p.state = (.ok proof, s') := by
  constructor
  · intro t bv s s' ha hu
    obtain ⟨sv, hsv⟩ := ha.stored hu
    rw [VoteCollector.stored_eq] at hsv
    obtain ⟨vs, hvs, hl⟩ := Option.bind_eq_some_iff.1 hsv
    rw [VoteCollector.getVoteSet_fst]
    exact ⟨vs, hvs, by rw [hl]; rfl⟩
  · intro hash votes hne hall
    refine generateProof_ok hne ?_
    intro v hv
    obtain ⟨s, s', ha, hu⟩ := hall v hv
    exact ha.stored hu

/-- The first precommit of the only authority, for round `0`. -/
def firstPrecommit : SignedVote := Reference.signedVote .precommit 1 0 [5] [7]

/-- A precommit for the given round. -/
def precommitInput (voter : Address) (round : UInt64) : Input :=
  .external (.signedVote (Reference.voteBytes .precommit 1 round [5] voter))

/-- A precommit for another round leaves the first one available. -/
theorem accepted_votes_available_run :
    ∃ p, Life (Reference.env [7]) [7] Reference.disk (Reference.readyRun [7]) p ∧
    ∃ v s', Exec.result (handleSignedVote (Reference.env [7]) firstPrecommit true) p.state =
        (.ok v, s') ∧
      ∃ p', Machine.runFrom (next (Reference.env [7])) ⟨s', []⟩ [precommitInput [7] 1] = some p' ∧
        ∃ vs, (p'.state.eng.votes.getVoteSet 1 0 .precommit).1 = some vs ∧
          (vs.votePair.lookup v).isSome := by
  obtain ⟨p, hp, hf⟩ := Reference.exists_life (Reference.env [7]) [7] (Reference.readyRun [7])
    (fun p =>
      let handled := Exec.result (handleSignedVote (Reference.env [7]) firstPrecommit true) p.state
      p.state.eng.height = 1 ∧ handled.1.isOk ∧
        (Machine.runFrom (next (Reference.env [7])) ⟨handled.2, []⟩ [precommitInput [7] 1]).isSome)
    (by decide +kernel)
  obtain ⟨hheight, hok, hsome⟩ := of_decide_eq_true hf
  obtain ⟨v, s', hr⟩ := Exec.exists_of_isOk hok
  rw [hr] at hsome
  obtain ⟨p', hrun⟩ := Option.isSome_iff_exists.1 hsome
  refine ⟨p, hp, v, s', hr, p', hrun, ?_⟩
  have hacc : Accepted (Reference.env [7]) 1 0 .precommit v p.state s' :=
    .network hr hheight.symm
  refine (accepted_votes_available (Reference.env [7]) 1 0 p').1 .precommit v p.state s' hacc
    ⟨∅, {1}, by decide, by decide, s', [precommitInput [7] 1], .refl, hrun, ?_⟩
  -- the only input is a vote for round `1`
  intro is₁ i is₂ p₁ his _
  have hi : i ∈ [precommitInput [7] 1] := by simp [his]
  obtain rfl := List.mem_singleton.1 hi
  refine ⟨trivial, ?_, fun _ _ _ hb => hb.elim, fun _ _ _ _ _ => trivial,
    fun _ hb => hb.elim⟩
  intro sv hb _ _
  have hd : SignedVote.decode (Reference.env [7]).rlp
      (Reference.voteBytes .precommit 1 1 [5] [7]) =
      .ok (Reference.signedVote .precommit 1 1 [5] [7]) := by
    rfl
  obtain rfl := Except.ok.inj (hd.symm.trans hb)
  exact ⟨fun hne => absurd rfl hne, fun _ _ => by decide⟩

/-- The precommit of a stranger for the round after `n`. -/
def strangerPrecommit (n : ℕ) : Bytes :=
  Reference.voteBytes .precommit 1 (n + 1).toUInt64 [5] [9]

/-- Sixteen of them, for sixteen other rounds. -/
def floodInputs : List Input :=
  (List.range 16).map fun n => .external (.signedVote (strangerPrecommit n))

/-- The precommit of the only authority is accepted.  Sixteen precommits of a stranger follow, each
of which is rejected; after them the first one is lost, and no proof can be made of it. -/
theorem flooded_vote_lost : ∃ p p',
    Life (Reference.env [7]) [7] Reference.disk (Reference.readyRun [7]) p ∧
    (Exec.result (handleSignedVote (Reference.env [7]) firstPrecommit true) p.state).1.isOk ∧
    p.state.eng.height = 1 ∧
    (∀ n < 16, ∃ q, Machine.runFrom (next (Reference.env [7])) p
        (precommitInput [7] 0 :: floodInputs.take n) = some q ∧
      (Exec.result (externalProcess (Reference.env [7]) (.signedVote (strangerPrecommit n)))
        q.state).1 = .error (.err .invalidVoter)) ∧
    Machine.runFrom (next (Reference.env [7])) p (precommitInput [7] 0 :: floodInputs) = some p' ∧
    p'.state.eng.height = 1 ∧ (p'.state.eng.votes.getVoteSet 1 0 .precommit).1.isNone ∧
    (Exec.result (generateProof 1 0 [5] [firstPrecommit.vote.toBftVote]) p'.state).1.isOk =
      false := by
  obtain ⟨p, hl, hf⟩ := Reference.exists_life (Reference.env [7]) [7] (Reference.readyRun [7])
    (fun p => p.state.eng.height = 1 ∧
      (Exec.result (handleSignedVote (Reference.env [7]) firstPrecommit true) p.state).1.isOk)
    (by decide +kernel)
  obtain ⟨hheight, hok⟩ := of_decide_eq_true hf
  -- what happens behind the first vote
  have behind : ∀ {is : List Input} {f : Process Block → Bool},
      (Reference.run (Reference.env [7]) [7] (Reference.readyRun [7] ++ is)).any f = true →
      ∃ q, Machine.runFrom (next (Reference.env [7])) p is = some q ∧ f q = true := by
    intro is f hany
    obtain ⟨q, ⟨p₀, hb, hr⟩, hfq⟩ := Reference.exists_life (Reference.env [7]) [7] _ f hany
    obtain ⟨p₁, hr₁, hr₂⟩ := Machine.runFrom_append.1 hr
    obtain rfl := Life.unique ⟨p₀, hb, hr₁⟩ hl
    exact ⟨q, hr₂, hfq⟩
  have hrejected : ∀ n < 16, (Reference.run (Reference.env [7]) [7] (Reference.readyRun [7] ++
      precommitInput [7] 0 :: floodInputs.take n)).any (fun q => Exec.failsWith .invalidVoter
        (Exec.result (externalProcess (Reference.env [7]) (.signedVote (strangerPrecommit n)))
          q.state).1) = true := by decide +kernel
  obtain ⟨p', hr', hf'⟩ := @behind (precommitInput [7] 0 :: floodInputs)
    (fun p' => p'.state.eng.height = 1 ∧ (p'.state.eng.votes.getVoteSet 1 0 .precommit).1.isNone ∧
      (Exec.result (generateProof 1 0 [5] [firstPrecommit.vote.toBftVote]) p'.state).1.isOk = false)
    (by decide +kernel)
  obtain ⟨hheight', hnone, herr⟩ := of_decide_eq_true hf'
  refine ⟨p, p', hl, hok, hheight, fun n hn => ?_, hr', hheight', hnone, herr⟩
  obtain ⟨q, hq, hfails⟩ := behind (hrejected n hn)
  exact ⟨q, hq, Exec.failsWith_iff.1 hfails⟩

end ConsensusBft

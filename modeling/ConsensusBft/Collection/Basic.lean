import ConsensusBft.Data.LruCache
import ConsensusBft.Types.Basic

/-!
# Vote and proposal collectors

`collection.rs`: votes are kept by height, round and vote type.  The two outer levels are
least-recently-used caches of `CACHE_NUMBER` entries, the innermost one is a map from the vote of
the BFT core to the first signed vote given for it.

* `VoteCollector.stored` : the signed vote kept for a vote under a height, round and type.
* `VoteCollector.Kept` : a vote is stored, and only the heights of `H` and, at its height, the
  rounds of `R` were used since.  It survives every use of these coordinates
  (`VoteCollector.Kept.add`, `VoteCollector.Kept.getVoteSet`).
-/

namespace ConsensusBft

/-- The capacity of the caches, and the width of the window of future messages. -/
def CACHE_NUMBER : ℕ := 16

/-! ### Votes -/

/-- The votes of one height, round and type. -/
structure VoteSet where
  votePair : HashMap BftVote SignedVote

namespace VoteSet

/-- No votes. -/
def new : VoteSet := ⟨∅⟩

/-- Add a vote; the first signed vote given for it is kept.  Returns whether it was new. -/
def add (vs : VoteSet) (bftVote : BftVote) (signedVote : SignedVote) : Bool × VoteSet :=
  ((vs.votePair.lookup bftVote).isNone, ⟨vs.votePair.orInsert bftVote signedVote⟩)

end VoteSet

/-- The votes of one height and round, by type. -/
structure StepCollector where
  stepVotes : HashMap VoteType VoteSet

namespace StepCollector

/-- No votes. -/
def new : StepCollector := ⟨∅⟩

/-- Add a vote under its type. -/
def add (sc : StepCollector) (voteType : VoteType) (bftVote : BftVote) (signedVote : SignedVote) :
    Bool × StepCollector :=
  let (added, vs) := ((sc.stepVotes.lookup voteType).getD VoteSet.new).add bftVote signedVote
  (added, ⟨sc.stepVotes.insert voteType vs⟩)

/-- The votes of a type. -/
def getVoteSet (sc : StepCollector) (voteType : VoteType) : Option VoteSet :=
  sc.stepVotes.lookup voteType

end StepCollector

/-- The votes of one height, by round. -/
structure RoundCollector where
  roundVotes : LruCache CACHE_NUMBER UInt64 StepCollector

namespace RoundCollector

/-- No votes. -/
def new : RoundCollector := ⟨LruCache.new⟩

/-- Add a vote under its round. -/
def add (rc : RoundCollector) (round : UInt64) (voteType : VoteType) (bftVote : BftVote)
    (signedVote : SignedVote) : Bool × RoundCollector :=
  match rc.roundVotes.peek round with
  | some sc =>
    let (added, sc) := sc.add voteType bftVote signedVote
    (added, ⟨rc.roundVotes.insert round sc⟩)
  | none =>
    (true, ⟨rc.roundVotes.insert round (StepCollector.new.add voteType bftVote signedVote).2⟩)

/-- The votes of a round and type; the round counts as used. -/
def getVoteSet (rc : RoundCollector) (round : UInt64) (voteType : VoteType) :
    Option VoteSet × RoundCollector :=
  let (sc, roundVotes) := rc.roundVotes.getMut round
  (sc.bind fun sc => sc.getVoteSet voteType, ⟨roundVotes⟩)

end RoundCollector

/-- The votes by height. -/
structure VoteCollector where
  votes : LruCache CACHE_NUMBER UInt64 RoundCollector

namespace VoteCollector

/-- No votes. -/
def new : VoteCollector := ⟨LruCache.new⟩

/-- Add a vote under a height, round and type. -/
def add (vc : VoteCollector) (height round : UInt64) (voteType : VoteType) (bftVote : BftVote)
    (signedVote : SignedVote) : Bool × VoteCollector :=
  match vc.votes.peek height with
  | some rc =>
    let (added, rc) := rc.add round voteType bftVote signedVote
    (added, ⟨vc.votes.insert height rc⟩)
  | none =>
    (true, ⟨vc.votes.insert height (RoundCollector.new.add round voteType bftVote signedVote).2⟩)

/-- The votes of a height, round and type; height and round count as used. -/
def getVoteSet (vc : VoteCollector) (height round : UInt64) (voteType : VoteType) :
    Option VoteSet × VoteCollector :=
  match vc.votes.peek height with
  | some rc =>
    let (vs, rc) := rc.getVoteSet round voteType
    (vs, ⟨vc.votes.insert height rc⟩)
  | none => (none, vc)

end VoteCollector

/-! ### What is stored -/

namespace StepCollector

variable {sc : StepCollector} {t t' : VoteType} {bv bv' : BftVote} {sv sv' w : SignedVote}

/-- The signed vote kept for a vote under a type. -/
def stored (sc : StepCollector) (t : VoteType) (bv : BftVote) : Option SignedVote :=
  (sc.getVoteSet t).bind fun vs => vs.votePair.lookup bv

@[simp] theorem stored_new (t : VoteType) (bv : BftVote) : new.stored t bv = none := rfl

theorem stored_add (sc : StepCollector) (t t' : VoteType) (bv bv' : BftVote) (sv : SignedVote) :
    (sc.add t bv sv).2.stored t' bv' =
      if t' = t ∧ bv' = bv then some ((sc.stored t bv).getD sv) else sc.stored t' bv' := by
  unfold add stored getVoteSet VoteSet.add
  by_cases ht : t' = t
  · subst ht
    simp only [AList.lookup_insert, Option.bind_some, HashMap.lookup_orInsert, true_and]
    cases sc.stepVotes.lookup t' with
    | none => simp [VoteSet.new]
    | some vs => rfl
  · simp [ht, AList.lookup_insert_ne ht]

end StepCollector

namespace RoundCollector

/-- The signed vote kept for a vote under a round and type. -/
def stored (rc : RoundCollector) (r : UInt64) (t : VoteType) (bv : BftVote) : Option SignedVote :=
  (rc.roundVotes.peek r).bind fun sc => sc.stored t bv

@[simp] theorem stored_new (r : UInt64) (t : VoteType) (bv : BftVote) :
    new.stored r t bv = none := rfl

/-- What is stored after `add` was stored before, or is the new vote. -/
theorem stored_add_cases {rc : RoundCollector} {r r' : UInt64} {t t' : VoteType}
    {bv bv' : BftVote} {sv w : SignedVote}
    (h : (rc.add r t bv sv).2.stored r' t' bv' = some w) :
    rc.stored r' t' bv' = some w ∨ (r' = r ∧ t' = t ∧ bv' = bv ∧ w = sv) := by
  have key : ∀ sc : StepCollector, (∀ t bv w, sc.stored t bv = some w → rc.stored r t bv = some w) →
      (⟨rc.roundVotes.insert r (sc.add t bv sv).2⟩ : RoundCollector).stored r' t' bv' = some w →
      rc.stored r' t' bv' = some w ∨ (r' = r ∧ t' = t ∧ bv' = bv ∧ w = sv) := by
    intro sc hsc h
    obtain ⟨sc', hp, hw⟩ := Option.bind_eq_some_iff.1 h
    rcases LruCache.peek_insert_cases hp with ⟨rfl, rfl⟩ | ⟨-, hp⟩
    · rw [StepCollector.stored_add] at hw
      split_ifs at hw with hc
      · obtain ⟨rfl, rfl⟩ := hc
        cases hs : sc.stored t' bv' with
        | none => exact Or.inr ⟨rfl, rfl, rfl, by simpa [hs] using hw.symm⟩
        | some u => exact Or.inl (hsc _ _ _ (by simpa [hs] using hw))
      · exact Or.inl (hsc _ _ _ hw)
    · exact Or.inl (Option.bind_eq_some_iff.2 ⟨sc', hp, hw⟩)
  unfold add at h
  cases hp : rc.roundVotes.peek r with
  | none =>
    rw [hp] at h
    exact key StepCollector.new (fun _ _ _ hw => by simp at hw) h
  | some sc =>
    rw [hp] at h
    exact key sc (fun _ _ _ hw => Option.bind_eq_some_iff.2 ⟨sc, hp, hw⟩) h

/-- Reading a vote set changes nothing that is stored. -/
theorem stored_getVoteSet (rc : RoundCollector) (r r' : UInt64) (t t' : VoteType) (bv : BftVote) :
    (rc.getVoteSet r t).2.stored r' t' bv = rc.stored r' t' bv := by
  simp only [getVoteSet, stored, LruCache.peek_getMut]

theorem getVoteSet_fst (rc : RoundCollector) (r : UInt64) (t : VoteType) :
    (rc.getVoteSet r t).1 = (rc.roundVotes.peek r).bind fun sc => sc.getVoteSet t := by
  simp only [getVoteSet, LruCache.getMut_fst]

end RoundCollector

namespace VoteCollector

/-- The vote set of a height, round and type, without counting as a use. -/
def voteSet (vc : VoteCollector) (h r : UInt64) (t : VoteType) : Option VoteSet :=
  (vc.votes.peek h).bind fun rc => (rc.roundVotes.peek r).bind fun sc => sc.getVoteSet t

/-- The signed vote kept for a vote under a height, round and type. -/
def stored (vc : VoteCollector) (h r : UInt64) (t : VoteType) (bv : BftVote) : Option SignedVote :=
  (vc.votes.peek h).bind fun rc => rc.stored r t bv

@[simp] theorem stored_new (h r : UInt64) (t : VoteType) (bv : BftVote) :
    new.stored h r t bv = none := rfl

theorem stored_eq (vc : VoteCollector) (h r : UInt64) (t : VoteType) (bv : BftVote) :
    vc.stored h r t bv = (vc.voteSet h r t).bind fun vs => vs.votePair.lookup bv := by
  unfold stored voteSet RoundCollector.stored StepCollector.stored
  simp only [Option.bind_assoc]

@[simp] theorem getVoteSet_fst (vc : VoteCollector) (h r : UInt64) (t : VoteType) :
    (vc.getVoteSet h r t).1 = vc.voteSet h r t := by
  unfold getVoteSet voteSet
  cases vc.votes.peek h with
  | none => rfl
  | some rc => exact rc.getVoteSet_fst r t

/-- **What is stored after `add`** was stored before, or is the new vote. -/
theorem stored_add_cases {vc : VoteCollector} {h h' r r' : UInt64} {t t' : VoteType}
    {bv bv' : BftVote} {sv w : SignedVote}
    (hw : (vc.add h r t bv sv).2.stored h' r' t' bv' = some w) :
    vc.stored h' r' t' bv' = some w ∨ (h' = h ∧ r' = r ∧ t' = t ∧ bv' = bv ∧ w = sv) := by
  have key : ∀ rc : RoundCollector,
      (∀ r t bv w, rc.stored r t bv = some w → vc.stored h r t bv = some w) →
      (⟨vc.votes.insert h (rc.add r t bv sv).2⟩ : VoteCollector).stored h' r' t' bv' = some w →
      vc.stored h' r' t' bv' = some w ∨ (h' = h ∧ r' = r ∧ t' = t ∧ bv' = bv ∧ w = sv) := by
    intro rc hrc hw
    obtain ⟨rc', hp, hw⟩ := Option.bind_eq_some_iff.1 hw
    rcases LruCache.peek_insert_cases hp with ⟨rfl, rfl⟩ | ⟨-, hp⟩
    · rcases RoundCollector.stored_add_cases hw with hw | hw
      · exact Or.inl (hrc _ _ _ _ hw)
      · exact Or.inr ⟨rfl, hw⟩
    · exact Or.inl (Option.bind_eq_some_iff.2 ⟨rc', hp, hw⟩)
  unfold add at hw
  cases hp : vc.votes.peek h with
  | none =>
    rw [hp] at hw
    exact key RoundCollector.new (fun _ _ _ _ hw => by simp at hw) hw
  | some rc =>
    rw [hp] at hw
    exact key rc (fun _ _ _ _ hw => Option.bind_eq_some_iff.2 ⟨rc, hp, hw⟩) hw

/-- Reading a vote set changes nothing that is stored. -/
theorem stored_getVoteSet (vc : VoteCollector) (h h' r r' : UInt64) (t t' : VoteType)
    (bv : BftVote) : (vc.getVoteSet h r t).2.stored h' r' t' bv = vc.stored h' r' t' bv := by
  unfold getVoteSet stored
  cases hp : vc.votes.peek h with
  | none => rfl
  | some rc =>
    change ((vc.votes.insert h (rc.getVoteSet r t).2).map.lookup h').bind _ = _
    rw [LruCache.insert_map_of_peek hp]
    by_cases hh : h' = h
    · subst hh
      rw [AList.lookup_insert, hp]
      exact rc.stored_getVoteSet r r' t t' bv
    · rw [AList.lookup_insert_ne hh]
      rfl

/-! ### Which votes survive -/

/-- `sv` is stored for `bv` under `h`, `r`, `t`; since it was last used, only the heights of `H`
and, at height `h`, only the rounds of `R` were used. -/
def Kept (H R : Finset UInt64) (h r : UInt64) (t : VoteType) (bv : BftVote) (sv : SignedVote)
    (vc : VoteCollector) : Prop :=
  ∃ rc sc, LruCache.Recent H h rc vc.votes ∧ LruCache.Recent R r sc rc.roundVotes ∧
    sc.stored t bv = some sv

namespace Kept

variable {H R : Finset UInt64} {h r h' r' : UInt64} {t t' : VoteType} {bv bv' : BftVote}
  {sv sv' : SignedVote} {vc : VoteCollector}

theorem stored (hk : Kept H R h r t bv sv vc) : vc.stored h r t bv = some sv := by
  obtain ⟨rc, sc, hrc, hsc, hs⟩ := hk
  exact Option.bind_eq_some_iff.2 ⟨rc, hrc.peek, Option.bind_eq_some_iff.2 ⟨sc, hsc.peek, hs⟩⟩

theorem mono {H' R' : Finset UInt64} (hk : Kept H R h r t bv sv vc) (hH : H ⊆ H') (hR : R ⊆ R') :
    Kept H' R' h r t bv sv vc := by
  obtain ⟨rc, sc, hrc, hsc, hs⟩ := hk
  exact ⟨rc, sc, hrc.mono hH, hsc.mono hR, hs⟩

/-- A vote that was just added is kept, with the signed vote first given for it. -/
theorem of_add (vc : VoteCollector) (h r : UInt64) (t : VoteType) (bv : BftVote)
    (sv : SignedVote) :
    Kept ∅ ∅ h r t bv ((vc.stored h r t bv).getD sv) (vc.add h r t bv sv).2 := by
  have hcap : 0 < CACHE_NUMBER := by decide
  have hround : ∀ rc : RoundCollector, ∃ sc,
      LruCache.Recent ∅ r sc (rc.add r t bv sv).2.roundVotes ∧
        sc.stored t bv = some ((rc.stored r t bv).getD sv) := by
    intro rc
    unfold RoundCollector.add RoundCollector.stored
    cases rc.roundVotes.peek r with
    | none =>
      exact ⟨_, LruCache.Recent.insert_self hcap, by rw [StepCollector.stored_add]; simp⟩
    | some sc =>
      exact ⟨_, LruCache.Recent.insert_self hcap, by rw [StepCollector.stored_add]; simp⟩
  unfold VoteCollector.add VoteCollector.stored
  cases vc.votes.peek h with
  | none =>
    obtain ⟨sc, hsc, hs⟩ := hround RoundCollector.new
    exact ⟨_, sc, LruCache.Recent.insert_self hcap, hsc, hs⟩
  | some rc =>
    obtain ⟨sc, hsc, hs⟩ := hround rc
    exact ⟨_, sc, LruCache.Recent.insert_self hcap, hsc, hs⟩

/-- **A stored vote survives adding votes** under the coordinates of `H` and `R`. -/
theorem add (hk : Kept H R h r t bv sv vc) (hH : h' ≠ h → h' ∈ H)
    (hR : h' = h → r' ≠ r → r' ∈ R) (hcH : H.card < CACHE_NUMBER) (hcR : R.card < CACHE_NUMBER) :
    Kept H R h r t bv sv (vc.add h' r' t' bv' sv').2 := by
  obtain ⟨rc, sc, hrc, hsc, hs⟩ := hk
  by_cases hh : h' = h
  · subst hh
    simp only [VoteCollector.add, hrc.peek]
    by_cases hr : r' = r
    · subst hr
      refine ⟨_, (sc.add t' bv' sv').2, LruCache.Recent.insert_self (by decide), ?_, ?_⟩
      · simp only [RoundCollector.add, hsc.peek]
        exact LruCache.Recent.insert_self (by decide)
      · rw [StepCollector.stored_add]
        split_ifs with hc
        · obtain ⟨rfl, rfl⟩ := hc
          rw [hs, Option.getD_some]
        · exact hs
    · refine ⟨_, sc, LruCache.Recent.insert_self (by decide), ?_, hs⟩
      unfold RoundCollector.add
      cases rc.roundVotes.peek r' with
      | none => exact hsc.insert (hR rfl hr) hr hcR
      | some sc' => exact hsc.insert (hR rfl hr) hr hcR
  · refine ⟨rc, sc, ?_, hsc, hs⟩
    unfold VoteCollector.add
    cases vc.votes.peek h' with
    | none => exact hrc.insert (hH hh) hh hcH
    | some rc' => exact hrc.insert (hH hh) hh hcH

/-- **A stored vote survives reading vote sets** under the coordinates of `H` and `R`. -/
theorem getVoteSet (hk : Kept H R h r t bv sv vc) (hH : h' ≠ h → h' ∈ H)
    (hR : h' = h → r' ≠ r → r' ∈ R) (hcH : H.card < CACHE_NUMBER) (hcR : R.card < CACHE_NUMBER) :
    Kept H R h r t bv sv (vc.getVoteSet h' r' t').2 := by
  obtain ⟨rc, sc, hrc, hsc, hs⟩ := hk
  by_cases hh : h' = h
  · subst hh
    simp only [VoteCollector.getVoteSet, hrc.peek]
    exact ⟨_, sc, LruCache.Recent.insert_self (by decide), hsc.getMut (hR rfl) hcR, hs⟩
  · unfold VoteCollector.getVoteSet
    cases vc.votes.peek h' with
    | none => exact ⟨rc, sc, hrc, hsc, hs⟩
    | some rc' => exact ⟨rc, sc, hrc.insert (hH hh) hh hcH, hsc, hs⟩

end Kept

end VoteCollector

/-! ### Proposals -/

/-- The proposals of one height, by round; the first one of a round is kept. -/
structure ProposalRoundCollector where
  roundProposals : LruCache CACHE_NUMBER UInt64 SignedProposal

namespace ProposalRoundCollector

/-- No proposals. -/
def new : ProposalRoundCollector := ⟨LruCache.new⟩

/-- Add a proposal unless its round has one, which then counts as used: `contains_key` of the cache
goes through `get_mut`. -/
def add (rp : ProposalRoundCollector) (round : UInt64) (proposal : SignedProposal) :
    Bool × ProposalRoundCollector :=
  match rp.roundProposals.getMut round with
  | (some _, roundProposals) => (false, ⟨roundProposals⟩)
  | (none, roundProposals) => (true, ⟨roundProposals.insert round proposal⟩)

end ProposalRoundCollector

/-- The proposals by height. -/
structure ProposalCollector where
  proposals : LruCache CACHE_NUMBER UInt64 ProposalRoundCollector

namespace ProposalCollector

/-- No proposals. -/
def new : ProposalCollector := ⟨LruCache.new⟩

/-- Add a proposal under a height and round. -/
def add (pc : ProposalCollector) (height round : UInt64) (proposal : SignedProposal) :
    Bool × ProposalCollector :=
  match pc.proposals.peek height with
  | some rp =>
    let (added, rp) := rp.add round proposal
    (added, ⟨pc.proposals.insert height rp⟩)
  | none => (true, ⟨pc.proposals.insert height (ProposalRoundCollector.new.add round proposal).2⟩)

end ProposalCollector

end ConsensusBft

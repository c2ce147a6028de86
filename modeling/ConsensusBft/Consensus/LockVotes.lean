import ConsensusBft.Consensus.Reference

/-!
# The justification of a lock

A proposal with a lock round carries the prevotes that justify the lock.

* `LockVotesValid` : the tests that are made of each lock vote, and that the voters are distinct.
* `OldQuorum` : the test that is made of all of them: they are counted against the authorities of
  the **old** height, whatever the height of the proposal.
* `LockJustified` : what a justified lock is meant to be.
* `checkLockVotes_ok_iff` : what `checkLockVotes` tests.
* `lockVotes_justified_iff` : **when the outcome of `checkLockVotes` is the justification of the
  lock**; `justified_lock_rejected` : a justified lock that is rejected.
-/

namespace ConsensusBft

open Exec (Steps)

variable {F : Type} {E : Env F} {s s' : State F}
variable {height round : UInt64} {hash : Hash} {sv : SignedVote}

/-! ### One lock vote -/

/-- The tests that are made of one lock vote. -/
structure LockVoteValid (E : Env F) (authority : AuthorityManage) (height : UInt64) (hash : Hash)
    (sv : SignedVote) : Prop where
  proposal : sv.vote.proposal = hash
  member : sv.vote.voter ∈ authority.setAt height
  genuine : sv.Genuine E

/-- The height is the current one, the one before or a later one.  A build with overflow checks
panics on the test at height `0`. -/
def LockHeight (E : Env F) (current height : UInt64) : Prop :=
  (E.overflowChecks = true → current ≠ 0) ∧ current - 1 ≤ height

/-- Above height `0`, the current height and the one before pass. -/
theorem LockHeight.of_ne_zero {current : UInt64} (hzero : current ≠ 0)
    (hheight : height = current ∨ height = current - 1) : LockHeight E current height := by
  refine ⟨fun _ => hzero, ?_⟩
  rcases hheight with rfl | rfl
  · grind
  · exact UInt64.le_refl _

theorem lockHeight_iff {current : UInt64} : LockHeight E current height ↔
    ∃ prev, sub64 (ε := ConsensusError) E.overflowChecks current 1 = .ok prev ∧
      ¬ height < prev := by
  unfold LockHeight sub64
  have hone : current < 1 ↔ current = 0 := by grind
  by_cases hc : E.overflowChecks = true ∧ current < 1
  · rw [if_pos hc]
    have := hone.1 hc.2
    simp [hc.1, this]
  · rw [if_neg hc]
    simp only [Except.ok.injEq, exists_eq_left', UInt64.not_lt]
    constructor
    · exact fun h => h.2
    · exact fun h => ⟨fun hchecks hzero => hc ⟨hchecks, hone.2 hzero⟩, h⟩

/-- **A valid lock vote is stored**, under the height and lock round of its proposal; any other one
is rejected. -/
theorem checkSignedVote_result (height round : UInt64) (hash : Hash) (sv : SignedVote) :
    (LockHeight E s.eng.height height → LockVoteValid E s.eng.authority height hash sv →
      Exec.result (checkSignedVote E height round hash sv) s = (.ok sv.vote.voter,
        { s with eng.votes :=
          (s.eng.votes.add height round .prevote sv.vote.toBftVote sv).2 })) ∧
    (¬ (LockHeight E s.eng.height height ∧ LockVoteValid E s.eng.authority height hash sv) →
      ∃ e s', Exec.result (checkSignedVote E height round hash sv) s = (.error e, s')) := by
  constructor
  · intro hheight hv
    obtain ⟨prev, hsub, hlt⟩ := lockHeight_iff.1 hheight
    have hsig : Exec.result (verifySignature E sv.signature (E.support.hash sv.vote.rlpBytes)) s =
        (.ok sv.vote.voter, s) := by
      have hgen := hv.genuine
      unfold SignedVote.Genuine at hgen
      rw [verifySignature, hgen]
      rfl
    unfold checkSignedVote
    rw [Exec.result_bind_get, Exec.result_bind_lift hsub, Exec.result_bind_rejectIf hlt,
      Exec.result_bind_rejectIf (not_not.2 hv.proposal),
      Exec.result_bind_rejectIf (not_not.2 hv.member), Exec.result_bind_ok hsig,
      Exec.result_bind_rejectIf (by simp)]
    rfl
  · -- what is returned was tested
    intro hne
    have hsteps : Steps (fun _ _ => True) (checkSignedVote E height round hash sv)
        (fun _ _ => LockHeight E s.eng.height height ∧
          LockVoteValid E s.eng.authority height hash sv) s := by
      unfold checkSignedVote
      refine .bind_get (.bind_lift fun prev hsub => .bind_rejectIf fun hlt => .bind_rejectIf
        fun hproposal => .bind_rejectIf fun hmem => Steps.bind_verifySignature fun a ha =>
        .bind_rejectIf fun haddr => .bind_modify trivial (.pure ?_))
      obtain rfl : a = sv.vote.voter := not_not.1 haddr
      exact ⟨lockHeight_iff.2 ⟨prev, hsub, hlt⟩, not_not.1 hproposal, not_not.1 hmem, ha⟩
    cases hr : Exec.result (checkSignedVote E height round hash sv) s with
    | mk res s' =>
      cases res with
      | error e => exact ⟨e, s', rfl⟩
      | ok a => exact absurd (hsteps.ok hr) hne

/-! ### All lock votes -/

/-- The voters of the lock votes. -/
def lockVoters (votes : List SignedVote) : List Address := votes.map fun sv => sv.vote.voter

/-- The tests that are made of each lock vote, with the voters seen before. -/
structure LockVotesPass (E : Env F) (authority : AuthorityManage) (current height : UInt64)
    (hash : Hash) (seen : Finset Address) (votes : List SignedVote) : Prop where
  inRange : votes ≠ [] → LockHeight E current height
  valid : ∀ sv ∈ votes, LockVoteValid E authority height hash sv
  nodup : (lockVoters votes).Nodup
  fresh : ∀ a ∈ lockVoters votes, a ∉ seen

theorem lockVotesPass_cons {authority : AuthorityManage} {current : UInt64} {seen : Finset Address}
    {votes : List SignedVote} :
    LockVotesPass E authority current height hash seen (sv :: votes) ↔
      (LockHeight E current height ∧ LockVoteValid E authority height hash sv) ∧
        sv.vote.voter ∉ seen ∧
        LockVotesPass E authority current height hash (insert sv.vote.voter seen) votes := by
  constructor
  · rintro ⟨hheight, hvalid, hnodup, hfresh⟩
    simp only [lockVoters, List.map_cons, List.nodup_cons, List.mem_cons, forall_eq_or_imp] at *
    refine ⟨⟨hheight (by simp), hvalid.1⟩, hfresh.1, fun _ => hheight (by simp), hvalid.2, hnodup.2,
      fun a ha hmem => ?_⟩
    rcases Finset.mem_insert.1 hmem with rfl | hmem
    · exact hnodup.1 ha
    · exact hfresh.2 a ha hmem
  · rintro ⟨⟨hheight, hv⟩, hnew, -, hvalid, hnodup, hfresh⟩
    refine ⟨fun _ => hheight, ?_, ?_, ?_⟩
    · simpa using ⟨hv, hvalid⟩
    · refine List.nodup_cons.2 ⟨fun ha => ?_, hnodup⟩
      exact hfresh _ ha (Finset.mem_insert_self _ _)
    · intro a ha
      rcases List.mem_cons.1 ha with rfl | ha
      · exact hnew
      · exact fun hmem => hfresh a ha (Finset.mem_insert_of_mem hmem)

/-- **The loop over the lock votes** collects their voters if all of them pass, and stops with an
error otherwise. -/
theorem foldlM_addLockVote (height round : UInt64) (hash : Hash) (votes : List SignedVote)
    (seen : Finset Address) :
    (LockVotesPass E s.eng.authority s.eng.height height hash seen votes → ∃ s',
      Exec.result (votes.foldlM (addLockVote E height round hash) seen) s =
        (.ok (seen ∪ (lockVoters votes).toFinset), s') ∧ s'.eng.authority = s.eng.authority) ∧
    (¬ LockVotesPass E s.eng.authority s.eng.height height hash seen votes → ∃ e s',
      Exec.result (votes.foldlM (addLockVote E height round hash) seen) s = (.error e, s')) := by
  induction votes generalizing seen s with
  | nil =>
    refine ⟨fun _ => ⟨s, by simp [lockVoters], rfl⟩, fun hne => absurd ?_ hne⟩
    exact ⟨fun h => absurd rfl h, nofun, List.nodup_nil, nofun⟩
  | cons sv votes ih =>
    rw [lockVotesPass_cons, List.foldlM_cons]
    obtain ⟨hok, herr⟩ := checkSignedVote_result (E := E) (s := s) height round hash sv
    by_cases hv : LockHeight E s.eng.height height ∧ LockVoteValid E s.eng.authority height hash sv
    · -- the vote is stored, which neither the height nor the authorities notice
      have hres := hok hv.1 hv.2
      obtain ⟨ihok, iherr⟩ := @ih { s with eng.votes :=
          (s.eng.votes.add height round .prevote sv.vote.toBftVote sv).2 }
        (insert sv.vote.voter seen)
      by_cases hnew : sv.vote.voter ∈ seen
      · have hdup : Exec.result (addLockVote E height round hash seen sv) s =
            (.error (.err .blockVerifyDiff), { s with eng.votes :=
              (s.eng.votes.add height round .prevote sv.vote.toBftVote sv).2 }) :=
          (Exec.result_bind_ok hres).trans (Exec.result_bind_rejectIf_of hnew _ _ _)
        exact ⟨fun h => absurd hnew h.2.1, fun _ => ⟨_, _, Exec.result_bind_error hdup⟩⟩
      · have hadd : Exec.result (addLockVote E height round hash seen sv) s =
            (.ok (insert sv.vote.voter seen), { s with eng.votes :=
              (s.eng.votes.add height round .prevote sv.vote.toBftVote sv).2 }) :=
          (Exec.result_bind_ok hres).trans (Exec.result_bind_rejectIf hnew _ _ _)
        rw [Exec.result_bind_ok hadd]
        constructor
        · rintro ⟨-, -, hrest⟩
          obtain ⟨s', hs', hauth⟩ := ihok hrest
          refine ⟨s', hs'.trans ?_, hauth⟩
          simp [lockVoters, Finset.insert_union, Finset.union_insert]
        · exact fun hne => iherr fun hrest => hne ⟨hv, hnew, hrest⟩
    · refine ⟨fun h => absurd h.1 hv, ?_⟩
      intro _
      obtain ⟨e, s', hres⟩ := herr hv
      exact ⟨e, s', Exec.result_bind_error (Exec.result_bind_error hres)⟩

/-! ### The quorum -/

/-- All lock votes of the proposal are valid, and their voters are distinct. -/
structure LockVotesValid (E : Env F) (authority : AuthorityManage) (sp : SignedProposal) :
    Prop where
  valid : ∀ sv ∈ sp.proposal.lockVotes,
    LockVoteValid E authority sp.proposal.height sp.proposal.hash sv
  nodup : (lockVoters sp.proposal.lockVotes).Nodup

/-- The lock votes are more than two thirds of the authorities of the old height, and one of the
voters is an authority of the old height. -/
def OldQuorum (authority : AuthorityManage) (sp : SignedProposal) : Prop :=
  2 * authority.authoritiesOld.length < 3 * sp.proposal.lockVotes.length ∧
    ∃ a ∈ lockVoters sp.proposal.lockVotes, a ∈ authority.addressSetOld

/-- The lock votes are more than two thirds of the authorities of the height of the proposal. -/
def HeightQuorum (authority : AuthorityManage) (sp : SignedProposal) : Prop :=
  2 * (authority.listAt sp.proposal.height).length < 3 * sp.proposal.lockVotes.length

/-- The height of the proposal passes, if it has lock votes at all. -/
def LockHeightPasses (E : Env F) (current : UInt64) (sp : SignedProposal) : Prop :=
  sp.proposal.lockVotes ≠ [] → LockHeight E current sp.proposal.height

/-- **What `checkLockVotes` tests**, for a proposal with a lock round. -/
theorem checkLockVotes_ok_iff {sp : SignedProposal} (hlock : sp.proposal.lockRound = some round) :
    (Exec.result (checkLockVotes E sp sp.proposal.hash) s).1 = .ok ⟨⟩ ↔
      LockVotesValid E s.eng.authority sp ∧ LockHeightPasses E s.eng.height sp ∧
        OldQuorum s.eng.authority sp := by
  obtain ⟨hok, herr⟩ := foldlM_addLockVote (E := E) (s := s) sp.proposal.height round
    sp.proposal.hash sp.proposal.lockVotes ∅
  have hpass : LockVotesPass E s.eng.authority s.eng.height sp.proposal.height sp.proposal.hash ∅
      sp.proposal.lockVotes ↔
      LockVotesValid E s.eng.authority sp ∧ LockHeightPasses E s.eng.height sp :=
    ⟨fun h => ⟨⟨h.valid, h.nodup⟩, h.inRange⟩,
      fun h => ⟨h.2, h.1.valid, h.1.nodup, by simp⟩⟩
  unfold checkLockVotes
  dsimp only
  rw [hlock]
  by_cases hp : LockVotesPass E s.eng.authority s.eng.height sp.proposal.height sp.proposal.hash ∅
      sp.proposal.lockVotes
  · obtain ⟨s', hs', hauth⟩ := hok hp
    have hcard : (∅ ∪ (lockVoters sp.proposal.lockVotes).toFinset).card =
        sp.proposal.lockVotes.length := by
      rw [Finset.empty_union, List.toFinset_card_of_nodup hp.nodup]
      exact List.length_map _
    have hquorum : (s.eng.authority.isAboveThreshold sp.proposal.lockVotes.length
          (decide (sp.proposal.height = s.eng.authority.authorityHOld)) = true ∧
        s.eng.authority.containsSender (∅ ∪ (lockVoters sp.proposal.lockVotes).toFinset)
          (decide (sp.proposal.height = s.eng.authority.authorityHOld)) = true) ↔
        OldQuorum s.eng.authority sp := by
      simp only [AuthorityManage.isAboveThreshold, AuthorityManage.containsSender, ite_self,
        Finset.empty_union, List.mem_toFinset, decide_eq_true_eq, OldQuorum]
      have hlen : (2 * s.eng.authority.authoritiesOld.length < 3 * sp.proposal.lockVotes.length) ↔
          sp.proposal.lockVotes.length * 3 > s.eng.authority.authoritiesOld.length * 2 := by omega
      rw [hlen]
      by_cases hc : sp.proposal.lockVotes.length * 3 > s.eng.authority.authoritiesOld.length * 2
      · simp [hc]
      · simp [hc]
    rw [Exec.result_bind_ok hs', Exec.result_bind_get, hcard, hauth, ← and_assoc,
      and_iff_right (hpass.1 hp)]
    by_cases hq : OldQuorum s.eng.authority sp
    · rw [Exec.result_rejectIf_of_not (not_not.2 (hquorum.2 hq))]
      simp [hq]
    · rw [Exec.result_rejectIf_of (mt hquorum.1 hq)]
      simp [hq]
  · obtain ⟨e, s', hs'⟩ := herr hp
    rw [Exec.result_bind_error hs']
    refine ⟨nofun, fun h => absurd (hpass.2 ⟨h.1, h.2.1⟩) hp⟩

/-! ### Justification -/

/-- The lock votes are prevotes of the height and lock round of the proposal. -/
def FieldsMatch (sp : SignedProposal) (round : UInt64) : Prop :=
  ∀ sv ∈ sp.proposal.lockVotes, sv.vote.voteType = .prevote ∧
    sv.vote.height = sp.proposal.height ∧ sv.vote.round = round

/-- A justified lock: signed prevotes for the proposal, of its height and lock round, by distinct
authorities of its height, more than two thirds of them. -/
structure LockJustified (E : Env F) (authority : AuthorityManage) (sp : SignedProposal)
    (round : UInt64) : Prop where
  distinct : (lockVoters sp.proposal.lockVotes).Nodup
  prevote : ∀ sv ∈ sp.proposal.lockVotes, sv.vote =
    ⟨.prevote, sp.proposal.height, round, sp.proposal.hash, sv.vote.voter⟩
  member : ∀ sv ∈ sp.proposal.lockVotes,
    sv.vote.voter ∈ authority.setAt sp.proposal.height
  genuine : ∀ sv ∈ sp.proposal.lockVotes, sv.Genuine E
  quorum : 2 * (authority.listAt sp.proposal.height).length < 3 * sp.proposal.lockVotes.length

theorem lockJustified_iff {authority : AuthorityManage} {sp : SignedProposal} :
    LockJustified E authority sp round ↔
      LockVotesValid E authority sp ∧ FieldsMatch sp round ∧ HeightQuorum authority sp := by
  constructor
  · intro h
    have fields : ∀ sv ∈ sp.proposal.lockVotes, sv.vote.voteType = .prevote ∧
        sv.vote.height = sp.proposal.height ∧ sv.vote.round = round ∧
        sv.vote.proposal = sp.proposal.hash := by
      intro sv hsv
      rw [h.prevote sv hsv]
      exact ⟨rfl, rfl, rfl, rfl⟩
    refine ⟨⟨fun sv hsv => ⟨(fields sv hsv).2.2.2, h.member sv hsv, h.genuine sv hsv⟩, h.distinct⟩,
      fun sv hsv => ?_, h.quorum⟩
    obtain ⟨ht, hh, hr, -⟩ := fields sv hsv
    exact ⟨ht, hh, hr⟩
  · rintro ⟨hv, hf, hq⟩
    refine ⟨hv.nodup, fun sv hsv => ?_, fun sv hsv => (hv.valid sv hsv).member,
      fun sv hsv => (hv.valid sv hsv).genuine, hq⟩
    obtain ⟨ht, hh, hr⟩ := hf sv hsv
    rw [← ht, ← hh, ← hr, ← (hv.valid sv hsv).proposal]

/-- At the old height the old authorities are the right ones. -/
theorem oldQuorum_iff_of_old {authority : AuthorityManage} {sp : SignedProposal}
    (hold : sp.proposal.height = authority.authorityHOld) (hv : LockVotesValid E authority sp) :
    OldQuorum authority sp ↔ HeightQuorum authority sp := by
  unfold OldQuorum HeightQuorum
  rw [AuthorityManage.listAt, if_pos hold]
  refine ⟨fun h => h.1, fun h => ⟨h, ?_⟩⟩
  -- a quorum is not empty, and all its voters are authorities
  cases hl : sp.proposal.lockVotes with
  | nil => simp [hl] at h
  | cons sv votes =>
    have hsv : sv ∈ sp.proposal.lockVotes := by simp [hl]
    have hmem := (hv.valid sv hsv).member
    rw [AuthorityManage.setAt, if_pos hold] at hmem
    exact ⟨sv.vote.voter, by simp [lockVoters], hmem⟩

/-- **When `checkLockVotes` decides the justification of a lock.**  At the old height, if valid lock
votes that are a quorum match the fields of the proposal exactly if its height passes; at any other
height, if valid lock votes are a quorum of the old authorities exactly if they match the fields and
are a quorum of the authorities of the height.  Above height `0`, the current height and the one
before always pass. -/
theorem lockVotes_justified_iff (s : State F) (sp : SignedProposal) (round : UInt64)
    (hlock : sp.proposal.lockRound = some round) :
    (((Exec.result (checkLockVotes E sp sp.proposal.hash) s).1 = .ok ⟨⟩ ↔
        LockJustified E s.eng.authority sp round) ↔
      if sp.proposal.height = s.eng.authority.authorityHOld then
        LockVotesValid E s.eng.authority sp → HeightQuorum s.eng.authority sp →
          (FieldsMatch sp round ↔ LockHeightPasses E s.eng.height sp)
      else
        LockVotesValid E s.eng.authority sp →
          (LockHeightPasses E s.eng.height sp ∧ OldQuorum s.eng.authority sp ↔
            FieldsMatch sp round ∧ HeightQuorum s.eng.authority sp)) ∧
    (s.eng.height ≠ 0 →
      sp.proposal.height = s.eng.height ∨ sp.proposal.height = s.eng.height - 1 →
      LockHeightPasses E s.eng.height sp) := by
  refine ⟨?_, fun hzero hheight _ => LockHeight.of_ne_zero hzero hheight⟩
  rw [checkLockVotes_ok_iff hlock, lockJustified_iff]
  by_cases hv : LockVotesValid E s.eng.authority sp
  · split_ifs with hold
    · rw [oldQuorum_iff_of_old hold hv]
      simp only [hv, true_and, forall_const]
      by_cases hq : HeightQuorum s.eng.authority sp
      · simp only [hq, and_true, forall_const]
        exact iff_comm
      · simp [hq]
    · simp only [hv, true_and, forall_const]
  · simp [hv]

/-- A proposal whose block is locked by the only authority since round `0`. -/
def lockedProposal (height : UInt64) : SignedProposal :=
  Reference.signedProposal height 1 [5] (some 0)
    [Reference.signedVote .prevote height 0 [5] [7]] [7]

/-- At height `2`, which the only authority enters from height `1`, the lock is found justified. -/
theorem lockVotes_justified_iff_second : ∃ p,
    Life (Reference.env [7]) [7] Reference.disk
      (Reference.readyRun [7] ++ [.external (.status ⟨1, none, [Node.new [7]]⟩)]) p ∧
    p.state.eng.height = 2 ∧
    (Exec.result (checkLockVotes (Reference.env [7]) (lockedProposal 2) [5]) p.state).1 = .ok ⟨⟩ ∧
    LockJustified (Reference.env [7]) p.state.eng.authority (lockedProposal 2) 0 ∧
    LockHeightPasses (Reference.env [7]) p.state.eng.height (lockedProposal 2) := by
  obtain ⟨p, hp, hf⟩ := Reference.exists_life (Reference.env [7]) [7]
    (Reference.readyRun [7] ++ [.external (.status ⟨1, none, [Node.new [7]]⟩)])
    (fun p => p.state.eng.height = 2 ∧ p.state.eng.authority.authorityHOld ≠ 2 ∧
      p.state.eng.authority.authoritiesOld.length = 1 ∧ [7] ∈ p.state.eng.authority.addressSetOld ∧
      (p.state.eng.authority.listAt 2).length = 1 ∧
      (Exec.result (checkLockVotes (Reference.env [7]) (lockedProposal 2) [5]) p.state).1.isOk)
    (by decide +kernel)
  obtain ⟨hheight, hold, hlen, hmem, hlist, hok⟩ := of_decide_eq_true hf
  obtain ⟨hjustified, hpasses⟩ := lockVotes_justified_iff (E := Reference.env [7]) p.state
    (lockedProposal 2) 0 rfl
  have hheights : LockHeightPasses (Reference.env [7]) p.state.eng.height (lockedProposal 2) :=
    hpasses (by rw [hheight]; decide) (.inl hheight.symm)
  obtain ⟨u, s', hr⟩ := Exec.exists_of_isOk hok
  have hres := congrArg Prod.fst hr
  refine ⟨p, hp, hheight, hres, (hjustified.2 ?_).1 hres, hheights⟩
  -- the only lock vote is of the fields of the proposal, and a quorum of either authorities
  rw [if_neg (show ¬ (lockedProposal 2).proposal.height = _ from Ne.symm hold)]
  refine fun _ => iff_of_true ⟨hheights, ?_, ?_⟩ ⟨?_, ?_⟩
  · change 2 * p.state.eng.authority.authoritiesOld.length < 3 * 1
    omega
  · exact ⟨[7], List.mem_singleton_self _, hmem⟩
  · intro sv hsv
    obtain rfl := List.mem_singleton.1 hsv
    exact ⟨rfl, rfl, rfl⟩
  · change 2 * (p.state.eng.authority.listAt 2).length < 3 * 1
    omega

/-- The lock is justified, and yet the proposal is rejected at the first height, where there are no
old authorities. -/
theorem justified_lock_rejected : ∃ p,
    Life (Reference.env [7]) [7] Reference.disk (Reference.readyRun [7]) p ∧
    p.state.eng.height = 1 ∧
    LockJustified (Reference.env [7]) p.state.eng.authority (lockedProposal 1) 0 ∧
    (Exec.result (checkLockVotes (Reference.env [7]) (lockedProposal 1) [5]) p.state).1 =
      .error (.err .illegalProposalLock) := by
  obtain ⟨p, hp, hf⟩ := Reference.exists_life (Reference.env [7]) [7] (Reference.readyRun [7])
    (fun p => p.state.eng.height = 1 ∧ [7] ∈ p.state.eng.authority.setAt 1 ∧
      (p.state.eng.authority.listAt 1).length = 1 ∧ Exec.failsWith .illegalProposalLock
        (Exec.result (checkLockVotes (Reference.env [7]) (lockedProposal 1) [5]) p.state).1)
    (by decide +kernel)
  obtain ⟨hheight, hmem, hlen, hres⟩ := of_decide_eq_true hf
  refine ⟨p, hp, hheight, ⟨by decide, ?_, ?_, ?_, ?_⟩, Exec.failsWith_iff.1 hres⟩
  · intro sv hsv
    obtain rfl := List.mem_singleton.1 hsv
    rfl
  · intro sv hsv
    obtain rfl := List.mem_singleton.1 hsv
    exact hmem
  · intro sv hsv
    obtain rfl := List.mem_singleton.1 hsv
    rfl
  · change 2 * (p.state.eng.authority.listAt 1).length < 3 * 1
    omega

end ConsensusBft

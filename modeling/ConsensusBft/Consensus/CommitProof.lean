import ConsensusBft.Consensus.ProofCheck

/-!
# The proof of a commit verifies

A commit carries a proof made of signatures that the collector kept.

* `GenuineVotes E eng` : every stored vote is signed by its voter, and is stored under what the BFT
  core sees of it.  Every way a vote enters the collector keeps this (`Filed.genuine`).
* `stored_votes_genuine` : **every stored vote is genuine, in every state of every run.**
* `addSignature`, `collectSignatures` : which signatures make up a proof.
* `committed_proof_verifies` : **the proof of a commit made of a quorum of precommits is accepted by
  the engine, is kept by it, and is accepted by a peer at the next height.**
-/

namespace ConsensusBft

open Exec (Steps)

variable {F : Type} {E : Env F} {K : Supply F} {s s' : State F}

/-! ### Stored votes are genuine -/

/-- Every stored vote is signed by its voter, and is stored under what the BFT core sees of it. -/
def GenuineVotes (E : Env F) (eng : Consensus F) : Prop :=
  ∀ h r t bv sv, eng.votes.stored h r t bv = some sv → bv = sv.vote.toBftVote ∧ sv.Genuine E

/-- What the application signs for the node verifies to the address of the node. -/
def SignsFor (E : Env F) (address : Address) : Prop :=
  ∀ n hash sig, E.support.sign n hash = .ok sig → E.support.verifySignature sig hash = .ok address

/-- A vote that enters the collector is genuine, whichever way it comes. -/
theorem Filed.genuine {eng : Consensus F} {h r : UInt64} {t : VoteType} {bv : BftVote}
    {sv : SignedVote} {address : Address} (hf : Filed E K eng h r t bv sv)
    (hsign : SignsFor E address) (hown : ∀ v, K.core (.vote v) → v.voter = address) :
    bv = sv.vote.toBftVote ∧ sv.Genuine E := by
  cases hf with
  | network _ genuine _ => exact ⟨rfl, genuine⟩
  | lock _ _ _ _ genuine => exact ⟨rfl, genuine⟩
  | own received signed =>
    refine ⟨(toBftVote_fromBftVote bv).symm, ?_⟩
    have hv := hsign _ _ _ signed
    rw [← hown bv received] at hv
    exact hv

/-- **Every update keeps the stored votes genuine.** -/
theorem Update.genuineVotes [Content F] {address : Address} (hsign : SignsFor E address)
    (hown : ∀ v, K.core (.vote v) → v.voter = address) (h : Update E K s s')
    (hs : GenuineVotes E s.eng) : GenuineVotes E s'.eng :=
  h.storedVotes (fun _ _ _ _ _ _ filed => filed.genuine hsign hown) hs

/-- In every run of a node that signs with its own address, the stored votes are genuine. -/
theorem Life.genuineVotes [Content F] {address : Address} {disk : Disk} {is : List Input}
    {p : Process F} (hl : Life E address disk is p) (hsign : SignsFor E address)
    (hown : EachInput E address disk is fun p i =>
      ∀ v, BringsCore E p i (.vote v) → v.voter = address) : GenuineVotes E p.state.eng := by
  let K : Supply F := { Supply.all F with core := fun m => ∀ v, m = .vote v → v.voter = address }
  have hK : SuppliedLife E K address disk is := by
    intro is₁ i is₂ p₁ his hl₁
    refine ⟨fun _ _ => trivial, fun _ _ _ _ => trivial, fun _ _ _ _ _ => trivial, ?_⟩
    rintro m hb v rfl
    exact hown is₁ i is₂ p₁ his hl₁ v hb
  refine hl.invariant (I := fun s => GenuineVotes E s.eng) hK (fun p₀ hb => ?_)
    fun _ _ => Update.genuineVotes hsign fun v hv => hv v rfl
  rw [(boot_state hb).1]
  exact fun _ _ _ _ _ hst => nomatch hst

/-- **Every stored vote is genuine**: in every run of a node that signs with its own address and
whose BFT core votes with it, whatever is stored in the collector is stored under what the BFT core
sees of the vote, and its signature verifies to its voter. -/
theorem stored_votes_genuine [Content F] {address : Address} {disk : Disk} {is : List Input}
    {p : Process F} (hl : Life E address disk is p) (hsign : SignsFor E address)
    (hown : EachInput E address disk is fun p i =>
      ∀ v, BringsCore E p i (.vote v) → v.voter = address)
    {h r : UInt64} {t : VoteType} {v : BftVote} {sv : SignedVote}
    (hst : p.state.eng.votes.stored h r t v = some sv) :
    v = sv.vote.toBftVote ∧
      E.support.verifySignature sv.signature (E.support.hash sv.vote.rlpBytes) =
        .ok sv.vote.voter :=
  hl.genuineVotes hsign hown h r t v sv hst

/-- A proposal that is rejected for naming the same lock vote twice. -/
def twiceLockedRun : List Input :=
  [.external (.status ⟨0, none, [Node.new [7]]⟩),
    .external (.signedProposal (Reference.proposalBytes
      (Reference.signedProposal 1 6 [1] (some 2)
        (List.replicate 2 (Reference.signedVote .prevote 1 2 [1] [7])) [7]) [1] [1]))]

theorem signsFor_reference (address : Address) (h : address ≠ []) :
    SignsFor (Reference.env address) address := by
  intro n hash sig hs
  obtain rfl := Except.ok.inj hs
  exact if_neg h

theorem stored_votes_genuine_rejected :
    ∃ p sv, Life (Reference.env [7]) [7] Reference.disk twiceLockedRun p ∧
      p.state.eng.votes.stored 1 2 .prevote ⟨.prevote, 1, 2, [1], [7]⟩ = some sv ∧
      (⟨.prevote, 1, 2, [1], [7]⟩ : BftVote) = sv.vote.toBftVote ∧
      (Reference.env [7]).support.verifySignature sv.signature
        ((Reference.env [7]).support.hash sv.vote.rlpBytes) = .ok sv.vote.voter := by
  obtain ⟨p, hp, hf⟩ := Reference.exists_life (Reference.env [7]) [7] twiceLockedRun
    (fun p => (p.state.eng.votes.stored 1 2 .prevote ⟨.prevote, 1, 2, [1], [7]⟩).isSome)
    (by decide +kernel)
  obtain ⟨sv, hst⟩ := Option.isSome_iff_exists.1 hf
  refine ⟨p, sv, hp, hst, stored_votes_genuine hp (signsFor_reference [7] (by decide)) ?_ hst⟩
  intro is₁ i is₂ p₁ his _ v hb
  have hi : i ∈ twiceLockedRun := by simp [his]
  simp only [twiceLockedRun, List.mem_cons, List.not_mem_nil, or_false] at hi
  rcases hi with rfl | rfl
  · exact hb.elim
  · exact hb.elim

/-! ### The signatures of a proof -/

theorem addSignature_ok {vs : VoteSet} {acc m : HashMap Address Signature} {v : BftVote}
    (h : addSignature vs acc v = .ok m) :
    ∃ sv, vs.votePair.lookup v = some sv ∧ m = acc.orInsert v.voter sv.signature := by
  unfold addSignature at h
  cases hs : vs.signed v with
  | error e => rw [hs] at h; exact nomatch h
  | ok sv =>
    rw [hs] at h
    exact ⟨sv, VoteSet.signed_eq_ok.1 hs, (Except.ok.inj h).symm⟩

/-- The signatures collected over a list of votes, from any start: each one is kept for a vote of
the list, and none that was collected or is due is missing. -/
theorem foldlM_addSignature {vs : VoteSet} {votes : List BftVote}
    {acc m : HashMap Address Signature} (h : votes.foldlM (addSignature vs) acc = .ok m) :
    (∀ a sig, m.lookup a = some sig → acc.lookup a = some sig ∨
      ∃ v ∈ votes, v.voter = a ∧ ∃ sv, vs.votePair.lookup v = some sv ∧ sv.signature = sig) ∧
    ∀ a, (acc.lookup a).isSome ∨ a ∈ votes.map BftVote.voter → (m.lookup a).isSome := by
  induction votes generalizing acc with
  | nil =>
    obtain rfl := Except.ok.inj h
    exact ⟨fun _ _ hl => Or.inl hl, fun a ha => ha.resolve_right List.not_mem_nil⟩
  | cons v votes ih =>
    rw [List.foldlM_cons] at h
    cases hadd : addSignature vs acc v with
    | error e => rw [hadd] at h; exact nomatch h
    | ok acc' =>
      rw [hadd] at h
      obtain ⟨sv, hsv, rfl⟩ := addSignature_ok hadd
      obtain ⟨hfrom, hall⟩ := ih h
      constructor
      · intro a sig hl
        rcases hfrom a sig hl with hl | ⟨w, hw, hrest⟩
        · rcases HashMap.lookup_orInsert_cases hl with hl | ⟨rfl, rfl, -⟩
          · exact Or.inl hl
          · exact Or.inr ⟨v, List.mem_cons_self, rfl, sv, hsv, rfl⟩
        · exact Or.inr ⟨w, List.mem_cons_of_mem v hw, hrest⟩
      · intro a ha
        refine hall a ?_
        rw [HashMap.lookup_orInsert]
        rw [List.map_cons, List.mem_cons] at ha
        by_cases hav : a = v.voter
        · simp [hav]
        · rw [if_neg hav]
          exact ha.imp_right fun ha => ha.resolve_left hav

/-- Every entry of the signatures collected for a list of votes is kept for one of the votes. -/
theorem collectSignatures_entry {vs : VoteSet} {votes : List BftVote}
    {m : HashMap Address Signature} (h : collectSignatures vs votes = .ok m) {entry}
    (hentry : entry ∈ m.entries) : ∃ v ∈ votes, v.voter = entry.1 ∧
      ∃ sv, vs.votePair.lookup v = some sv ∧ sv.signature = entry.2 :=
  ((foldlM_addSignature h).1 entry.1 entry.2 (AList.mem_lookup_iff.2 hentry)).resolve_left nofun

/-- Distinct voters have an entry each. -/
theorem length_le_collectSignatures {vs : VoteSet} {votes : List BftVote}
    {m : HashMap Address Signature} (h : collectSignatures vs votes = .ok m)
    (hnodup : (votes.map BftVote.voter).Nodup) : votes.length ≤ m.entries.length := by
  have hsub : votes.map BftVote.voter ⊆ m.keys := by
    intro a ha
    rw [← AList.mem_keys, ← AList.lookup_isSome]
    exact (foldlM_addSignature h).2 a (Or.inr ha)
  have hlen := (List.subperm_of_subset hnodup hsub).length_le
  simpa [AList.keys, List.keys] using hlen

/-! ### The proof of a commit -/

/-- The proof is made of the signatures that the collector of `eng` kept for the lock votes of the
commit. -/
def ProofFrom (eng : Consensus F) (c : BftCommit) (proof : Proof) : Prop :=
  ∃ vs m, eng.votes.voteSet c.height c.round .precommit = some vs ∧
    collectSignatures vs c.lockVotes = .ok m ∧
    proof = { height := c.height, round := c.round, blockHash := c.proposal, precommitVotes := m }

/-- The lock votes of the commit are precommits of distinct authorities for what is committed. -/
structure LockedBy (c : BftCommit) (authority : List Node) : Prop where
  precommit : ∀ v ∈ c.lockVotes, v = ⟨.precommit, c.height, c.round, c.proposal, v.voter⟩
  member : ∀ v ∈ c.lockVotes, v.voter ∈ intoAddrSet authority
  nodup : (c.lockVotes.map BftVote.voter).Nodup
  quorum : 2 * authority.length < 3 * c.lockVotes.length

/-- A commit that is handled carries a proof from the collector, and the engine keeps it. -/
theorem handleCommit_proof (c : BftCommit) (needWal : Bool) :
    Steps (fun _ _ => True) (handleCommit E c needWal) (fun commit s' =>
      ProofFrom s.eng c commit.proof ∧ s'.eng.proof = some commit.proof) s := by
  unfold handleCommit
  refine .bind_get (.bind_rejectIf fun _ => ?_)
  refine .bind (logIf_moves fun _ _ _ => trivial) fun _ s₁ _ hw => .bind_get ?_
  obtain ⟨w, rfl⟩ := hw
  dsimp only
  cases (s.setWal w).eng.blockOriginCache.lookup c.proposal with
  | none => exact .throw
  | some block =>
    have hgen : Steps (fun _ _ => True)
        (generateProof c.height c.round c.proposal c.lockVotes : EngineM F Proof)
        (fun proof _ => ProofFrom s.eng c proof) (s.setWal w) := by
      unfold generateProof getVoteSet
      simp only [bind_assoc, pure_bind]
      refine .bind_get (.bind_modify trivial ?_)
      rw [VoteCollector.getVoteSet_fst]
      cases hvs : (s.setWal w).eng.votes.voteSet c.height c.round .precommit with
      | none => exact .throw
      | some vs => exact .bind_lift fun m hm => .pure ⟨vs, m, hvs, hm, rfl⟩
    exact .bind hgen fun proof s₂ _ hproof => .bind_modify trivial (.pure ⟨hproof, rfl⟩)

/-- **A proof made of a quorum of genuine precommits is sound.** -/
theorem ProofFrom.sound {eng : Consensus F} {c : BftCommit} {proof : Proof}
    {authority : List Node} (hp : ProofFrom eng c proof) (hg : GenuineVotes E eng)
    (hc : LockedBy c authority) : ProofSound E proof c.height authority := by
  obtain ⟨vs, m, hvs, hm, rfl⟩ := hp
  have hlen := length_le_collectSignatures hm hc.nodup
  have hquorum := hc.quorum
  refine ⟨rfl, by simp only; omega, fun entry he => ?_, fun entry he => ?_⟩
  · obtain ⟨v, hv, hvoter, -⟩ := collectSignatures_entry hm he
    rw [← hvoter]
    exact hc.member v hv
  · obtain ⟨v, hv, hvoter, sv, hsv, hsig⟩ := collectSignatures_entry hm he
    have hst : eng.votes.stored c.height c.round .precommit v = some sv := by
      rw [VoteCollector.stored_eq, hvs]
      exact hsv
    obtain ⟨hbv, hgen⟩ := hg _ _ _ _ _ hst
    -- the vote that the verifier rebuilds is the one that was signed
    have hvote : sv.vote = ⟨.precommit, c.height, c.round, c.proposal, entry.1⟩ := by
      apply Vote.toBftVote_injective
      rw [← hbv, hc.precommit v hv, hvoter]
      rfl
    unfold SignedVote.Genuine at hgen
    rw [hvote, hsig] at hgen
    exact hgen

theorem totalWeight_of_ones {authority : List Node}
    (hone : ∀ node ∈ authority, node.voteWeight = 1) :
    totalWeight authority = authority.length := by
  unfold totalWeight
  rw [List.map_congr_left (g := fun _ => 1) fun node hnode => ?_]
  · simp
  · simp [Node.weight, hone node hnode]

/-- **A sound proof is accepted by a peer at the next height**, if every node weighs one.  A vector
of nodes takes at most `2 ^ 63` bytes and at least `32` for each node, which bounds its length. -/
theorem ProofSound.accepted {proof : Proof} {h : UInt64} {authority : List Node} {checks : Bool}
    (hs : ProofSound E proof h authority) (hone : ∀ node ∈ authority, node.voteWeight = 1)
    (hlen : authority.length < 2 ^ 58) :
    checkProof checks proof (h + 1) authority E.support.hash
      (fun sig hash => (E.support.verifySignature sig hash).toOption) = .ok true := by
  by_cases hzero : h + 1 = 0
  · rw [hzero]
    rfl
  have htotal := totalWeight_of_ones hone
  have hvoters : proof.voters.length ≤ signedWeight authority proof.voters := by
    unfold signedWeight
    refine Quorum.card_le_weightOf Node.address (fun node hnode => ?_) proof.voters
      proof.precommitVotes.nodupKeys fun a ha => ?_
    · simp [Node.weight, hone node hnode]
    · obtain ⟨entry, he, rfl⟩ := List.mem_map.1 ha
      obtain ⟨node, hnode, heq⟩ := List.mem_map.1 (hs.member entry he)
      exact ⟨node, hnode, heq⟩
  have hentries : proof.voters.length = proof.precommitVotes.entries.length := List.length_map _
  have hquorum := hs.quorum
  rw [checkProof_iff hzero (by omega)]
  refine ⟨by rw [hs.height_eq], by omega, fun entry he => ⟨hs.member entry he, ?_⟩⟩
  have hv := hs.verified entry he
  unfold verifyEntry at hv
  rw [hv]
  rfl

/-- **The proof of a commit verifies.**  In every run of a node that signs with its own address,
a commit made of a quorum of precommits carries a proof that the engine accepts and keeps, and that
a peer at the next height accepts too if every node weighs one. -/
theorem committed_proof_verifies [Content F] {address : Address} {disk : Disk} {is : List Input}
    {p : Process F} (hl : Life E address disk is p) (hsign : SignsFor E address)
    (hown : EachInput E address disk is fun p i =>
      ∀ v, BringsCore E p i (.vote v) → v.voter = address)
    {c : BftCommit} {authority : List Node} (hc : LockedBy c authority) {needWal : Bool}
    {commit : Commit F} (hr : Exec.result (handleCommit E c needWal) p.state = (.ok commit, s')) :
    verifyProof E commit.proof c.height authority = true ∧ s'.eng.proof = some commit.proof ∧
      ((∀ node ∈ authority, node.voteWeight = 1) → authority.length < 2 ^ 58 →
        ∀ checks, checkProof checks commit.proof (c.height + 1) authority E.support.hash
          (fun sig hash => (E.support.verifySignature sig hash).toOption) = .ok true) := by
  have hg : GenuineVotes E p.state.eng := hl.genuineVotes hsign hown
  obtain ⟨hproof, hkept⟩ := (handleCommit_proof c needWal).ok hr
  have hsound : ProofSound E commit.proof c.height authority := hproof.sound hg hc
  refine ⟨?_, hkept, fun hone hlen checks => hsound.accepted hone hlen⟩
  by_cases hzero : c.height = 0
  · rw [hzero]
    rfl
  · exact (verifyProof_iff hzero).2 (proofSound_iff.1 hsound).1

theorem committed_proof_verifies_run :
    ∃ p, Life (Reference.env [7]) [7] Reference.disk Reference.precommitRun p ∧ ∃ commit s',
      Exec.result (handleCommit (Reference.env [7]) Reference.firstCommit true) p.state =
        (.ok commit, s') ∧
      verifyProof (Reference.env [7]) commit.proof 1 [Node.new [7]] = true := by
  obtain ⟨p, hp, hf⟩ := Reference.exists_life (Reference.env [7]) [7] Reference.precommitRun
    (fun p => (Exec.result (handleCommit (Reference.env [7]) Reference.firstCommit true)
      p.state).1.isOk) (by decide +kernel)
  have hown : EachInput (Reference.env [7]) [7] Reference.disk Reference.precommitRun fun p i =>
      ∀ v, BringsCore (Reference.env [7]) p i (.vote v) → v.voter = [7] := by
    intro is₁ i is₂ p₁ his _ v hb
    have hi : i ∈ Reference.precommitRun := by simp [his]
    simp only [Reference.precommitRun, Reference.readyRun, List.cons_append, List.nil_append,
      List.mem_cons, List.not_mem_nil, or_false] at hi
    rcases hi with rfl | rfl | rfl | rfl
    · exact hb.elim
    · exact nomatch hb
    · exact hb.elim
    · obtain rfl := CoreOutput.vote.inj hb
      rfl
  obtain ⟨commit, s', hr⟩ := Exec.exists_of_isOk hf
  have hsign : SignsFor (Reference.env [7]) [7] := signsFor_reference [7] (by decide)
  have hc : LockedBy Reference.firstCommit [Node.new [7]] :=
    ⟨by decide, by decide, by decide, by decide⟩
  exact ⟨p, hp, commit, s', hr, (committed_proof_verifies hp hsign hown hc hr).1⟩

end ConsensusBft

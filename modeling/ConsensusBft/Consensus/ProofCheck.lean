import ConsensusBft.Consensus.Reference
import ConsensusBft.Data.Quorum

/-!
# What an accepted proof proves

A proof is checked in two places: by the engine (`verifyProof`), which counts signatures, and by
the independent `checkProof`, which counts weights.

* `checkProof_eq_ok`, `checkProof_iff`, `verifyProof_iff` : what the two functions test.
* `accountable` : **two proofs accepted by `checkProof` at one height share signers of more than a
  third of the weight**, each with a verified signature in both.
* `ProofSound` : what an accepted proof is meant to prove.
* `verifyProof_sound_iff` : **`verifyProof` is sound for a proof if and only if the verifier
  returns no error on it**, unless another test rejects it; `unverified_proof_accepted` : a proof
  with a signature that does not verify is accepted.
-/

namespace ConsensusBft

open Quorum (weightOf)

/-! ### The independent check -/

/-- The vote weight of a node. -/
def Node.weight (node : Node) : ℕ := node.voteWeight.toNat

/-- The weight of a list of nodes. -/
def totalWeight (authorities : List Node) : ℕ := (authorities.map Node.weight).sum

/-- The weight of the nodes whose address is listed. -/
def signedWeight (authorities : List Node) (voters : List Address) : ℕ :=
  weightOf Node.weight authorities fun node => node.address ∈ voters

theorem signedWeight_le (authorities : List Node) (voters : List Address) :
    signedWeight authorities voters ≤ totalWeight authorities :=
  Quorum.weightOf_le_sum _ _ _

theorem getTotalWeight_eq (checks : Bool) (authorities : List Node) :
    getTotalWeight checks authorities =
      if checks ∧ 2 ^ 64 ≤ totalWeight authorities then .error .panicked
      else .ok (UInt64.ofNat (totalWeight authorities)) := by
  unfold getTotalWeight totalWeight
  rw [sum64_eq, List.map_map]
  rfl

theorem getVotesWeight_eq (checks : Bool) (authorities : List Node) (voters : List Address) :
    getVotesWeight checks authorities voters =
      if checks ∧ 2 ^ 64 ≤ signedWeight authorities voters then .error .panicked
      else .ok (UInt64.ofNat (signedWeight authorities voters)) := by
  unfold getVotesWeight signedWeight weightOf
  rw [sum64_eq, List.map_map]
  rfl

/-- The weights fit into the arithmetic of the check. -/
def WeightsFit (proof : Proof) (authority : List Node) : Prop :=
  3 * signedWeight authority proof.voters < 2 ^ 64 ∧ 2 * totalWeight authority < 2 ^ 64

/-- The signers have more than two thirds of the weight, as 64 bits show it. -/
def WeightQuorum (proof : Proof) (authority : List Node) : Prop :=
  2 * totalWeight authority % 2 ^ 64 < 3 * signedWeight authority proof.voters % 2 ^ 64

instance (proof : Proof) (authority : List Node) : Decidable (WeightsFit proof authority) :=
  inferInstanceAs (Decidable (_ ∧ _))

instance (proof : Proof) (authority : List Node) : Decidable (WeightQuorum proof authority) :=
  inferInstanceAs (Decidable (_ < _))

/-- All signers are authorities, and their signatures verify. -/
def AllSigned (proof : Proof) (authority : List Node) (cryptHash : Bytes → Bytes)
    (verify : Bytes → Bytes → Option Address) : Prop :=
  ∀ entry ∈ proof.precommitVotes.entries, entry.1 ∈ intoAddrSet authority ∧
    verify entry.2 (cryptHash (proof.voteOf entry.1).rlpBytes) = some entry.1

/-- The two weights that are compared are computed, unless they do not fit in a build that
checks. -/
theorem weights_eq {α : Type} (checks : Bool) (proof : Proof) (authority : List Node)
    (f : UInt64 → UInt64 → Outcome ConsensusError α) :
    (getVotesWeight checks authority proof.voters >>= fun votes =>
      mul64 checks votes 3 >>= fun votes3 => getTotalWeight checks authority >>= fun total =>
        mul64 checks total 2 >>= fun total2 => f votes3 total2) =
      if checks ∧ ¬ WeightsFit proof authority then .error .panicked
      else f (UInt64.ofNat (3 * signedWeight authority proof.voters))
        (UInt64.ofNat (2 * totalWeight authority)) := by
  rw [getVotesWeight_eq, getTotalWeight_eq]
  have h3 := @mul64_ofNat ConsensusError checks 3 (signedWeight authority proof.voters)
  have h2 := @mul64_ofNat ConsensusError checks 2 (totalWeight authority)
  cases checks with
  | false =>
    simp only [Bool.false_eq_true, false_and, if_false, false_implies, forall_const,
      UInt64.reduceToNat] at h2 h3 ⊢
    change (mul64 false _ 3 >>= fun votes3 => mul64 false _ 2 >>= _) = _
    rw [h3, h2]
    rfl
  | true =>
    simp only [true_and, forall_const, UInt64.reduceToNat] at h2 h3 ⊢
    -- each step up to the first that overflows
    by_cases hs : 2 ^ 64 ≤ signedWeight authority proof.voters
    · have hfit : ¬ WeightsFit proof authority := fun h => by have := h.1; omega
      rw [if_pos hs, if_pos hfit]
      rfl
    rw [if_neg hs]
    change (mul64 true _ 3 >>= _) = _
    rw [h3 (by omega)]
    by_cases hs3 : 2 ^ 64 ≤ 3 * signedWeight authority proof.voters
    · have hfit : ¬ WeightsFit proof authority := fun h => by have := h.1; omega
      rw [if_pos hs3, if_pos hfit]
      rfl
    rw [if_neg hs3]
    by_cases ht : 2 ^ 64 ≤ totalWeight authority
    · have hfit : ¬ WeightsFit proof authority := fun h => by have := h.2; omega
      rw [if_pos ht, if_pos hfit]
      rfl
    rw [if_neg ht]
    change (mul64 true _ 2 >>= _) = _
    rw [h2 (by omega)]
    by_cases ht2 : 2 ^ 64 ≤ 2 * totalWeight authority
    · have hfit : ¬ WeightsFit proof authority := fun h => by have := h.2; omega
      rw [if_pos ht2, if_pos hfit]
      rfl
    · have hfit : WeightsFit proof authority := ⟨by omega, by omega⟩
      rw [if_neg ht2, if_neg (not_not.2 hfit)]
      rfl

/-- **When `checkProof` returns, and what.** -/
theorem checkProof_eq_ok {checks : Bool} {proof : Proof} {height : UInt64} {authority : List Node}
    {cryptHash : Bytes → Bytes} {verify : Bytes → Bytes → Option Address} {accepts : Bool}
    (hheight : height ≠ 0) :
    checkProof checks proof height authority cryptHash verify = .ok accepts ↔
      (checks = true → proof.height + 1 ≠ 0) ∧
      (height = proof.height + 1 → checks = true → WeightsFit proof authority) ∧
      (accepts = true ↔ height = proof.height + 1 ∧ WeightQuorum proof authority ∧
        AllSigned proof authority cryptHash verify) := by
  -- the tests of the weights and of the entries
  have hcmp : UInt64.ofNat (3 * signedWeight authority proof.voters) ≤
      UInt64.ofNat (2 * totalWeight authority) ↔ ¬ WeightQuorum proof authority := by
    unfold WeightQuorum
    rw [UInt64.le_iff_toNat_le, UInt64.toNat_ofNat', UInt64.toNat_ofNat', not_lt]
  have hall : (proof.precommitVotes.entries.all fun entry =>
      if entry.1 ∈ intoAddrSet authority then
        some entry.1 = verify entry.2 (cryptHash (proof.voteOf entry.1).rlpBytes)
      else false) = true ↔ AllSigned proof authority cryptHash verify := by
    rw [List.all_eq_true]
    unfold AllSigned
    refine forall₂_congr fun entry _ => ?_
    split_ifs with hmem <;> simp [hmem, eq_comm]
  unfold checkProof
  rw [if_neg hheight, add64_one]
  by_cases hwraps : checks = true ∧ proof.height + 1 = 0
  · rw [if_pos hwraps]
    exact ⟨nofun, fun h => absurd hwraps.2 (h.1 hwraps.1)⟩
  rw [if_neg hwraps]
  have hnext : checks = true → proof.height + 1 ≠ 0 := fun hc h => hwraps ⟨hc, h⟩
  change (if height ≠ proof.height + 1 then _ else _) = _ ↔ _
  by_cases hh : height = proof.height + 1
  · rw [if_neg (not_not.2 hh)]
    refine (iff_of_eq (congrArg (· = Except.ok accepts)
      (weights_eq checks proof authority _))).trans ?_
    by_cases hfit : checks = true ∧ ¬ WeightsFit proof authority
    · rw [if_pos hfit]
      exact ⟨nofun, fun h => absurd (h.2.1 hh hfit.1) hfit.2⟩
    · rw [if_neg hfit]
      have hfit' : checks = true → WeightsFit proof authority := by
        intro hc
        by_contra h
        exact hfit ⟨hc, h⟩
      have hrest : (accepts = true ↔ height = proof.height + 1 ∧ WeightQuorum proof authority ∧
          AllSigned proof authority cryptHash verify) ↔
          (accepts = true ↔ WeightQuorum proof authority ∧
            AllSigned proof authority cryptHash verify) := by
        simp only [hh, true_and]
      rw [hrest, ← hall, and_iff_right hnext, and_iff_right fun _ => hfit']
      simp only [hcmp]
      by_cases hq : WeightQuorum proof authority
      · rw [if_neg (not_not.2 hq), and_iff_right hq]
        generalize List.all _ _ = verified
        cases verified <;> cases accepts <;> simp [Pure.pure, Except.pure]
      · rw [if_pos hq]
        simp [Pure.pure, Except.pure, hq]
  · rw [if_pos hh]
    simp [hh, Pure.pure, Except.pure]
    exact fun _ => hnext

/-- **What `checkProof` tests**, for weights that are small enough for its arithmetic. -/
theorem checkProof_iff {checks : Bool} {proof : Proof} {height : UInt64} {authority : List Node}
    {cryptHash : Bytes → Bytes} {verify : Bytes → Bytes → Option Address} (hheight : height ≠ 0)
    (hw : 3 * totalWeight authority < 2 ^ 64) :
    checkProof checks proof height authority cryptHash verify = .ok true ↔
      height = proof.height + 1 ∧
      2 * totalWeight authority < 3 * signedWeight authority proof.voters ∧
      ∀ entry ∈ proof.precommitVotes.entries, entry.1 ∈ intoAddrSet authority ∧
        verify entry.2 (cryptHash (proof.voteOf entry.1).rlpBytes) = some entry.1 := by
  have hle := signedWeight_le authority proof.voters
  have hquorum : WeightQuorum proof authority ↔
      2 * totalWeight authority < 3 * signedWeight authority proof.voters := by
    unfold WeightQuorum
    rw [Nat.mod_eq_of_lt (by omega), Nat.mod_eq_of_lt (by omega)]
  rw [checkProof_eq_ok hheight, hquorum]
  constructor
  · rintro ⟨-, -, h⟩
    exact h.1 rfl
  · intro h
    refine ⟨fun _ => h.1 ▸ hheight, fun _ _ => ⟨by omega, by omega⟩, iff_of_true rfl h⟩

/-- The proof has a signature of `address` that verifies. -/
def Proof.SignedBy (proof : Proof) (cryptHash : Bytes → Bytes)
    (verify : Bytes → Bytes → Option Address) (address : Address) : Prop :=
  ∃ sig, proof.precommitVotes.lookup address = some sig ∧
    verify sig (cryptHash (proof.voteOf address).rlpBytes) = some address

/-- **Accountability.**  Two proofs that `checkProof` accepts at one height share signers of more
than a third of the total weight, and each of them has a verified precommit signature in both. -/
theorem accountable {checks : Bool} {p₁ p₂ : Proof} {height : UInt64} {authority : List Node}
    {cryptHash : Bytes → Bytes} {verify : Bytes → Bytes → Option Address} (hheight : height ≠ 0)
    (hw : 3 * totalWeight authority < 2 ^ 64)
    (h₁ : checkProof checks p₁ height authority cryptHash verify = .ok true)
    (h₂ : checkProof checks p₂ height authority cryptHash verify = .ok true) :
    totalWeight authority < 3 * weightOf Node.weight authority
        (fun node => node.address ∈ p₁.voters ∧ node.address ∈ p₂.voters) ∧
      p₁.height = p₂.height ∧
      ∀ node ∈ authority, node.address ∈ p₁.voters → node.address ∈ p₂.voters →
        p₁.SignedBy cryptHash verify node.address ∧ p₂.SignedBy cryptHash verify node.address := by
  obtain ⟨hh₁, hq₁, hs₁⟩ := (checkProof_iff hheight hw).1 h₁
  obtain ⟨hh₂, hq₂, hs₂⟩ := (checkProof_iff hheight hw).1 h₂
  refine ⟨Quorum.lt_weightOf_inter hq₁ hq₂, ?_, ?_⟩
  · have hnext := hh₁.symm.trans hh₂
    grind
  · -- a voter of an accepted proof is the key of an entry, and every entry was verified
    have signed : ∀ (p : Proof) (a : Address), (∀ entry ∈ p.precommitVotes.entries,
        entry.1 ∈ intoAddrSet authority ∧
          verify entry.2 (cryptHash (p.voteOf entry.1).rlpBytes) = some entry.1) →
        a ∈ p.voters → p.SignedBy cryptHash verify a := by
      intro p a hs ha
      obtain ⟨entry, hmem, rfl⟩ := List.mem_map.1 ha
      exact ⟨entry.2, AList.mem_lookup_iff.2 hmem, (hs entry hmem).2⟩
    exact fun node _ hv₁ hv₂ => ⟨signed p₁ _ hs₁ hv₁, signed p₂ _ hs₂ hv₂⟩

/-- A proof of height `1` signed by the given nodes of the reference application. -/
def Reference.proof (blockHash : Hash) (voters : List Address) : Proof :=
  ⟨blockHash, 1, 0, voters.foldl (fun m a => m.insert a a) ∅⟩

/-- The verifier of the reference application, as `checkProof` takes it. -/
def Reference.verify (sig _hash : Bytes) : Option Address := if sig = [] then none else some sig

/-- Four nodes of weight one. -/
def Reference.fourNodes : List Node := [Node.new [1], Node.new [2], Node.new [3], Node.new [4]]

/-- Two proofs for different blocks, by three of the four nodes each. -/
theorem accountable_four_nodes :
    4 < 3 * weightOf Node.weight Reference.fourNodes fun node =>
      node.address ∈ (Reference.proof [5] [[1], [2], [3]]).voters ∧
        node.address ∈ (Reference.proof [6] [[2], [3], [4]]).voters := by
  have h₁ : checkProof true (Reference.proof [5] [[1], [2], [3]]) 2 Reference.fourNodes id
      Reference.verify = .ok true := by decide +kernel
  have h₂ : checkProof true (Reference.proof [6] [[2], [3], [4]]) 2 Reference.fourNodes id
      Reference.verify = .ok true := by decide +kernel
  exact (accountable (by decide) (by decide) h₁ h₂).1

/-! ### The check of the engine -/

variable {F : Type} (E : Env F)

/-- The verifier of the application on an entry of a proof. -/
def verifyEntry (proof : Proof) (entry : Sigma fun _ : Address => Signature) :
    Except String Address :=
  E.support.verifySignature entry.2 (E.support.hash (proof.voteOf entry.1).rlpBytes)

/-- What an accepted proof of height `h` is meant to prove. -/
structure ProofSound (proof : Proof) (h : UInt64) (authority : List Node) : Prop where
  height_eq : proof.height = h
  quorum : 2 * authority.length < 3 * proof.precommitVotes.entries.length
  member : ∀ entry ∈ proof.precommitVotes.entries, entry.1 ∈ intoAddrSet authority
  verified : ∀ entry ∈ proof.precommitVotes.entries, verifyEntry E proof entry = .ok entry.1

/-- The tests that `verifyProof` makes, without the errors of the verifier. -/
structure PassesTests (proof : Proof) (h : UInt64) (authority : List Node) : Prop where
  height_eq : proof.height = h
  quorum : 2 * authority.length < 3 * proof.precommitVotes.entries.length
  member : ∀ entry ∈ proof.precommitVotes.entries, entry.1 ∈ intoAddrSet authority
  agree : ∀ entry ∈ proof.precommitVotes.entries, ∀ address,
    verifyEntry E proof entry = .ok address → address = entry.1

/-- The verifier returns no error on the entries of a proof. -/
def NoVerifierError (proof : Proof) : Prop :=
  ∀ entry ∈ proof.precommitVotes.entries, ∃ address, verifyEntry E proof entry = .ok address

variable {E}

/-- **What `verifyProof` tests.** -/
theorem verifyProof_iff {proof : Proof} {h : UInt64} {authority : List Node} (hh : h ≠ 0) :
    verifyProof E proof h authority = true ↔ PassesTests E proof h authority := by
  have hlen : (intoAddrSet authority).length = authority.length := List.length_map _
  unfold verifyProof
  rw [if_neg hh]
  dsimp only
  rw [hlen]
  by_cases hc : h ≠ proof.height ∨ 2 * authority.length ≥ 3 * proof.precommitVotes.entries.length
  · rw [if_pos hc]
    refine ⟨nofun, ?_⟩
    intro hp
    rcases hc with hc | hc
    · exact absurd hp.height_eq.symm hc
    · exact absurd hp.quorum (not_lt.2 hc)
  · rw [if_neg hc, List.all_eq_true]
    obtain ⟨hheight, hquorum⟩ := not_or.1 hc
    -- what the loop tests of one entry
    trans ∀ entry ∈ proof.precommitVotes.entries, entry.1 ∈ intoAddrSet authority ∧
      ∀ address, verifyEntry E proof entry = .ok address → address = entry.1
    · refine forall₂_congr ?_
      intro entry _
      unfold verifyEntry
      by_cases hmem : entry.1 ∈ intoAddrSet authority
      · rw [if_pos hmem]
        cases E.support.verifySignature entry.2
            (E.support.hash (proof.voteOf entry.1).rlpBytes) with
        | ok address => simp [hmem]
        | error e => simp [hmem]
      · simp [hmem]
    constructor
    · intro hall
      exact ⟨(not_not.1 hheight).symm, not_le.1 hquorum, fun e he => (hall e he).1,
        fun e he => (hall e he).2⟩
    · intro hp entry he
      exact ⟨hp.member entry he, hp.agree entry he⟩

/-- A proof that passes the tests is sound if the verifier returns no error on it. -/
theorem proofSound_iff {proof : Proof} {h : UInt64} {authority : List Node} :
    ProofSound E proof h authority ↔ PassesTests E proof h authority ∧ NoVerifierError E proof := by
  constructor
  · intro hs
    refine ⟨⟨hs.height_eq, hs.quorum, hs.member, fun e he a ha => ?_⟩,
      fun e he => ⟨e.1, hs.verified e he⟩⟩
    exact Except.ok.inj (ha.symm.trans (hs.verified e he))
  · rintro ⟨hp, hv⟩
    refine ⟨hp.height_eq, hp.quorum, hp.member, ?_⟩
    intro e he
    obtain ⟨a, ha⟩ := hv e he
    rw [ha, hp.agree e he a ha]

/-- The authorities that check the proof in a proposal of the current height. -/
def proofAuthorities (eng : Consensus F) : List Node :=
  if eng.authority.authorityHOld = eng.height - 1 then eng.authority.authoritiesOld
  else eng.authority.authorities

/-- **`check_proof` accepts the proofs that `verify_proof` accepts**, and only then may it keep the
proof. -/
theorem checkProofOf_result {s : State F} (proof : Proof) (hs : s.eng.height ≠ 0) :
    if verifyProof E proof (s.eng.height - 1) (proofAuthorities s.eng) = true then
      ∃ s', Exec.result (checkProofOf E s.eng.height proof) s = (.ok ⟨⟩, s') ∧
        (s'.eng.proof = s.eng.proof ∨ s'.eng.proof = some proof)
    else Exec.result (checkProofOf E s.eng.height proof) s = (.error (.err .proofErr), s) := by
  have hsub : sub64 (ε := ConsensusError) E.overflowChecks s.eng.height 1 =
      .ok (s.eng.height - 1) := sub64_of_le (by grind)
  unfold checkProofOf
  rw [Exec.result_bind_get, Exec.result_bind_rejectIf (by simp), Exec.result_bind_lift hsub]
  by_cases hv : verifyProof E proof (s.eng.height - 1) (proofAuthorities s.eng) = true
  · rw [if_pos hv, Exec.result_bind_rejectIf (fun h => Bool.false_ne_true (h.symm.trans hv))]
    by_cases hp : s.eng.proof.map Proof.height ≠ some (s.eng.height - 1)
    · rw [Exec.result_doIf_of hp]
      exact ⟨_, rfl, Or.inr rfl⟩
    · rw [Exec.result_doIf_of_not hp]
      exact ⟨s, rfl, Or.inl rfl⟩
  · rw [if_neg hv]
    exact Exec.result_bind_rejectIf_of (Bool.eq_false_iff.2 hv) _ _ _

/-- **The check of the engine is sound for a proof if and only if the verifier returns no error on
it**, or another test rejects the proof.  The same condition decides whether `check_proof` only
accepts it when it is sound, and an unsound proof is never kept without being accepted. -/
theorem verifyProof_sound_iff (proof : Proof) (h : UInt64) (authority : List Node) (hh : h ≠ 0) :
    ((verifyProof E proof h authority = true → ProofSound E proof h authority) ↔
      (PassesTests E proof h authority → NoVerifierError E proof)) ∧
    ∀ s : State F, s.eng.height ≠ 0 → s.eng.height - 1 = h → proofAuthorities s.eng = authority →
      (((Exec.result (checkProofOf E s.eng.height proof) s).1 = .ok ⟨⟩ →
          ProofSound E proof h authority) ↔
        (PassesTests E proof h authority → NoVerifierError E proof)) ∧
      ((Exec.result (checkProofOf E s.eng.height proof) s).1 ≠ .ok ⟨⟩ →
        (Exec.result (checkProofOf E s.eng.height proof) s).2.eng.proof = s.eng.proof) := by
  have hsound : (verifyProof E proof h authority = true → ProofSound E proof h authority) ↔
      (PassesTests E proof h authority → NoVerifierError E proof) := by
    rw [verifyProof_iff hh, proofSound_iff]
    exact ⟨fun hp ht => (hp ht).2, fun hp ht => ⟨ht, hp ht⟩⟩
  refine ⟨hsound, ?_⟩
  rintro s hs rfl rfl
  have hres := checkProofOf_result (E := E) proof hs
  split_ifs at hres with hv
  · obtain ⟨s', hr, -⟩ := hres
    rw [hr, ← hsound]
    exact ⟨⟨fun hp _ => hp rfl, fun hp _ => hp hv⟩, fun hne => absurd rfl hne⟩
  · rw [hres, ← hsound]
    exact ⟨⟨fun _ hp => absurd hp hv, fun _ => nofun⟩, fun _ => rfl⟩

/-- A proof of height `1` for the block `[5]` with an empty signature of the node `[7]`. -/
def unsignedProof : Proof := ⟨[5], 1, 0, (∅ : HashMap Address Signature).insert [7] []⟩

theorem verifyProof_sound_iff_unsigned :
    (verifyProof (Reference.env [7]) unsignedProof 1 [Node.new [7]] = true →
      ProofSound (Reference.env [7]) unsignedProof 1 [Node.new [7]]) ↔
    (PassesTests (Reference.env [7]) unsignedProof 1 [Node.new [7]] →
      NoVerifierError (Reference.env [7]) unsignedProof) :=
  (verifyProof_sound_iff unsignedProof 1 [Node.new [7]] (by decide)).1

/-- The engine accepts it, although the signature does not verify. -/
theorem unverified_proof_accepted :
    verifyProof (Reference.env [7]) unsignedProof 1 [Node.new [7]] = true ∧
      ¬ ProofSound (Reference.env [7]) unsignedProof 1 [Node.new [7]] := by
  refine ⟨by decide +kernel, ?_⟩
  intro hs
  exact nomatch hs.verified ⟨[7], []⟩ (by decide)

end ConsensusBft

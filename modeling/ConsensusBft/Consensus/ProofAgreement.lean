import ConsensusBft.Consensus.ProofCheck

/-!
# The two checks of a proof

The engine checks the proof in a proposal of height `h` with `verify_proof` at `h - 1`, everybody
else checks it with `check_proof` at `h`.

* `CheckersAgree E proof height authority` : when the two give the same answer.
* `checkProof_eq_verifyProof_iff` : **the independent check answers as the engine does exactly
  then.**
* `genesis_rejected`, `genesis_checks_differ` : the proof that a proposal of height `1` carries is
  accepted by the engine and by nobody else.
-/

namespace ConsensusBft

variable {F : Type} {E : Env F} {proof : Proof} {height : UInt64} {authority : List Node}

/-- The verifier of the application, as `check_proof` takes it. -/
def Env.verifier (E : Env F) (sig hash : Bytes) : Option Address :=
  (E.support.verifySignature sig hash).toOption

/-- All signers are authorities, and no signature verifies for somebody else. -/
def NoneForged (E : Env F) (proof : Proof) (authority : List Node) : Prop :=
  ∀ entry ∈ proof.precommitVotes.entries, entry.1 ∈ intoAddrSet authority ∧
    ∀ address, verifyEntry E proof entry = .ok address → address = entry.1

/-- When the two checks give the same answer for a proof in a proposal of a height. -/
structure CheckersAgree (E : Env F) (proof : Proof) (height : UInt64) (authority : List Node) :
    Prop where
  /-- The independent check does not overflow. -/
  next : E.overflowChecks = true → proof.height + 1 ≠ 0
  fits : height = proof.height + 1 → E.overflowChecks = true → WeightsFit proof authority
  /-- At height `1`, where the engine accepts everything, the proof is a full one. -/
  genesis : height = 1 →
    proof.height = 0 ∧ WeightQuorum proof authority ∧ NoneForged E proof authority ∧
      NoVerifierError E proof
  /-- Where the other tests pass, the number of signers and their weight give the same answer, up
  to the errors of the verifier. -/
  quorum : height ≠ 1 → height = proof.height + 1 → NoneForged E proof authority →
    (2 * authority.length < 3 * proof.precommitVotes.entries.length ↔
      WeightQuorum proof authority ∧ NoVerifierError E proof)

/-- The tests of the engine, with those of the entries taken together. -/
theorem passesTests_iff {h : UInt64} : PassesTests E proof h authority ↔
    proof.height = h ∧ 2 * authority.length < 3 * proof.precommitVotes.entries.length ∧
      NoneForged E proof authority := by
  constructor
  · intro hp
    exact ⟨hp.height_eq, hp.quorum, fun e he => ⟨hp.member e he, hp.agree e he⟩⟩
  · rintro ⟨hheight, hquorum, hforged⟩
    exact ⟨hheight, hquorum, fun e he => (hforged e he).1, fun e he => (hforged e he).2⟩

/-- The independent check rejects the errors of the verifier as well. -/
theorem allSigned_iff : AllSigned proof authority E.support.hash E.verifier ↔
    NoneForged E proof authority ∧ NoVerifierError E proof := by
  have signed : ∀ entry, E.verifier entry.2 (E.support.hash (proof.voteOf entry.1).rlpBytes) =
      some entry.1 ↔ verifyEntry E proof entry = .ok entry.1 := by
    intro entry
    unfold Env.verifier verifyEntry
    cases E.support.verifySignature entry.2
      (E.support.hash (proof.voteOf entry.1).rlpBytes) <;> simp [Except.toOption]
  constructor
  · intro hall
    refine ⟨fun e he => ⟨(hall e he).1, fun a ha => ?_⟩, fun e he => ⟨e.1, ?_⟩⟩
    · have hok := (signed e).1 (hall e he).2
      exact Except.ok.inj (ha.symm.trans hok)
    · exact (signed e).1 (hall e he).2
  · rintro ⟨hforged, herror⟩ e he
    refine ⟨(hforged e he).1, (signed e).2 ?_⟩
    obtain ⟨a, ha⟩ := herror e he
    rw [ha, (hforged e he).2 a ha]

/-- **The independent check answers as the engine does if and only if the checks agree on the
proof.** -/
theorem checkProof_eq_verifyProof_iff (hheight : height ≠ 0) :
    checkProof E.overflowChecks proof height authority E.support.hash E.verifier =
        .ok (verifyProof E proof (height - 1) authority) ↔
      CheckersAgree E proof height authority := by
  rw [checkProof_eq_ok hheight, allSigned_iff]
  by_cases hone : height = 1
  · subst hone
    have hv : verifyProof E proof (1 - 1) authority = true := rfl
    have hzero : 1 = proof.height + 1 ↔ proof.height = 0 := by grind
    simp only [hv, hzero, true_iff]
    constructor
    · rintro ⟨hnext, hfits, hgenesis⟩
      exact ⟨hnext, fun h => hfits (hzero.1 h), fun _ => hgenesis, fun h => absurd rfl h⟩
    · intro h
      exact ⟨h.next, fun hh => h.fits (hzero.2 hh), h.genesis rfl⟩
  · have hprev : height - 1 ≠ 0 := by grind
    have hsucc : height = proof.height + 1 ↔ proof.height = height - 1 := by grind
    rw [verifyProof_iff hprev, passesTests_iff, ← hsucc]
    constructor
    · rintro ⟨hnext, hfits, htests⟩
      refine ⟨hnext, hfits, fun h => absurd h hone, fun _ hh hforged => ?_⟩
      simpa [hh, hforged] using htests
    · intro h
      refine ⟨h.next, h.fits, ?_⟩
      by_cases hh : height = proof.height + 1 ∧ NoneForged E proof authority
      · have := h.quorum hone hh.1 hh.2
        tauto
      · tauto

/-- Three of four nodes sign, and both checks accept. -/
theorem checkProof_eq_verifyProof_four_nodes :
    checkProof true (Reference.proof [5] [[1], [2], [3]]) 2 Reference.fourNodes id
        (Reference.env [7]).verifier =
      .ok (verifyProof (Reference.env [7]) (Reference.proof [5] [[1], [2], [3]]) 1
        Reference.fourNodes) := by
  have hok : ∀ entry ∈ (Reference.proof [5] [[1], [2], [3]]).precommitVotes.entries,
      verifyEntry (Reference.env [7]) (Reference.proof [5] [[1], [2], [3]]) entry =
        .ok entry.1 := by
    intro entry he
    have hentries : (Reference.proof [5] [[1], [2], [3]]).precommitVotes.entries =
        [⟨[3], [3]⟩, ⟨[2], [2]⟩, ⟨[1], [1]⟩] := by decide +kernel
    rw [hentries] at he
    simp only [List.mem_cons, List.not_mem_nil, or_false] at he
    rcases he with rfl | rfl | rfl <;> rfl
  have htwo : (2 : UInt64) ≠ 0 := by decide
  refine (checkProof_eq_verifyProof_iff (E := Reference.env [7]) htwo).2 ?_
  refine ⟨fun _ => by decide, fun _ _ => by decide +kernel, fun h => absurd h (by decide),
    fun _ _ _ => ?_⟩
  exact iff_of_true (by decide) ⟨by decide +kernel, fun e he => ⟨e.1, hok e he⟩⟩

/-! ### Height one -/

/-- The independent check accepts no proof without signatures. -/
theorem genesis_rejected (checks : Bool) (hash : Hash) (hheight : height ≠ 0)
    (cryptHash : Bytes → Bytes) (verify : Bytes → Bytes → Option Address) :
    checkProof checks ⟨hash, 0, 0, ∅⟩ height authority cryptHash verify ≠ .ok true := by
  intro h
  have hquorum := (((checkProof_eq_ok hheight).1 h).2.2.1 rfl).2.1
  have hnone : signedWeight authority (Proof.voters ⟨hash, 0, 0, ∅⟩) = 0 := by
    simp [signedWeight, Proof.voters, Quorum.weightOf]
  rw [WeightQuorum, hnone] at hquorum
  exact absurd hquorum (by omega)

/-- **The proof that the engine puts into a proposal of height `1` is accepted by the engine, and
rejected by the independent check.** -/
theorem genesis_checks_differ :
    ∃ p, Life (Reference.env [7]) [7] Reference.disk (Reference.readyRun [7]) p ∧
      (Exec.result (proofFor [9]) p.state).1 = .ok ⟨[9], 0, 0, ∅⟩ ∧
      verifyProof (Reference.env [7]) ⟨[9], 0, 0, ∅⟩ (1 - 1) [Node.new [7]] = true ∧
      checkProof true ⟨[9], 0, 0, ∅⟩ 1 [Node.new [7]] id (Reference.env [7]).verifier =
        .ok false := by
  obtain ⟨p, hl, hf⟩ := Reference.exists_life (Reference.env [7]) [7] (Reference.readyRun [7])
    (fun p => decide (p.state.eng.height = 1)) (by decide +kernel)
  refine ⟨p, hl, ?_, rfl, rfl⟩
  unfold proofFor
  rw [Exec.result_bind_get, if_pos (of_decide_eq_true hf)]
  rfl

end ConsensusBft

import ConsensusBft.Consensus.Emission
import ConsensusBft.Consensus.NewHeight
import ConsensusBft.Consensus.ProofCheck
import ConsensusBft.Consensus.Reference

/-!
# The proof that proposals carry

From height `2` on, a proposal carries the proof of the height before.  The engine keeps one proof;
commits and proposals of other nodes write it, while statuses move the height.

* `FreshProof eng` : the proof that is kept, if there is one, is for the height before.
* `EmitsFresh E s` : what the engine proposes carries such a proof, and nothing is proposed
  without one.
* `StatusMeets`, `CommitMeets`, `ProofMeets` : the conditions under which a turn keeps the proof
  fresh.
* `emits_fresh_of_proofMeets` : **in every run whose turns meet them, every proposal carries the
  proof of the height before.**
* `stale_proof_proposed` : a status that is not for the height of the proof lets the engine propose
  with a stale one.
-/

namespace ConsensusBft

open Exec (Steps doIf)

variable {F : Type} [Content F] {E : Env F} {S : Source F} {s s' : State F} {address : Address}
variable {disk : Disk} {is : List Input} {p p' : Process F} {i : Input} {rs : Status}
variable {needWal : Bool}

/-- From height `2` on, the proof that is kept is for the height before. -/
def FreshProof (eng : Consensus F) : Prop :=
  2 ≤ eng.height → ∀ proof, eng.proof = some proof → proof.height = eng.height - 1

/-- From height `2` on, what the engine proposes carries a proof of the height before, and if the
engine knows none, it builds no proposal. -/
def EmitsFresh (E : Env F) (s : State F) : Prop :=
  ∀ b, 2 ≤ s.eng.height →
    (∀ needWal bytes s', Exec.result (handleProposal E b needWal) s = (.ok bytes, s') →
      ∃ sp content encoded, Emitted E s b bytes sp content encoded ∧
        sp.proposal.proof.height = s.eng.height - 1) ∧
    (s.eng.proof.map Proof.height ≠ some (s.eng.height - 1) →
      Exec.result (buildSignedProposal E b) s = (.error (.err .missingProof), s))

/-- **With a fresh proof, what the engine proposes carries it.** -/
theorem FreshProof.emits (h : FreshProof s.eng) : EmitsFresh E s := by
  intro b htwo
  have hne : s.eng.height ≠ 1 := by
    intro hone
    rw [hone] at htwo
    exact absurd htwo (by decide)
  constructor
  · intro needWal bytes s' hres
    obtain ⟨sp, content, encoded, he, -⟩ := (handleProposal_emits b needWal s).ok hres
    refine ⟨sp, content, encoded, he, ?_⟩
    have hproof := he.proof
    rw [ProofOf, if_neg hne] at hproof
    exact h htwo _ hproof
  · intro hstale
    have hnone : s.eng.proof = none := by
      cases hp : s.eng.proof with
      | none => rfl
      | some proof => simp [hp, h htwo proof hp] at hstale
    unfold buildSignedProposal
    rw [Exec.result_bind_get, Exec.result_bind_rejectIf_of ⟨by simp [hnone], hne⟩]

/-! ### Moves -/

/-- A move of a turn that brings no commit keeps the proof fresh: a proof that is adopted was
verified for the height before. -/
theorem Move.freshProof (h : Move E S s s') (hS : ∀ c, ¬ S.core (.commit c))
    (hf : FreshProof s.eng) : FreshProof s'.eng := by
  cases h with
  | setProof proof proven =>
    rintro htwo _ ⟨⟩
    cases proven with
    | adopted positive verified stale =>
      have hne : s.eng.height - 1 ≠ 0 := by
        intro hzero
        have hone : s.eng.height = 1 := by grind
        change 2 ≤ s.eng.height at htwo
        rw [hone] at htwo
        exact absurd htwo (by decide)
      exact ((verifyProof_iff hne).1 verified).height_eq
    | committed c received _ _ => exact absurd received (hS c)
  | _ => exact hf

omit [Content F] in
/-- Where the height stays below `2`, there is nothing to show. -/
theorem FreshProof.of_lt {eng : Consensus F} (h : ¬ 2 ≤ eng.height) : FreshProof eng :=
  fun htwo => absurd htwo h

/-! ### Statuses -/

/-- A status that is let in, and opens height `2` or a later one, finds a proof for its own height,
if it finds one. -/
def StatusMeets (E : Env F) (s : State F) (rs : Status) (needWal : Bool) : Prop :=
  LetIn E s rs needWal → 2 ≤ rs.height + 1 →
    ∀ proof, s.eng.proof = some proof → proof.height = rs.height

omit [Content F] in
/-- A status that meets the condition leaves a fresh proof, and one that is refused leaves what it
finds. -/
theorem StatusEffect.freshProof {r : Outcome ConsensusError BftStatus}
    (h : StatusEffect E s rs needWal r s') (hr : r ≠ .error .panicked)
    (hm : StatusMeets E s rs needWal) (hf : ¬ LetIn E s rs needWal → FreshProof s.eng) :
    FreshProof s'.eng := by
  cases h with
  | refused _ out => exact hf out
  | crashed _ _ _ => exact absurd rfl hr
  | entered _ letIn _ =>
    intro htwo proof hproof
    rw [hm letIn htwo proof hproof]
    change rs.height = rs.height + 1 - 1
    grind

/-- So does the whole handling of a status from outside or from a commit. -/
theorem processStatus_freshProof (hc : Cached E (Supply.all F) s.eng)
    (hm : StatusMeets E s rs true) (hf : ¬ LetIn E s rs true → FreshProof s.eng) :
    Exec.wp (processStatus E rs) (fun _ s' => FreshProof s'.eng)
      (fun e s' => e ≠ .panicked → FreshProof s'.eng) s := by
  have heffect := handleRichStatus_effect E s rs true
  refine processStatus_keeps (fun _ _ h => h.freshProof not_quietSource) (fun _ _ h _ => h) hc ?_
  refine Exec.wp_of_result rfl (fun status hr => ?_) fun e he hne => ?_
  · exact heffect.freshProof (by rw [hr]; simp) hm hf
  · exact heffect.freshProof (by rw [he]; simpa using hne) hm hf

/-! ### Commits -/

/-- A commit that is handled sets the proof to its own height, before the application is asked.
From height `2` on the application answers with a status that is let in, and a status that is let
in and opens height `2` or a later one is for the height of the commit. -/
def CommitMeets (E : Env F) (s : State F) (c : BftCommit) : Prop :=
  ∀ commit s₁, Exec.result (handleCommit E c true) s = (.ok commit, s₁) →
    (2 ≤ s.eng.height → ∃ rs, E.support.commit s₁.calls.length commit = .ok rs ∧
      LetIn E s₁ rs true) ∧
    ∀ rs, E.support.commit s₁.calls.length commit = .ok rs → LetIn E s₁ rs true →
      2 ≤ rs.height + 1 → rs.height = c.height

/-- **A commit that meets the condition leaves a fresh proof.** -/
theorem coreProcess_commit_freshProof (c : BftCommit) (hc : Cached E (Supply.all F) s.eng)
    (hm : CommitMeets E s c) (hf : FreshProof s.eng) :
    Exec.wp (coreProcess E (.commit c)) (fun _ s' => FreshProof s'.eng)
      (fun e s' => e ≠ .panicked → FreshProof s'.eng) s := by
  have hleft := handleCommit_leaves (E := E) c true s
  -- below height `2` there is nothing to show as long as the height stays
  have stays : ∀ {commit s₁}, Exec.result (handleCommit E c true) s = (.ok commit, s₁) →
      ¬ 2 ≤ s.eng.height → FreshProof s₁.eng := by
    intro commit s₁ hres
    rw [← (hleft.ok hres).1]
    exact FreshProof.of_lt
  refine coreProcess_commit_wp ?_ ?_ ?_
  · intro e s₁ hres _
    obtain ⟨hheight, -, hproof⟩ := hleft.error hres
    rw [FreshProof, hheight, hproof]
    exact hf
  · intro commit s₁ e hres hcom _ _
    have hstays := stays hres
    refine hstays fun htwo => ?_
    obtain ⟨rs, hrs, -⟩ := (hm commit s₁ hres).1 htwo
    exact nomatch hrs.symm.trans hcom
  · intro commit s₁ rs hres hcom
    obtain ⟨-, -, hproof, hcommit, -⟩ := hleft.ok hres
    obtain ⟨hanswer, hstatus⟩ := hm commit s₁ hres
    have hstays := stays hres
    have hmoves := (handleCommit_moves (E := E) (S := Source.all F) (s := s) (c := c) trivial
      true).reached hres
    have hc₁ : Cached E (Supply.all F) s₁.eng :=
      Advances.cached (Moves.advances (Stills.moves hmoves)) hc
    refine processStatus_freshProof hc₁ ?_ ?_
    · intro letIn htwo proof hp
      obtain rfl := Option.some.inj (hproof.symm.trans hp)
      rw [hcommit]
      exact (hstatus rs hcom ⟨letIn.height_le, letIn.logged⟩ htwo).symm
    · refine fun out => hstays fun htwo => ?_
      obtain ⟨rs', hrs', letIn⟩ := hanswer htwo
      obtain rfl := Except.ok.inj (hrs'.symm.trans hcom)
      exact out ⟨letIn.height_le, letIn.logged⟩

/-! ### Runs -/

/-- The conditions under which a turn keeps the proof fresh.  The replay of a commit drops the
status that the application answers with, so from height `2` on no commit may be handled there. -/
def ProofMeets (E : Env F) (p : Process F) : Input → Prop
  | .external (.status rs) => StatusMeets E p.state rs true
  | .core (.commit c) => CommitMeets E p.state c
  | .replay => (∀ rs, BringsStatus E p .replay rs → StatusMeets E p.state rs false) ∧
      ∀ c, BringsCore E p .replay (.commit c) → 2 ≤ p.state.eng.height →
        ∀ commit s, Exec.result (handleCommit E c true) p.state ≠ (.ok commit, s)
  | _ => True

/-- A turn that brings neither a status nor a commit. -/
theorem next_freshProof_of_quiet (hc : Cached E (Supply.all F) p.state.eng)
    (hn : next E i p = some p') (hstatus : ∀ rs, ¬ BringsStatus E p i rs)
    (hcommit : ∀ c, ¬ BringsCore E p i (.commit c)) (hf : FreshProof p.state.eng) :
    FreshProof p'.state.eng :=
  Exec.invariant_of_moves (I := fun s => FreshProof s.eng)
    (fun _ _ h => h.freshProof not_quietSource) (next_moves_of_quiet hc hn hstatus hcommit) hf

/-- What the engine does without statuses and commits keeps the proof fresh. -/
theorem Steps.freshProof {α : Type} {m : EngineM F α} {Q : α → State F → Prop}
    (h : Steps (Still E (quietSource F)) m Q s) (hf : FreshProof s.eng) :
    Exec.wp m (fun _ s' => FreshProof s'.eng) (fun e s' => e ≠ .panicked → FreshProof s'.eng) s :=
  (h.keeps (fun _ _ h => h.move.freshProof not_quietSource) hf).mono (fun _ _ h => h)
    fun _ _ h _ => h

/-- The replay of a status. -/
theorem loadStatus_freshProof {msg : Bytes}
    (hm : ∀ rs, E.serde.status.fromSlice msg = some rs → StatusMeets E s rs false)
    (hf : FreshProof s.eng) : Exec.wp (loadStatus E msg) (fun _ s' => FreshProof s'.eng)
      (fun e s' => e ≠ .panicked → FreshProof s'.eng) s := by
  unfold loadStatus loadJson
  cases hmsg : E.serde.status.fromSlice msg with
  | none => exact fun _ => hf
  | some rs =>
    have heffect := handleRichStatus_effect E s rs false
    refine Exec.wp_bind.2 (Exec.wp_ifOk (Exec.wp_of_result rfl ?_ ?_))
    · intro status hr
      have hfresh := heffect.freshProof (by simp [hr]) (hm rs hmsg) fun _ => hf
      exact Steps.freshProof (sendBft_moves ⟨rfl, trivial⟩ trivial) hfresh
    · intro e hr
      refine ⟨fun hne => ?_, fun _ h => absurd rfl h⟩
      exact heffect.freshProof (by simpa [hr] using hne) (hm rs hmsg) fun _ => hf

omit [Content F] in
/-- The replay of a commit. -/
theorem loadCommit_freshProof {msg : Bytes}
    (hm : ∀ c, E.serde.bftCommit.fromSlice msg = some c → 2 ≤ s.eng.height →
      ∀ commit s', Exec.result (handleCommit E c true) s ≠ (.ok commit, s'))
    (hf : FreshProof s.eng) : Exec.wp (loadCommit E msg) (fun _ s' => FreshProof s'.eng)
      (fun e s' => e ≠ .panicked → FreshProof s'.eng) s := by
  unfold loadCommit loadJson
  cases hmsg : E.serde.bftCommit.fromSlice msg with
  | none => exact fun _ => hf
  | some c =>
    have hleft := handleCommit_leaves (E := E) c true s
    refine Exec.wp_bind.2 (Exec.wp_ifOk ?_)
    cases hres : Exec.result (handleCommit E c true) s with
    | mk r s₁ =>
      refine Exec.wp_of_result hres ?_ ?_
      · rintro commit rfl
        have hlt : ¬ 2 ≤ s₁.eng.height := by
          rw [(hleft.ok hres).1]
          exact fun htwo => hm c hmsg htwo commit s₁ hres
        -- the commit is handed over and its answer dropped
        refine Exec.wp_bind.2 (Exec.wp_of_result (result_callCommit commit s₁) ?_ nofun)
        rintro _ ⟨rfl⟩
        cases E.support.commit s₁.calls.length commit with
        | ok _ => exact FreshProof.of_lt hlt
        | error _ => exact fun _ => FreshProof.of_lt hlt
      · rintro e rfl
        have hfresh : FreshProof s₁.eng := by
          rw [FreshProof, (hleft.error hres).1, (hleft.error hres).2.2]
          exact hf
        exact ⟨fun _ => hfresh, fun _ h => absurd rfl h⟩

/-- **A turn that meets the conditions keeps the proof fresh.** -/
theorem next_freshProof (hc : Cached E (Supply.all F) p.state.eng) (hn : next E i p = some p')
    (hm : ProofMeets E p i) (hf : FreshProof p.state.eng) : FreshProof p'.state.eng := by
  have live : ∀ {m : EngineM F PUnit}, i ≠ .replay → liveNext E p.state i = Exec.survive m p.state →
      Exec.wp m (fun _ s' => FreshProof s'.eng) (fun e s' => e ≠ .panicked → FreshProof s'.eng)
        p.state → FreshProof p'.state.eng := by
    intro m hi heq hwp
    obtain ⟨s, -, hs, rfl⟩ := live_of_next hi hn
    exact Exec.survive_of_wp (P := fun s => FreshProof s.eng) hwp (heq.symm.trans hs)
  have quiet := next_freshProof_of_quiet hc hn
  cases i with
  | core m =>
    cases m with
    | commit c => exact live (by simp) rfl (coreProcess_commit_freshProof c hc hm hf)
    | _ => exact quiet (fun _ h => h) (by simp [BringsCore]) hf
  | external m =>
    cases m with
    | status rs => exact live (by simp) rfl (processStatus_freshProof hc hm fun _ => hf)
    | _ => exact quiet (fun _ h => h) (fun _ h => h) hf
  | async => exact quiet (fun _ h => h) (fun _ h => h) hf
  | replay =>
    obtain ⟨⟨tag, msg⟩, records, hp, -, hs⟩ := pending_of_replayNext hn
    have replay : ∀ {m : EngineM F PUnit}, loadRecord E (tag, msg) = m →
        Exec.wp m (fun _ s' => FreshProof s'.eng)
          (fun e s' => e ≠ .panicked → FreshProof s'.eng) p.state → FreshProof p'.state.eng := by
      rintro m rfl hwp
      exact Exec.survive_of_wp (P := fun s => FreshProof s.eng) hwp hs
    by_cases hstatus : tag = LOG_TYPE_RICH_STATUS
    · subst hstatus
      exact replay rfl (loadStatus_freshProof
        (fun rs hrs => hm.1 rs ⟨msg, records, hp, hrs⟩) hf)
    · by_cases hcommit : tag = LOG_TYPE_COMMIT
      · subst hcommit
        exact replay rfl (loadCommit_freshProof
          (fun c hcs => hm.2 c ⟨_, msg, records, hp, rfl, hcs⟩) hf)
      · refine quiet ?_ ?_ hf
        · rintro rs ⟨msg', records', hp', -⟩
          exact hstatus (Prod.mk.inj (List.cons.inj (hp.symm.trans hp')).1).1
        · rintro c ⟨tag', msg', records', hp', htag, -⟩
          exact hcommit ((Prod.mk.inj (List.cons.inj (hp.symm.trans hp')).1).1.trans htag)

/-- **In every run whose turns meet the conditions, every proposal carries the proof of the height
before**: from height `2` on, in every state of the run, what `handle_proposal` returns holds a
proof for the height before, and without one nothing is built. -/
theorem emits_fresh_of_proofMeets (hm : EachInput E address disk is (ProofMeets E)) :
    EachState E address disk is fun p => EmitsFresh E p.state := by
  intro is₁ is₂ p his hl
  refine FreshProof.emits ?_
  refine hl.induction (I := fun p => FreshProof p.state.eng) ?_ ?_
  · intro p₀ hb
    rw [(boot_state hb).1]
    exact nofun
  · intro js i js' q q' hjs hq hc hn hf
    exact next_freshProof hc hn (hm js i (js' ++ is₂) q (by rw [his, hjs]; simp) hq) hf

/-- The proposal of the BFT core for the block of height `2`. -/
def secondProposal : BftProposal := ⟨2, 0, [2], none, [], [7]⟩

/-- The block of height `1` is committed, and one is ready for height `2`. -/
def committedRun : List Input :=
  Reference.precommitRun ++
    [.core (.commit Reference.firstCommit), .core (.getProposalRequest 2), .async]

/-- The reference application answers every commit with the status of its height. -/
theorem commitMeets_reference (s : State Block) (c : BftCommit) :
    CommitMeets (Reference.env [7]) s c := by
  intro commit s₁ hr
  obtain ⟨hheight, -, -, -, hcommit, hle⟩ := (handleCommit_leaves c true s).ok hr
  refine ⟨fun _ => ⟨⟨commit.height, none, [Node.new [7]]⟩, rfl, ?_, nofun⟩, ?_⟩
  · rw [hheight, hcommit]
    exact hle
  · rintro _ ⟨rfl⟩ - -
    exact hcommit

/-- **The proposal of height `2` carries the proof of the commit of height `1`.** -/
theorem emits_fresh_committed :
    EachState (Reference.env [7]) [7] Reference.disk
        (committedRun ++ [.core (.proposal secondProposal)])
      (fun p => EmitsFresh (Reference.env [7]) p.state) ∧
    ∃ p p' bytes s', Life (Reference.env [7]) [7] Reference.disk committedRun p ∧
      p.state.eng.height = 2 ∧
      next (Reference.env [7]) (.core (.proposal secondProposal)) p = some p' ∧
      Exec.result (handleProposal (Reference.env [7]) secondProposal true) p.state =
        (.ok bytes, s') ∧
      ∃ sp content encoded, Emitted (Reference.env [7]) p.state secondProposal bytes sp content
        encoded ∧ sp.proposal.proof.height = 1 := by
  have hfresh : EachState (Reference.env [7]) [7] Reference.disk
      (committedRun ++ [.core (.proposal secondProposal)])
      fun p => EmitsFresh (Reference.env [7]) p.state := by
    refine emits_fresh_of_proofMeets ?_
    intro is₁ i is₂ p his hl
    have hmem : i ∈ committedRun ++ [.core (.proposal secondProposal)] := by
      rw [his]
      simp
    cases i with
    | core m =>
      cases m with
      | commit c => exact commitMeets_reference p.state c
      | _ => trivial
    | external m =>
      cases m with
      | status rs =>
        -- the first status opens height `1`
        obtain rfl : rs = ⟨0, none, [Node.new [7]]⟩ := by
          simpa [committedRun, Reference.precommitRun, Reference.readyRun] using hmem
        exact fun _ htwo => absurd htwo (by decide)
      | _ => trivial
    | async => trivial
    | replay => simp [committedRun, Reference.precommitRun, Reference.readyRun] at hmem
  refine ⟨hfresh, ?_⟩
  obtain ⟨p, p', hl, hl', hn, hf, -⟩ := Reference.exists_turn (Reference.env [7]) [7] committedRun
    (.core (.proposal secondProposal))
    (fun p => decide (p.state.eng.height = 2) &&
      (Exec.result (handleProposal (Reference.env [7]) secondProposal true) p.state).1.isOk)
    (fun _ => true) (by decide +kernel) (by decide +kernel)
  simp only [Bool.and_eq_true, decide_eq_true_eq] at hf
  obtain ⟨hheight, hok⟩ := hf
  obtain ⟨bytes, s', hr⟩ := Exec.exists_of_isOk hok
  obtain ⟨sp, content, encoded, he, hproof⟩ := (hfresh committedRun _ p rfl hl secondProposal
    (hheight ▸ UInt64.le_refl 2)).1 true bytes s' hr
  rw [hheight] at hproof
  exact ⟨p, p', bytes, s', hl, hheight, hn, hr, sp, content, encoded, he, hproof⟩

/-- A proposal of height `1` leaves its proof, a status of height `1` opens height `2` without a
commit, and a block is ready to be proposed. -/
def staleProofRun : List Input :=
  Reference.readyRun [7] ++ [.external (.signedProposal
      (Reference.proposalBytes (Reference.signedProposal 1 0 [9] none [] [7]) [9] [9])),
    .external (.status ⟨1, none, [Node.new [7]]⟩), .async, .core (.getProposalRequest 2), .async]

/-- **The engine proposes with a stale proof.** -/
theorem stale_proof_proposed :
    ∃ p, Life (Reference.env [7]) [7] Reference.disk staleProofRun p ∧
      ¬ EmitsFresh (Reference.env [7]) p.state := by
  obtain ⟨p, hl, hf⟩ := Reference.exists_life (Reference.env [7]) [7] staleProofRun
    (fun p =>
      (Exec.result (handleProposal (Reference.env [7]) secondProposal true) p.state).1.isOk &&
      decide (p.state.eng.height = 2) && decide (p.state.eng.proof.map Proof.height = some 0))
    (by decide +kernel)
  simp only [Bool.and_eq_true, decide_eq_true_eq] at hf
  obtain ⟨⟨hok, htwo⟩, hstale⟩ := hf
  refine ⟨p, hl, fun h => ?_⟩
  obtain ⟨bytes, s', hres⟩ := Exec.exists_of_isOk hok
  obtain ⟨sp, content, encoded, he, hfresh⟩ :=
    (h secondProposal (htwo ▸ UInt64.le_refl 2)).1 true bytes s' hres
  have hproof := he.proof
  rw [ProofOf, if_neg (by rw [htwo]; decide)] at hproof
  rw [hproof, Option.map_some, Option.some.injEq, hfresh, htwo] at hstale
  exact absurd hstale (by decide)

end ConsensusBft

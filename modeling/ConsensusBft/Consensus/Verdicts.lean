import ConsensusBft.Consensus.NewHeight
import ConsensusBft.Consensus.Reference

/-!
# Verdicts

The BFT core is told whether the application passed a block.  A verdict reaches it from the async
queue, from the verdicts that are kept, or because the block was proposed for the previous height.

* `Passed calls hash` : the application passed the block in one of the calls.
* `VerdictsFounded R s` : the invariant behind positive verdicts; `R` are the blocks that the log
  says were passed.
* `positive_verdicts_founded` : **a positive verdict is never invented**, but for proposals of the
  previous height and for the log.
* `previous_proposal_passed` : a run with a positive verdict on a block that was never checked.
-/

namespace ConsensusBft

variable {F : Type} [Content F] {E : Env F} {S : Source F} {s s' : State F} {address : Address}
variable {disk : Disk} {is : List Input} {p p' : Process F} {i : Input}

/-- The call asked the application about the block `hash`, and the answer was `isPass`. -/
def Call.Checks (call : Call F) (hash : Hash) (isPass : Bool) : Prop :=
  ∃ block bytes isLock isBySelf res,
    call.event = .checkProposal hash block bytes isLock isBySelf res ∧ res.isOk = isPass

/-- In one of the calls the application passed the block `hash`. -/
def Passed (calls : List (Call F)) (hash : Hash) : Prop := ∃ call ∈ calls, call.Checks hash true

/-- The last call handed the BFT core a proposal of the height before that of `eng` for the block
`hash`. -/
def AfterPrevious (calls : List (Call F)) (eng : Consensus F) (hash : Hash) : Prop :=
  ∃ call p, calls.getLast? = some call ∧ call.event = .bft (.proposal p) true ∧
    p.content = hash ∧ p.height = eng.height - 1

/-- The log that the run started from holds a positive verdict on the block `hash`. -/
def Restored (E : Env F) (address : Address) (disk : Disk) (hash : Hash) : Prop :=
  ∃ p₀ msg vr, boot E address disk = some p₀ ∧
    (LOG_TYPE_VERIFY_BLOCK_PESP, msg) ∈ p₀.pending ∧
    E.serde.verifyResp.fromSlice msg = some vr ∧ vr.isPass = true ∧ vr.proposal = hash

/-- Positive verdicts that are queued, kept or sent were given by the application, with the
exceptions that the code makes. -/
structure VerdictsFounded (R : Hash → Prop) (s : State F) : Prop where
  queued : ∀ vr, .verifyResp vr ∈ s.asyncQueue → vr.isPass = true → Passed s.calls vr.proposal
  kept : ∀ hash, s.eng.verifiedBlock.lookup hash = some true → Passed s.calls hash ∨ R hash
  sent : ∀ before call after hash d, s.calls = before ++ call :: after →
    call.event = .bft (.verifyResp ⟨true, hash⟩) d →
    Passed before hash ∨ AfterPrevious before call.eng hash ∨ R hash

omit [Content F] in
theorem Passed.append {calls : List (Call F)} {hash : Hash} (h : Passed calls hash)
    (more : List (Call F)) : Passed (calls ++ more) hash := by
  obtain ⟨call, hmem, hcheck⟩ := h
  exact ⟨call, List.mem_append_left _ hmem, hcheck⟩

/-- Calls are only added. -/
theorem Move.calls_append (h : Move E S s s') : ∃ more, s'.calls = s.calls ++ more := by
  cases h with
  | call e _ _ => exact ⟨_, rfl⟩
  | check hash block bytes isLock isBySelf _ => exact ⟨_, rfl⟩
  | _ => exact ⟨[], (List.append_nil _).symm⟩

/-- What holds of every call so far and of the new one holds of all. -/
theorem forall_split_snoc {α : Type} {P : List α → α → Prop} {l : List α} {a : α}
    (hl : ∀ before x after, l = before ++ x :: after → P before x) (ha : P l a) :
    ∀ before x after, l ++ [a] = before ++ x :: after → P before x := by
  intro before x after h
  induction after using List.reverseRecOn with
  | nil =>
    obtain ⟨rfl, hx⟩ := List.append_inj' h rfl
    obtain rfl := List.singleton_inj.1 hx
    exact ha
  | append_singleton after y _ =>
    rw [← List.cons_append, ← List.append_assoc] at h
    exact hl before x after (List.append_inj' h rfl).1

omit [Content F] in
/-- A status makes no calls. -/
theorem StatusEffect.calls_eq {rs : Status} {needWal : Bool}
    {r : Outcome ConsensusError BftStatus} (h : StatusEffect E s rs needWal r s') :
    s'.calls = s.calls := by
  cases h <;> rfl

/-- **A move keeps positive verdicts founded**, if those that it brings are. -/
theorem Move.verdictsFounded {R : Hash → Prop} (h : Move E S s s')
    (hS : ∀ vr, S.verdict vr → vr.isPass = true → Passed s.calls vr.proposal ∨ R vr.proposal)
    (hv : VerdictsFounded R s) : VerdictsFounded R s' := by
  -- a call that is no positive verdict, and queues nothing, changes nothing
  have recorded : ∀ e : Event F, (∀ hash d, e = .bft (.verifyResp ⟨true, hash⟩) d →
      Passed s.calls hash ∨ AfterPrevious s.calls s.eng hash ∨ R hash) →
      VerdictsFounded R (s.record e) := by
    intro e he
    refine ⟨fun vr hq hp => (hv.queued vr hq hp).append _,
      fun hash hk => (hv.kept hash hk).imp_left (·.append _), ?_⟩
    intro before call after hash d hsplit
    refine forall_split_snoc (P := fun before call => ∀ hash d,
      call.event = .bft (.verifyResp ⟨true, hash⟩) d →
      Passed before hash ∨ AfterPrevious before call.eng hash ∨ R hash)
      (fun before call after hl hash d => hv.sent before call after hash d hl)
      (fun hash d hev => he hash d hev) before call after hsplit hash d
  cases h with
  | call e permitted founded =>
    refine recorded e ?_
    rintro hash d rfl
    change Judged S s ⟨true, hash⟩ at founded
    generalize hr : (⟨true, hash⟩ : BftVerifyResp) = r at founded
    cases founded with
    | @brought vr given =>
      obtain ⟨hpass, rfl⟩ := BftVerifyResp.mk.inj hr
      exact (hS vr given hpass.symm).imp_right Or.inr
    | kept lookup =>
      subst hr
      exact (hv.kept hash lookup).imp_right Or.inr
    | previous proposed =>
      obtain ⟨-, rfl⟩ := BftVerifyResp.mk.inj hr
      obtain ⟨eng, files, p, hlast, hcontent, hheight⟩ := proposed
      exact Or.inr (Or.inl ⟨_, p, hlast, rfl, hcontent, hheight⟩)
  | check hash block bytes isLock isBySelf cached =>
    have hrec := recorded (.checkProposal hash block bytes isLock isBySelf
      (E.support.checkProposal s.calls.length hash block bytes isLock isBySelf)) (by simp)
    refine ⟨?_, hrec.kept, hrec.sent⟩
    intro vr hq hp
    rcases List.mem_append.1 hq with hq | hq
    · exact hrec.queued vr hq hp
    · simp only [List.mem_singleton, AsyncMsg.verifyResp.injEq] at hq
      subst hq
      exact ⟨_, List.mem_append_right _ (List.mem_singleton_self _),
        block, bytes, isLock, isBySelf, _, rfl, hp⟩
  | enqueueFeed n f _ =>
    refine ⟨fun vr hq => hv.queued vr ?_, hv.kept, hv.sent⟩
    simpa using hq
  | dequeue m queue head =>
    refine ⟨fun vr hq => hv.queued vr ?_, hv.kept, hv.sent⟩
    rw [head]
    exact List.mem_cons_of_mem _ hq
  | keepVerdict vr given =>
    refine ⟨hv.queued, ?_, hv.sent⟩
    intro hash hk
    rcases HashMap.lookup_orInsert_cases hk with hk | ⟨rfl, hpass, -⟩
    · exact hv.kept hash hk
    · exact hS vr given hpass.symm
  | _ => exact ⟨hv.queued, hv.kept, hv.sent⟩

omit [Content F] in
/-- So does a status. -/
theorem StatusEffect.verdictsFounded {R : Hash → Prop} {rs : Status} {needWal : Bool}
    {r : Outcome ConsensusError BftStatus} (h : StatusEffect E s rs needWal r s')
    (hv : VerdictsFounded R s) : VerdictsFounded R s' := by
  cases h with
  | refused _ _ => exact ⟨hv.queued, hv.kept, hv.sent⟩
  | crashed _ _ _ => exact ⟨hv.queued, nofun, hv.sent⟩
  | entered _ _ _ => exact ⟨hv.queued, nofun, hv.sent⟩

/-- **Whatever the engine advances by, positive verdicts stay founded.** -/
theorem Advances.verdictsFounded {R : Hash → Prop} (h : Advances E S s s')
    (hS : ∀ vr, S.verdict vr → vr.isPass = true → Passed s.calls vr.proposal ∨ R vr.proposal)
    (hv : VerdictsFounded R s) : VerdictsFounded R s' := by
  suffices key : VerdictsFounded R s' ∧
      ∀ vr, S.verdict vr → vr.isPass = true → Passed s'.calls vr.proposal ∨ R vr.proposal from key.1
  induction h with
  | refl => exact ⟨hv, hS⟩
  | @tail s₁ s₂ _ ha ih =>
    obtain ⟨hv₁, hS₁⟩ := ih
    cases ha with
    | move hm =>
      refine ⟨hm.verdictsFounded hS₁ hv₁, fun vr hvr hpass => ?_⟩
      obtain ⟨more, hmore⟩ := hm.calls_append
      rw [hmore]
      exact (hS₁ vr hvr hpass).imp_left (·.append more)
    | status rs needWal _ =>
      have heffect := handleRichStatus_effect E s₁ rs needWal
      refine ⟨heffect.verdictsFounded hv₁, fun vr hvr hpass => ?_⟩
      rw [heffect.calls_eq]
      exact hS₁ vr hvr hpass

/-- The source of a turn of which only the verdicts matter. -/
def verdictSource (E : Env F) (p : Process F) (i : Input) : Source F :=
  { Supply.all F with status _ := True, verdict vr := BringsVerdict E p i vr }

theorem sourced_verdictSource (E : Env F) (p : Process F) (i : Input) :
    Sourced E (verdictSource E p i) p i :=
  ⟨Supplied.all E p i, fun _ _ => trivial, fun _ h => h⟩

/-- **In every run positive verdicts are founded.** -/
theorem Life.verdictsFounded (hl : Life E address disk is p) :
    VerdictsFounded (Restored E address disk) p.state := by
  refine hl.induction (I := fun p => VerdictsFounded (Restored E address disk) p.state) ?_ ?_
  · intro p₀ hb
    obtain ⟨heng, hqueue, hcalls⟩ := boot_state hb
    refine ⟨by simp [hqueue], ?_, by simp [hcalls]⟩
    rw [heng]
    exact nofun
  · intro is₁ i is₂ p p' _ hl₁ hc hn hv
    refine (next_advances (sourced_verdictSource E p i) hc hn).verdictsFounded ?_ hv
    intro vr hvr hpass
    cases i with
    | async =>
      obtain ⟨queue, hq⟩ := hvr
      refine Or.inl (hv.queued vr ?_ hpass)
      rw [hq]
      exact List.mem_cons_self
    | replay =>
      obtain ⟨msg, records, hp, hmsg⟩ := hvr
      obtain ⟨p₀, hb, hsuffix⟩ := hl₁.pending
      refine Or.inr ⟨p₀, msg, vr, hb, hsuffix.subset ?_, hmsg, hpass, rfl⟩
      rw [hp]
      exact List.mem_cons_self
    | _ => exact hvr.elim

/-! ### Positive verdicts -/

omit [Content F] in
/-- The call asks the application about a block. -/
def Call.isCheck (call : Call F) : Bool :=
  match call.event with
  | .checkProposal .. => true
  | _ => false

omit [Content F] in
/-- The call hands the BFT core a positive verdict on the block `hash`. -/
def Call.isPositive (call : Call F) (hash : Hash) : Bool :=
  match call.event with
  | .bft (.verifyResp r) _ => decide (r = ⟨true, hash⟩)
  | _ => false

omit [Content F] in
theorem Call.Checks.isCheck {call : Call F} {hash : Hash} {isPass : Bool}
    (h : call.Checks hash isPass) : call.isCheck = true := by
  obtain ⟨block, bytes, isLock, isBySelf, res, he, -⟩ := h
  simp [Call.isCheck, he]

omit [Content F] in
theorem Call.isPositive_iff {call : Call F} {hash : Hash} :
    call.isPositive hash = true ↔ ∃ d, call.event = .bft (.verifyResp ⟨true, hash⟩) d := by
  unfold Call.isPositive
  cases call.event with
  | bft m d => cases m <;> simp
  | _ => simp

/-- At height `2` a proposal of height `1` arrives, with a block that nobody asked about. -/
def previousRun : List Input :=
  Reference.readyRun [7] ++ [.external (.status ⟨1, none, [Node.new [7]]⟩),
    .external (.signedProposal
      (Reference.proposalBytes (Reference.signedProposal 1 0 [9] none [] [7]) [9] [9]))]

theorem exists_previousRun :
    ∃ p, Life (Reference.env [7]) [7] Reference.disk previousRun p ∧
      (∃ call ∈ p.state.calls, call.isPositive [9] = true) ∧
      ∀ call ∈ p.state.calls, call.isCheck = false := by
  obtain ⟨p, hl, hf⟩ := Reference.exists_life (Reference.env [7]) [7] previousRun
    (fun p => p.state.calls.any (·.isPositive [9]) && p.state.calls.all fun c => !c.isCheck)
    (by decide +kernel)
  exact ⟨p, hl, by simpa using hf⟩

/-- **A positive verdict is never invented.**  Whenever the BFT core is told that a block passed,
the application passed the block in an earlier call, or the call before handed the BFT core a
proposal of the previous height for it, or the log that the run started from holds a positive
verdict on it. -/
theorem positive_verdicts_founded (hl : Life E address disk is p) {before after : List (Call F)}
    {call : Call F} {hash : Hash} {d : Bool} (hcalls : p.state.calls = before ++ call :: after)
    (hsent : call.event = .bft (.verifyResp ⟨true, hash⟩) d) :
    Passed before hash ∨ AfterPrevious before call.eng hash ∨ Restored E address disk hash :=
  hl.verdictsFounded.sent before call after hash d hcalls hsent

theorem positive_verdict_founded_reference :
    ∃ p before call after d, Life (Reference.env [7]) [7] Reference.disk previousRun p ∧
      p.state.calls = before ++ call :: after ∧
      call.event = .bft (.verifyResp ⟨true, [9]⟩) d ∧
      (Passed before [9] ∨ AfterPrevious before call.eng [9] ∨
        Restored (Reference.env [7]) [7] Reference.disk [9]) := by
  obtain ⟨p, hl, ⟨call, hmem, hpos⟩, -⟩ := exists_previousRun
  obtain ⟨before, after, hcalls⟩ := List.append_of_mem hmem
  obtain ⟨d, hsent⟩ := Call.isPositive_iff.1 hpos
  exact ⟨p, before, call, after, d, hl, hcalls, hsent, positive_verdicts_founded hl hcalls hsent⟩

/-- **A block that the application was never asked about passes**, since it was proposed for the
previous height. -/
theorem previous_proposal_passed :
    ∃ p before call after d, Life (Reference.env [7]) [7] Reference.disk previousRun p ∧
      p.state.calls = before ++ call :: after ∧
      call.event = .bft (.verifyResp ⟨true, [9]⟩) d ∧ ¬ Passed before [9] := by
  obtain ⟨p, hl, ⟨call, hmem, hpos⟩, hnone⟩ := exists_previousRun
  obtain ⟨before, after, hcalls⟩ := List.append_of_mem hmem
  obtain ⟨d, hsent⟩ := Call.isPositive_iff.1 hpos
  refine ⟨p, before, call, after, d, hl, hcalls, hsent, ?_⟩
  rintro ⟨c, hc, hcheck⟩
  have := hnone c (by rw [hcalls]; exact List.mem_append_left _ hc)
  simp [hcheck.isCheck] at this

end ConsensusBft

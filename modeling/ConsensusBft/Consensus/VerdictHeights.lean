import ConsensusBft.Consensus.Verdicts

/-!
# Verdicts and heights

A verdict is kept for the height at which it arrives.  The verdicts of the old height are dropped
when the height moves, those that are still queued are not.

* `CurrentVerdicts E s` : every verdict that is kept was given at the current height, and so is
  every verdict that is used in place of asking the application.
* `TakesCurrent E p i` : a verdict that is taken up was given at the current height.
* `currentVerdicts_iff` : **verdicts do not leak across heights if and only if none is taken up
  late.**
* `stale_verdict_kept` : a run in which a verdict of height `1` is kept at height `2`.
-/

namespace ConsensusBft

open Exec (Steps)

variable {F : Type} [Content F] {E : Env F} {S : Source F} {s s' : State F} {address : Address}
variable {disk : Disk} {is : List Input} {p p' : Process F} {i : Input}

/-- The application was asked about the block `hash` at the current height, and the answer was
`isPass`. -/
def CheckedNow (s : State F) (hash : Hash) (isPass : Bool) : Prop :=
  ∃ call ∈ s.calls, call.eng.height = s.eng.height ∧ call.Checks hash isPass

/-- Every verdict that is kept was given at the current height. -/
def VerdictsCurrent (s : State F) : Prop :=
  ∀ hash isPass, s.eng.verifiedBlock.lookup hash = some isPass → CheckedNow s hash isPass

/-- Every verdict that is kept was given at the current height, and where a proposal of the current
height is answered without asking the application, the answer was given at this height. -/
structure CurrentVerdicts (E : Env F) (s : State F) : Prop where
  kept : VerdictsCurrent s
  used : ∀ sp needWal bytes b vr s', sp.proposal.height = s.eng.height →
    Exec.result (handleSignedProposal E sp needWal bytes) s = (.ok (b, some vr), s') →
    CheckedNow s vr.proposal vr.isPass

/-- A verdict that the input brings, and that is delivered and kept, was given at the current
height. -/
def TakesCurrent (E : Env F) (p : Process F) (i : Input) : Prop :=
  ∀ vr, BringsVerdict E p i vr → E.delivers p.state.calls.length = true →
    p.state.eng.verifiedBlock.lookup vr.proposal = none →
    CheckedNow p.state vr.proposal vr.isPass

/-- Where the kept verdicts are current, those that are used are. -/
theorem VerdictsCurrent.current (h : VerdictsCurrent s) : CurrentVerdicts E s := by
  refine ⟨h, ?_⟩
  intro sp needWal bytes b vr s' hheight hres
  let S : Source F := { Source.all F with proposal := fun sp' => sp' = sp }
  have hm := handleSignedProposal_moves (E := E) (s := s) (show S.proposal sp from rfl) needWal
    bytes
  obtain ⟨⟨sp', hsp', hb, -⟩, hanswer⟩ := hm.ok hres
  obtain rfl : sp' = sp := hsp'
  have hreach := hm.reached hres
  obtain ⟨-, hkept | ⟨-, hprev⟩⟩ := hanswer vr rfl
  · rw [Stills.verdicts_eq hreach] at hkept
    exact h _ _ hkept
  · -- a proposal of the current height is none of the height before
    rw [hb, Stills.height_eq hreach] at hprev
    change sp'.proposal.height = _ at hprev
    rw [hheight] at hprev
    grind

/-! ### Turns that bring no verdict -/

/-- A move that brings no verdict keeps the kept verdicts current. -/
theorem Move.verdictsCurrent (hS : ∀ vr, ¬ S.verdict vr) (h : Move E S s s')
    (hv : VerdictsCurrent s) : VerdictsCurrent s' := by
  obtain ⟨more, hmore⟩ := h.calls_append
  have kept : s'.eng.verifiedBlock = s.eng.verifiedBlock := by
    cases h with
    | keepVerdict vr given => exact absurd given (hS vr)
    | _ => rfl
  intro hash isPass hl
  rw [kept] at hl
  obtain ⟨call, hmem, hheight, hcheck⟩ := hv hash isPass hl
  refine ⟨call, ?_, hheight.trans h.height_eq.symm, hcheck⟩
  rw [hmore]
  exact List.mem_append_left _ hmem

omit [Content F] in
theorem StatusEffect.verdictsCurrent {rs : Status} {needWal : Bool}
    {r : Outcome ConsensusError BftStatus} (h : StatusEffect E s rs needWal r s')
    (hv : VerdictsCurrent s) : VerdictsCurrent s' := by
  cases h with
  | refused _ _ => exact hv
  | crashed _ _ _ => exact nofun
  | entered _ _ _ => exact nofun

theorem Advances.verdictsCurrent (hS : ∀ vr, ¬ S.verdict vr) (h : Advances E S s s')
    (hv : VerdictsCurrent s) : VerdictsCurrent s' := by
  refine Exec.invariant_of_moves (I := VerdictsCurrent) ?_ h hv
  intro s₁ s₂ ha hv₁
  cases ha with
  | move hm => exact hm.verdictsCurrent hS hv₁
  | status rs needWal _ => exact (handleRichStatus_effect E s₁ rs needWal).verdictsCurrent hv₁

/-! ### Turns that bring a verdict -/

/-- The engine took up the verdict `vr`: it sent it, and kept it if it was delivered and there was
none on the block. -/
structure TookUp (E : Env F) (vr : VerifyResp) (s s' : State F) : Prop where
  height : s'.eng.height = s.eng.height
  calls : ∃ call, s'.calls = s.calls ++ [call] ∧ ∀ hash isPass, ¬ call.Checks hash isPass
  verdicts : s'.eng.verifiedBlock = if E.delivers s.calls.length = true then
    s.eng.verifiedBlock.orInsert vr.proposal vr.isPass else s.eng.verifiedBlock

omit [Content F] in
theorem acceptVerdict_tookUp (vr : VerifyResp) (name : String) (s : State F) :
    Exec.wp (acceptVerdict E vr name) (fun _ s' => TookUp E vr s s') (fun _ s' => TookUp E vr s s')
      s := by
  have sent : ∃ call, (s.record (.bft (.verifyResp vr.toBftResp)
      (E.delivers s.calls.length))).calls = s.calls ++ [call] ∧
      ∀ hash isPass, ¬ call.Checks hash isPass :=
    ⟨_, rfl, fun _ _ ⟨_, _, _, _, _, he, _⟩ => by simp at he⟩
  unfold acceptVerdict sendBft
  refine Exec.wp_bind.2 (Exec.wp_bind.2 (Exec.wp_bind.2 (Exec.wp_rejectIf.2 ⟨fun hd => ?_,
    fun hd => ?_⟩)))
  · exact ⟨rfl, sent, by simp [hd, State.record]⟩
  · exact ⟨rfl, sent, by simp [hd, State.record]⟩

omit [Content F] in
/-- Logging afterwards makes no difference. -/
theorem TookUp.setWal {vr : VerifyResp} (h : TookUp E vr s s') (w : WalState) :
    TookUp E vr s (s'.setWal w) :=
  ⟨h.height, h.calls, h.verdicts⟩

/-- **A turn that brings a verdict takes it up.** -/
theorem tookUp_of_next {vr : VerifyResp} (hv : BringsVerdict E p i vr)
    (hn : next E i p = some p') : TookUp E vr p.state p'.state := by
  cases i with
  | async =>
    obtain ⟨queue, hq⟩ := hv
    obtain ⟨s, -, hs, rfl⟩ := live_of_next (by simp) hn
    simp only [liveNext, hq] at hs
    refine Exec.survive_of_wp (P := fun s => TookUp E vr p.state s) ?_ hs
    refine Exec.wp_bind.2 ((acceptVerdict_tookUp vr "VerifyResp" _).mono ?_ fun _ _ h _ => ?_)
    · intro _ s₁ h
      have h₁ : TookUp E vr p.state s₁ := ⟨h.height, h.calls, h.verdicts⟩
      refine Exec.wp_doIf.2 ⟨fun _ => Exec.wp_bind.2 ?_, fun _ => h₁⟩
      refine (saveJson_leaves _ _ _ _ s₁).mono ?_ ?_
      · rintro _ _ ⟨w, rfl⟩
        exact h₁.setWal w
      · rintro _ _ ⟨w, rfl⟩ -
        exact h₁.setWal w
    · exact ⟨h.height, h.calls, h.verdicts⟩
  | replay =>
    obtain ⟨msg, records, hp, hmsg⟩ := hv
    obtain ⟨record, records', hp', -, hs⟩ := pending_of_replayNext hn
    obtain ⟨rfl, rfl⟩ := List.cons.inj (hp.symm.trans hp')
    refine Exec.survive_of_wp (P := fun s => TookUp E vr p.state s) ?_ hs
    change Exec.wp (loadJson E.serde.verifyResp "VerifyResp" msg >>= fun msg =>
      acceptVerdict E msg "BftVerifyResp") _ _ _
    simp only [loadJson, hmsg]
    exact (acceptVerdict_tookUp vr "BftVerifyResp" p.state).mono (fun _ _ h => h) fun _ _ h _ => h
  | _ => exact hv.elim

omit [Content F] in
/-- **A verdict that is taken up is current afterwards if and only if it was given at the current
height**, if it is kept at all. -/
theorem TookUp.verdictsCurrent_iff {vr : VerifyResp} (h : TookUp E vr s s')
    (hv : VerdictsCurrent s) : VerdictsCurrent s' ↔
      (E.delivers s.calls.length = true → s.eng.verifiedBlock.lookup vr.proposal = none →
        CheckedNow s vr.proposal vr.isPass) := by
  obtain ⟨call, hcalls, hcall⟩ := h.calls
  -- the call that sends the verdict asks the application nothing
  have checked : ∀ hash isPass, CheckedNow s' hash isPass ↔ CheckedNow s hash isPass := by
    intro hash isPass
    constructor
    · rintro ⟨c, hmem, hheight, hcheck⟩
      rw [hcalls, List.mem_append, List.mem_singleton] at hmem
      rcases hmem with hmem | rfl
      · exact ⟨c, hmem, hheight.trans h.height, hcheck⟩
      · exact absurd hcheck (hcall _ _)
    · rintro ⟨c, hmem, hheight, hcheck⟩
      refine ⟨c, ?_, hheight.trans h.height.symm, hcheck⟩
      rw [hcalls]
      exact List.mem_append_left _ hmem
  constructor
  · intro hv' hd hnone
    refine (checked _ _).1 (hv' _ _ ?_)
    rw [h.verdicts, if_pos hd, HashMap.lookup_orInsert, if_pos rfl, hnone]
    rfl
  · intro hkeep hash isPass hl
    rw [checked]
    rw [h.verdicts] at hl
    split_ifs at hl with hd
    · rcases HashMap.lookup_orInsert_cases hl with hl | ⟨rfl, rfl, hnone⟩
      · exact hv hash isPass hl
      · exact hkeep hd hnone
    · exact hv hash isPass hl

/-! ### Runs -/

/-- **One turn**: the kept verdicts stay current if and only if the input brings none late. -/
theorem next_verdictsCurrent_iff (hc : Cached E (Supply.all F) p.state.eng)
    (hn : next E i p = some p') (hv : VerdictsCurrent p.state) :
    VerdictsCurrent p'.state ↔ TakesCurrent E p i := by
  by_cases hb : ∃ vr, BringsVerdict E p i vr
  · obtain ⟨vr, hb⟩ := hb
    rw [(tookUp_of_next hb hn).verdictsCurrent_iff hv]
    constructor
    · intro h vr' hb'
      obtain rfl : vr' = vr := hb'.unique hb
      exact h
    · exact fun h => h vr hb
  · rw [not_exists] at hb
    refine iff_of_true ?_ fun vr hvr => absurd hvr (hb vr)
    exact (next_advances (sourced_verdictSource E p i) hc hn).verdictsCurrent hb hv

/-- **Verdicts do not leak across heights if and only if none is taken up late**: in every state of
a run the kept verdicts were given at the current height, and no proposal of the current height is
answered with another one, if and only if every verdict that arrives, is delivered and is kept was
given at the current height. -/
theorem currentVerdicts_iff (hl : Life E address disk is p) :
    EachState E address disk is (fun p => CurrentVerdicts E p.state) ↔
      EachInput E address disk is (TakesCurrent E) := by
  constructor
  · intro h is₁ i is₂ p₁ his hl₁
    subst his
    obtain ⟨q₁, q₂, hq₁, hn, hq₂⟩ := hl.split
    obtain rfl := hq₁.unique hl₁
    obtain ⟨-, -, -, hc⟩ := hl₁.updates (SuppliedLife.all E address disk is₁)
    refine (next_verdictsCurrent_iff hc hn (h _ _ q₁ rfl hl₁).kept).1 ?_
    exact (h (is₁ ++ [i]) is₂ q₂ (by simp) hq₂).kept
  · intro h is₁ is₂ p₁ his hl₁
    subst his
    refine VerdictsCurrent.current ?_
    refine hl₁.induction (I := fun p => VerdictsCurrent p.state) ?_ ?_
    · intro p₀ hb
      rw [VerdictsCurrent, (boot_state hb).1]
      exact nofun
    · intro js i js' q q' hjs hq hc hn hv
      exact (next_verdictsCurrent_iff hc hn hv).2
        (h js i (js' ++ is₂) q (by rw [hjs]; simp) hq)

/-- A block is checked at height `1`, and its verdict is taken from the queue at height `2`. -/
def staleRun : List Input :=
  Reference.readyRun [7] ++ [.external (.signedProposal
      (Reference.proposalBytes (Reference.signedProposal 1 0 [9] none [] [7]) [9] [9])),
    .external (.status ⟨1, none, [Node.new [7]]⟩), .async]

theorem exists_staleRun :
    ∃ p, Life (Reference.env [7]) [7] Reference.disk staleRun p ∧
      p.state.eng.verifiedBlock.lookup [9] = some true ∧
      ∀ call ∈ p.state.calls, call.isCheck = true → call.eng.height ≠ p.state.eng.height := by
  obtain ⟨p, hl, hf⟩ := Reference.exists_life (Reference.env [7]) [7] staleRun
    (fun p => decide (p.state.eng.verifiedBlock.lookup [9] = some true) &&
      p.state.calls.all fun c => !c.isCheck || decide (c.eng.height ≠ p.state.eng.height))
    (by decide +kernel)
  simp only [Bool.and_eq_true, decide_eq_true_eq, List.all_eq_true] at hf
  refine ⟨p, hl, hf.1, fun call hmem hcheck => ?_⟩
  simpa [hcheck] using hf.2 call hmem

theorem currentVerdicts_iff_stale :
    ∃ p, Life (Reference.env [7]) [7] Reference.disk staleRun p ∧
      (EachState (Reference.env [7]) [7] Reference.disk staleRun
          (fun p => CurrentVerdicts (Reference.env [7]) p.state) ↔
        EachInput (Reference.env [7]) [7] Reference.disk staleRun
          (TakesCurrent (Reference.env [7]))) := by
  obtain ⟨p, hl, -⟩ := exists_staleRun
  exact ⟨p, hl, currentVerdicts_iff hl⟩

/-- **A verdict of height `1` is kept at height `2`.** -/
theorem stale_verdict_kept :
    ∃ p, Life (Reference.env [7]) [7] Reference.disk staleRun p ∧
      ¬ CurrentVerdicts (Reference.env [7]) p.state := by
  obtain ⟨p, hl, hkept, hchecks⟩ := exists_staleRun
  refine ⟨p, hl, fun h => ?_⟩
  obtain ⟨call, hmem, hheight, hcheck⟩ := h.kept _ _ hkept
  exact hchecks call hmem hcheck.isCheck hheight

end ConsensusBft

import ConsensusBft.Consensus.Emission
import ConsensusBft.Consensus.ProofCheck
import ConsensusBft.Consensus.StatusTurn

/-!
# Early proposals are lost

A proposal of a coming height is cached and handled when a status brings the engine to its height,
be it from outside or the answer to a commit.  But the engine enters a height with no blocks and no
verdicts, and the cached block is not put back, so that no cached proposal gets past the search for
its block.

* `Unsent P s s'` : no message satisfying `P` was sent between the two states.
* `Entered s rs s'` : the status `rs` brought the engine to a new height.
* `SameView s s'` : the engine learned nothing about blocks, and called nobody.
* `handleSignedProposal_unknown` : a proposal whose block is not known is not accepted.
* `processStatus_unsent` : a status never hands a proposal over.
* `BeforeStatus s s'` : what comes before the status in its turn; `HandlesAt.beforeStatus`.
* `next_unsent` : **a turn that moves the height never hands a proposal over.**
* `early_proposal_not_handed_over` : **a proposal that is received early is not handed to the BFT
  core when its height is reached**, even if it would be accepted right after that.
-/

namespace ConsensusBft

open Exec (Steps)

variable {F : Type} {E : Env F} {K : Supply F} {s s' s'' : State F}

/-! ### What is sent between two states -/

/-- The message was sent to the BFT core between the two states, whether it was delivered or not. -/
def HandedOver (s s' : State F) (m : CoreInput) : Prop :=
  ∃ call ∈ s'.callsSince s, ∃ d, call.event = .bft m d

/-- No message satisfying `P` was sent between the two states. -/
abbrev Unsent (P : CoreInput → Prop) : State F → State F → Prop :=
  OnlyCalls fun e => ∀ m d, e = .bft m d → ¬ P m

namespace Unsent

variable {P : CoreInput → Prop}

theorem recordBft {m : CoreInput} {d : Bool} (h : ¬ P m) : Unsent P s (s.record (.bft m d)) := by
  refine .record ?_
  intro m' d' he
  obtain ⟨rfl, -⟩ := Event.bft.inj he
  exact h

/-- Where nothing is sent, nothing satisfying `P` is. -/
theorem of_none (h : Unsent (fun _ => True) s s') : Unsent P s s' :=
  h.mono fun _ hnone m d he _ => hnone m d he trivial

theorem not_handedOver {m : CoreInput} (h : Unsent P s s') (hm : P m) : ¬ HandedOver s s' m := by
  rintro ⟨call, hmem, d, he⟩
  exact h.of_mem hmem m d he hm

end Unsent

/-- Until it is handed out, a message of the BFT core has nothing sent back. -/
theorem Prepares.unsent {P : CoreInput → Prop} (h : Prepares s s') : Unsent P s s' :=
  h.onlyCalls (fun _ _ => nofun) fun _ _ _ _ _ _ => nofun

/-- The message is a proposal. -/
def CoreInput.IsProposal : CoreInput → Prop
  | .proposal _ => True
  | _ => False

/-- The message is a vote. -/
def CoreInput.IsVote : CoreInput → Prop
  | .vote _ => True
  | _ => False

/-- Where no message satisfying `P` is permitted, none is sent. -/
theorem Update.unsent [Content F] {P : CoreInput → Prop}
    (hP : ∀ s m d, Permitted E K s (.bft m d) → ¬ P m) (h : Update E K s s') : Unsent P s s' := by
  cases h with
  | call e permitted =>
    refine .record ?_
    rintro m d rfl
    exact hP s m d permitted
  | check hash block bytes isLock isBySelf res cached answer =>
    have hrecord : Unsent P s (s.record (.checkProposal hash block bytes isLock isBySelf res)) :=
      .record nofun
    exact hrecord.trans (.of_calls_eq rfl)
  | _ => exact .of_calls_eq rfl

/-- Where no proposal is supplied, none is permitted. -/
theorem Permitted.not_isProposal [Content F] {m : CoreInput} {d : Bool}
    (h : Permitted E K s (.bft m d)) (hK : ∀ sp, ¬ K.proposal sp) : ¬ m.IsProposal := by
  cases m with
  | proposal p =>
    obtain ⟨sp, hsp, -⟩ := h.2
    exact fun _ => hK sp hsp
  | _ => exact id

/-- Where no vote is supplied, none is permitted. -/
theorem Permitted.not_isVote [Content F] {m : CoreInput} {d : Bool}
    (h : Permitted E K s (.bft m d)) (hK : ∀ sv, ¬ K.vote sv) : ¬ m.IsVote := by
  cases m with
  | vote v =>
    obtain ⟨sv, hsv, -⟩ := h.2
    exact fun _ => hK sv hsv
  | _ => exact id

/-! ### Entering a height -/

/-- The status `rs` brought the engine to a new height, where it knows no blocks and no verdicts. -/
structure Entered (s : State F) (rs : Status) (s' : State F) : Prop where
  accepted : s.eng.height ≤ rs.height
  height : s'.eng.height = rs.height + 1
  authority : s'.eng.authority = s.eng.authority.updateAuthority s.eng.height rs.authorityList
  blocks : s'.eng.blockOriginCache = ∅
  verdicts : s'.eng.verifiedBlock = ∅
  proposalCache : s'.eng.proposalCache = s.eng.proposalCache
  voteCache : s'.eng.voteCache = s.eng.voteCache

/-- **A status that is handled brings the engine to its next height.** -/
theorem handleRichStatus_enters (rs : Status) (needWal : Bool) :
    Steps (fun _ _ => True) (handleRichStatus E rs needWal) (fun _ s' => Entered s rs s') s := by
  unfold handleRichStatus gotoNewHeight
  refine .bind_get (.bind_rejectIf fun hlt => ?_)
  refine .bind (logIf_moves fun _ _ _ => trivial) fun _ s₁ _ hw => .bind_modify trivial ?_
  obtain ⟨w, rfl⟩ := hw
  refine .bind (P := fun _ s' => Entered s rs s') ?_ fun _ _ _ h => .pure h
  refine .bind_modify trivial (.bind_lift fun new hnew => .bind_modify trivial ?_)
  obtain rfl := add64_ok hnew
  refine .bind (.zoomTry (Q := fun _ s' => Entered s rs s') trivial fun _ _ => ?_)
    fun _ _ _ h => Steps.bind_orErr fun _ _ => .pure h
  exact ⟨UInt64.not_lt.1 hlt, rfl, rfl, rfl, rfl, rfl, rfl⟩

/-- Switching the consensus power changes nothing else, and sends neither a proposal nor a vote. -/
theorem switchPower_enters {P : CoreInput → Prop} (hstart : ¬ P .start) (hpause : ¬ P .pause)
    {s₀ : State F} {rs : Status} (he : Entered s₀ rs s) :
    Steps (Unsent P) (switchPower E rs) (fun _ s' => Entered s₀ rs s') s := by
  -- the power is switched, and the switch is announced
  have switch : ∀ (on : Bool) (m : CoreInput) (name : String), ¬ P m →
      Steps (Unsent P) (do
        modify fun s : State F => { s with eng.consensusPower := on }
        sendBft E m name) (fun _ s' => Entered s₀ rs s') s := by
    intro on m name hm
    refine .bind_modify (.of_calls_eq rfl) ((sendBft_records (.recordBft hm)).mono ?_)
    rintro _ s' - rfl
    exact ⟨he.accepted, he.height, he.authority, he.blocks, he.verdicts, he.proposalCache,
      he.voteCache⟩
  unfold switchPower
  exact .bind_get (.ite (fun _ => .ite (fun _ => switch true _ _ hstart) fun _ => .pure he)
    fun _ => .ite (fun _ => switch false _ _ hpause) fun _ => .pure he)

/-- So does announcing the status. -/
theorem sendStatus_enters {P : CoreInput → Prop} (st : BftStatus) (hP : ¬ P (.status st))
    {s₀ : State F} {rs : Status} (he : Entered s₀ rs s) :
    Steps (Unsent P) (sendBft E (.status st) "BftStatus") (fun _ s' => Entered s₀ rs s') s := by
  refine (sendBft_records (.recordBft hP)).mono ?_
  rintro _ s' - rfl
  exact ⟨he.accepted, he.height, he.authority, he.blocks, he.verdicts, he.proposalCache,
    he.voteCache⟩

/-! ### Proposals whose block is not known -/

/-- The engine called nobody, and its view and what it knows about blocks stayed as it was. -/
structure SameView (s s' : State F) : Prop where
  calls : s'.calls = s.calls
  height : s'.eng.height = s.eng.height
  authority : s'.eng.authority = s.eng.authority
  blocks : s'.eng.blockOriginCache = s.eng.blockOriginCache
  verdicts : s'.eng.verifiedBlock = s.eng.verifiedBlock
  voteCache : s'.eng.voteCache = s.eng.voteCache

theorem SameView.of_moves (h : Relation.ReflTransGen SameView s s') : SameView s s' := by
  induction h with
  | refl => exact ⟨rfl, rfl, rfl, rfl, rfl, rfl⟩
  | tail _ h' ih =>
    exact ⟨h'.calls.trans ih.calls, h'.height.trans ih.height, h'.authority.trans ih.authority,
      h'.blocks.trans ih.blocks, h'.verdicts.trans ih.verdicts, h'.voteCache.trans ih.voteCache⟩

theorem checkLockVotes_sameView (sp : SignedProposal) (hash : Hash) :
    Steps SameView (checkLockVotes E sp hash) (fun _ _ => True) s :=
  checkLockVotes_steps fun _ _ => ⟨rfl, rfl, rfl, rfl, rfl, rfl⟩

/-- **A proposal of the current height is not accepted as long as nothing is known about its
block.** -/
theorem handleSignedProposal_unknown {sp : SignedProposal}
    (hheight : sp.proposal.height = s.eng.height) (hblocks : s.eng.blockOriginCache = ∅)
    (hverdicts : s.eng.verifiedBlock = ∅) (needWal : Bool) (bytes : Bytes) :
    Steps SameView (handleSignedProposal E sp needWal bytes) (fun _ _ => False) s := by
  unfold handleSignedProposal
  refine Steps.bind_verifySignature fun _ _ => .bind_rejectIf fun _ => .bind_get
    (.bind_lift fun prev hprev => .bind_rejectIf fun _ => ?_)
  refine .bind (logIf_moves fun _ _ _ => ⟨rfl, rfl, rfl, rfl, rfl, rfl⟩) fun _ s₁ h₁ _ =>
    .bind_modify ⟨rfl, rfl, rfl, rfl, rfl, rfl⟩ ?_
  refine .bind (checkProposer_moves ..) ?_
  rintro _ s₂ _ ⟨hs₂, _⟩
  subst hs₂
  refine .bind (checkLockVotes_sameView sp _) fun _ s₃ h₃ _ => .ite (fun heq => ?_) fun _ => ?_
  · -- the height is not the one before
    obtain ⟨rfl, -⟩ := sub64_ok hprev
    rw [hheight] at heq
    grind
  · have h₃ := SameView.of_moves h₃
    have h₁ := SameView.of_moves h₁
    have hb : s₃.eng.blockOriginCache = ∅ := (h₃.blocks.trans h₁.blocks).trans hblocks
    have hv : s₃.eng.verifiedBlock = ∅ := (h₃.verdicts.trans h₁.verdicts).trans hverdicts
    refine .bind (P := fun _ _ => False) ?_ fun _ _ _ h => h.elim
    unfold verdictOf
    refine .bind_get ?_
    rw [hb, hv]
    exact .throw

/-- **Cached proposals are dropped.**  The first one ends the draining with an error. -/
theorem sendCacheProposal_unknown (hblocks : s.eng.blockOriginCache = ∅)
    (hverdicts : s.eng.verifiedBlock = ∅)
    (hc : ∀ l e, s.eng.proposalCache.lookup s.eng.height = some l → e ∈ l →
      e.1.proposal.height = s.eng.height) :
    Steps SameView (sendCacheProposal E s.eng.height)
      (fun _ _ => (s.eng.proposalCache.lookup s.eng.height).getD [] = []) s := by
  unfold sendCacheProposal
  refine .bind_get ?_
  cases hl : s.eng.proposalCache.lookup s.eng.height with
  | none => exact .pure rfl
  | some proposals =>
    refine .bind_modify ⟨rfl, rfl, rfl, rfl, rfl, rfl⟩ ?_
    cases proposals with
    | nil => exact .pure rfl
    | cons e proposals =>
      have hfirst := handleSignedProposal_unknown (E := E) (s := { s with
        eng.proposalCache := s.eng.proposalCache.erase s.eng.height })
        (hc _ e hl List.mem_cons_self) hblocks hverdicts true e.2.2
      refine .bind (P := fun _ _ => False) ?_ fun _ _ _ h => h.elim
      exact .bind hfirst fun _ _ _ h => h.elim

/-- **A status never hands a proposal over.** -/
theorem processStatus_unsent [Content F] (hc : ∀ k l e, s.eng.proposalCache.lookup k = some l →
    e ∈ l → e.1.proposal.height = k) (rs : Status) :
    Steps (Unsent CoreInput.IsProposal) (processStatus E rs) (fun _ _ => True) s := by
  let K : Supply F := { Supply.all F with proposal := fun _ => False }
  have hK : ∀ s s' : State F, Update E K s s' → Unsent CoreInput.IsProposal s s' :=
    fun _ _ => Update.unsent fun _ _ _ h => h.not_isProposal fun _ h => h
  unfold processStatus
  refine .bind (((handleRichStatus_moves rs true).weaken hK).and_wp
    (handleRichStatus_enters rs true)) fun status s₁ _ h₁ => ?_
  refine .bind (switchPower_enters id id h₁.2.2) ?_
  intro _ s₂ _ h₂
  refine .bind (sendStatus_enters _ id h₂) fun _ s₃ _ h₃ => .bind_get ?_
  refine .bind (P := fun _ _ => True) ?_ fun _ s₄ _ _ => .bind_get ?_
  · refine ((sendCacheProposal_unknown h₃.blocks h₃.verdicts fun l e hl he => ?_).weaken
      fun _ _ h => .of_calls_eq h.calls).mono fun _ _ _ _ => trivial
    exact hc _ l e (by rw [← h₃.proposalCache]; exact hl) he
  · exact (sendCacheVote_moves (S := K.source) fun _ _ _ _ => trivial).weaken
      fun s s' h => hK s s' h.update

/-! ### The turn of a status -/

section

variable {i : Input} {p p' : Process F} {rs : Status} {needWal : Bool}

/-- What comes before the status in its turn leaves the height and the caches, and sends nothing to
the BFT core. -/
structure BeforeStatus (s s' : State F) : Prop where
  height : s'.eng.height = s.eng.height
  proposalCache : s'.eng.proposalCache = s.eng.proposalCache
  voteCache : s'.eng.voteCache = s.eng.voteCache
  unsent : Unsent (fun _ => True) s s'

theorem BeforeStatus.of_moves (h : Relation.ReflTransGen BeforeStatus s s') :
    BeforeStatus s s' := by
  induction h with
  | refl => exact ⟨rfl, rfl, rfl, .of_calls_eq rfl⟩
  | tail _ h' ih =>
    exact ⟨h'.height.trans ih.height, h'.proposalCache.trans ih.proposalCache,
      h'.voteCache.trans ih.voteCache, ih.unsent.trans h'.unsent⟩

theorem Prepares.beforeStatus (h : Prepares s s') : BeforeStatus s s' :=
  ⟨by cases h <;> rfl, by cases h <;> rfl, by cases h <;> rfl, h.unsent⟩

theorem HandlesAt.beforeStatus (h : HandlesAt E p i rs needWal s) : BeforeStatus p.state s := by
  cases h with
  | external => exact ⟨rfl, rfl, rfl, .of_calls_eq rfl⟩
  | @committed c commit s rs handled answer =>
    have hcommit : Relation.ReflTransGen BeforeStatus p.state s :=
      Relation.ReflTransGen.mono (fun _ _ => Prepares.beforeStatus) _ _
        ((handleCommit_prepares c true _).reached handled)
    exact .of_moves (hcommit.tail ⟨rfl, rfl, rfl, .record nofun⟩)
  | logged => exact ⟨rfl, rfl, rfl, .of_calls_eq rfl⟩

variable [Content F]

/-- A status never hands a proposal over, whichever way it comes. -/
theorem handleStatus_unsent (hc : ∀ k l e, s.eng.proposalCache.lookup k = some l → e ∈ l →
    e.1.proposal.height = k) (h : Exec.survive (handleStatus E rs needWal) s = some s') :
    Unsent CoreInput.IsProposal s s' := by
  cases needWal with
  | true => exact .of_moves ((processStatus_unsent hc rs).survive h)
  | false =>
    -- the replay of a status only announces it
    let K : Supply F := { Supply.all F with proposal := fun _ => False }
    have hstatus : Steps (Unsent CoreInput.IsProposal) (handleRichStatus E rs false)
        (fun _ _ => True) s :=
      ((handleRichStatus_moves rs false).weaken fun _ _ =>
        Update.unsent (K := K) fun _ _ _ h => h.not_isProposal fun _ h => h).mono
          fun _ _ _ _ => trivial
    have hloaded : Steps (Unsent CoreInput.IsProposal) (handleStatus E rs false)
        (fun _ _ => True) s :=
      .ifOk hstatus (fun _ _ _ _ => (sendBft_records (.recordBft id)).mono fun _ _ _ _ => trivial)
        fun _ _ => trivial
    exact .of_moves (hloaded.survive h)

/-- **A turn that moves the height never hands a proposal over.** -/
theorem next_unsent (hc : Cached E (Supply.all F) p.state.eng) (hn : next E i p = some p')
    (hmoved : p'.state.eng.height ≠ p.state.eng.height) :
    Unsent CoreInput.IsProposal p.state p'.state := by
  obtain ⟨rs, needWal, s, hs⟩ : ∃ rs needWal s, HandlesAt E p i rs needWal s := by
    by_contra hnone
    simp only [not_exists] at hnone
    exact hmoved (next_moves_of_none (S := statusless F) (Supplied.all E p i)
      (fun _ _ => trivial) (fun _ => not_false) ⟨hc.proposal, hc.vote⟩ hn hnone).height_eq
  have hbefore := hs.beforeStatus
  have hafter : Unsent CoreInput.IsProposal s p'.state := by
    refine handleStatus_unsent (fun k l e hk he => ?_) (survive_of_handlesAt hn hs)
    exact (hc.proposal k l e (hbefore.proposalCache ▸ hk) he).2
  exact hbefore.unsent.of_none.trans hafter

end

/-! ### Early proposals -/

/-- The signed proposal `sp` is received early and cached, the turn `i` brings the engine to its
height, and the same message would be accepted right after that. -/
structure EarlyProposal [Content F] (E : Env F) (address : Address) (disk : Disk) (bytes : Bytes)
    (sp : SignedProposal) (i : Input) (p p' : Process F) : Prop where
  walOff : E.walOn = false
  received : ∃ is₁ is₂ p₁ block hash, Life E address disk is₁ p₁ ∧ p₁.state.eng.height ≠ 0 ∧
    decodeProposal E bytes = .ok (sp, block, hash) ∧
    inWindow sp.proposal.height p₁.state.eng.height = true ∧
    Life E address disk (is₁ ++ .external (.signedProposal bytes) :: is₂) p
  opened : next E i p = some p'
  before : p.state.eng.height < sp.proposal.height
  height : p'.state.eng.height = sp.proposal.height
  deliverable : (Exec.result (externalProcess E (.signedProposal bytes)) p'.state).1 = .ok ⟨⟩

/-- **An early proposal is not handed over**, nor is any other one, in the turn that brings the
engine to its height: neither if the status comes from outside, nor if it answers a commit. -/
theorem early_proposal_not_handed_over [Content F] {address : Address} {disk : Disk}
    {bytes : Bytes} {sp : SignedProposal} {i : Input} {p p' : Process F}
    (h : EarlyProposal E address disk bytes sp i p p') (q : BftProposal) :
    ¬ HandedOver p.state p'.state (.proposal q) := by
  obtain ⟨is₁, is₂, -, -, -, -, -, -, -, hl⟩ := h.received
  obtain ⟨-, -, -, hcached⟩ := hl.updates (SuppliedLife.all E address disk _)
  have hmoved : p'.state.eng.height ≠ p.state.eng.height := by
    rw [h.height]
    exact (UInt64.ne_of_lt h.before).symm
  exact (next_unsent hcached h.opened hmoved).not_handedOver trivial

/-- A proposal of the only authority for height `2`, with a proof of height `1`. -/
def earlyProposal : SignedProposal where
  proposal :=
    { height := 2, round := 0, hash := [5], lockRound := none, lockVotes := [], proposer := [7]
      proof := Reference.proof [4] [[7]] }
  signature := [7]

/-- What travels on the wire. -/
def earlyBytes : Bytes := Reference.proposalBytes earlyProposal [5] [5]

/-- The status that opens height `2`. -/
def secondStatus : Status := ⟨1, none, [Node.new [7]]⟩

/-- Whether a call hands a proposal over. -/
def Call.isProposal (call : Call F) : Bool :=
  match call.event with
  | .bft (.proposal _) _ => true
  | _ => false

/-- The engine is at height `2`, would take the proposal now, and has never handed one over. -/
def takesLate (p : Process Block) : Bool :=
  decide (p.state.eng.height = 2) &&
    (Exec.result (externalProcess (Reference.env [7]) (.signedProposal earlyBytes))
      p.state).1.isOk && !p.state.calls.any Call.isProposal

/-- The proposal is received at height `1` after `is`, and the turn `i` opens its height. -/
theorem exists_earlyProposal (is : List Input) (i : Input)
    (hf : (Reference.run (Reference.env [7]) [7] is).any
      (fun p => p.state.eng.height = 1) = true)
    (hf' : (Reference.run (Reference.env [7]) [7]
      (is ++ [.external (.signedProposal earlyBytes)])).any
        (fun p => p.state.eng.height = 1) = true)
    (hg : (Reference.run (Reference.env [7]) [7]
      (is ++ [.external (.signedProposal earlyBytes)] ++ [i])).any takesLate = true) :
    ∃ p p', EarlyProposal (Reference.env [7]) [7] Reference.disk earlyBytes earlyProposal i p p' ∧
      ∀ call ∈ p'.state.calls, ∀ q d, call.event ≠ .bft (.proposal q) d := by
  obtain ⟨p₁, hl₁, h₁⟩ := Reference.exists_life (Reference.env [7]) [7] is _ hf
  obtain ⟨p, p', hl, -, hn, h, h'⟩ :=
    Reference.exists_turn (Reference.env [7]) [7] _ i _ takesLate hf' hg
  unfold takesLate at h'
  simp only [Bool.and_eq_true, decide_eq_true_eq, Bool.not_eq_true', List.any_eq_false] at h₁ h h'
  obtain ⟨⟨hheight, hok⟩, hcalls⟩ := h'
  have hd : decodeProposal (Reference.env [7]) earlyBytes = .ok (earlyProposal, ⟨[5]⟩, [5]) := by
    rfl
  refine ⟨p, p', ⟨rfl, ⟨is, [], p₁, _, _, hl₁, by rw [h₁]; decide, hd, by rw [h₁]; decide, hl⟩,
    hn, by rw [h]; decide, hheight, ?_⟩, fun call hmem q d he => ?_⟩
  · obtain ⟨u, s, hr⟩ := Exec.exists_of_isOk hok
    exact congrArg Prod.fst hr
  · have hsent : call.isProposal = true := by
      unfold Call.isProposal
      rw [he]
    exact hcalls call hmem hsent

/-- The height is opened by a status from outside, and by a commit. -/
theorem early_proposal_not_handed_over_run :
    (∃ p p', EarlyProposal (Reference.env [7]) [7] Reference.disk earlyBytes earlyProposal
        (.external (.status secondStatus)) p p' ∧
      ∀ q, ¬ HandedOver p.state p'.state (.proposal q)) ∧
    ∃ p p', EarlyProposal (Reference.env [7]) [7] Reference.disk earlyBytes earlyProposal
        (.core (.commit Reference.firstCommit)) p p' ∧
      ∀ q, ¬ HandedOver p.state p'.state (.proposal q) := by
  constructor
  · obtain ⟨p, p', h, -⟩ := exists_earlyProposal (Reference.readyRun [7])
      (.external (.status secondStatus)) (by decide +kernel) (by decide +kernel)
      (by decide +kernel)
    exact ⟨p, p', h, early_proposal_not_handed_over h⟩
  · obtain ⟨p, p', h, -⟩ := exists_earlyProposal Reference.precommitRun
      (.core (.commit Reference.firstCommit)) (by decide +kernel) (by decide +kernel)
      (by decide +kernel)
    exact ⟨p, p', h, early_proposal_not_handed_over h⟩

/-- A valid proposal is lost. -/
theorem early_proposal_lost : ∃ p p',
    EarlyProposal (Reference.env [7]) [7] Reference.disk earlyBytes earlyProposal
        (.external (.status secondStatus)) p p' ∧
      ¬ HandedOver p.state p'.state
        (.proposal (earlyProposal.proposal.toBftProposal earlyProposal.proposal.hash)) := by
  obtain ⟨p, p', h, hcalls⟩ := exists_earlyProposal (Reference.readyRun [7])
    (.external (.status secondStatus)) (by decide +kernel) (by decide +kernel)
    (by decide +kernel)
  refine ⟨p, p', h, ?_⟩
  rintro ⟨call, hmem, d, he⟩
  exact hcalls call (List.mem_of_mem_drop hmem) _ d he

end ConsensusBft

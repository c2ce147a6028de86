import ConsensusBft.Consensus.EarlyProposals

/-!
# Early votes

Votes of a coming height are cached and handled when a status brings the engine to it, be it from
outside or the answer to a commit, after the cached proposals.  Both loops end at the first message
that is not accepted.

* `cachedVotes`, `cachedProposals` : what is cached for a height.
* `processStatus_opens` : the status is handled and announced, if nothing fails.
* `forM_forwardVote` : the votes before the first one of a stranger are handed over.
* `processStatus_drains` : **what a status hands over.**
* `next_drains` : so does the turn that handles it.
* `VotesDrained p p' rs` : every vote cached for the new height, by one of its authorities, is
  handed over and stored.
* `early_votes_drained_iff` : **when it is**; `early_vote_lost` : a vote that is lost behind one of
  a stranger.
-/

namespace ConsensusBft

open Exec (Steps)

variable {F : Type} {E : Env F} {s s' : State F} {rs : Status}

/-! ### Nothing fails -/

/-- The log is off, and sends and file operations succeed. -/
structure Undisrupted (E : Env F) : Prop where
  walOff : E.walOn = false
  delivers : ∀ n, E.delivers n = true
  io : ∀ n, E.io n = .ok

theorem sendBft_result (hE : Undisrupted E) (msg : CoreInput) (name : String) :
    Exec.result (sendBft E msg name) s = (.ok ⟨⟩, s.record (.bft msg true)) := by
  rw [result_sendBft, hE.delivers]
  rfl

theorem switchPower_returns (hE : Undisrupted E) (rs : Status) :
    ∃ s', Exec.result (switchPower E rs) s = (.ok ⟨⟩, s') := by
  unfold switchPower
  rw [Exec.result_bind_get]
  split_ifs
  · exact ⟨_, (Exec.result_bind_modify _ _ _).trans (sendBft_result hE _ _)⟩
  · exact ⟨s, rfl⟩
  · exact ⟨_, (Exec.result_bind_modify _ _ _).trans (sendBft_result hE _ _)⟩
  · exact ⟨s, rfl⟩

/-- A status of the current height or a later one is handled, unless its height is the last one. -/
theorem handleRichStatus_returns (hE : Undisrupted E) (haccept : s.eng.height ≤ rs.height) :
    (∃ st s', Exec.result (handleRichStatus E rs true) s = (.ok st, s')) ∨
      ∃ s', Exec.result (handleRichStatus E rs true) s = (.error .panicked, s') := by
  have hwal : ¬ ((E.walOn && true) = true) := by simp [hE.walOff]
  have hret : Exec.wp (handleRichStatus E rs true) (fun _ _ => True)
      (fun e _ => e = .panicked) s := by
    refine handleRichStatus_wp ?_ (fun _ _ _ _ => rfl) (fun _ _ _ _ => trivial) ?_
    · intro e w hrefused
      cases hrefused with
      | obsolete lt => exact absurd lt (UInt64.not_lt.2 haccept)
      | unprinted _ due => exact absurd due hwal
      | unsaved _ due => exact absurd due hwal
    · -- the log moves to the new height
      intro _ w _ _ hfails
      obtain ⟨⟨⟩, w', hset, -⟩ := (Wal.setHeight_returns hE.io (rs.height + 1) w).returns
      exact absurd (congrArg Prod.fst hset) hfails
  cases hr : Exec.result (handleRichStatus E rs true) s with
  | mk r s' =>
    cases r with
    | ok st => exact .inl ⟨st, s', rfl⟩
    | error e =>
      obtain rfl := hret.error hr
      exact .inr ⟨s', rfl⟩

/-- What is cached for a height. -/
def cachedVotes (eng : Consensus F) (height : UInt64) : List SignedVote :=
  (eng.voteCache.lookup height).getD []

theorem mem_cachedVotes {eng : Consensus F} {height : UInt64} {sv : SignedVote} :
    sv ∈ cachedVotes eng height ↔
      ∃ votes, eng.voteCache.lookup height = some votes ∧ sv ∈ votes := by
  unfold cachedVotes
  cases eng.voteCache.lookup height <;> simp

/-- What is cached for a height. -/
def cachedProposals (eng : Consensus F) (height : UInt64) : List (SignedProposal × F × Bytes) :=
  (eng.proposalCache.lookup height).getD []

/-- **A status that is processed opens its height.**  Up to there no vote is sent, and what follows
is the draining of the caches. -/
theorem processStatus_opens [Content F] (hE : Undisrupted E) (haccept : s.eng.height ≤ rs.height)
    (h : Exec.survive (processStatus E rs) s = some s') :
    ∃ s₁, Entered s rs s₁ ∧ Unsent CoreInput.IsVote s s₁ ∧
      (Exec.result (sendCacheProposal E s₁.eng.height >>= fun _ => do
        let s ← get
        sendCacheVote E s.eng.height) s₁).2 = s' := by
  obtain ⟨r, hr, hne⟩ := Exec.survive_eq_some.1 h
  let K : Supply F := { Supply.all F with vote := fun _ => False }
  have hK : ∀ s s' : State F, Update E K s s' → Unsent CoreInput.IsVote s s' :=
    fun _ _ => Update.unsent fun _ _ _ h => h.not_isVote fun _ h => h
  rcases handleRichStatus_returns hE haccept with ⟨st, s₁, h₁⟩ | ⟨s₁, h₁⟩
  · have hu₁ := ((handleRichStatus_moves (s := s) rs true).weaken hK).reached h₁
    have he₁ := (handleRichStatus_enters rs true).ok h₁
    obtain ⟨s₂, h₂⟩ := switchPower_returns (s := s₁) hE rs
    have hpower := switchPower_enters (E := E) (P := CoreInput.IsVote) id id he₁
    have hu₂ := hpower.reached h₂
    have he₂ := hpower.ok h₂
    have h₃ := sendBft_result (s := s₂) hE (.status st) "BftStatus"
    have hstatus := sendStatus_enters (E := E) (P := CoreInput.IsVote) st id he₂
    have hu₃ := hstatus.reached h₃
    have he₃ := hstatus.ok h₃
    refine ⟨_, he₃, .of_moves ((hu₁.trans hu₂).trans hu₃), ?_⟩
    unfold processStatus at hr
    rw [Exec.result_bind_ok h₁, Exec.result_bind_ok h₂, Exec.result_bind_ok h₃,
      Exec.result_bind_get] at hr
    rw [hr]
  · unfold processStatus at hr
    rw [Exec.result_bind_error h₁] at hr
    exact absurd (congrArg Prod.fst hr).symm hne

/-! ### The loop over the cached votes -/

/-- The voter is an authority of the current height. -/
def isListed (eng : Consensus F) (sv : SignedVote) : Bool :=
  decide (sv.vote.voter ∈ eng.authority.setAt eng.height)

/-- The call hands the vote over, and the vote is stored by then. -/
def Forwards (sv : SignedVote) (call : Call F) : Prop :=
  (∃ d, call.event = .bft (.vote sv.vote.toBftVote) d) ∧
    (call.eng.votes.stored sv.vote.height sv.vote.round sv.vote.voteType
      sv.vote.toBftVote).isSome

/-- The state after a vote is stored. -/
def State.addVote (s : State F) (sv : SignedVote) : State F :=
  { s with eng.votes :=
    (s.eng.votes.add sv.vote.height sv.vote.round sv.vote.voteType sv.vote.toBftVote sv).2 }

/-- **A genuine vote of the current height is stored**, and accepted if its voter is listed. -/
theorem handleSignedVote_current (hE : Undisrupted E) {sv : SignedVote} (hgen : sv.Genuine E)
    (hheight : sv.vote.height = s.eng.height) (hzero : s.eng.height ≠ 0) :
    Exec.result (handleSignedVote E sv true) s =
      (if isListed s.eng sv then .ok sv.vote.toBftVote else .error (.err .invalidVoter),
        s.addVote sv) := by
  have hsig : Exec.result (verifySignature E sv.signature (E.support.hash sv.vote.rlpBytes)) s =
      (.ok sv.vote.voter, s) := by
    unfold SignedVote.Genuine at hgen
    rw [verifySignature, hgen]
    rfl
  have hsub : sub64 (ε := ConsensusError) E.overflowChecks s.eng.height 1 =
      .ok (s.eng.height - 1) := sub64_of_le (by grind)
  have hlt : ¬ sv.vote.height < s.eng.height - 1 := by
    rw [hheight]
    grind
  have hlog : ¬ ((E.walOn && decide ((sv.vote.height - s.eng.height).toNat < CACHE_NUMBER) &&
      true) = true) := by simp [hE.walOff]
  have hahead : ¬ s.eng.height < sv.vote.height := by
    rw [hheight]
    exact UInt64.lt_irrefl _
  unfold handleSignedVote
  rw [Exec.result_bind_ok hsig, Exec.result_bind_get, Exec.result_bind_lift hsub,
    Exec.result_bind_rejectIf hlt, Exec.result_bind_rejectIf (by simp)]
  have hcurrent : Exec.result (Exec.doIf (s.eng.height ≤ sv.vote.height) do
      Exec.doIf (E.walOn && decide ((sv.vote.height - s.eng.height).toNat < CACHE_NUMBER) && true)
        (saveJson E sv.vote.height LOG_TYPE_RAW_BYTES "SignedVote" (E.serde.signedVote.toString sv))
      Exec.doIf (s.eng.height < sv.vote.height) do
        modify fun s : State F =>
          { s with eng.voteCache := s.eng.voteCache.pushEntry sv.vote.height sv }
        throw (.err .futureMsg)) s = (.ok ⟨⟩, s) := by
    rw [Exec.result_doIf_of (by rw [hheight]; exact UInt64.le_refl _),
      Exec.result_bind_ok (Exec.result_doIf_of_not hlog _ _), Exec.result_doIf_of_not hahead]
  rw [Exec.result_bind_ok hcurrent, Exec.result_bind_modify]
  unfold checkVoteSender
  have hset : s.eng.authority.setAt sv.vote.height = s.eng.authority.setAt s.eng.height := by
    rw [hheight]
  by_cases hl : sv.vote.voter ∈ s.eng.authority.setAt s.eng.height
  · simp only [bind_assoc, Exec.result_bind_get]
    rw [Exec.result_bind_rejectIf (by rw [hset]; exact not_not.2 hl), isListed,
      if_pos (decide_eq_true hl)]
    rfl
  · simp only [bind_assoc, Exec.result_bind_get]
    rw [Exec.result_bind_rejectIf_of (by rw [hset]; exact hl), isListed,
      if_neg (by simpa using hl)]
    rfl

/-- **The votes before the first one of a stranger are handed over**, each after it was stored; the
others are not. -/
theorem forM_forwardVote (hE : Undisrupted E) (votes : List SignedVote)
    (hvotes : ∀ sv ∈ votes, sv.Genuine E ∧ sv.vote.height = s.eng.height ∧ s.eng.height ≠ 0) :
    ∃ calls, (Exec.result (votes.forM (forwardVote E)) s).2.calls = s.calls ++ calls ∧
      List.Forall₂ Forwards (votes.takeWhile (isListed s.eng)) calls := by
  induction votes generalizing s with
  | nil => exact ⟨[], (List.append_nil _).symm, .nil⟩
  | cons sv votes ih =>
    obtain ⟨hgen, hheight, hzero⟩ := hvotes sv List.mem_cons_self
    have hres := handleSignedVote_current hE hgen hheight hzero
    change ∃ calls, (Exec.result (forwardVote E sv >>= fun _ => votes.forM (forwardVote E))
      s).2.calls = _ ∧ _
    by_cases hl : isListed s.eng sv = true
    · rw [if_pos hl] at hres
      -- the vote is stored and sent; neither changes the height or the authorities
      have hsend : Exec.result (forwardVote E sv) s =
          (.ok ⟨⟩, (s.addVote sv).record (.bft (.vote sv.vote.toBftVote) true)) :=
        (Exec.result_bind_ok hres).trans (sendBft_result hE _ _)
      obtain ⟨calls, hcalls, hall⟩ :=
        ih (s := (s.addVote sv).record (.bft (.vote sv.vote.toBftVote) true))
          fun w hw => hvotes w (List.mem_cons_of_mem sv hw)
      rw [Exec.result_bind_ok hsend, List.takeWhile_cons_of_pos hl]
      refine ⟨_ :: calls, hcalls.trans (List.append_assoc _ [_] _), .cons ⟨⟨true, rfl⟩, ?_⟩ hall⟩
      have hst := (VoteCollector.Kept.of_add s.eng.votes sv.vote.height sv.vote.round
        sv.vote.voteType sv.vote.toBftVote sv).stored
      change ((s.eng.votes.add _ _ _ _ _).2.stored _ _ _ _).isSome = true
      rw [hst]
      rfl
    · rw [if_neg hl] at hres
      have hstop : Exec.result (forwardVote E sv) s = (.error (.err .invalidVoter), s.addVote sv) :=
        Exec.result_bind_error hres
      rw [Exec.result_bind_error hstop, List.takeWhile_cons_of_neg hl]
      exact ⟨[], (List.append_nil _).symm, .nil⟩

/-! ### What a status hands over -/

/-- The voter is an authority of the height that the status opens. -/
def isAuthority (rs : Status) (sv : SignedVote) : Bool :=
  decide (sv.vote.voter ∈ intoAddrSet rs.authorityList)

/-- **Draining the cached votes** of the current height. -/
theorem sendCacheVote_forwards (hE : Undisrupted E)
    (hvotes : ∀ sv ∈ cachedVotes s.eng s.eng.height,
      sv.Genuine E ∧ sv.vote.height = s.eng.height ∧ s.eng.height ≠ 0) :
    ∃ calls, (Exec.result (sendCacheVote E s.eng.height) s).2.calls = s.calls ++ calls ∧
      List.Forall₂ Forwards ((cachedVotes s.eng s.eng.height).takeWhile (isListed s.eng))
        calls := by
  unfold cachedVotes at hvotes ⊢
  unfold sendCacheVote
  rw [Exec.result_bind_get]
  cases hl : s.eng.voteCache.lookup s.eng.height with
  | none => exact ⟨[], (List.append_nil _).symm, .nil⟩
  | some votes =>
    rw [hl] at hvotes
    exact forM_forwardVote (s := { s with
      eng.voteCache := s.eng.voteCache.erase s.eng.height }) hE votes hvotes

/-- The cached votes that the status hands over: none if a proposal is cached too, otherwise those
before the first one of a stranger. -/
def drainedVotes (eng : Consensus F) (rs : Status) : List SignedVote :=
  if (cachedProposals eng (rs.height + 1)).isEmpty then
    (cachedVotes eng (rs.height + 1)).takeWhile (isAuthority rs)
  else []

/-- In the height it opened, the status decides who is listed. -/
theorem Entered.isListed {s₁ : State F} (he : Entered s rs s₁) (hzero : rs.height + 1 ≠ 0) :
    isListed s₁.eng = isAuthority rs := by
  have hnew : s₁.eng.height ≠ s.eng.height := by
    rw [he.height]
    have haccept := he.accepted
    grind
  funext sv
  unfold ConsensusBft.isListed isAuthority
  rw [decide_eq_decide]
  simp only [AuthorityManage.setAt, he.authority, AuthorityManage.updateAuthority, if_neg hnew,
    List.mem_toFinset, intoAddrSet]

theorem sendCacheProposal_nil (h : (cachedProposals s.eng s.eng.height).isEmpty) :
    ∃ s', Exec.result (sendCacheProposal E s.eng.height) s = (.ok ⟨⟩, s') := by
  unfold cachedProposals at h
  unfold sendCacheProposal
  rw [Exec.result_bind_get]
  cases hl : s.eng.proposalCache.lookup s.eng.height with
  | none => exact ⟨s, rfl⟩
  | some proposals =>
    rw [hl, Option.getD_some, List.isEmpty_iff] at h
    subst h
    exact ⟨_, rfl⟩

/-- **What a status hands over**: exactly the drained votes, in their order. -/
theorem processStatus_drains [Content F] {K : Supply F} (hE : Undisrupted E)
    (haccept : s.eng.height ≤ rs.height) (hc : Cached E K s.eng)
    (h : Exec.survive (processStatus E rs) s = some s') :
    ∃ s₂ calls, Unsent CoreInput.IsVote s s₂ ∧ s'.calls = s₂.calls ++ calls ∧
      List.Forall₂ Forwards (drainedVotes s.eng rs) calls := by
  obtain ⟨s₁, he, hu, rfl⟩ := processStatus_opens hE haccept h
  have hview := sendCacheProposal_unknown (E := E) he.blocks he.verdicts fun l e hl hmem =>
    (hc.proposal _ l e (he.proposalCache ▸ hl) hmem).2
  have hproposals :
      cachedProposals s₁.eng s₁.eng.height = cachedProposals s.eng (rs.height + 1) := by
    unfold cachedProposals
    rw [he.proposalCache, he.height]
  unfold drainedVotes
  cases hr : Exec.result (sendCacheProposal E s₁.eng.height) s₁ with
  | mk r s₂ =>
    have hsame := SameView.of_moves (hview.reached hr)
    have hu₂ : Unsent CoreInput.IsVote s s₂ := hu.trans (.of_calls_eq hsame.calls)
    cases r with
    | error e =>
      -- only a cached proposal stops the draining here
      have hne : ¬ (cachedProposals s.eng (rs.height + 1)).isEmpty := by
        intro hnil
        rw [← hproposals] at hnil
        obtain ⟨s₃, hs₃⟩ := sendCacheProposal_nil (E := E) hnil
        exact nomatch (congrArg Prod.fst (hr.symm.trans hs₃))
      rw [Exec.result_bind_error hr, if_neg hne]
      exact ⟨s₂, [], hu₂, (List.append_nil _).symm, .nil⟩
    | ok u =>
      have hnil : (cachedProposals s.eng (rs.height + 1)).isEmpty := by
        rw [← hproposals, List.isEmpty_iff]
        exact hview.ok hr
      rw [Exec.result_bind_ok hr, Exec.result_bind_get, if_pos hnil]
      have hheight : s₂.eng.height = rs.height + 1 := hsame.height.trans he.height
      have hcached : cachedVotes s₂.eng s₂.eng.height = cachedVotes s.eng (rs.height + 1) := by
        unfold cachedVotes
        rw [hsame.voteCache, he.voteCache, hheight]
      have hvotes : ∀ sv ∈ cachedVotes s₂.eng s₂.eng.height,
          sv.Genuine E ∧ sv.vote.height = s₂.eng.height ∧ s₂.eng.height ≠ 0 := by
        intro sv hsv
        rw [hcached] at hsv
        obtain ⟨votes, hl, hsv⟩ := mem_cachedVotes.1 hsv
        obtain ⟨-, hgen, hk, hzero⟩ := hc.vote _ votes sv hl hsv
        rw [hheight]
        exact ⟨hgen, hk, hzero⟩
      obtain ⟨calls, hcalls, hall⟩ := sendCacheVote_forwards hE hvotes
      refine ⟨s₂, calls, hu₂, hcalls, ?_⟩
      rw [hcached] at hvotes hall
      cases hl : cachedVotes s.eng (rs.height + 1) with
      | nil =>
        rw [hl] at hall
        exact hall
      | cons sv votes =>
        rw [hl] at hvotes hall
        have hlisted : isListed s₂.eng = isAuthority rs := by
          have hzero := (hvotes sv List.mem_cons_self).2.2
          rw [← he.isListed (hheight ▸ hzero)]
          unfold isListed
          rw [hsame.authority, hsame.height]
        rw [← hlisted]
        exact hall

/-- **What the turn of a status hands over**: a commit in front of the status adds nothing. -/
theorem next_drains [Content F] {address : Address} {disk : Disk} {is : List Input} {i : Input}
    {p p' : Process F} {needWal : Bool} (hl : Life E address disk is p) (hE : Undisrupted E)
    (hs : HandlesAt E p i rs needWal s) (haccept : p.state.eng.height ≤ rs.height)
    (hn : next E i p = some p') :
    ∃ s₂ calls, Unsent CoreInput.IsVote p.state s₂ ∧ p'.state.calls = s₂.calls ++ calls ∧
      List.Forall₂ Forwards (drainedVotes p.state.eng rs) calls := by
  obtain ⟨-, -, -, hcached⟩ := hl.updates (SuppliedLife.all E address disk is)
  have hbefore := hs.beforeStatus
  have hc : Cached E (Supply.all F) s.eng := by
    refine ⟨fun k l e hk he => ?_, fun k l sv hk hsv => ?_⟩
    · exact hcached.proposal k l e (hbefore.proposalCache ▸ hk) he
    · exact hcached.vote k l sv (hbefore.voteCache ▸ hk) hsv
  -- without the log no status is replayed
  have hlive : needWal = true := by
    cases hs with
    | logged head text => simp [hl.not_replay hE.walOff] at head
    | _ => rfl
  have hstatus := survive_of_handlesAt hn hs
  rw [hlive] at hstatus
  have haccept' : s.eng.height ≤ rs.height := by rwa [hbefore.height]
  have hdrained : drainedVotes s.eng rs = drainedVotes p.state.eng rs := by
    unfold drainedVotes cachedProposals cachedVotes
    rw [hbefore.proposalCache, hbefore.voteCache]
  obtain ⟨s₂, calls, hu, hcalls, hall⟩ := processStatus_drains hE haccept' hc hstatus
  exact ⟨s₂, calls, hbefore.unsent.of_none.trans hu, hcalls, hdrained ▸ hall⟩

/-! ### Early votes -/

/-- Every vote cached for the height that the status opens, by one of its authorities, is handed
over, and is stored by then. -/
def VotesDrained (p p' : Process F) (rs : Status) : Prop :=
  ∀ sv ∈ cachedVotes p.state.eng (rs.height + 1), isAuthority rs sv →
    ∃ call ∈ p'.state.callsSince p.state, Forwards sv call

theorem forwards_of_forall₂ {votes : List SignedVote} {calls : List (Call F)}
    (h : List.Forall₂ Forwards votes calls) :
    (∀ sv ∈ votes, ∃ call ∈ calls, Forwards sv call) ∧
      ∀ call ∈ calls, ∃ sv ∈ votes, Forwards sv call := by
  induction h with
  | nil => exact ⟨List.forall_mem_nil _, List.forall_mem_nil _⟩
  | cons hf _ ih =>
    constructor
    · intro sv hsv
      rcases List.mem_cons.1 hsv with rfl | hsv
      · exact ⟨_, List.mem_cons_self, hf⟩
      · obtain ⟨call, hcall, hf'⟩ := ih.1 sv hsv
        exact ⟨call, List.mem_cons_of_mem _ hcall, hf'⟩
    · intro call hcall
      rcases List.mem_cons.1 hcall with rfl | hcall
      · exact ⟨_, List.mem_cons_self, hf⟩
      · obtain ⟨sv, hsv, hf'⟩ := ih.2 call hcall
        exact ⟨sv, List.mem_cons_of_mem _ hsv, hf'⟩

/-- A vote is handed over if and only if the same vote is among the drained ones. -/
theorem exists_forwards_iff {s₂ : State F} {votes : List SignedVote} {calls : List (Call F)}
    (hu : Unsent CoreInput.IsVote s s₂) (hcalls : s'.calls = s₂.calls ++ calls)
    (hall : List.Forall₂ Forwards votes calls) (sv : SignedVote) :
    (∃ call ∈ s'.callsSince s, Forwards sv call) ↔ ∃ sv' ∈ votes, sv'.vote = sv.vote := by
  obtain ⟨before, hbefore, hunsent⟩ := hu
  obtain ⟨hleft, hright⟩ := forwards_of_forall₂ hall
  have hsince : s'.callsSince s = before ++ calls := by
    rw [State.callsSince, hcalls, hbefore, List.append_assoc, List.drop_left]
  rw [hsince]
  constructor
  · rintro ⟨call, hmem, ⟨d, he⟩, -⟩
    rcases List.mem_append.1 hmem with hmem | hmem
    · exact absurd trivial (hunsent call hmem _ d he)
    · obtain ⟨sv', hsv', ⟨d', he'⟩, -⟩ := hright call hmem
      obtain ⟨hm, -⟩ := Event.bft.inj (he'.symm.trans he)
      exact ⟨sv', hsv', Vote.toBftVote_injective (CoreInput.vote.inj hm)⟩
  · rintro ⟨sv', hsv', hvote⟩
    obtain ⟨call, hmem, hf⟩ := hleft sv' hsv'
    refine ⟨call, List.mem_append_right _ hmem, ?_⟩
    unfold Forwards at hf ⊢
    rwa [hvote] at hf

/-- **When early votes are not lost.**  If nothing fails, all votes cached for the height that a
status opens, from outside or as the answer to a commit, by authorities of that height, are handed
over and stored if and only if there are none, or no proposal is cached for the height and each of
the votes occurs before the first one of a stranger. -/
theorem early_votes_drained_iff [Content F] {address : Address} {disk : Disk} {is : List Input}
    {i : Input} {p p' : Process F} {needWal : Bool} (hl : Life E address disk is p)
    (hE : Undisrupted E) (hs : HandlesAt E p i rs needWal s)
    (haccept : p.state.eng.height ≤ rs.height) (hn : next E i p = some p') :
    VotesDrained p p' rs ↔
      (∀ sv ∈ cachedVotes p.state.eng (rs.height + 1), ¬ isAuthority rs sv) ∨
      (cachedProposals p.state.eng (rs.height + 1)).isEmpty ∧
        ∀ sv ∈ cachedVotes p.state.eng (rs.height + 1), isAuthority rs sv →
          ∃ sv' ∈ (cachedVotes p.state.eng (rs.height + 1)).takeWhile (isAuthority rs),
            sv'.vote = sv.vote := by
  obtain ⟨s₂, calls, hu, hcalls, hall⟩ := next_drains hl hE hs haccept hn
  unfold VotesDrained
  simp only [exists_forwards_iff hu hcalls hall, drainedVotes]
  by_cases hnil : (cachedProposals p.state.eng (rs.height + 1)).isEmpty = true
  · simp only [hnil, if_true, true_and]
    refine ⟨Or.inr, ?_⟩
    intro h
    rcases h with h | h
    · exact fun sv hsv ha => absurd ha (h sv hsv)
    · exact h
  · simp [hnil]

/-- A prevote of `voter` for height `2`. -/
def earlyVote (voter : Address) : SignedVote := Reference.signedVote .prevote 2 0 [5] voter

/-- It is received. -/
def earlyInput (voter : Address) : Input :=
  .external (.signedVote (Reference.voteBytes .prevote 2 0 [5] voter))

/-- The prevotes of `voters` for height `2` are received at height `1`. -/
def earlyRun (voters : List Address) : List Input := Reference.readyRun [7] ++ voters.map earlyInput

theorem undisrupted_reference (address : Address) : Undisrupted (Reference.env address) :=
  ⟨rfl, fun _ => rfl, fun _ => rfl⟩

/-- The vote of the only authority is handed over, whether the status of height `1` comes from
outside or answers a commit. -/
theorem early_votes_drained_iff_run :
    (∃ p p', Life (Reference.env [7]) [7] Reference.disk (earlyRun [[7]]) p ∧
      next (Reference.env [7]) (.external (.status secondStatus)) p = some p' ∧
      cachedVotes p.state.eng 2 = [earlyVote [7]] ∧ VotesDrained p p' secondStatus) ∧
    ∃ p p', Life (Reference.env [7]) [7] Reference.disk
        (Reference.precommitRun ++ [earlyInput [7]]) p ∧
      next (Reference.env [7]) (.core (.commit Reference.firstCommit)) p = some p' ∧
      cachedVotes p.state.eng 2 = [earlyVote [7]] ∧ VotesDrained p p' secondStatus := by
  have hgoes : ∀ p : Process Block, cachedVotes p.state.eng 2 = [earlyVote [7]] →
      (cachedProposals p.state.eng 2).isEmpty = true →
      (cachedProposals p.state.eng 2).isEmpty = true ∧ ∀ sv ∈ cachedVotes p.state.eng 2,
        isAuthority secondStatus sv → ∃ sv' ∈ (cachedVotes p.state.eng 2).takeWhile
          (isAuthority secondStatus), sv'.vote = sv.vote := by
    intro p hvotes hproposals
    rw [hvotes]
    refine ⟨hproposals, fun sv hsv _ => ⟨sv, ?_, rfl⟩⟩
    obtain rfl := List.mem_singleton.1 hsv
    decide
  constructor
  · obtain ⟨p, p', hl, -, hn, hf, -⟩ := Reference.exists_turn (Reference.env [7]) [7]
      (earlyRun [[7]]) (.external (.status secondStatus))
      (fun p => p.state.eng.height = 1 ∧ cachedVotes p.state.eng 2 = [earlyVote [7]] ∧
        (cachedProposals p.state.eng 2).isEmpty) (fun _ => true) (by decide +kernel)
      (by decide +kernel)
    obtain ⟨hheight, hvotes, hproposals⟩ := of_decide_eq_true hf
    exact ⟨p, p', hl, hn, hvotes, (early_votes_drained_iff hl (undisrupted_reference [7])
      (.external secondStatus) (by rw [hheight]; decide) hn).2
        (.inr (hgoes p hvotes hproposals))⟩
  · obtain ⟨p, p', hl, -, hn, hf, -⟩ := Reference.exists_turn (Reference.env [7]) [7]
      (Reference.precommitRun ++ [earlyInput [7]]) (.core (.commit Reference.firstCommit))
      (fun p => p.state.eng.height = 1 ∧ cachedVotes p.state.eng 2 = [earlyVote [7]] ∧
        (cachedProposals p.state.eng 2).isEmpty ∧
        (Exec.result (handleCommit (Reference.env [7]) Reference.firstCommit true) p.state).1.isOk)
      (fun _ => true) (by decide +kernel) (by decide +kernel)
    obtain ⟨hheight, hvotes, hproposals, hok⟩ := of_decide_eq_true hf
    obtain ⟨commit, s, hr⟩ := Exec.exists_of_isOk hok
    obtain ⟨-, -, -, -, hcommit, -⟩ := (handleCommit_leaves Reference.firstCommit true _).ok hr
    have hanswer : (Reference.env [7]).support.commit s.calls.length commit =
        .ok secondStatus := by
      change Except.ok (Status.mk commit.height none [Node.new [7]]) = _
      rw [hcommit]
      rfl
    exact ⟨p, p', hl, hn, hvotes, (early_votes_drained_iff hl (undisrupted_reference [7])
      (.committed hr hanswer) (by rw [hheight]; decide) hn).2
        (.inr (hgoes p hvotes hproposals))⟩

/-- Whether a call hands a vote over. -/
def Call.isVote (call : Call F) : Bool :=
  match call.event with
  | .bft (.vote _) _ => true
  | _ => false

/-- Behind the vote of a stranger it is lost. -/
theorem early_vote_lost : ∃ p p',
    Life (Reference.env [7]) [7] Reference.disk (earlyRun [[9], [7]]) p ∧
    p.state.eng.height = 1 ∧
    next (Reference.env [7]) (.external (.status secondStatus)) p = some p' ∧
    p'.state.eng.height = 2 ∧ earlyVote [7] ∈ cachedVotes p.state.eng 2 ∧
    ¬ VotesDrained p p' secondStatus := by
  obtain ⟨p, p', hl, -, hn, hf, hg⟩ := Reference.exists_turn (Reference.env [7]) [7]
    (earlyRun [[9], [7]]) (.external (.status secondStatus))
    (fun p => p.state.eng.height = 1 ∧ earlyVote [7] ∈ cachedVotes p.state.eng 2)
    (fun p' => p'.state.eng.height = 2 ∧ p'.state.calls.any Call.isVote = false)
    (by decide +kernel) (by decide +kernel)
  obtain ⟨hheight, hmem⟩ := of_decide_eq_true hf
  obtain ⟨hheight', hcalls⟩ := of_decide_eq_true hg
  refine ⟨p, p', hl, hheight, hn, hheight', hmem, ?_⟩
  intro hdrained
  obtain ⟨call, hcall, ⟨d, he⟩, -⟩ := hdrained (earlyVote [7]) hmem (by decide)
  have hsent : call.isVote = true := by
    unfold Call.isVote
    rw [he]
  exact List.any_eq_false.1 hcalls call (List.mem_of_mem_drop hcall) hsent

end ConsensusBft

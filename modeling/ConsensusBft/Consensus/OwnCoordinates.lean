import ConsensusBft.Consensus.EarlyVotes
import ConsensusBft.Consensus.RejectedProposals
import ConsensusBft.Consensus.StatusTurn

/-!
# The coordinates under which votes are stored

A vote from outside and a vote of the own BFT core are stored under their own height, round and
type; a lock vote is stored under the height and the lock round of its proposal, as a prevote.

* `OwnCoordinates eng` : every stored vote is stored under its own coordinates.
* `HandledAt E p i sp s` : the turn `i` at `p` hands the proposal `sp` to `handle_signed_proposal`,
  in the state `s`; a turn hands over one proposal at most that passes.
* `FilesOwn E s sp` : the lock votes that are stored while `sp` is handled are prevotes of its
  height and lock round.
* `own_coordinates_iff` : **the stored votes of a run are stored under their own coordinates if and
  only if those of every proposal that is handled are.**
-/

namespace ConsensusBft

open Exec (Steps)

variable {F : Type} {E : Env F} {s s' s'' : State F} {sp : SignedProposal} {bytes : Bytes}

/-! ### Coordinates -/

/-- The vote is a vote of this height, round and type. -/
structure SignedVote.At (sv : SignedVote) (h r : UInt64) (t : VoteType) : Prop where
  height : sv.vote.height = h
  round : sv.vote.round = r
  voteType : sv.vote.voteType = t

/-- Every stored vote is stored under its own height, round and type. -/
def OwnCoordinates (eng : Consensus F) : Prop :=
  ∀ h r t v sv, eng.votes.stored h r t v = some sv → sv.At h r t

/-- Every stored vote is stored under what the BFT core sees of it. -/
def StoredAsSeen (eng : Consensus F) : Prop :=
  ∀ h r t v sv, eng.votes.stored h r t v = some sv → v = sv.vote.toBftVote

/-- Whatever is stored in addition is stored under its own coordinates. -/
def StoresOwn (s s' : State F) : Prop :=
  ∀ h r t v sv, s'.eng.votes.stored h r t v = some sv →
    s.eng.votes.stored h r t v = some sv ∨ sv.At h r t

theorem StoresOwn.of_votes_eq (h : s'.eng.votes = s.eng.votes) : StoresOwn s s' := by
  intro h' r t v sv hst
  rw [h] at hst
  exact .inl hst

theorem StoresOwn.trans (h : StoresOwn s s') (h' : StoresOwn s' s'') : StoresOwn s s'' := by
  intro h₀ r t v sv hst
  rcases h' h₀ r t v sv hst with hst | hown
  · exact h h₀ r t v sv hst
  · exact .inr hown

theorem StoresOwn.of_reach (h : Relation.ReflTransGen StoresOwn s s') : StoresOwn s s' := by
  induction h with
  | refl => exact .of_votes_eq rfl
  | tail _ hstep ih => exact ih.trans hstep

theorem StoresOwn.own (h : StoresOwn s s') (hs : OwnCoordinates s.eng) :
    OwnCoordinates s'.eng := by
  intro h₀ r t v sv hst
  exact (h h₀ r t v sv hst).elim (hs h₀ r t v sv) id

/-- Two votes that look the same to the BFT core have the same coordinates. -/
theorem SignedVote.At.of_seen {sv sv' : SignedVote} {h r : UInt64} {t : VoteType}
    (hat : sv'.At h r t) (hseen : sv.vote.toBftVote = sv'.vote.toBftVote) : sv.At h r t := by
  have hvote := Vote.toBftVote_injective hseen
  exact ⟨hvote ▸ hat.height, hvote ▸ hat.round, hvote ▸ hat.voteType⟩

/-! ### Turns without proposals -/

/-- A vote that enters the collector other than as a lock vote enters it under its own
coordinates. -/
theorem Filed.at {K : Supply F} {eng : Consensus F} {h r : UInt64} {t : VoteType} {v : BftVote}
    {sv : SignedVote} (hf : Filed E K eng h r t v sv) (hK : ∀ sp, ¬ K.proposal sp) :
    sv.At h r t := by
  cases hf with
  | network _ _ _ => exact ⟨rfl, rfl, rfl⟩
  | lock received _ _ _ _ => exact absurd received (hK _)
  | own _ _ => exact ⟨rfl, rfl, rfl⟩

/-- However a vote enters the collector, it is stored under what the BFT core sees of it. -/
theorem Filed.seen {K : Supply F} {eng : Consensus F} {h r : UInt64} {t : VoteType} {v : BftVote}
    {sv : SignedVote} (hf : Filed E K eng h r t v sv) : v = sv.vote.toBftVote := by
  cases hf with
  | own _ _ => exact (toBftVote_fromBftVote v).symm
  | _ => rfl

section

variable [Content F] {i : Input} {p p' : Process F}

/-- An update that files no lock vote stores votes under their own coordinates. -/
theorem Update.storesOwn {K : Supply F} (h : Update E K s s') (hK : ∀ sp, ¬ K.proposal sp) :
    StoresOwn s s' := by
  cases h with
  | addVote height round voteType v sv filed =>
    intro h₀ r t v' sv' hst
    rcases VoteCollector.stored_add_cases hst with hst | ⟨rfl, rfl, rfl, rfl, rfl⟩
    · exact .inl hst
    · exact .inr (filed.at hK)
  | readVotes height round voteType consulted =>
    intro h₀ r t v' sv' hst
    rw [VoteCollector.stored_getVoteSet] at hst
    exact .inl hst
  | _ => exact .of_votes_eq rfl

theorem storesOwn_of_updates {K : Supply F} (hK : ∀ sp, ¬ K.proposal sp)
    (h : Updates E K s s') : StoresOwn s s' :=
  .of_reach (Relation.ReflTransGen.mono (fun _ _ hu => Update.storesOwn hu hK) _ _ h)

/-- A source without proposals. -/
def proposalless (F : Type) : Source F := { Source.all F with proposal := fun _ => False }

/-- Moves without proposals store votes under their own coordinates. -/
theorem Moves.storesOwn (h : Moves E (proposalless F) s s') : StoresOwn s s' :=
  storesOwn_of_updates (K := (proposalless F).toSupply) (fun _ => id) h.advances.updates

end

/-! ### Proposals -/

/-- The lock votes of the proposal are tested: its signature is that of its proposer, its height
passes, it is logged if it is to be, and its proposer is the one whose turn it is. -/
structure LockVotesTested (E : Env F) (s : State F) (sp : SignedProposal) : Prop where
  genuine : sp.Genuine E
  height : LockHeight E s.eng.height sp.proposal.height
  logged : E.walOn = true → ∃ msg, E.serde.signedProposal.toString sp = some msg ∧
    Logs E s sp.proposal.height msg
  proposer : ProposerPasses E s.eng.authority sp.proposal

/-- The lock votes that are stored while the proposal is handled are prevotes of its height and lock
round. -/
def FilesOwn (E : Env F) (s : State F) (sp : SignedProposal) : Prop :=
  LockVotesTested E s sp → ∀ round sv, sp.proposal.lockRound = some round →
    LockVoteStored E s.eng sp sv → sv.At sp.proposal.height round .prevote

theorem sendProposal_eng (s : State F) (p : BftProposal) (resp : Option VerifyResp) :
    (Exec.result (sendProposal E p resp) s).2.eng = s.eng := by
  have hsteps : Steps (fun s s' : State F => s'.eng = s.eng) (sendProposal E p resp)
      (fun _ _ => True) s := by
    unfold sendProposal
    refine .bind ((sendBft_records rfl).mono fun _ _ _ _ => trivial) fun _ s₁ _ _ => ?_
    cases resp with
    | none => exact .pure trivial
    | some r => exact (sendBft_records rfl).mono fun _ _ _ _ => trivial
  exact Exec.invariant_of_moves (I := fun s' : State F => s'.eng = s.eng)
    (fun _ _ h h' => h.trans h') hsteps.reach rfl

/-- **What handling a proposal does to the votes**: it stores lock votes if they are tested, and
nothing otherwise. -/
theorem forwardProposal_votes (s : State F) (sp : SignedProposal) (bytes : Bytes) :
    (LockVotesTested E s sp → LockVotesAdded E s.eng sp
      (Exec.result (forwardProposal E sp bytes) s).2.eng.votes) ∧
    (¬ LockVotesTested E s sp →
      (Exec.result (forwardProposal E sp bytes) s).2.eng.votes = s.eng.votes) := by
  obtain ⟨hpass, hfail⟩ := forwardProposal_result (E := E) s sp bytes E.walOn
  by_cases hg : sp.Genuine E ∧ LockHeight E s.eng.height sp.proposal.height
  swap
  · obtain ⟨e, he⟩ := hfail hg
    refine ⟨fun h => absurd ⟨h.genuine, h.height⟩ hg, fun _ => ?_⟩
    exact congrArg (fun r => r.2.eng.votes) he
  rcases logIf_result (E := E) s (E.walOn = true) sp.proposal.height LOG_TYPE_SIGNED_PROPOSAL
    "SignedProposal" (E.serde.signedProposal.toString sp) with
    ⟨hlogged, w, hlog⟩ | ⟨hnot, e, w, hlog⟩
  swap
  · refine ⟨fun h => absurd h.logged hnot, fun _ => ?_⟩
    exact congrArg (fun r => r.2.eng.votes) ((hpass hg).trans (Exec.result_bind_error hlog))
  have hsettle := (hpass hg).trans (Exec.result_bind_ok hlog)
  rcases settleProposal_cases (E := E) (s.setWal w) sp (s.eng.height - 1) bytes with
    ⟨hp, e, hres⟩ | ⟨hp, votes, hadded, hrest⟩
  · refine ⟨fun h => absurd h.proposer hp, fun _ => ?_⟩
    exact congrArg (fun r => r.2.eng.votes) (hsettle.trans hres)
  · refine ⟨fun _ => ?_, fun h => absurd ⟨hg.1, hg.2, hlogged, hp⟩ h⟩
    have hvotes : (Exec.result (forwardProposal E sp bytes) s).2.eng.votes = votes := by
      rcases hrest with ⟨-, e, hres⟩ | ⟨-, hres⟩
      · exact congrArg (fun r => r.2.eng.votes) (hsettle.trans hres)
      · refine (congrArg (fun r => r.2.eng.votes) (hsettle.trans hres)).trans ?_
        have hanswer := answerProposal_silent (E := E) ((s.setWal w).filed sp votes) sp bytes hg.2
        cases hans : Exec.result (answerProposal E sp (s.eng.height - 1) bytes)
          ((s.setWal w).filed sp votes) with
        | mk r s₂ =>
          cases r with
          | error e =>
            rw [Exec.result_bind_error hans]
            exact (hanswer.error hans).1.votes
          | ok x =>
            rw [Exec.result_bind_ok hans, sendProposal_eng]
            exact (hanswer.ok hans).1.votes
    rw [hvotes]
    exact ⟨hadded.unlocked, hadded.locked⟩

/-- For each of the lock votes that are added, a vote is stored. -/
theorem LockVotesAdded.stored {eng : Consensus F} {votes : VoteCollector} {round : UInt64}
    {sv : SignedVote} (h : LockVotesAdded E eng sp votes)
    (hround : sp.proposal.lockRound = some round) (hsv : LockVoteStored E eng sp sv) :
    ∃ sv', votes.stored sp.proposal.height round .prevote sv.vote.toBftVote = some sv' := by
  obtain ⟨added, rfl, hmem⟩ := h.locked round hround
  obtain ⟨sv', hk⟩ := VoteCollector.latest_addAll ((hmem sv).2 hsv)
  exact ⟨sv', hk.stored⟩

/-- Handling a proposal stores votes under their own coordinates, if its lock votes are. -/
theorem forwardProposal_storesOwn (hown : FilesOwn E s sp) :
    StoresOwn s (Exec.result (forwardProposal E sp bytes) s).2 := by
  obtain ⟨htested, huntested⟩ := forwardProposal_votes (E := E) s sp bytes
  by_cases ht : LockVotesTested E s sp
  swap
  · exact .of_votes_eq (huntested ht)
  have hadded := htested ht
  cases hround : sp.proposal.lockRound with
  | none => exact .of_votes_eq (hadded.unlocked hround)
  | some round =>
    obtain ⟨added, hvotes, hmem⟩ := hadded.locked round hround
    intro h r t v sv hst
    rw [hvotes] at hst
    rcases VoteCollector.stored_addAll_cases hst with hst | ⟨rfl, rfl, rfl, hsv⟩
    · exact .inl hst
    · exact .inr (hown ht _ sv hround ((hmem sv).1 hsv))

/-! ### Turns -/

section

variable [Content F] {rs : Status} {st : BftStatus} {i : Input} {p p' : Process F}

/-- What follows a status before the cached messages are taken. -/
def announceStatus (E : Env F) (rs : Status) (st : BftStatus) : EngineM F PUnit := do
  switchPower E rs
  sendBft E (.status st) "BftStatus"

omit [Content F] in
theorem afterStatus_eq (rs : Status) (st : BftStatus) :
    afterStatus E rs st = announceStatus E rs st >>= fun _ => (do
      let s ← get
      sendCacheProposal E s.eng.height
      let s ← get
      sendCacheVote E s.eng.height) := by
  unfold afterStatus announceStatus
  rw [bind_assoc]

/-- While the status `rs` is processed in the state `s₀`, the first proposal that is cached for its
height is handed to `handle_signed_proposal`, in the state `s`. -/
def DrainedAt (E : Env F) (rs : Status) (s₀ : State F) (sp : SignedProposal) (s : State F) : Prop :=
  ∃ st s₁ s₂ e proposals,
    Exec.result (handleRichStatus E rs true) s₀ = (.ok st, s₁) ∧
    Exec.result (announceStatus E rs st) s₁ = (.ok ⟨⟩, s₂) ∧
    s₂.eng.proposalCache.lookup s₂.eng.height = some (e :: proposals) ∧ e.1 = sp ∧
    s = { s₂ with eng.proposalCache := s₂.eng.proposalCache.erase s₂.eng.height }

/-- The turn hands the proposal to `handle_signed_proposal`, in the state `s`. -/
inductive HandledAt (E : Env F) (p : Process F) : Input → SignedProposal → State F → Prop
  /-- It comes from outside and is not cached for a later height. -/
  | live {bytes : Bytes} {sp : SignedProposal} {block : F} {hash : Hash}
      (decoded : decodeProposal E bytes = .ok (sp, block, hash))
      (outside : inWindow sp.proposal.height p.state.eng.height = false) :
      HandledAt E p (.external (.signedProposal bytes)) sp
        { p.state with eng := p.state.eng.withBlock hash block }
  /-- It is read from the log. -/
  | logged {msg : Bytes} {records : List (UInt8 × Bytes)} {sp : SignedProposal} {block : F}
      {hash : Hash} {s : State F} (head : p.pending = (LOG_TYPE_SIGNED_PROPOSAL, msg) :: records)
      (decoded : decodeLogged E msg = .ok (sp, block, hash))
      (cached : s = { p.state with eng := { p.state.eng.withBlock hash block with
        proposalCache := if inWindow sp.proposal.height p.state.eng.height then
          p.state.eng.proposalCache.pushEntry sp.proposal.height (sp, block, msg)
          else p.state.eng.proposalCache } }) :
      HandledAt E p .replay sp s
  /-- It was cached for the height that the turn enters. -/
  | cached {i : Input} {rs : Status} {sp : SignedProposal} {s₀ s : State F}
      (status : HandlesAt E p i rs true s₀) (drained : DrainedAt E rs s₀ sp s) :
      HandledAt E p i sp s

/-- The announcement of a status stores no vote. -/
theorem announceStatus_moves (rs : Status) (st : BftStatus) :
    Steps (Move E (proposalless F)) (announceStatus E rs st) (fun _ _ => True) s :=
  .bind (switchPower_moves rs) fun _ _ _ _ => Steps.still (sendBft_moves ⟨rfl, trivial⟩ trivial)

omit [Content F] in
/-- A status that was announced has entered its height. -/
theorem announceStatus_enters {s₁ s₂ : State F}
    (hr : Exec.result (handleRichStatus E rs true) s = (.ok st, s₁))
    (ha : Exec.result (announceStatus E rs st) s₁ = (.ok ⟨⟩, s₂)) : Entered s rs s₂ := by
  have he := (handleRichStatus_enters rs true).ok hr
  have hsteps : Steps (Unsent CoreInput.IsProposal) (announceStatus E rs st)
      (fun _ s' => Entered s rs s') s₁ :=
    .bind (switchPower_enters id id he) fun _ _ _ h => sendStatus_enters _ id h
  exact hsteps.ok ha

/-- **A status without cached proposals** stores votes under their own coordinates. -/
theorem processStatus_storesOwn (hnone : ∀ sp s₁, ¬ DrainedAt E rs s sp s₁)
    (h : Exec.survive (processStatus E rs) s = some s') : StoresOwn s s' := by
  have hstatus := handleRichStatus_moves (E := E) (K := (proposalless F).toSupply) (s := s) rs true
  have entered : ∀ {r s₁}, Exec.result (handleRichStatus E rs true) s = (r, s₁) →
      StoresOwn s s₁ := fun hr =>
    storesOwn_of_updates (K := (proposalless F).toSupply) (fun _ => id) (hstatus.reached hr)
  rw [processStatus_eq] at h
  obtain ⟨e, hr⟩ | ⟨st, s₁, hr, h⟩ := Exec.survive_bind h
  · exact entered hr
  refine (entered hr).trans ?_
  have hannounce := announceStatus_moves (E := E) (s := s₁) rs st
  rw [afterStatus_eq] at h
  obtain ⟨e, ha⟩ | ⟨_, s₂, ha, h⟩ := Exec.survive_bind h
  · exact Moves.storesOwn (hannounce.reached ha)
  refine (Moves.storesOwn (hannounce.reached ha)).trans (Moves.storesOwn (E := E) ?_)
  -- no proposal is drained
  refine Exec.Steps.survive (.bind_get (.bind (sendCacheProposal_moves fun l e hl he => ?_)
    fun _ s₃ _ _ => .bind_get (sendCacheVote_moves fun _ _ _ _ => trivial))) h
  cases l with
  | nil => exact absurd he List.not_mem_nil
  | cons e' proposals =>
    exact hnone e'.1 _ ⟨st, s₁, s₂, e', proposals, hr, ha, hl, rfl, rfl⟩

omit [Content F] in
/-- A proposal that was cached and is drained ends the turn. -/
theorem state_of_drainedAt {s₀ : State F} (hc : Cached E (Supply.all F) s₀.eng)
    (hd : DrainedAt E rs s₀ sp s) (h : Exec.survive (processStatus E rs) s₀ = some s') :
    ∃ bytes, s' = (Exec.result (forwardProposal E sp bytes) s).2 := by
  obtain ⟨st, s₁, s₂, e, proposals, hr, ha, hl, rfl, rfl⟩ := hd
  have he := announceStatus_enters hr ha
  refine ⟨e.2.2, ?_⟩
  obtain ⟨s₃, hs₃⟩ : ∃ s₃, s₃ = ({ s₂ with
      eng.proposalCache := s₂.eng.proposalCache.erase s₂.eng.height } : State F) := ⟨_, rfl⟩
  -- the proposal is rejected, since its block is not known
  have hrejected : ∃ err, (Exec.result (forwardProposal E e.1 e.2.2) s₃).1 = .error err := by
    have hheight : e.1.proposal.height = s₂.eng.height :=
      (hc.proposal _ _ e (he.proposalCache ▸ hl) List.mem_cons_self).2
    have hunknown := @handleSignedProposal_unknown F E s₃ e.1
      (by rw [hs₃]; exact hheight) (by rw [hs₃]; exact he.blocks) (by rw [hs₃]; exact he.verdicts)
      true e.2.2
    cases hres : Exec.result (handleSignedProposal E e.1 true e.2.2) s₃ with
    | mk r s₄ =>
      cases r with
      | ok x => exact (hunknown.ok hres).elim
      | error err => exact ⟨err, congrArg Prod.fst (Exec.result_bind_error hres)⟩
  obtain ⟨err, herr⟩ := hrejected
  have hforward : Exec.result (forwardProposal E e.1 e.2.2) s₃ =
      (.error err, (Exec.result (forwardProposal E e.1 e.2.2) s₃).2) := Prod.ext herr rfl
  have hdrain : Exec.result (sendCacheProposal E s₂.eng.height) s₂ =
      (.error err, (Exec.result (forwardProposal E e.1 e.2.2) s₃).2) := by
    unfold sendCacheProposal
    rw [Exec.result_bind_get, hl, Exec.result_bind_modify, ← hs₃]
    exact Exec.result_bind_error hforward
  obtain ⟨r, hres, -⟩ := Exec.survive_eq_some.1 h
  rw [processStatus_eq, Exec.result_bind_ok hr, afterStatus_eq, Exec.result_bind_ok ha,
    Exec.result_bind_get, Exec.result_bind_error hdrain] at hres
  rw [← hs₃, ← (Prod.mk.inj hres).2]

/-- What happens before a proposal is handled stores votes under their own coordinates. -/
theorem HandledAt.storesOwn (h : HandledAt E p i sp s) : StoresOwn p.state s := by
  cases h with
  | live decoded outside => exact .of_votes_eq rfl
  | logged head decoded cached =>
    subst cached
    exact .of_votes_eq rfl
  | @cached _ rs _ s₀ _ status drained =>
    have hstatus : StoresOwn p.state s₀ := by
      cases status with
      | external => exact .of_votes_eq rfl
      | @committed c commit s₁ rs handled answer =>
        have hcommit := handleCommit_moves (E := E) (S := proposalless F) (s := p.state) (c := c)
          trivial true
        exact (Moves.storesOwn (Stills.moves (hcommit.reached handled))).trans (.of_votes_eq rfl)
    obtain ⟨st, s₁, s₂, e, proposals, hr, ha, -, -, rfl⟩ := drained
    have hrich := handleRichStatus_moves (E := E) (K := (proposalless F).toSupply) (s := s₀) rs true
    have hown₁ : StoresOwn s₀ s₁ :=
      storesOwn_of_updates (K := (proposalless F).toSupply) (fun _ => id) (hrich.reached hr)
    have hown₂ := Moves.storesOwn ((announceStatus_moves (E := E) (s := s₁) rs st).reached ha)
    exact ((hstatus.trans hown₁).trans hown₂).trans (.of_votes_eq rfl)

/-- **A turn that handles a proposal ends with it.** -/
theorem HandledAt.state_eq (h : HandledAt E p i sp s) (hc : Cached E (Supply.all F) p.state.eng)
    (hn : next E i p = some p') :
    ∃ bytes, p'.state = (Exec.result (forwardProposal E sp bytes) s).2 := by
  -- a proposal that is handed over at once
  have forwarded : ∀ {m : EngineM F PUnit} {s₀ : State F} {bytes : Bytes},
      Exec.survive m s₀ = some p'.state →
      Exec.result m s₀ = Exec.result (forwardProposal E sp bytes) s →
      ∃ bytes, p'.state = (Exec.result (forwardProposal E sp bytes) s).2 := by
    intro m s₀ bytes hs hm
    obtain ⟨r, hr, -⟩ := Exec.survive_eq_some.1 hs
    exact ⟨bytes, (congrArg Prod.snd (hm.symm.trans hr)).symm⟩
  cases h with
  | @live bytes sp block hash decoded outside =>
    obtain ⟨s', -, hs, rfl⟩ := live_of_next (by simp) hn
    refine @forwarded _ _ bytes hs ?_
    refine (Exec.result_bind_lift decoded _ _).trans ?_
    change Exec.result (receiveProposal E sp block bytes) _ = _
    unfold receiveProposal
    rw [Exec.result_bind_get, if_neg (by rw [← Bool.not_eq_true] at outside; exact outside)]
    rfl
  | @logged msg records sp block hash s head decoded cached =>
    obtain ⟨record, records', hp, -, hs⟩ := pending_of_replayNext hn
    obtain rfl := (List.cons.inj (head.symm.trans hp)).1
    refine @forwarded _ _ msg hs ?_
    refine (Exec.result_bind_lift decoded _ _).trans ?_
    change Exec.result (replayProposal E sp block msg) _ = _
    unfold replayProposal Exec.doIf
    rw [Exec.result_bind_get, cached]
    by_cases hw : inWindow sp.proposal.height p.state.eng.height = true
    · rw [if_pos hw]
      simp only [Consensus.withBlock, hw, if_true]
      rfl
    · rw [if_neg hw]
      simp only [Consensus.withBlock, hw]
      rfl
  | @cached _ rs _ s₀ _ status drained =>
    have hc₀ : Cached E (Supply.all F) s₀.eng :=
      Advances.cached status.moves.advances ⟨hc.proposal, hc.vote⟩
    exact state_of_drainedAt hc₀ drained (survive_of_handlesAt hn status)

omit [Content F] in
/-- A proposal of the window stores no vote. -/
theorem receiveProposal_window_storesOwn {block : F}
    (hw : inWindow sp.proposal.height s.eng.height = true)
    (h : Exec.survive (receiveProposal E sp block bytes) s = some s') : StoresOwn s s' := by
  refine .of_reach (Exec.Steps.survive (Q := fun _ _ => True) ?_ h)
  unfold receiveProposal
  refine .bind_get (.ite (fun _ => ?_) fun hnot => absurd hw hnot)
  refine .bind (P := fun _ _ => True) (.doIf (fun _ => .bind_rejectIf fun _ => ?_) fun _ => trivial)
    fun _ _ _ _ => .modify (.of_votes_eq rfl) trivial
  exact .bind (walSave_moves _ _ _ (.of_votes_eq rfl)) fun _ _ _ _ =>
    Steps.bind_orErr fun _ _ => .pure trivial

/-- A commit whose status drains no proposal stores no vote elsewhere. -/
theorem coreProcess_commit_storesOwn {c : BftCommit} (hn : next E (.core (.commit c)) p = some p')
    (hnone : ∀ sp s, ¬ HandledAt E p (.core (.commit c)) sp s) : StoresOwn p.state p'.state := by
  obtain ⟨s, -, hs, rfl⟩ := live_of_next (by simp) hn
  have hcommit := handleCommit_moves (E := E) (S := proposalless F) (s := p.state) (c := c)
    trivial true
  rcases coreProcess_commit_cases hs with ⟨e, hr⟩ | ⟨commit, s₁, hr, hanswer⟩
  · exact Moves.storesOwn (Stills.moves (hcommit.reached hr))
  refine (Moves.storesOwn (Stills.moves (hcommit.reached hr))).trans ?_
  rcases hanswer with ⟨e, -, rfl⟩ | ⟨rs, answer, hs⟩
  · exact .of_votes_eq rfl
  · exact processStatus_storesOwn (s := s₁.record (.commit commit (.ok rs)))
      (fun sp s₃ hd => hnone sp s₃ (.cached (.committed hr answer) hd)) hs

/-- **A turn that handles no proposal** stores votes under their own coordinates. -/
theorem storesOwn_of_not_handled (hn : next E i p = some p')
    (hnone : ∀ sp s, ¬ HandledAt E p i sp s) : StoresOwn p.state p'.state := by
  -- a turn that brings no proposal
  have quiet : KeepsHeight i → (∀ sp block hash, ¬ BringsProposal E p i sp block hash) →
      StoresOwn p.state p'.state := by
    intro hkeeps hbrings
    have hsourced : Sourced E (proposalless F) p i :=
      ⟨⟨fun _ _ => trivial, fun sp block hash hb => hbrings sp block hash hb,
        fun _ _ _ _ _ => trivial, fun _ _ => trivial⟩, fun _ _ => trivial, fun _ _ => trivial⟩
    obtain ⟨s, -, hl, rfl⟩ := live_of_next (by rintro rfl; exact hkeeps) hn
    exact Moves.storesOwn (liveNext_moves hkeeps hsourced hl)
  cases i with
  | async => exact quiet trivial fun _ _ _ => id
  | external m =>
    cases m with
    | signedVote bytes => exact quiet trivial fun _ _ _ => id
    | status rs =>
      obtain ⟨s, -, hs, rfl⟩ := live_of_next (by simp) hn
      exact processStatus_storesOwn (fun sp s₁ hd => hnone sp s₁ (.cached (.external rs) hd)) hs
    | signedProposal bytes =>
      obtain ⟨s, -, hs, rfl⟩ := live_of_next (by simp) hn
      obtain ⟨e, hd⟩ | ⟨⟨sp, block, hash⟩, s₁, hd, hs⟩ := Exec.survive_bind hs
      · obtain ⟨-, rfl⟩ := Prod.mk.inj hd
        exact .of_votes_eq rfl
      · have hdecoded : decodeProposal E bytes = .ok (sp, block, hash) := (Prod.mk.inj hd).1
        obtain rfl : p.state = s₁ := (Prod.mk.inj hd).2
        have hw : inWindow sp.proposal.height p.state.eng.height = true :=
          Bool.not_eq_false _ ▸ fun hout => hnone sp _ (.live hdecoded hout)
        have hreceive := receiveProposal_window_storesOwn (E := E)
          (s := { p.state with eng := p.state.eng.withBlock hash block }) hw hs
        exact hreceive
  | core m =>
    cases m with
    | commit c => exact coreProcess_commit_storesOwn hn hnone
    | _ => exact quiet trivial fun _ _ _ => id
  | replay =>
    obtain ⟨⟨tag, msg⟩, records, hp, -, hs⟩ := pending_of_replayNext hn
    by_cases htag : tag = LOG_TYPE_SIGNED_PROPOSAL
    · subst htag
      obtain ⟨e, hd⟩ | ⟨⟨sp, block, hash⟩, s₁, hd, -⟩ :=
        Exec.survive_bind (show Exec.survive (Exec.lift (decodeLogged E msg) >>= _) p.state = _
          from hs)
      · exact .of_votes_eq (by rw [(Prod.mk.inj hd).2])
      · exact absurd (.logged hp (Prod.mk.inj hd).1 rfl) (hnone sp _)
    · have hsourced : Sourced E (proposalless F) p .replay := by
        refine ⟨⟨fun _ _ => trivial, ?_, fun _ _ _ _ _ => trivial, fun _ _ => trivial⟩,
          fun _ _ => trivial, fun _ _ => trivial⟩
        rintro sp block hash ⟨msg', records', hp', -⟩
        exact htag (Prod.mk.inj (List.cons.inj (hp.symm.trans hp')).1).1
      have hadvances := (loadRecord_advances hp hsourced).survive hs
      exact storesOwn_of_updates (K := (proposalless F).toSupply) (fun _ => id)
        (Advances.updates hadvances)

end

/-! ### Runs -/

section

variable [Content F] {address : Address} {disk : Disk} {is : List Input} {p : Process F}

/-- Every stored vote is stored under what the BFT core sees of it. -/
theorem Life.storedAsSeen (hl : Life E address disk is p) : StoredAsSeen p.state.eng := by
  refine hl.invariant (I := fun s => StoredAsSeen s.eng) (SuppliedLife.all E address disk is)
    (fun p₀ hb => ?_) fun _ _ hu => hu.storedVotes fun _ _ _ _ _ _ => Filed.seen
  rw [(boot_state hb).1]
  exact fun _ _ _ _ _ hst => nomatch hst

/-- What the lock votes of a proposal are stored under is seen in the state after the turn. -/
theorem HandledAt.filesOwn {i : Input} {p' : Process F} (h : HandledAt E p i sp s)
    (hc : Cached E (Supply.all F) p.state.eng) (hn : next E i p = some p')
    (hseen : StoredAsSeen p'.state.eng) (hown : OwnCoordinates p'.state.eng) : FilesOwn E s sp := by
  intro htested round sv hround hsv
  obtain ⟨bytes, hstate⟩ := h.state_eq hc hn
  obtain ⟨sv', hst⟩ :=
    ((forwardProposal_votes (E := E) s sp bytes).1 htested).stored hround hsv
  rw [← hstate] at hst
  exact (hown _ _ _ _ _ hst).of_seen (hseen _ _ _ _ _ hst)

/-- **The stored votes of a run are stored under their own coordinates, in each of its states, if
and only if for every proposal that is handled the lock votes that are stored are prevotes of its
height and lock round.** -/
theorem own_coordinates_iff (hl : Life E address disk is p) :
    (EachState E address disk is fun p => OwnCoordinates p.state.eng) ↔
      EachInput E address disk is fun p i => ∀ sp s, HandledAt E p i sp s → FilesOwn E s sp := by
  constructor
  · rintro h is₁ i is₂ q rfl hq sp s hs
    obtain ⟨p₁, p₂, hl₁, hn, hl₂⟩ := hl.split
    obtain rfl := hl₁.unique hq
    obtain ⟨-, -, -, hc⟩ := hl₁.updates (SuppliedLife.all E address disk is₁)
    have hown := h (is₁ ++ [i]) is₂ p₂ (by rw [List.append_assoc]; rfl) hl₂
    exact hs.filesOwn hc hn hl₂.storedAsSeen hown
  · rintro h is₁ is₂ q rfl hq
    refine hq.induction (I := fun q => OwnCoordinates q.state.eng) (fun p₀ hb => ?_) ?_
    · rw [(boot_state hb).1]
      exact fun _ _ _ _ _ hst => nomatch hst
    rintro is₀ i is₃ p₁ p₂ rfl hl₁ hc hn hown
    by_cases hh : ∃ sp s, HandledAt E p₁ i sp s
    · obtain ⟨sp, s, hs⟩ := hh
      have hfiles := h is₀ i (is₃ ++ is₂) p₁ (by rw [List.append_assoc]; rfl) hl₁ sp s hs
      obtain ⟨bytes, hstate⟩ := hs.state_eq hc hn
      rw [hstate]
      exact (hs.storesOwn.trans (forwardProposal_storesOwn hfiles)).own hown
    · simp only [not_exists] at hh
      exact (storesOwn_of_not_handled hn hh).own hown

end

/-- A lock vote of the only authority for the lock round `2`. -/
def ownLockVote : SignedVote := Reference.signedVote .prevote 1 2 [1] [7]

/-- A vote from outside, a vote of the BFT core, and a proposal with the lock vote. -/
def ownVotes : List Input :=
  [.external (.signedVote (Reference.voteBytes .prevote 1 3 [1] [7])),
    .core (.vote ⟨.precommit, 1, 0, [1], [7]⟩),
    .external (.signedProposal (Reference.proposalBytes
      (Reference.signedProposal 1 6 [1] (some 2) [ownLockVote] [7]) [1] [1]))]

/-- All three are stored under their own coordinates. -/
theorem own_coordinates_stored : ∃ p,
    Life (Reference.env [7]) [7] Reference.disk (Reference.readyRun [7] ++ ownVotes) p ∧
      (EachState (Reference.env [7]) [7] Reference.disk (Reference.readyRun [7] ++ ownVotes)
        fun p => OwnCoordinates p.state.eng) ∧
      (p.state.eng.votes.stored 1 3 .prevote ⟨.prevote, 1, 3, [1], [7]⟩).isSome ∧
      (p.state.eng.votes.stored 1 0 .precommit ⟨.precommit, 1, 0, [1], [7]⟩).isSome ∧
      (p.state.eng.votes.stored 1 2 .prevote ownLockVote.vote.toBftVote).isSome := by
  obtain ⟨p, hl, hf⟩ := Reference.exists_life (Reference.env [7]) [7]
    (Reference.readyRun [7] ++ ownVotes)
    (fun p => (p.state.eng.votes.stored 1 3 .prevote ⟨.prevote, 1, 3, [1], [7]⟩).isSome &&
      (p.state.eng.votes.stored 1 0 .precommit ⟨.precommit, 1, 0, [1], [7]⟩).isSome &&
      (p.state.eng.votes.stored 1 2 .prevote ownLockVote.vote.toBftVote).isSome)
    (by decide +kernel)
  simp only [Bool.and_eq_true] at hf
  obtain ⟨⟨hnetwork, hown⟩, hlock⟩ := hf
  refine ⟨p, hl, (own_coordinates_iff hl).2 ?_, hnetwork, hown, hlock⟩
  rintro is₁ i is₂ q his hq sp s hs
  have hmem : i ∈ Reference.readyRun [7] ++ ownVotes := by
    rw [his]
    simp
  cases hs with
  | @live bytes sp block hash decoded outside =>
    obtain rfl : bytes = Reference.proposalBytes
        (Reference.signedProposal 1 6 [1] (some 2) [ownLockVote] [7]) [1] [1] := by
      simpa [Reference.readyRun, ownVotes] using hmem
    have hd : decodeProposal (Reference.env [7]) (Reference.proposalBytes
        (Reference.signedProposal 1 6 [1] (some 2) [ownLockVote] [7]) [1] [1]) =
        .ok (Reference.signedProposal 1 6 [1] (some 2) [ownLockVote] [7], ⟨[1]⟩, [1]) := by
      rfl
    obtain ⟨rfl, -⟩ := Prod.mk.inj (Except.ok.inj (hd.symm.trans decoded))
    -- its only lock vote is a prevote of its height and lock round
    rintro - round sv hround ⟨before, after, hvotes, -⟩
    obtain rfl := Option.some.inj hround
    have hsv : sv ∈ [ownLockVote] := by
      change [ownLockVote] = before ++ sv :: after at hvotes
      simp [hvotes]
    obtain rfl := List.mem_singleton.1 hsv
    exact ⟨rfl, rfl, rfl⟩
  | logged => simp [Reference.readyRun, ownVotes] at hmem
  | @cached _ rs _ s₀ _ status drained =>
    cases status with
    | external =>
      -- the first status finds no cached proposal
      obtain rfl : is₁ = [] := by
        cases is₁ with
        | nil => rfl
        | cons j is₁ =>
          have htail : ownVotes = is₁ ++ .external (.status rs) :: is₂ := (List.cons.inj his).2
          have hstatus : .external (.status rs) ∈ ownVotes := by simp [htail]
          simp [ownVotes] at hstatus
      obtain ⟨q₀, hb, hq₀⟩ := hq
      obtain rfl := Option.some.inj hq₀
      obtain ⟨st, s₁, s₂, e, proposals, hr, ha, hl, -, -⟩ := drained
      rw [(announceStatus_enters hr ha).proposalCache, (boot_state hb).1] at hl
      exact nomatch hl
    | committed => simp [Reference.readyRun, ownVotes] at hmem

/-- A lock vote that is a precommit of height `9` and round `5`. -/
def strayLockVote : SignedVote := Reference.signedVote .precommit 9 5 [1] [7]

/-- The only authority proposes at height `1` with it, for the lock round `2`. -/
def strayLockRun : List Input :=
  Reference.readyRun [7] ++ [.external (.signedProposal (Reference.proposalBytes
    (Reference.signedProposal 1 6 [1] (some 2) [strayLockVote] [7]) [1] [1]))]

/-- **The precommit of height `9` and round `5` is stored as a prevote of height `1` and
round `2`.** -/
theorem stray_lock_vote_stored : ∃ p,
    Life (Reference.env [7]) [7] Reference.disk strayLockRun p ∧
      p.state.eng.votes.stored 1 2 .prevote strayLockVote.vote.toBftVote = some strayLockVote ∧
      ¬ strayLockVote.At 1 2 .prevote ∧ ¬ OwnCoordinates p.state.eng := by
  obtain ⟨p, hl, hf⟩ := Reference.exists_life (Reference.env [7]) [7] strayLockRun
    (fun p => decide (p.state.eng.votes.stored 1 2 .prevote strayLockVote.vote.toBftVote =
      some strayLockVote)) (by decide +kernel)
  have hst := of_decide_eq_true hf
  have hstray : ¬ strayLockVote.At 1 2 .prevote := fun h => absurd h.height (by decide)
  exact ⟨p, hl, hst, hstray, fun hown => hstray (hown _ _ _ _ _ hst)⟩

end ConsensusBft

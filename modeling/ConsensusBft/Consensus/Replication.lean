import ConsensusBft.Consensus.Agreement
import ConsensusBft.Consensus.BlockCache

/-!
# One block for each height

The BFT cores agree on hashes, and the applications get blocks.  They get the same blocks if no
block is declared under a wrong hash.

* `attempt_advances` : a turn is a sequence of moves and statuses, wherever it stops.
* `Network.BlocksBound` : the blocks that the nodes have cached, transmitted and committed have the
  hashes that go with them; `Network.Reachable.blocksBound` : **so it is in every world that is
  reached.**
* `Network.commits_agree` : **at one height all applications are handed the same block.**
-/

namespace ConsensusBft

open Exec (Steps)

/-! ### One turn -/

section

variable {F : Type} [Content F] {E : Env F} {K : Supply F} {S : Source F} {p : Process F}
variable {i : Input} {m : EngineM F PUnit} {s : State F}

/-- **A turn is a sequence of moves and statuses, wherever it stops.** -/
theorem attempt_advances (ha : Attempt E p i m s) (hs : Sourced E S p i)
    (hc : Cached E S.toSupply p.state.eng) : Steps (Advance E S) m (fun _ _ => True) s := by
  cases ha with
  | core m _ =>
    cases m with
    | commit c =>
      exact coreProcess_commit_advances (hs.core _ rfl)
        (fun n commit rs hrs => hs.status rs ⟨n, commit, hrs⟩) hc
    | _ => exact Steps.advance (coreProcess_moves (hs.core _ rfl) nofun)
  | external m _ =>
    cases m with
    | signedProposal bytes =>
      exact Steps.advance (processSignedProposal_moves bytes fun sp block hash hd =>
        ⟨hs.proposal sp block hash hd, hs.block sp block hash hd⟩)
    | signedVote bytes =>
      exact Steps.advance (processSignedVote_moves bytes fun sv hd => hs.vote sv hd)
    | status rs => exact processStatus_advances hc (hs.status rs rfl)
  | @async m queue _ head =>
    refine Steps.advance (asyncProcess_moves ?_)
    rintro vr rfl
    exact hs.verdict vr ⟨queue, head⟩
  | replay head => exact loadRecord_advances head hs

/-- A turn keeps blocks bound to their hashes, wherever it stops. -/
theorem attempt_blockBinding (hK : ∀ hash block, K.block hash block → Content.hash block = hash)
    (ha : Attempt E p i m s) (hs : Supplied E K p i) (hc : Cached E K p.state.eng)
    (hp : BlockBinding p.state) : BlockBinding (Exec.result m s).2 := by
  obtain ⟨heng, hcalls⟩ := ha.state
  have hsteps := (attempt_advances ha hs.sourced hc).reach
  refine Updates.invariant (fun _ _ => Update.blockBinding hK) (Advances.updates hsteps) ⟨?_, ?_⟩
  · exact heng ▸ hp.cache
  · exact hcalls ▸ hp.calls

end

namespace Network

variable {ι F : Type} [DecidableEq ι] [Content F] {N : Network ι F} {w w' : World ι F} {j k : ι}

/-- Cached, committed and transmitted blocks have the hashes that go with them. -/
structure BlocksBound (w : World ι F) : Prop where
  calls : ∀ j, ∀ call ∈ w.calls j, call.event.BlockBound
  cache : ∀ j p, w.engine j = some p → ConsensusBft.BlocksBound p.state.eng

omit [DecidableEq ι] in
theorem BlocksBound.binding (hb : BlocksBound w) {p : Process F} (hp : w.engine j = some p) :
    BlockBinding p.state := by
  refine ⟨hb.cache j p hp, fun call hcall => hb.calls j call (List.mem_append_right _ ?_)⟩
  rw [hp]
  exact hcall

omit [DecidableEq ι] in
/-- What one node does keeps blocks bound, if it does so itself. -/
theorem BlocksBound.of_node (hb : BlocksBound w) (hengine : ∀ k, k ≠ j → w'.engine k = w.engine k)
    (hpast : ∀ k, k ≠ j → w'.past k = w.past k)
    (hcalls : ∀ call ∈ w'.calls j, call.event.BlockBound)
    (hcache : ∀ p, w'.engine j = some p → ConsensusBft.BlocksBound p.state.eng) :
    BlocksBound w' := by
  refine ⟨fun k => ?_, fun k p hp => ?_⟩
  · by_cases hk : k = j
    · exact hk ▸ hcalls
    · unfold World.calls
      rw [hengine k hk, hpast k hk]
      exact hb.calls k
  · by_cases hk : k = j
    · subst hk
      exact hcache p hp
    · rw [hengine k hk] at hp
      exact hb.cache k p hp

/-- **Every step keeps blocks bound.** -/
theorem BlocksBound.step
    (hdeclares : ∀ hash block, N.declares hash block → Content.hash block = hash)
    (hs : N.Sound w) (hb : BlocksBound w) (h : N.Step w w') : BlocksBound w' := by
  cases h with
  | @start j disk p idle boots =>
    obtain ⟨heng, -, hcalls⟩ := boot_state boots
    refine hb.of_node (j := j) (fun k hk => Function.update_of_ne hk _ _) (fun _ _ => rfl)
      (fun call hcall => hb.calls j call ?_) fun p' hp' => ?_
    · unfold World.calls at hcall ⊢
      dsimp only at hcall
      rw [Function.update_self, World.callsOf, hcalls, List.append_nil] at hcall
      exact List.mem_append_left _ hcall
    · dsimp only at hp'
      rw [Function.update_self] at hp'
      obtain rfl := Option.some.inj hp'
      intro hash block hlookup
      rw [heng] at hlookup
      simp [Consensus.init] at hlookup
  | @turn j p p' i runs received takes =>
    obtain ⟨m, s, attempt, hm⟩ := attempt_of_next takes
    have hbound := attempt_blockBinding hdeclares attempt received
      ((hs.cached j p runs).mono (hear_le (j := j) (p := p) (i := i) j)) (hb.binding runs)
    obtain ⟨r, hr, -⟩ := Exec.survive_eq_some.1 hm
    rw [hr] at hbound
    refine hb.of_node (j := j) (fun k hk => Function.update_of_ne hk _ _) (fun _ _ => rfl)
      (fun call hcall => ?_) fun p₁ hp₁ => ?_
    · unfold World.calls at hcall
      dsimp only [hear] at hcall
      rw [Function.update_self, World.callsOf] at hcall
      rcases List.mem_append.1 hcall with hcall | hcall
      · exact hb.calls j call (List.mem_append_left _ hcall)
      · exact hbound.calls call hcall
    · dsimp only at hp₁
      rw [Function.update_self] at hp₁
      obtain rfl := Option.some.inj hp₁
      exact hbound.cache
  | @stop j p i m s calls runs received attempt made cut =>
    have hbound := attempt_blockBinding hdeclares attempt received
      ((hs.cached j p runs).mono (hear_le (j := j) (p := p) (i := i) j)) (hb.binding runs)
    refine hb.of_node (j := j) (fun k hk => Function.update_of_ne hk _ _)
      (fun k hk => Function.update_of_ne hk _ _) (fun call hcall => ?_) fun p₁ hp₁ => ?_
    · unfold World.calls at hcall
      dsimp only [hear] at hcall
      rw [Function.update_self, Function.update_self, World.callsOf, List.append_nil] at hcall
      rcases List.mem_append.1 hcall with hcall | hcall
      · exact hb.calls j call (List.mem_append_left _ hcall)
      · exact hbound.calls call (cut.subset hcall)
    · dsimp only at hp₁
      simp at hp₁

/-- **If no block is declared under a wrong hash, then in every world that is reached the blocks
have the hashes that go with them.** -/
theorem Reachable.blocksBound
    (hdeclares : ∀ hash block, N.declares hash block → Content.hash block = hash)
    (h : N.Reachable w) : BlocksBound w := by
  unfold Reachable at h
  induction h with
  | refl => exact ⟨fun _ => List.forall_mem_nil _, nofun⟩
  | tail hreach hstep ih => exact ih.step hdeclares (Reachable.sound hreach) hstep

variable {authority : List Node} {h : UInt64} {blocks : Hash → Prop} {call call' : Call F}
variable {c c' : Commit F} {r r' : Except String Status}

/-- **Replication**: where the decisions agree and no block is declared under a wrong hash, all
applications are handed the same block for a height. -/
theorem commits_agree (hreach : N.Reachable w) (hfaulty : N.FewFaulty authority)
    (hrules : ∀ j, N.CoreRules w authority h blocks j) (hh : h + 1 ≠ 0)
    (hw : 3 * totalWeight authority < 2 ^ 64)
    (hdeclares : ∀ hash block, N.declares hash block → Content.hash block = hash)
    (hinjective : Function.Injective (Content.hash : F → Hash))
    (hcall : call ∈ w.calls j) (hevent : call.event = .commit c r) (hheight : c.height = h)
    (hb : blocks c.proof.blockHash)
    (hcall' : call' ∈ w.calls k) (hevent' : call'.event = .commit c' r') (hheight' : c'.height = h)
    (hb' : blocks c'.proof.blockHash) : c.result = c'.result := by
  have hbound := hreach.blocksBound hdeclares
  have hblock := hbound.calls j call hcall
  rw [hevent] at hblock
  have hblock' := hbound.calls k call' hcall'
  rw [hevent'] at hblock'
  refine hinjective ?_
  calc Content.hash c.result
      = c.proof.blockHash := hblock
    _ = c'.proof.blockHash := Decision.unique hreach.sound hfaulty hrules hh hw
        (.commit hcall hevent hheight) hb (.commit hcall' hevent' hheight') hb'
    _ = Content.hash c'.result := hblock'.symm

/-! ### Two applications -/

/-- The only authority proposes its block, votes for it and commits it. -/
def leaderRun : List Input := Reference.readyRun [7] ++
  [.core (.getProposalRequest 1), .async, .core (.proposal ⟨1, 0, [1], none, [], [7]⟩),
    .core (.vote ⟨.prevote, 1, 0, [1], [7]⟩), .core (.vote ⟨.precommit, 1, 0, [1], [7]⟩),
    .core (.commit ⟨1, 0, [1], [⟨.precommit, 1, 0, [1], [7]⟩], [7]⟩)]

/-- Another node receives the proposal and the precommit, and commits the block. -/
def followerRun : List Input := Reference.readyRun [7] ++
  [.external (.signedProposal
      (Reference.proposalBytes (Reference.signedProposal 1 0 [1] none [] [7]) [1] [1])),
    .external (.signedVote (Reference.voteBytes .precommit 1 0 [1] [7])),
    .core (.commit ⟨1, 0, [1], [⟨.precommit, 1, 0, [1], [7]⟩], [8]⟩)]

/-- The follower receives what the leader has signed. -/
theorem supplied_follower {w : World Bool Block} {Q : Process Block}
    (hproposal : w.Signed false (Reference.signedProposal 1 0 [1] none [] [7]).proposal.rlpBytes)
    (hvote : w.Signed false (Reference.signedVote .precommit 1 0 [1] [7]).vote.rlpBytes) {i : Input}
    (hi : i ∈ followerRun) :
    Supplied (reference.env true) (reference.supply (reference.hear w true Q i) true) Q i := by
  simp only [followerRun, Reference.readyRun, List.cons_append, List.nil_append, List.mem_cons,
    List.not_mem_nil, or_false] at hi
  rcases hi with rfl | rfl | rfl | rfl
  · exact own_supplied trivial
  · exact
      { vote := fun _ h => h.elim
        proposal := by
          intro sp block hash hsp
          obtain ⟨rfl, -⟩ := Prod.mk.inj (Except.ok.inj hsp)
          exact ⟨⟨by decide, unforged_of_first hproposal⟩, fun _ h => absurd h List.not_mem_nil⟩
        block := by
          intro sp block hash hsp _
          obtain ⟨-, hblock⟩ := Prod.mk.inj (Except.ok.inj hsp)
          obtain ⟨rfl, rfl⟩ := Prod.mk.inj hblock
          rfl
        core := fun _ h => h.elim }
  · exact
      { vote := by
          intro sv hsv
          obtain rfl : Reference.signedVote .precommit 1 0 [1] [7] = sv := Except.ok.inj hsv
          exact ⟨by decide, unforged_of_first hvote⟩
        proposal := fun _ _ _ h => h.elim
        block := fun _ _ _ h => h.elim
        core := fun _ h => h.elim }
  · exact own_supplied trivial

/-- The world after both runs. -/
def twoWorld (P Q : Process Block) : World Bool Block :=
  lived (lived (World.init Bool Block) false leaderRun P) true followerRun Q

theorem calls_twoWorld (P Q : Process Block) :
    (twoWorld P Q).calls false = P.state.calls ∧ (twoWorld P Q).calls true = Q.state.calls := by
  simp [twoWorld, World.calls, lived, World.init, World.callsOf]

/-- What the BFT cores of both nodes say. -/
theorem told_twoWorld {P Q : Process Block} {j : Bool} {m : CoreOutput}
    (h : (twoWorld P Q).told j m) :
    j = false ∧ (m = .getProposalRequest 1 ∨ m = .proposal ⟨1, 0, [1], none, [], [7]⟩ ∨
      m = .vote ⟨.prevote, 1, 0, [1], [7]⟩ ∨ m = .vote ⟨.precommit, 1, 0, [1], [7]⟩ ∨
      m = .commit ⟨1, 0, [1], [⟨.precommit, 1, 0, [1], [7]⟩], [7]⟩) ∨
    j = true ∧ m = .commit ⟨1, 0, [1], [⟨.precommit, 1, 0, [1], [7]⟩], [8]⟩ := by
  simpa [twoWorld, lived, World.init, leaderRun, followerRun, Reference.readyRun] using h

/-- Only the leader votes, and for one block. -/
theorem votes_twoWorld {P Q : Process Block} {j : Bool} {t : BftVoteType} {r : UInt64} {b : Hash}
    (h : reference.Votes (twoWorld P Q) j t 1 r b) : j = false ∧ r = 0 ∧ b = [1] := by
  rcases told_twoWorld h with ⟨rfl, hm⟩ | ⟨-, hm⟩
  · simp only [reduceCtorEq, false_or, or_false, CoreOutput.vote.injEq, BftVote.mk.injEq] at hm
    rcases hm with ⟨-, -, rfl, rfl, -⟩ | ⟨-, -, rfl, rfl, -⟩ <;> exact ⟨rfl, rfl, rfl⟩
  · exact nomatch hm

theorem quorumHeard_twoWorld {P Q : Process Block} {j : Bool} {t : BftVoteType}
    (h : reference.Heard (twoWorld P Q) j ⟨t, 1, 0, [1], [7]⟩) :
    reference.QuorumHeard (twoWorld P Q) [Node.new [7]] j t 1 0 [1] := by
  refine ⟨[[7]], by decide, fun a ha => ?_⟩
  obtain rfl := List.mem_singleton.1 ha
  exact h

/-- The leader knows its own votes. -/
theorem heard_leader (P Q : Process Block) (t : BftVoteType) :
    reference.Heard (twoWorld P Q) false ⟨t, 1, 0, [1], [7]⟩ := by
  refine .own ?_ rfl
  cases t <;> simp [twoWorld, lived, leaderRun]

theorem coreRules_twoWorld {P Q : Process Block}
    (hheard : reference.Heard (twoWorld P Q) true ⟨.precommit, 1, 0, [1], [7]⟩) (j : Bool) :
    reference.CoreRules (twoWorld P Q) [Node.new [7]] 1 (fun _ => True) j where
  once r b b' _ _ h h' := (votes_twoWorld h).2.2.trans (votes_twoWorld h').2.2.symm
  polka r b _ h := by
    obtain ⟨rfl, rfl, rfl⟩ := votes_twoWorld h
    exact quorumHeard_twoWorld (heard_leader P Q .prevote)
  locked r r' b b' _ _ h h' hlt _ := by
    obtain ⟨-, rfl, -⟩ := votes_twoWorld h
    obtain ⟨-, rfl, -⟩ := votes_twoWorld h'
    exact absurd hlt (by decide)
  commit c h _ := by
    rcases told_twoWorld h with ⟨rfl, hm⟩ | ⟨rfl, hm⟩
    · obtain rfl : c = ⟨1, 0, [1], [⟨.precommit, 1, 0, [1], [7]⟩], [7]⟩ := by simpa using hm
      exact quorumHeard_twoWorld (heard_leader P Q .precommit)
    · obtain rfl : c = ⟨1, 0, [1], [⟨.precommit, 1, 0, [1], [7]⟩], [8]⟩ := by simpa using hm
      exact quorumHeard_twoWorld hheard

/-- Both applications are handed the same block. -/
theorem commits_agree_two : ∃ (w : World Bool Block) (call call' : Call Block) (c c' : Commit Block)
    (r r' : Except String Status), reference.Reachable w ∧
      call ∈ w.calls false ∧ call.event = .commit c r ∧
      call' ∈ w.calls true ∧ call'.event = .commit c' r' ∧ c.result = c'.result := by
  obtain ⟨P, hP, hf⟩ := Reference.exists_life (Reference.env [7]) [7] leaderRun
    (fun P => (P.state.calls.any fun call => asksFor call =
        some (Reference.signedProposal 1 0 [1] none [] [7]).proposal.rlpBytes) &&
      (P.state.calls.any fun call => asksFor call =
        some (Reference.signedVote .precommit 1 0 [1] [7]).vote.rlpBytes) &&
      P.state.calls.any fun call => call.committed = some 1) (by decide +kernel)
  obtain ⟨Q, hQ, hg⟩ := Reference.exists_life (Reference.env [8]) [8] followerRun
    (fun Q => (Q.state.calls.any fun call => call.sent =
        some (.vote ⟨.precommit, 1, 0, [1], [7]⟩)) &&
      Q.state.calls.any fun call => call.committed = some 1) (by decide +kernel)
  simp only [Bool.and_eq_true, List.any_eq_true, decide_eq_true_eq] at hf hg
  obtain ⟨⟨⟨call₁, hcall₁, hasks₁⟩, call₂, hcall₂, hasks₂⟩, call, hcall, hcommits⟩ := hf
  obtain ⟨⟨call₃, hcall₃, hsent⟩, call', hcall', hcommits'⟩ := hg
  obtain ⟨r₁, hevent₁⟩ := event_of_asksFor hasks₁
  obtain ⟨r₂, hevent₂⟩ := event_of_asksFor hasks₂
  obtain ⟨d, hevent₃⟩ := event_of_sent hsent
  obtain ⟨c, st, hevent, hheight⟩ := event_of_committed hcommits
  obtain ⟨c', st', hevent', hheight'⟩ := event_of_committed hcommits'
  have h₁ : reference.Reachable (lived (World.init Bool Block) false leaderRun P) :=
    Reachable.lived .refl rfl hP (by simp [leaderRun, Reference.readyRun, Own])
  have hsigned : ∀ is₁ q hash, (∃ call ∈ P.state.calls, ∃ r, call.event = .sign hash r) →
      (lived (lived (World.init Bool Block) false leaderRun P) true is₁ q).Signed false hash := by
    rintro is₁ q hash ⟨call, hmem, h⟩
    exact ⟨call, by simpa [World.calls, lived, World.init, World.callsOf], h⟩
  have hreach : reference.Reachable (twoWorld P Q) := by
    refine h₁.lived_of rfl hQ (fun is₁ i hi q => supplied_follower ?_ ?_ hi) fun i hi q m => ?_
    · exact hsigned is₁ q _ ⟨call₁, hcall₁, r₁, hevent₁⟩
    · exact hsigned is₁ q _ ⟨call₂, hcall₂, r₂, hevent₂⟩
    · simp only [followerRun, Reference.readyRun, List.cons_append, List.nil_append, List.mem_cons,
        List.not_mem_nil, or_false] at hi
      rcases hi with rfl | rfl | rfl | rfl <;> simp [BringsCore]
  obtain ⟨hleader, hfollower⟩ := calls_twoWorld P Q
  have hheard : reference.Heard (twoWorld P Q) true ⟨.precommit, 1, 0, [1], [7]⟩ :=
    .vote (hfollower ▸ hcall₃) hevent₃
  rw [← hleader] at hcall
  rw [← hfollower] at hcall'
  refine ⟨_, call, call', c, c', _, _, hreach, hcall, hevent, hcall', hevent', ?_⟩
  refine commits_agree hreach fewFaulty_sole (coreRules_twoWorld hheard) (by decide) (by decide)
    (fun _ _ h => h) (fun a b h => ?_) hcall hevent hheight trivial hcall' hevent' hheight' trivial
  cases a
  exact congrArg _ h

end Network

end ConsensusBft

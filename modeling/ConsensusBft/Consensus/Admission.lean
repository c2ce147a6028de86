import ConsensusBft.Consensus.Reference

/-!
# Only authenticated messages reach the BFT core

* `Authenticated E K call` : if the call hands a vote or a proposal to the BFT core, it is admitted
  by the engine at the time of the call (`VoteAdmitted`, `ProposalAdmitted`).
* `Update.authenticated` : every atomic update keeps this of all calls.
* `sent_messages_authenticated` : **in every run, every vote and every proposal that reaches the
  BFT core was received, is signed by a voter or by the rightful proposer of its height, and is of
  the current height or the one before.**
-/

namespace ConsensusBft

variable {F : Type} [Content F] {E : Env F} {K : Supply F} {s s' : State F}

/-- If the call hands a vote or a proposal to the BFT core, the engine admits it. -/
def Authenticated (E : Env F) (K : Supply F) (call : Call F) : Prop :=
  match call.event with
  | .bft (.vote v) _ => VoteAdmitted E K call.eng v
  | .bft (.proposal p) _ => ProposalAdmitted E K call.eng p
  | _ => True

/-- **Every update keeps the calls authenticated.** -/
theorem Update.authenticated (h : Update E K s s') (hs : ∀ call ∈ s.calls, Authenticated E K call) :
    ∀ call ∈ s'.calls, Authenticated E K call := by
  cases h with
  | call e permitted =>
    intro call hmem
    rcases List.mem_append.1 hmem with hmem | hmem
    · exact hs call hmem
    · obtain rfl := List.mem_singleton.1 hmem
      cases e with
      | bft msg delivered =>
        -- the permission of a send is the admission of what it sends
        have hadmitted := permitted.2
        cases msg with
        | vote v => exact hadmitted
        | proposal p => exact hadmitted
        | _ => trivial
      | _ => trivial
  | check hash block bytes isLock isBySelf res cached answer =>
    intro call hmem
    rcases List.mem_append.1 hmem with hmem | hmem
    · exact hs call hmem
    · obtain rfl := List.mem_singleton.1 hmem
      trivial
  | _ => exact hs

/-- Heights of admitted messages do not exceed the height of the engine. -/
theorem le_of_admitted {h H : UInt64} (hh : h = H ∨ h = H - 1) (hH : H ≠ 0) : h ≤ H := by
  grind

/-- **Only authenticated messages reach the BFT core.**  In every run, a vote that is handed over
was received with a signature that verifies to its voter, and the voter is an authority of its
height; a proposal that is handed over was received with a signature that verifies to the rightful
proposer of its height and round.  Neither is ahead of the engine, as long as its height has not
wrapped around. -/
theorem sent_messages_authenticated {address : Address} {disk : Disk} {is : List Input}
    {p : Process F} (hl : Life E address disk is p) :
    ∀ call ∈ p.state.calls,
      (∀ v delivered, call.event = .bft (.vote v) delivered →
        VoteAdmitted E (Received E address disk is) call.eng v ∧ v.height ≤ call.eng.height) ∧
      ∀ q delivered, call.event = .bft (.proposal q) delivered →
        ProposalAdmitted E (Received E address disk is) call.eng q ∧
          (E.overflowChecks = true ∨ call.eng.height ≠ 0 → q.height ≤ call.eng.height) := by
  intro call hmem
  have hauth : Authenticated E (Received E address disk is) call := by
    refine hl.invariant (I := fun s => ∀ call ∈ s.calls, Authenticated E _ call)
      (SuppliedLife.received E address disk is) (fun p₀ hb => ?_) (fun _ _ => Update.authenticated)
      call hmem
    rw [(boot_state hb).2.2]
    exact fun _ h => nomatch h
  constructor
  · intro v delivered he
    have hv : VoteAdmitted E (Received E address disk is) call.eng v := by
      simpa only [Authenticated, he] using hauth
    refine ⟨hv, ?_⟩
    obtain ⟨sv, -, -, -, hheight, hzero, -⟩ := hv
    exact le_of_admitted hheight hzero
  · intro q delivered he
    have hq : ProposalAdmitted E (Received E address disk is) call.eng q := by
      simpa only [Authenticated, he] using hauth
    refine ⟨hq, ?_⟩
    intro hH
    obtain ⟨sp, -, -, -, hheight, hchecked, -⟩ := hq
    exact le_of_admitted hheight (hH.elim hchecked id)

/-- A run in which a vote and a proposal of another node are handed over. -/
def admissionRun : List Input :=
  [.external (.status ⟨0, none, [Node.new [7], Node.new [8]]⟩),
    .external (.signedVote (Reference.voteBytes .prevote 1 0 [5] [8])),
    .external (.signedProposal
      (Reference.proposalBytes (Reference.signedProposal 1 0 [5] none [] [8]) [5] [5]))]

theorem sent_messages_authenticated_run :
    ∃ p, Life (Reference.env [7]) [7] Reference.disk admissionRun p ∧
      p.state.calls.length = 5 ∧
      ∀ call ∈ p.state.calls, ∀ v delivered, call.event = .bft (.vote v) delivered →
        v.height ≤ call.eng.height := by
  obtain ⟨p, hp, hlen⟩ := Reference.exists_life (Reference.env [7]) [7] admissionRun
    (fun p => p.state.calls.length = 5) (by decide +kernel)
  refine ⟨p, hp, of_decide_eq_true hlen, ?_⟩
  intro call hmem v delivered he
  exact ((sent_messages_authenticated hp call hmem).1 v delivered he).2

end ConsensusBft

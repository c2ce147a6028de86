import ConsensusBft.Consensus.Transparency

/-!
# What a rejected vote leaves behind

`handle_signed_vote` stores a vote before it asks whether the voter is an authority.

* `SameEngine s s'` : the votes, the proposals, the caches, the proof and the height are as before.
* `Intrudes E s sv needWal` : the vote passes every test but that of its voter.
* `rejected_vote_iff` : **an error of `handle_signed_vote` other than `FutureMsg` leaves the engine
  as it was, if and only if the vote does not intrude.**
-/

namespace ConsensusBft

open Exec (wp wp_bind)

variable {F : Type} {E : Env F} {s s' : State F} {sv : SignedVote} {needWal : Bool}

/-- The votes, the proposals, the caches, the proof and the height are as before. -/
structure SameEngine (s s' : State F) : Prop where
  votes : s'.eng.votes.Same s.eng.votes
  proposals : s'.eng.proposals = s.eng.proposals
  proposalCache : s'.eng.proposalCache = s.eng.proposalCache
  voteCache : s'.eng.voteCache = s.eng.voteCache
  blockOriginCache : s'.eng.blockOriginCache = s.eng.blockOriginCache
  verifiedBlock : s'.eng.verifiedBlock = s.eng.verifiedBlock
  proof : s'.eng.proof = s.eng.proof
  height : s'.eng.height = s.eng.height

theorem SameEngine.setWal (s : State F) (w : WalState) : SameEngine s (s.setWal w) :=
  ⟨.refl _, rfl, rfl, rfl, rfl, rfl, rfl, rfl⟩

theorem SameEngine.refl (s : State F) : SameEngine s s := .setWal s s.walState

/-- An error other than `FutureMsg` leaves the engine as it was. -/
def KeepsEngine {α : Type} (s : State F) (r : Outcome ConsensusError α) (s' : State F) : Prop :=
  ∀ e, r = .error (.err e) → e ≠ .futureMsg → SameEngine s s'

/-- The vote is logged, if a record of it is due. -/
def VoteLogged (E : Env F) (s : State F) (sv : SignedVote) (needWal : Bool) : Prop :=
  (E.walOn && needWal) = true → ∃ msg, E.serde.signedVote.toString sv = some msg ∧
    Logs E s sv.vote.height msg

/-- The vote passes every test but that of its voter, and is not the one that was stored last. -/
structure Intrudes (E : Env F) (s : State F) (sv : SignedVote) (needWal : Bool) : Prop where
  genuine : sv.Genuine E
  height : LockHeight E s.eng.height sv.vote.height
  height_le : sv.vote.height ≤ s.eng.height
  logged : sv.vote.height = s.eng.height → VoteLogged E s sv needWal
  outsider : sv.vote.voter ∉ s.eng.authority.setAt sv.vote.height
  fresh : ¬ s.eng.votes.Latest sv.vote.height sv.vote.round sv.vote.voteType sv.vote.toBftVote

/-- **Admitting a vote** leaves the engine as it was only if the voter is an authority, or the vote
is the one that was stored last. -/
theorem admitVote_keeps_iff (s : State F) (w : WalState) (sv : SignedVote) :
    KeepsEngine s (Exec.result (admitVote sv) (s.setWal w)).1
        (Exec.result (admitVote sv) (s.setWal w)).2 ↔
      sv.vote.voter ∈ s.eng.authority.setAt sv.vote.height ∨
        s.eng.votes.Latest sv.vote.height sv.vote.round sv.vote.voteType sv.vote.toBftVote := by
  obtain ⟨s₁, hs₁⟩ : ∃ s₁ : State F, s₁ = { s.setWal w with eng.votes :=
    (s.eng.votes.add sv.vote.height sv.vote.round sv.vote.voteType sv.vote.toBftVote sv).2 } :=
    ⟨_, rfl⟩
  have hadd : Exec.result (admitVote sv) (s.setWal w) = Exec.result (do
      checkVoteSender sv.vote.height sv.vote.voter
      return sv.vote.toBftVote) s₁ := by
    rw [hs₁]
    rfl
  have hauth : s₁.eng.authority = s.eng.authority := by rw [hs₁]; rfl
  rw [hadd]
  by_cases hmem : sv.vote.voter ∈ s.eng.authority.setAt sv.vote.height
  · have hadmitted : Exec.result (checkVoteSender (F := F) sv.vote.height sv.vote.voter) s₁ =
        (.ok ⟨⟩, s₁) := Exec.result_rejectIf_of_not (by rw [hauth]; exact not_not.2 hmem) _ _
    rw [Exec.result_bind_ok hadmitted]
    exact iff_of_true (fun e he => nomatch he) (.inl hmem)
  · have hreject : Exec.result (checkVoteSender (F := F) sv.vote.height sv.vote.voter) s₁ =
        (.error (.err .invalidVoter), s₁) :=
      Exec.result_rejectIf_of (by rw [hauth]; exact hmem) _ _
    have hsame : s₁.eng.votes.Same s.eng.votes ↔ s.eng.votes.Latest sv.vote.height
        sv.vote.round sv.vote.voteType sv.vote.toBftVote := by
      rw [hs₁]
      exact VoteCollector.same_add_iff
    rw [Exec.result_bind_error hreject, or_iff_right hmem, ← hsame]
    constructor
    · exact fun h => (h _ rfl (by simp)).votes
    · intro h _ _ _
      subst hs₁
      exact ⟨h, rfl, rfl, rfl, rfl, rfl, rfl, rfl⟩

/-- Logging a message or not changes the log only. -/
theorem logIf_result (s : State F) (c : Prop) [Decidable c] (height : UInt64) (tag : UInt8)
    (name : String) (json : Option Bytes) :
    ((c → ∃ msg, json = some msg ∧ Logs E s height msg) ∧ ∃ w, Exec.result
      (Exec.doIf c (saveJson E height tag name json)) s = (.ok ⟨⟩, s.setWal w)) ∨
    (¬ (c → ∃ msg, json = some msg ∧ Logs E s height msg) ∧ ∃ e w, Exec.result
      (Exec.doIf c (saveJson E height tag name json)) s = (.error e, s.setWal w)) := by
  obtain ⟨-, hok⟩ := saveJson_spec E s height tag name json
  have hleaves := saveJson_leaves (E := E) height tag name json s
  by_cases hc : c
  · rw [Exec.result_doIf_of hc, ← hok]
    cases hr : Exec.result (saveJson E height tag name json) s with
    | mk r s' =>
      cases r with
      | ok a =>
        obtain ⟨w, rfl⟩ := hleaves.ok hr
        exact .inl ⟨fun _ => rfl, w, rfl⟩
      | error e =>
        obtain ⟨w, rfl⟩ := hleaves.error hr
        exact .inr ⟨fun h => by simpa using h hc, e, w, rfl⟩
  · exact .inl ⟨fun h => absurd h hc, s.walState, Exec.result_doIf_of_not hc _ s⟩

/-- A genuine vote that is not of a later height, and is logged if that is due, only does not
intrude if its voter is an authority, or if it was stored last. -/
theorem not_intrudes_iff (hp : sv.Genuine E ∧ LockHeight E s.eng.height sv.vote.height)
    (hle : sv.vote.height ≤ s.eng.height)
    (hlogged : sv.vote.height = s.eng.height → VoteLogged E s sv needWal) :
    ¬ Intrudes E s sv needWal ↔ sv.vote.voter ∈ s.eng.authority.setAt sv.vote.height ∨
      s.eng.votes.Latest sv.vote.height sv.vote.round sv.vote.voteType sv.vote.toBftVote := by
  constructor
  · intro h
    by_contra hout
    rw [not_or] at hout
    exact h ⟨hp.1, hp.2, hle, hlogged, hout.1, hout.2⟩
  · exact fun h hi => h.elim hi.outsider hi.fresh

/-- **A rejected vote changes nothing if and only if it does not intrude.** -/
theorem rejected_vote_iff (E : Env F) (s : State F) (sv : SignedVote) (needWal : Bool) :
    KeepsEngine s (Exec.result (handleSignedVote E sv needWal) s).1
        (Exec.result (handleSignedVote E sv needWal) s).2 ↔ ¬ Intrudes E s sv needWal := by
  by_cases hlt : s.eng.height < sv.vote.height
  · refine iff_of_true ?_ fun h => UInt64.not_le.2 hlt h.height_le
    refine Exec.result_of_wp (P := KeepsEngine s) (handleSignedVote_later hlt ?_ ?_ ?_)
    · exact fun _ _ _ _ _ => .refl s
    · exact fun _ _ w _ _ _ => .setWal s w
    · intro _ _ e he hne
      obtain rfl := Stop.err.inj (Except.error.inj he)
      exact absurd rfl hne
  obtain ⟨hpass, hfail⟩ := handleSignedVote_result (E := E) s sv needWal
  by_cases hp : sv.Genuine E ∧ LockHeight E s.eng.height sv.vote.height
  swap
  · obtain ⟨e, he⟩ := hfail hp
    rw [he]
    exact iff_of_true (fun _ _ _ => .refl s) fun h => hp ⟨h.genuine, h.height⟩
  rw [hpass hp]
  have hle : sv.vote.height ≤ s.eng.height := UInt64.not_lt.1 hlt
  by_cases hge : s.eng.height ≤ sv.vote.height
  swap
  · -- a vote of the height before is not logged
    rw [Exec.result_bind_ok (Exec.result_doIf_of_not hge _ s)]
    have hnone : sv.vote.height = s.eng.height → VoteLogged E s sv needWal :=
      fun heq => absurd (heq ▸ UInt64.le_refl _) hge
    exact (admitVote_keeps_iff s s.walState sv).trans (not_intrudes_iff hp hle hnone).symm
  obtain heq : sv.vote.height = s.eng.height := UInt64.le_antisymm hle hge
  have hwindow : (E.walOn && decide ((sv.vote.height - s.eng.height).toNat < CACHE_NUMBER) &&
      needWal) = (E.walOn && needWal) := by
    rw [heq, UInt64.sub_self]
    simp [CACHE_NUMBER]
  rw [hwindow]
  -- a vote of the present height is logged first
  have hlog := logIf_result (E := E) s ((E.walOn && needWal) = true) sv.vote.height
    LOG_TYPE_RAW_BYTES "SignedVote" (E.serde.signedVote.toString sv)
  rcases hlog with ⟨hlogged, w, hw⟩ | ⟨hnot, e, w, hw⟩
  · have hcalm : ∀ m : EngineM F PUnit, Exec.result (Exec.doIf (s.eng.height ≤ sv.vote.height) do
        Exec.doIf ((E.walOn && needWal) = true) (saveJson E sv.vote.height LOG_TYPE_RAW_BYTES
          "SignedVote" (E.serde.signedVote.toString sv))
        Exec.doIf (s.eng.height < sv.vote.height) m) s = (.ok ⟨⟩, s.setWal w) := by
      intro m
      rw [Exec.result_doIf_of hge, Exec.result_bind_ok hw, Exec.result_doIf_of_not hlt]
    rw [Exec.result_bind_ok (hcalm _)]
    exact (admitVote_keeps_iff s w sv).trans (not_intrudes_iff hp hle fun _ => hlogged).symm
  · rw [Exec.result_bind_error ((Exec.result_doIf_of hge _ s).trans (Exec.result_bind_error hw))]
    exact iff_of_true (fun _ _ _ => .setWal s w) fun h => hnot (h.logged heq)

/-- A precommit of a node that is no authority. -/
def strangerVote : SignedVote := Reference.signedVote .precommit 1 0 [1] [9]

/-- The vote of a node that is no authority is rejected, and a proof can be made of it. -/
theorem stranger_vote_kept : ∃ p s, Life (Reference.env [7]) [7] Reference.disk
      (Reference.readyRun [7]) p ∧
    Exec.result (handleSignedVote (Reference.env [7]) strangerVote true) p.state =
      (.error (.err .invalidVoter), s) ∧ ¬ SameEngine p.state s ∧
    (∀ proof s', Exec.result (generateProof 1 0 [1] [strangerVote.vote.toBftVote]) p.state ≠
      (.ok proof, s')) ∧
    ∃ proof s', Exec.result (generateProof 1 0 [1] [strangerVote.vote.toBftVote]) s =
      (.ok proof, s') := by
  obtain ⟨p, hl, hf⟩ := Reference.exists_life (Reference.env [7]) [7] (Reference.readyRun [7])
    (fun p =>
      let r := Exec.result (handleSignedVote (Reference.env [7]) strangerVote true) p.state
      let make s := (Exec.result (generateProof 1 0 [1] [strangerVote.vote.toBftVote]) s).1.isOk
      let kept (s : State Block) := (s.eng.votes.stored 1 0 .precommit
        strangerVote.vote.toBftVote).isSome
      Exec.failsWith .invalidVoter r.1 && !kept p.state && kept r.2 && !make p.state && make r.2)
    (by decide +kernel)
  simp only [Bool.and_eq_true, Bool.not_eq_true'] at hf
  obtain ⟨⟨⟨⟨hfails, hnone⟩, hsome⟩, hbefore⟩, hafter⟩ := hf
  refine ⟨p, _, hl, Prod.ext (Exec.failsWith_iff.1 hfails) rfl, fun hsame => ?_, ?_, ?_⟩
  · rw [hsame.votes.stored, hnone] at hsome
    exact Bool.false_ne_true hsome
  · intro proof s' hok
    rw [hok] at hbefore
    cases hbefore
  · exact Exec.exists_of_isOk hafter

end ConsensusBft

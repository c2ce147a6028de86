import ConsensusBft.Consensus.Idle
import ConsensusBft.Consensus.LogReference

/-!
# The engine with and without its log

* `E.log on` : the engine compiled with the log, or without it.
* `Transparent E m s` : both do the same with the message `m` in the state `s`.
* `ProposalTransparent`, `VoteTransparent` : the messages that are never logged, can be logged, or
  are rejected anyway.
* `transparent_iff` : **these are the messages for which the log is transparent.**
* `binary_proposal_not_transparent` : a proposal of the window that the log makes the engine drop.
-/

namespace ConsensusBft

open Exec (Sim)

variable {F : Type} {E : Env F} {s : State F}

/-- The engine compiled with the log, or without it. -/
def Env.log (E : Env F) (on : Bool) : Env F := { E with walOn := on }

/-! ### Both builds -/

theorem lockHeight_cases {current height : UInt64} (h : LockHeight E current height) :
    sub64 (ε := ConsensusError) E.overflowChecks current 1 = .ok (current - 1) ∧
      ¬ height < current - 1 := by
  obtain ⟨prev, hprev, hlt⟩ := lockHeight_iff.1 h
  obtain rfl := (sub64_ok hprev).1
  exact ⟨hprev, hlt⟩

theorem verifySignature_ok {sig : Signature} {hash : Hash} {address : Address}
    (h : E.support.verifySignature sig hash = .ok address) (s : State F) :
    Exec.result (verifySignature E sig hash) s = (.ok address, s) := by
  rw [verifySignature, h]
  rfl

theorem verifySignature_error {sig : Signature} {hash : Hash} {e : String}
    (h : E.support.verifySignature sig hash = .error e) (s : State F) :
    Exec.result (verifySignature E sig hash) s =
      (.error (.err (.supportErr ("Verify signature error " ++ e))), s) := by
  rw [verifySignature, h]
  rfl

/-- Where the height does not pass, the subtraction panics or the message is obsolete. -/
theorem not_lockHeight {α : Type} {current height : UInt64} (h : ¬ LockHeight E current height)
    (f : UInt64 → EngineM F α) (s : State F) : ∃ e, Exec.result
      (Exec.lift (sub64 E.overflowChecks current 1) >>= fun prev =>
        Exec.rejectIf (height < prev) .obsoleteMsg >>= fun _ => f prev) s = (.error e, s) := by
  cases hsub : sub64 (ε := ConsensusError) E.overflowChecks current 1 with
  | error e => exact ⟨e, Exec.result_bind_lift_error rfl _ _⟩
  | ok prev =>
    have hlt : height < prev := not_not.1 fun hlt => h (lockHeight_iff.2 ⟨prev, hsub, hlt⟩)
    exact ⟨_, (Exec.result_bind_lift rfl _ _).trans (Exec.result_bind_rejectIf_of hlt _ _ _)⟩

theorem forwardProposal_log (E : Env F) (sp : SignedProposal) (bytes : Bytes) (on : Bool) :
    forwardProposal (E.log on) sp bytes = (do
      let address ← verifySignature E sp.signature (E.support.hash sp.proposal.rlpBytes)
      Exec.rejectIf (sp.proposal.proposer ≠ address) .signatureErr
      let s ← get
      let prev ← Exec.lift (sub64 E.overflowChecks s.eng.height 1)
      Exec.rejectIf (sp.proposal.height < prev) .obsoleteMsg
      Exec.doIf (on = true) (saveJson E sp.proposal.height LOG_TYPE_SIGNED_PROPOSAL "SignedProposal"
        (E.serde.signedProposal.toString sp))
      settleProposal E sp prev bytes) := by
  unfold forwardProposal
  rw [handleSignedProposal_eq]
  simp only [bind_assoc]
  cases on <;> rfl

/-- A proposal is logged and settled if its signature is that of its proposer and its height passes;
otherwise it is rejected at once. -/
theorem forwardProposal_result (s : State F) (sp : SignedProposal) (bytes : Bytes) (on : Bool) :
    (sp.Genuine E ∧ LockHeight E s.eng.height sp.proposal.height →
      Exec.result (forwardProposal (E.log on) sp bytes) s = Exec.result (do
        Exec.doIf (on = true) (saveJson E sp.proposal.height LOG_TYPE_SIGNED_PROPOSAL
          "SignedProposal" (E.serde.signedProposal.toString sp))
        settleProposal E sp (s.eng.height - 1) bytes) s) ∧
    (¬ (sp.Genuine E ∧ LockHeight E s.eng.height sp.proposal.height) →
      ∃ e, Exec.result (forwardProposal (E.log on) sp bytes) s = (.error e, s)) := by
  rw [forwardProposal_log]
  unfold SignedProposal.Genuine
  cases hsig : E.support.verifySignature sp.signature (E.support.hash sp.proposal.rlpBytes) with
  | error e =>
    exact ⟨fun h => absurd h.1 (by simp), fun _ =>
      ⟨_, Exec.result_bind_error (verifySignature_error hsig s)⟩⟩
  | ok address =>
    rw [Exec.result_bind_ok (verifySignature_ok hsig s), Except.ok.injEq]
    by_cases hp : sp.proposal.proposer = address
    swap
    · rw [Exec.result_bind_rejectIf_of hp]
      exact ⟨fun h => absurd h.1.symm hp, fun _ => ⟨_, rfl⟩⟩
    rw [Exec.result_bind_rejectIf (not_not.2 hp), Exec.result_bind_get, hp, and_iff_right rfl]
    constructor
    · intro hh
      obtain ⟨hsub, hlt⟩ := lockHeight_cases hh
      rw [Exec.result_bind_lift hsub, Exec.result_bind_rejectIf hlt]
    · exact fun hh => not_lockHeight hh _ s

/-- A vote whose signature is that of its voter and whose height passes is logged and admitted, or
cached; any other vote is rejected at once. -/
theorem handleSignedVote_result (s : State F) (sv : SignedVote) (needWal : Bool) :
    (sv.Genuine E ∧ LockHeight E s.eng.height sv.vote.height →
      Exec.result (handleSignedVote E sv needWal) s = Exec.result (do
        Exec.doIf (s.eng.height ≤ sv.vote.height) do
          Exec.doIf (E.walOn && decide ((sv.vote.height - s.eng.height).toNat < CACHE_NUMBER) &&
              needWal)
            (saveJson E sv.vote.height LOG_TYPE_RAW_BYTES "SignedVote"
              (E.serde.signedVote.toString sv))
          Exec.doIf (s.eng.height < sv.vote.height) do
            modify fun s =>
              { s with eng.voteCache := s.eng.voteCache.pushEntry sv.vote.height sv }
            throw (.err .futureMsg)
        admitVote sv) s) ∧
    (¬ (sv.Genuine E ∧ LockHeight E s.eng.height sv.vote.height) →
      ∃ e, Exec.result (handleSignedVote E sv needWal) s = (.error e, s)) := by
  rw [handleSignedVote_eq]
  unfold SignedVote.Genuine
  cases hsig : E.support.verifySignature sv.signature (E.support.hash sv.vote.rlpBytes) with
  | error e =>
    exact ⟨fun h => absurd h.1 (by simp), fun _ =>
      ⟨_, Exec.result_bind_error (verifySignature_error hsig s)⟩⟩
  | ok address =>
    rw [Exec.result_bind_ok (verifySignature_ok hsig s), Except.ok.injEq, Exec.result_bind_get]
    by_cases hh : LockHeight E s.eng.height sv.vote.height
    swap
    · exact ⟨fun h => absurd h.2 hh, fun _ => not_lockHeight hh _ s⟩
    obtain ⟨hsub, hlt⟩ := lockHeight_cases hh
    rw [Exec.result_bind_lift hsub, Exec.result_bind_rejectIf hlt]
    by_cases hp : sv.vote.voter = address
    swap
    · rw [Exec.result_bind_rejectIf_of hp]
      exact ⟨fun h => absurd h.1.symm hp, fun _ => ⟨_, rfl⟩⟩
    rw [Exec.result_bind_rejectIf (not_not.2 hp)]
    exact ⟨fun _ => rfl, fun h => absurd ⟨hp.symm, hh⟩ h⟩

/-- **A vote of a later height** is rejected at once, cannot be logged, or is cached. -/
theorem handleSignedVote_later {sv : SignedVote} {needWal : Bool}
    (hlt : s.eng.height < sv.vote.height) {Q : BftVote → State F → Prop}
    {R : Stop ConsensusError → State F → Prop}
    (rejected : ¬ (sv.Genuine E ∧ LockHeight E s.eng.height sv.vote.height) → ∀ e, R e s)
    (unlogged : (E.walOn && decide ((sv.vote.height - s.eng.height).toNat < CACHE_NUMBER) &&
      needWal) = true → ∀ e w, R e (s.setWal w))
    (cached : sv.Genuine E ∧ LockHeight E s.eng.height sv.vote.height → ∀ w,
      R (.err .futureMsg) { s.setWal w with
        eng.voteCache := s.eng.voteCache.pushEntry sv.vote.height sv }) :
    Exec.wp (handleSignedVote E sv needWal) Q R s := by
  obtain ⟨hpass, hfail⟩ := handleSignedVote_result (E := E) s sv needWal
  by_cases hp : sv.Genuine E ∧ LockHeight E s.eng.height sv.vote.height
  swap
  · obtain ⟨e, he⟩ := hfail hp
    refine Exec.wp_of_result he nofun fun e' he' => ?_
    exact rejected hp e'
  unfold Exec.wp
  rw [hpass hp]
  have later : ∀ w, Exec.wp (Exec.doIf (s.eng.height < sv.vote.height) do
      modify fun s : State F =>
        { s with eng.voteCache := s.eng.voteCache.pushEntry sv.vote.height sv }
      throw (.err ConsensusError.futureMsg))
      (fun _ s' => Exec.wp (admitVote sv) Q R s') R (s.setWal w) := fun w =>
    Exec.wp_doIf.2 ⟨fun _ => Exec.wp_bind.2 (cached hp w), fun h => absurd hlt h⟩
  refine Exec.wp_bind.2 (Exec.wp_doIf.2 ⟨fun _ => Exec.wp_bind.2 (Exec.wp_doIf.2
    ⟨fun due => ?_, fun _ => later s.walState⟩), fun h => absurd (UInt64.le_of_lt hlt) h⟩)
  refine (saveJson_leaves (E := E) _ _ _ _ s).mono ?_ ?_
  · rintro _ _ ⟨w, rfl⟩
    exact later w
  · rintro e _ ⟨w, rfl⟩
    exact unlogged due e w

/-- A vote is logged, if it is of the window, and settled if its signature is that of its voter and
its height passes; otherwise it is rejected at once. -/
theorem forwardVote_result (s : State F) (sv : SignedVote) (on : Bool) :
    (sv.Genuine E ∧ LockHeight E s.eng.height sv.vote.height →
      Exec.result (forwardVote (E.log on) sv) s = Exec.result (do
        Exec.doIf (on = true ∧ s.eng.height ≤ sv.vote.height ∧
            (sv.vote.height - s.eng.height).toNat < CACHE_NUMBER)
          (saveJson E sv.vote.height LOG_TYPE_RAW_BYTES "SignedVote"
            (E.serde.signedVote.toString sv))
        settleVote E s.eng.height sv) s) ∧
    (¬ (sv.Genuine E ∧ LockHeight E s.eng.height sv.vote.height) →
      ∃ e, Exec.result (forwardVote (E.log on) sv) s = (.error e, s)) := by
  obtain ⟨hpass, hfail⟩ := handleSignedVote_result (E := E.log on) s sv true
  constructor
  · intro h
    unfold forwardVote
    rw [Exec.result_bind, hpass h, ← Exec.result_bind]
    by_cases hle : s.eng.height ≤ sv.vote.height
    · unfold Exec.doIf settleVote
      simp [hle, bind_assoc, Exec.doIf]
      rfl
    · have hnlt : ¬ s.eng.height < sv.vote.height := fun h => hle (UInt64.le_of_lt h)
      unfold Exec.doIf settleVote
      simp [hle, hnlt, Exec.doIf]
      rfl
  · intro h
    obtain ⟨e, he⟩ := hfail h
    exact ⟨e, Exec.result_bind_error he⟩

/-! ### The messages for which the log is transparent -/

/-- The log takes a record of this height: opening its file does not overflow. -/
def RoomFor (E : Env F) (w : Wal) (height : UInt64) : Prop :=
  ¬ (E.overflowChecks = true ∧ Wal.Full w height)

theorem logs_iff (hio : ∀ n, E.io n = .ok) (s : State F) (height : UInt64) (msg : Bytes) :
    Logs E s height msg ↔ RoomFor E s.eng.walLog height := by
  refine and_iff_left fun k _ => ?_
  rw [hio]
  rfl

/-- What the serializer writes: every vote, and the proposals whose proof has no signature, since
the keys of the map of signatures are no strings. -/
structure Serde.Prints (serde : Serde F) : Prop where
  signedVote : ∀ sv, (serde.signedVote.toString sv).isSome
  signedProposal : ∀ sp, (serde.signedProposal.toString sp).isSome ↔
    sp.proposal.proof.precommitVotes.entries = []

theorem exists_logs_iff (hio : ∀ n, E.io n = .ok) (s : State F) (height : UInt64)
    (json : Option Bytes) : (∃ msg, json = some msg ∧ Logs E s height msg) ↔
      json.isSome ∧ RoomFor E s.eng.walLog height := by
  cases json with
  | none => simp
  | some msg => simp [logs_iff hio]

/-- The engine once the block of a proposal is cached. -/
def Consensus.withBlock (eng : Consensus F) (hash : Hash) (block : F) : Consensus F :=
  { eng with blockOriginCache := eng.blockOriginCache.orInsert hash block }

/-- A proposal that is handled can be logged, or it is rejected anyway. -/
def HandledTransparently (E : Env F) (eng : Consensus F) (sp : SignedProposal) : Prop :=
  sp.proposal.proof.precommitVotes.entries = [] ∧ RoomFor E eng.walLog sp.proposal.height ∨
    ¬ ProposalPasses E eng sp ∧
      (ProposerPasses E eng.authority sp.proposal → LockVotesLatest E eng sp)

/-- The proposals for which the log is transparent: of those of the window, the ones whose bytes can
be logged; of the others, the ones that are never logged, can be logged, or are rejected anyway. -/
def ProposalTransparent (E : Env F) (eng : Consensus F) (sp : SignedProposal) (bytes : Bytes) :
    Prop :=
  if inWindow sp.proposal.height eng.height then
    isUtf8 bytes = true ∧ RoomFor E eng.walLog sp.proposal.height
  else sp.Genuine E → LockHeight E eng.height sp.proposal.height → HandledTransparently E eng sp

/-- The votes for which the log is transparent: those that are never logged, can be logged, or are
rejected anyway. -/
def VoteTransparent (E : Env F) (eng : Consensus F) (sv : SignedVote) : Prop :=
  sv.Genuine E → LockHeight E eng.height sv.vote.height → eng.height ≤ sv.vote.height →
    (sv.vote.height - eng.height).toNat < CACHE_NUMBER →
      RoomFor E eng.walLog sv.vote.height ∨ ¬ eng.height < sv.vote.height ∧
        sv.vote.voter ∉ eng.authority.setAt sv.vote.height ∧ eng.votes.Latest sv.vote.height
          sv.vote.round sv.vote.voteType sv.vote.toBftVote

/-- Two turns that are rejected at once. -/
theorem sameEffects_of_errors {e e' : Stop ConsensusError} :
    SameEffects (.error e, s) (.error e', s) :=
  ⟨iff_of_false (by simp) (by simp), rfl, rfl, rfl, .refl _⟩

theorem forwardProposal_sameEffects_iff (hio : ∀ n, E.io n = .ok) (hserde : E.serde.Prints)
    (s : State F) (sp : SignedProposal) (bytes : Bytes) :
    SameEffects (Exec.result (forwardProposal (E.log true) sp bytes) s)
        (Exec.result (forwardProposal (E.log false) sp bytes) s) ↔
      (sp.Genuine E → LockHeight E s.eng.height sp.proposal.height →
        HandledTransparently E s.eng sp) := by
  obtain ⟨hon, hon'⟩ := forwardProposal_result (E := E) s sp bytes true
  obtain ⟨hoff, hoff'⟩ := forwardProposal_result (E := E) s sp bytes false
  by_cases hlogged : sp.Genuine E ∧ LockHeight E s.eng.height sp.proposal.height
  · have hm : ∀ w, Sim False Apart (settleProposal E sp (s.eng.height - 1) bytes)
        (settleProposal E sp (s.eng.height - 1) bytes) s (s.setWal w) :=
      fun w => settleProposal_apart (Apart.setWal s w) _ _ _
    have hsettle := (hoff hlogged).trans
      (Exec.result_bind_ok (Exec.result_doIf_of_not Bool.false_ne_true _ s))
    rw [hon hlogged, hsettle, sameEffects_logIf hm, exists_logs_iff hio, hserde.signedProposal,
      settleProposal_idle_iff s sp bytes hlogged.2]
    simp only [hlogged.1, hlogged.2, true_imp_iff, HandledTransparently]
  · obtain ⟨e, he⟩ := hon' hlogged
    obtain ⟨e', he'⟩ := hoff' hlogged
    rw [he, he']
    exact iff_of_true sameEffects_of_errors fun hg hh => absurd ⟨hg, hh⟩ hlogged

theorem forwardVote_sameEffects_iff (hio : ∀ n, E.io n = .ok) (hserde : E.serde.Prints)
    (s : State F) (sv : SignedVote) :
    SameEffects (Exec.result (forwardVote (E.log true) sv) s)
        (Exec.result (forwardVote (E.log false) sv) s) ↔ VoteTransparent E s.eng sv := by
  obtain ⟨hon, hon'⟩ := forwardVote_result (E := E) s sv true
  obtain ⟨hoff, hoff'⟩ := forwardVote_result (E := E) s sv false
  by_cases hlogged : sv.Genuine E ∧ LockHeight E s.eng.height sv.vote.height
  · have hm : ∀ w, Sim False Apart (settleVote E s.eng.height sv) (settleVote E s.eng.height sv) s
        (s.setWal w) := fun w => settleVote_apart (Apart.setWal s w) _ _
    have hsettle := (hoff hlogged).trans
      (Exec.result_bind_ok (Exec.result_doIf_of_not (fun h => Bool.false_ne_true h.1) _ s))
    rw [hon hlogged, hsettle, sameEffects_logIf hm, exists_logs_iff hio, settleVote_idle_iff]
    simp only [VoteTransparent, hlogged.1, hlogged.2, hserde.signedVote, true_and, true_imp_iff,
      and_imp]
  · obtain ⟨e, he⟩ := hon' hlogged
    obtain ⟨e', he'⟩ := hoff' hlogged
    rw [he, he']
    exact iff_of_true sameEffects_of_errors fun hg hh => absurd ⟨hg, hh⟩ hlogged

section

variable [Content F]

/-- The engine does the same with its log and without it. -/
def Transparent (E : Env F) (m : ConsensusInput) (s : State F) : Prop :=
  SameEffects (Exec.result (externalProcess (E.log true) m) s)
    (Exec.result (externalProcess (E.log false) m) s)

omit [Content F] in
/-- A proposal of the window is cached, and logged as it came. -/
theorem receiveProposal_window_iff (hio : ∀ n, E.io n = .ok) (s : State F) (sp : SignedProposal)
    (block : F) (bytes : Bytes) (hw : inWindow sp.proposal.height s.eng.height = true) :
    SameEffects (Exec.result (receiveProposal (E.log true) sp block bytes) s)
        (Exec.result (receiveProposal (E.log false) sp block bytes) s) ↔
      isUtf8 bytes = true ∧ RoomFor E s.eng.walLog sp.proposal.height := by
  obtain ⟨push, hpush⟩ : ∃ push : EngineM F PUnit, push = modify fun s => { s with
    eng.proposalCache := s.eng.proposalCache.pushEntry sp.proposal.height (sp, block, bytes) } :=
    ⟨_, rfl⟩
  have hidle : ¬ Idle push s := fun h => h.rejects (by rw [hpush]; rfl)
  have hm : ∀ w, Sim False Apart push push s (s.setWal w) := by
    intro w
    rw [hpush]
    exact .modify ⟨w, s.calls, rfl, rfl⟩
  have hoff : Exec.result (receiveProposal (E.log false) sp block bytes) s =
      Exec.result push s := by
    unfold receiveProposal
    rw [Exec.result_bind_get, if_pos hw, hpush]
    exact Exec.result_bind_ok
      (Exec.result_doIf_of_not (c := (E.log false).walOn = true) Bool.false_ne_true _ s)
  have hon : Exec.result (receiveProposal (E.log true) sp block bytes) s =
      Exec.result (Exec.rejectIf (isUtf8 bytes = false) (.serJsonErr "SignedProposal") >>= fun _ =>
        Exec.doIf True (saveJson E sp.proposal.height LOG_TYPE_SIGNED_PROPOSAL "SignedProposal"
          (some bytes)) >>= fun _ => push) s := by
    unfold receiveProposal
    rw [Exec.result_bind_get, if_pos hw, hpush]
    simp only [Exec.doIf, Env.log, saveJson, if_true, bind_assoc]
    rfl
  rw [hon, hoff]
  cases hutf : isUtf8 bytes with
  | false =>
    rw [Exec.result_bind_rejectIf_of rfl]
    have hstop := sameEffects_of_stop (m := push) (s := s) (w := s.walState)
      (e := .err (.serJsonErr "SignedProposal"))
    simp only [Bool.false_eq_true, false_and, iff_false]
    exact fun h => hidle (hstop.1 h)
  | true =>
    rw [Exec.result_bind_rejectIf (by simp), sameEffects_logIf hm, exists_logs_iff hio]
    simp [hidle]

/-- **The log is transparent for a proposal exactly if** it is never logged, can be logged, or is
rejected anyway. -/
theorem proposal_transparent_iff (hio : ∀ n, E.io n = .ok) (hserde : E.serde.Prints) (s : State F)
    {bytes : Bytes} {sp : SignedProposal} {block : F} {hash : Hash}
    (hd : decodeProposal E bytes = .ok (sp, block, hash)) :
    Transparent E (.signedProposal bytes) s ↔
      ProposalTransparent E (s.eng.withBlock hash block) sp bytes := by
  have hprocess : ∀ on, Exec.result (externalProcess (E.log on) (.signedProposal bytes)) s =
      Exec.result (receiveProposal (E.log on) sp block bytes)
        { s with eng := s.eng.withBlock hash block } := by
    intro on
    exact Exec.result_bind_lift (x := decodeProposal (E.log on) bytes) hd _ _
  unfold Transparent ProposalTransparent
  rw [hprocess, hprocess]
  split_ifs with hw
  · exact receiveProposal_window_iff hio { s with eng := s.eng.withBlock hash block } sp block bytes
      hw
  · have hforward : ∀ on, Exec.result (receiveProposal (E.log on) sp block bytes)
        { s with eng := s.eng.withBlock hash block } =
        Exec.result (forwardProposal (E.log on) sp bytes)
          { s with eng := s.eng.withBlock hash block } := by
      intro on
      unfold receiveProposal
      rw [Exec.result_bind_get, if_neg hw]
    rw [hforward, hforward]
    exact forwardProposal_sameEffects_iff hio hserde { s with eng := s.eng.withBlock hash block } sp
      bytes

omit [Content F] in
theorem processSignedVote_result {bytes : Bytes} {sv : SignedVote}
    (hd : SignedVote.decode E.rlp bytes = .ok sv) (s : State F) (on : Bool) :
    Exec.result (processSignedVote (E.log on) bytes) s =
      Exec.result (forwardVote (E.log on) sv) s := by
  have hd' : SignedVote.decode (E.log on).rlp bytes = .ok sv := hd
  unfold processSignedVote
  exact Exec.result_bind_lift (Exec.mapErr_eq_ok.2 hd') _ s

/-- A message that does not decode is rejected at once. -/
theorem transparent_of_error {m : ConsensusInput} {e e' : Stop ConsensusError}
    (h : Exec.result (externalProcess (E.log true) m) s = (.error e, s))
    (h' : Exec.result (externalProcess (E.log false) m) s = (.error e', s)) :
    Transparent E m s := by
  unfold Transparent
  rw [h, h']
  exact sameEffects_of_errors

/-- **If no file operation fails, the log is transparent for exactly the messages that are never
logged, can be logged, or are rejected anyway**, in every state of the engine. -/
theorem transparent_iff (hio : ∀ n, E.io n = .ok) (hserde : E.serde.Prints) (s : State F) :
    (∀ bytes, (Transparent E (.signedProposal bytes) s ↔
      ∀ sp block hash, decodeProposal E bytes = .ok (sp, block, hash) →
        ProposalTransparent E (s.eng.withBlock hash block) sp bytes)) ∧
    ∀ bytes, (Transparent E (.signedVote bytes) s ↔
      ∀ sv, SignedVote.decode E.rlp bytes = .ok sv → VoteTransparent E s.eng sv) := by
  constructor
  · intro bytes
    cases hd : decodeProposal E bytes with
    | ok x =>
      obtain ⟨sp, block, hash⟩ := x
      rw [proposal_transparent_iff hio hserde s hd]
      constructor
      · rintro h _ _ _ ⟨⟩
        exact h
      · exact fun h => h sp block hash rfl
    | error e =>
      have herror : ∀ on, Exec.result (externalProcess (E.log on) (.signedProposal bytes)) s =
          (.error e, s) := by
        intro on
        exact Exec.result_bind_lift_error (x := decodeProposal (E.log on) bytes) hd _ s
      exact iff_of_true (transparent_of_error (herror true) (herror false)) nofun
  · intro bytes
    cases hd : SignedVote.decode E.rlp bytes with
    | ok sv =>
      unfold Transparent externalProcess
      rw [processSignedVote_result hd, processSignedVote_result hd,
        forwardVote_sameEffects_iff hio hserde]
      constructor
      · rintro h _ ⟨⟩
        exact h
      · exact fun h => h sv rfl
    | error e =>
      have herror : ∀ on, ∃ e', Exec.result (processSignedVote (E.log on) bytes) s =
          (.error e', s) := by
        intro on
        have hd' : SignedVote.decode (E.log on).rlp bytes = .error e := hd
        unfold processSignedVote
        rw [hd']
        cases e with
        | err e => exact ⟨_, Exec.result_bind_lift_error rfl _ s⟩
        | panicked => exact ⟨_, Exec.result_bind_lift_error rfl _ s⟩
      obtain ⟨e₁, h₁⟩ := herror true
      obtain ⟨e₂, h₂⟩ := herror false
      exact iff_of_true (transparent_of_error h₁ h₂) nofun

end

/-! ### Runs -/

/-- The application of the node `[7]` with a serializer that writes every vote. -/
def Reference.printEnv : Env Block :=
  { Reference.readyLog with
    serde :=
      { Reference.readyLog.serde with
        signedVote := ⟨fun sv => some (Reference.signedVoteText sv), fun _ => none⟩ } }

theorem Reference.printEnv_prints : Reference.printEnv.serde.Prints where
  signedVote _ := rfl
  signedProposal sp := by
    change (Reference.signedProposalText sp).isSome ↔ _
    unfold Reference.signedProposalText Reference.proofText
    by_cases h : sp.proposal.proof.precommitVotes.entries = [] <;> simp [h]

theorem transparent_iff_ready :
    ∃ p, Life Reference.printEnv [7] Reference.disk (Reference.readyRun [7]) p ∧
      Transparent Reference.printEnv
        (.signedVote (Reference.voteBytes .prevote 1 0 [9] [7])) p.state := by
  obtain ⟨p, hl, hf⟩ := Reference.exists_life Reference.printEnv [7] (Reference.readyRun [7])
    (fun p => decide (p.state.eng.walLog.currentHeight = 1)) (by decide +kernel)
  refine ⟨p, hl, ((transparent_iff (fun _ => rfl) Reference.printEnv_prints p.state).2 _).2 ?_⟩
  intro sv _ _ _ _ _
  refine .inl fun hfull => ?_
  have hmax := hfull.2.2
  rw [of_decide_eq_true hf] at hmax
  exact absurd hmax (by decide)

/-- The bytes of a proposal of height `2`, which are no text. -/
def binaryProposal : Bytes :=
  Reference.proposalBytes (Reference.signedProposal 2 0 [9] none [] [7]) [9] [9]

/-- **A proposal of the window is accepted and cached without the log, and with it rejected and
dropped.** -/
theorem binary_proposal_not_transparent :
    ∃ p, Life Reference.printEnv [7] Reference.disk (Reference.readyRun [7]) p ∧
      (Exec.result (externalProcess (Reference.printEnv.log false) (.signedProposal binaryProposal))
        p.state).1 = .ok ⟨⟩ ∧
      (Exec.result (externalProcess (Reference.printEnv.log true) (.signedProposal binaryProposal))
        p.state).1 = .error (.err (.serJsonErr "SignedProposal")) ∧
      ¬ Transparent Reference.printEnv (.signedProposal binaryProposal) p.state := by
  obtain ⟨p, hl, hf⟩ := Reference.exists_life Reference.printEnv [7] (Reference.readyRun [7])
    (fun p => decide ((Exec.result (externalProcess (Reference.printEnv.log false)
        (.signedProposal binaryProposal)) p.state).1 = .ok ⟨⟩ ∧
      (Exec.result (externalProcess (Reference.printEnv.log true)
        (.signedProposal binaryProposal)) p.state).1 =
          .error (.err (.serJsonErr "SignedProposal"))))
    (by decide +kernel)
  obtain ⟨hoff, hon⟩ := of_decide_eq_true hf
  refine ⟨p, hl, hoff, hon, fun h => ?_⟩
  have haccepts := h.accepts.2 hoff
  rw [hon] at haccepts
  cases haccepts

end ConsensusBft

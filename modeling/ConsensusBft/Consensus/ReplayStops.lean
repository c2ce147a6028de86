import ConsensusBft.Consensus.RecordFormat
import ConsensusBft.Wal.Records

/-!
# What stops the replay

* `handled E bytes m` : the handler of a message of the log; it returns how its result is passed
  on.  `result_replayMessage` : the error of a handler is returned for signed proposals, and dropped
  for all other messages.
* `Rejects E record s s'` : the handler of the record returns an error and leaves `s'`.
* `Stops E record s` : the record cannot be read, or is a signed proposal that is rejected, or has a
  result that cannot be passed on.
* `replay_goes_on_iff` : **a rejected record does not stop the replay exactly if it is no signed
  proposal or is the last one, and exactly the records after one that stops are not handed over.**
-/

namespace ConsensusBft

variable {F : Type} [Content F] {E : Env F} {s s' : State F} {p p' p₀ : Process F} {n : ℕ}
variable {record : UInt8 × Bytes} {records : List (UInt8 × Bytes)} {bytes : Bytes}

/-! ### Handlers -/

/-- The handler that `load_wal_log` calls for a message that it read from the record `bytes`.  The
handler returns what is done with its result. -/
def handled (E : Env F) (bytes : Bytes) : LogMessage F → EngineM F (EngineM F PUnit)
  | .signedProposal signedProposal block hash => do
    modify fun s => { s with eng.blockOriginCache := s.eng.blockOriginCache.orInsert hash block }
    let s ← get
    let height := signedProposal.proposal.height
    Exec.doIf (inWindow height s.eng.height) do
      modify fun s => { s with
        eng.proposalCache := s.eng.proposalCache.pushEntry height (signedProposal, block, bytes) }
    let res ← handleSignedProposal E signedProposal true bytes
    return sendProposal E res.1 res.2
  | .bareProposal _ => return pure ⟨⟩
  | .signedVote msg => do
    let vote ← handleSignedVote E msg false
    return sendBft E (.vote vote) "BftVote"
  | .status msg => do
    let status ← handleRichStatus E msg false
    return sendBft E (.status status) "BftStatus"
  | .feed msg => return acceptFeed E msg "BftFeed"
  | .verifyResp msg => return acceptVerdict E msg "BftVerifyResp"
  | .bftProposal proposal => do
    let signedProposal ← handleProposal E proposal false
    return do
      let res ← callTransmit E (.signedProposal signedProposal)
      let _ ← orErr res fun _ => .sendMsgErr "SignedProposal"
  | .bftVote vote => do
    let signedVote ← handleVote E vote false
    return do
      let res ← callTransmit E (.signedVote signedVote.rlpBytes)
      let _ ← orErr res fun _ => .sendMsgErr "SignedVote"
  | .bftCommit commit => do
    let commit ← handleCommit E commit true
    return do
      let res ← callCommit E commit
      let _ ← orErr res fun _ => .sendMsgErr "Commit"

omit [Content F] in
/-- Passing a result on after the call that returns it. -/
theorem result_ifOk_return {α : Type} (m : EngineM F α) (f : α → EngineM F PUnit) (s : State F) :
    Exec.result (Exec.ifOk m f) s =
      Exec.result (Exec.ifOk (m >>= fun a => pure (f a)) id) s := by
  cases hm : Exec.result m s with
  | mk r s' =>
    cases r with
    | ok a =>
      have hreturn : Exec.result (m >>= fun a => pure (f a)) s = (.ok (f a), s') :=
        Exec.result_bind_ok hm
      rw [Exec.result_ifOk_ok hm, Exec.result_ifOk_ok hreturn]
      rfl
    | error e =>
      have hbind : Exec.result (m >>= fun a => pure (f a)) s = (.error e, s') :=
        Exec.result_bind_error hm
      cases e with
      | err e => rw [Exec.result_ifOk_err hm, Exec.result_ifOk_err hbind]
      | panicked => rw [Exec.result_ifOk_panicked hm, Exec.result_ifOk_panicked hbind]

/-- **The error of a handler is returned for signed proposals, and dropped for all other
messages.** -/
theorem result_replayMessage (m : LogMessage F) (s : State F) :
    Exec.result (replayMessage E bytes m) s =
      Exec.result (if m.tag = LOG_TYPE_SIGNED_PROPOSAL then handled E bytes m >>= id
        else Exec.ifOk (handled E bytes m) id) s := by
  cases m with
  | signedProposal sp block hash =>
    simp only [LogMessage.tag, if_true, replayMessage, handled, replayProposal, forwardProposal,
      bind_assoc, pure_bind, id]
  | bareProposal sp => rfl
  | feed f => rfl
  | verifyResp vr => rfl
  | _ => exact result_ifOk_return _ _ s

omit [Content F] in
/-- A rejected message is dropped, unless it is a signed proposal. -/
theorem result_rejected {m : EngineM F (EngineM F PUnit)} {e : ConsensusError} {c : Prop}
    [Decidable c] (h : Exec.result m s = (.error (.err e), s')) :
    Exec.result (if c then m >>= id else Exec.ifOk m id) s =
      (if c then .error (.err e) else .ok ⟨⟩, s') := by
  split_ifs
  · exact Exec.result_bind_error h
  · exact Exec.result_ifOk_err h

omit [Content F] in
/-- What is accepted is passed on. -/
theorem result_accepted {m : EngineM F (EngineM F PUnit)} {pass : EngineM F PUnit} {c : Prop}
    [Decidable c] (h : Exec.result m s = (.ok pass, s')) :
    Exec.result (if c then m >>= id else Exec.ifOk m id) s = Exec.result pass s' := by
  split_ifs
  · exact Exec.result_bind_ok h
  · exact Exec.result_ifOk_ok h

omit [Content F] in
theorem result_crashed {m : EngineM F (EngineM F PUnit)} {c : Prop} [Decidable c]
    (h : Exec.result m s = (.error .panicked, s')) :
    Exec.result (if c then m >>= id else Exec.ifOk m id) s = (.error .panicked, s') := by
  split_ifs
  · exact Exec.result_bind_error h
  · exact Exec.result_ifOk_panicked h

/-- A message is read from a record with its own tag. -/
theorem tag_of_readRecord {m : LogMessage F} (h : readRecord E record = .ok (some m)) :
    m.tag = record.1 := by
  obtain ⟨tag, msg⟩ := record
  unfold readRecord at h
  dsimp only at h
  split_ifs at h with h₁ h₂ h₃ h₄ h₅ h₆ h₇ h₈
  case neg => cases h
  all_goals
    obtain ⟨a, -, ha⟩ := Outcome.bind_eq_ok.1 h
    obtain rfl := Option.some.inj (Except.ok.inj ha)
    symm
    assumption

/-! ### One record -/

/-- The handler of the record rejects its message and leaves `s'`. -/
def Rejects (E : Env F) (record : UInt8 × Bytes) (s s' : State F) : Prop :=
  ∃ m e, readRecord E record = .ok (some m) ∧
    Exec.result (handled E record.2 m) s = (.error (.err e), s')

/-- The record stops the replay. -/
inductive Stops (E : Env F) (record : UInt8 × Bytes) (s : State F) : Prop
  /-- It is not the text of a message. -/
  | unreadable {e} (read : readRecord E record = .error (.err e))
  /-- It is a signed proposal that is rejected. -/
  | rejected {s₁} (tag : record.1 = LOG_TYPE_SIGNED_PROPOSAL) (rejects : Rejects E record s s₁)
  /-- Its message is handled, and the result cannot be passed on. -/
  | unsent {m pass s₁ e s₂} (read : readRecord E record = .ok (some m))
      (handled : Exec.result (handled E record.2 m) s = (.ok pass, s₁))
      (fails : Exec.result pass s₁ = (.error (.err e), s₂))

/-- A record of a message is handled. -/
theorem result_loadRecord {m : LogMessage F} (h : readRecord E record = .ok (some m)) :
    Exec.result (loadRecord E record) s =
      Exec.result (if record.1 = LOG_TYPE_SIGNED_PROPOSAL then handled E record.2 m >>= id
        else Exec.ifOk (handled E record.2 m) id) s := by
  rw [loadRecord_eq, Exec.result_bind_lift h, ← tag_of_readRecord h, ← result_replayMessage]
  rfl

/-- A record that is handled without an error leaves the records behind it. -/
theorem next_of_ok (hp : p.pending = record :: records)
    (hload : Exec.result (loadRecord E record) p.state = (.ok ⟨⟩, s')) :
    next E .replay p = some ⟨s', records⟩ := by
  simp only [next, replayNext, hp, hload]

/-- After an error no record is left. -/
theorem next_of_err {e : ConsensusError} (hp : p.pending = record :: records)
    (hload : Exec.result (loadRecord E record) p.state = (.error (.err e), s')) :
    next E .replay p = some ⟨s', []⟩ := by
  simp only [next, replayNext, hp, hload]

/-- A panic ends the engine. -/
theorem next_of_panicked (hp : p.pending = record :: records)
    (hload : Exec.result (loadRecord E record) p.state = (.error .panicked, s')) :
    next E .replay p = none := by
  simp only [next, replayNext, hp, hload]

/-- **After a rejected signed proposal no record is left; after any other rejected message, the
replay goes on from the state that its handler left.** -/
theorem next_of_rejects (hp : p.pending = record :: records)
    (h : Rejects E record p.state s') :
    next E .replay p =
      some ⟨s', if record.1 = LOG_TYPE_SIGNED_PROPOSAL then [] else records⟩ := by
  obtain ⟨m, e, hread, hm⟩ := h
  have hload := (result_loadRecord hread).trans (result_rejected hm)
  split_ifs at hload ⊢
  · exact next_of_err hp hload
  · exact next_of_ok hp hload

/-- After a record that stops, no record is left. -/
theorem next_of_stops (hp : p.pending = record :: records) (h : Stops E record p.state) :
    ∃ s', next E .replay p = some ⟨s', []⟩ := by
  cases h with
  | @unreadable e read =>
    have hload := Exec.result_bind_lift_error read
      (fun m => m.elim (pure ⟨⟩) (replayMessage E record.2)) p.state
    rw [← loadRecord_eq] at hload
    exact ⟨p.state, next_of_err hp hload⟩
  | @rejected s₁ tag rejects =>
    refine ⟨s₁, (next_of_rejects hp rejects).trans ?_⟩
    rw [if_pos tag]
  | @unsent m pass s₁ e s₂ read handled fails =>
    have hload := ((result_loadRecord read).trans (result_accepted handled)).trans fails
    exact ⟨s₂, next_of_err hp hload⟩

/-- After any other record, the records behind it are left. -/
theorem pending_of_not_stops (hp : p.pending = record :: records)
    (h : ¬ Stops E record p.state) (hn : next E .replay p = some p') : p'.pending = records := by
  have kept : ∀ {s'}, Exec.result (loadRecord E record) p.state = (.ok ⟨⟩, s') →
      p'.pending = records := by
    intro s' hload
    obtain rfl := Option.some.inj (hn.symm.trans (next_of_ok hp hload))
    rfl
  -- a turn that panics has no state after it
  have alive : ∀ {s'}, Exec.result (loadRecord E record) p.state ≠ (.error .panicked, s') :=
    fun hload => nomatch hn.symm.trans (next_of_panicked hp hload)
  cases hread : readRecord E record with
  | error e =>
    cases e with
    | err e => exact absurd (.unreadable hread) h
    | panicked =>
      refine absurd ?_ (@alive p.state)
      rw [loadRecord_eq]
      exact Exec.result_bind_lift_error hread _ _
  | ok m =>
    cases m with
    | none =>
      refine @kept p.state ?_
      rw [loadRecord_eq, Exec.result_bind_lift hread]
      rfl
    | some m =>
      have hload := result_loadRecord (s := p.state) hread
      cases hm : Exec.result (handled E record.2 m) p.state with
      | mk r s₁ =>
        cases r with
        | ok pass =>
          rw [result_accepted hm] at hload
          cases hpass : Exec.result pass s₁ with
          | mk r s₂ =>
            rw [hpass] at hload
            cases r with
            | ok a => exact kept hload
            | error e =>
              cases e with
              | err e => exact absurd (.unsent hread hm hpass) h
              | panicked => exact absurd hload alive
        | error e =>
          cases e with
          | panicked => exact absurd (hload.trans (result_crashed hm)) alive
          | err e =>
            rw [result_rejected hm] at hload
            split_ifs at hload with htag
            · exact absurd (.rejected htag ⟨m, e, hread, hm⟩) h
            · exact kept hload

/-! ### Replays -/

/-- By `n` turns of the replay that starts at `p₀`, the engine reaches `p`. -/
def Replayed (E : Env F) (p₀ : Process F) (n : ℕ) (p : Process F) : Prop :=
  Machine.runFrom (next E) p₀ (List.replicate n .replay) = some p

theorem Replayed.zero (E : Env F) (p₀ : Process F) : Replayed E p₀ 0 p₀ := rfl

theorem replayed_succ :
    Replayed E p₀ (n + 1) p' ↔ ∃ p, Replayed E p₀ n p ∧ next E .replay p = some p' := by
  unfold Replayed
  rw [List.replicate_succ', Machine.runFrom_snoc]

/-- Exactly if no record before the last one stops, each turn hands one record over. -/
theorem pending_iff :
    (∀ n p, Replayed E p₀ n p → p.pending = p₀.pending.drop n) ↔
      ∀ n p record records, Replayed E p₀ n p → p.pending = record :: records →
        Stops E record p.state → records = [] := by
  constructor
  · intro h n p record records hr hp hs
    obtain ⟨s', hn⟩ := next_of_stops hp hs
    have hdrop := h (n + 1) _ (replayed_succ.2 ⟨p, hr, hn⟩)
    rw [← List.drop_drop, ← h n p hr, hp] at hdrop
    exact hdrop.symm
  · intro h n
    induction n with
    | zero =>
      intro p hr
      obtain rfl := Option.some.inj hr
      rfl
    | succ n ih =>
      intro p' hr
      obtain ⟨p, hr, hn⟩ := replayed_succ.1 hr
      rw [← List.drop_drop, ← ih p hr]
      obtain ⟨record, records, hp, hsuffix, -⟩ := pending_of_replayNext hn
      rw [hp]
      by_cases hs : Stops E record p.state
      · obtain rfl := h n p record records hr hp hs
        exact List.suffix_nil.1 hsuffix
      · exact pending_of_not_stops hp hs hn

end ConsensusBft

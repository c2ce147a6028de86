import ConsensusBft.Consensus.ReplayStops
import ConsensusBft.Consensus.Transparency
import ConsensusBft.Wal.Unchanged

/-!
# What a replay writes to the log

* `Rewrites E s m` : replaying the message `m` in the state `s` changes the log: a signed proposal
  or a commit is logged once more, or a status moves the log to another height.
* `replayMessage_sameFiles` : **any other message leaves index and files as they are**, whichever
  file operations fail; `not_sameFiles_of_rewrites` : if none fails, these messages do not.
* `CutOff E p₀ d` : the replay that starts at `p₀` is cut off and leaves the disk `d`.
* `Harmless E p₀` : no record of this replay rewrites the log; `Harmless.sameFiles` : then it leaves
  index and files as they were.
-/

namespace ConsensusBft

open Disk (SameFiles)
open Exec (Sim)
open Wal (Adds Shifts)

variable {F : Type} {E : Env F} {s t : State F}

/-! ### Logging -/

/-- The log after a text was saved, if there is one. -/
def afterLog (E : Env F) (w : WalState) (height : UInt64) (tag : UInt8) : Option Bytes → WalState
  | some msg => (Exec.result (Wal.save E.io E.overflowChecks height tag msg) w).2
  | none => w

theorem saveJson_walState (height : UInt64) (tag : UInt8) (name : String) (json : Option Bytes) :
    (Exec.result (saveJson E height tag name json) s).2 =
      s.setWal (afterLog E s.walState height tag json) := by
  cases json with
  | none => rfl
  | some msg =>
    unfold saveJson walSave afterLog
    simp only [Exec.result_bind, Exec.result_zoomTry]
    cases Exec.result (Wal.save E.io E.overflowChecks height tag msg) s.walState with
    | mk r w =>
      cases r with
      | ok n => rfl
      | error e => cases e <;> rfl

/-- The log after a computation that logs first, or not. -/
theorem logIf_walState {α : Type} {m : EngineM F α}
    (hm : ∀ s, (Exec.result m s).2.walState = s.walState) (c : Prop) [Decidable c]
    (height : UInt64) (tag : UInt8) (name : String) (json : Option Bytes) :
    (Exec.result (Exec.doIf c (saveJson E height tag name json) >>= fun _ => m) s).2.walState =
      if c then afterLog E s.walState height tag json else s.walState := by
  by_cases hc : c
  · have hsave := saveJson_walState (E := E) (s := s) height tag name json
    rw [if_pos hc]
    cases hr : Exec.result (saveJson E height tag name json) s with
    | mk r s' =>
      obtain rfl : s' = _ := (congrArg Prod.snd hr).symm.trans hsave
      cases r with
      | ok a => rw [Exec.result_bind_ok ((Exec.result_doIf_of hc _ s).trans hr), hm]; rfl
      | error e => rw [Exec.result_bind_error ((Exec.result_doIf_of hc _ s).trans hr)]; rfl
  · rw [if_neg hc, Exec.result_bind_ok (Exec.result_doIf_of_not hc _ s), hm]

theorem ifOk_walState {α : Type} {m : EngineM F α} {f : α → EngineM F PUnit}
    (hf : ∀ a s, (Exec.result (f a) s).2.walState = s.walState) :
    (Exec.result (Exec.ifOk m f) s).2.walState = (Exec.result m s).2.walState := by
  cases hr : Exec.result m s with
  | mk r s' =>
    cases r with
    | ok a => rw [Exec.result_ifOk_ok hr, hf]
    | error e =>
      cases e with
      | err e => rw [Exec.result_ifOk_err hr]
      | panicked => rw [Exec.result_ifOk_panicked hr]

/-! ### Messages that are logged again -/

/-- **Replaying the message changes the log.** -/
inductive Rewrites (E : Env F) (s : State F) : LogMessage F → Prop
  /-- A signed proposal is handled, and logged once more. -/
  | signedProposal {sp : SignedProposal} {block : F} {hash : Hash} {msg : Bytes}
      (genuine : sp.Genuine E) (height : LockHeight E s.eng.height sp.proposal.height)
      (on : E.walOn = true) (text : E.serde.signedProposal.toString sp = some msg)
      (adds : Adds E.overflowChecks s.walState sp.proposal.height msg) :
      Rewrites E s (.signedProposal sp block hash)
  /-- A commit is not obsolete, and logged once more. -/
  | commit {c : BftCommit} {msg : Bytes} (height : s.eng.height ≤ c.height)
      (on : E.walOn = true) (text : E.serde.bftCommit.toString c = some msg)
      (adds : Adds E.overflowChecks s.walState c.height msg) : Rewrites E s (.bftCommit c)
  /-- A status is not obsolete, and the log is moved. -/
  | status {rs : Status} (height : s.eng.height ≤ rs.height)
      (fits : ¬ (E.overflowChecks = true ∧ rs.height + 1 = 0))
      (shifts : Shifts s.walState (rs.height + 1)) : Rewrites E s (.status rs)

/-! ### The log after a message was replayed -/

theorem settleProposal_walState (s : State F) (sp : SignedProposal) (prev : UInt64)
    (bytes : Bytes) :
    (Exec.result (settleProposal E sp prev bytes) s).2.walState = s.walState :=
  walState_of_beside fun _ _ h => settleProposal_beside h sp prev bytes

theorem sendBft_walState (msg : CoreInput) (name : String) (s : State F) :
    (Exec.result (sendBft E msg name) s).2.walState = s.walState :=
  walState_of_beside fun _ _ h => sendBft_beside h msg name

/-- A proposal is logged if its signature is that of its proposer and its height passes. -/
theorem forwardProposal_walState (s : State F) (sp : SignedProposal) (bytes : Bytes) :
    (sp.Genuine E ∧ LockHeight E s.eng.height sp.proposal.height →
      (Exec.result (forwardProposal E sp bytes) s).2.walState =
        if E.walOn = true then afterLog E s.walState sp.proposal.height LOG_TYPE_SIGNED_PROPOSAL
          (E.serde.signedProposal.toString sp) else s.walState) ∧
    (¬ (sp.Genuine E ∧ LockHeight E s.eng.height sp.proposal.height) →
      (Exec.result (forwardProposal E sp bytes) s).2.walState = s.walState) := by
  obtain ⟨hpass, hfail⟩ := forwardProposal_result (E := E) s sp bytes E.walOn
  constructor
  · intro hg
    refine (congrArg (fun r => r.2.walState) (hpass hg)).trans ?_
    exact logIf_walState (fun s => settleProposal_walState s sp _ bytes) _ _ _ _ _
  · intro hg
    obtain ⟨e, he⟩ := hfail hg
    exact congrArg (fun r => r.2.walState) he

/-- A status moves the log if it is not obsolete and there is a height after its own. -/
theorem handleRichStatus_walState (s : State F) (rs : Status) :
    (Exec.result (handleRichStatus E rs false) s).2.walState =
      if s.eng.height ≤ rs.height ∧ ¬ (E.overflowChecks = true ∧ rs.height + 1 = 0) then
        (Exec.result (Wal.setHeight E.io (rs.height + 1)) s.walState).2 else s.walState := by
  unfold handleRichStatus gotoNewHeight
  rw [Exec.result_bind_get]
  by_cases hlt : rs.height < s.eng.height
  · rw [Exec.result_bind_rejectIf_of hlt, if_neg fun h => UInt64.not_lt.2 h.1 hlt]
  rw [Exec.result_bind_rejectIf hlt, Exec.result_bind_ok (Exec.result_doIf_of_not (by simp) _ s),
    Exec.result_bind_modify]
  simp only [bind_assoc]
  rw [Exec.result_bind_modify]
  by_cases hwraps : E.overflowChecks = true ∧ rs.height + 1 = 0
  · rw [Exec.result_bind_lift_error (by rw [add64_one, if_pos hwraps]), if_neg fun h => h.2 hwraps]
    rfl
  rw [Exec.result_bind_lift (by rw [add64_one, if_neg hwraps]), Exec.result_bind_modify,
    if_pos ⟨UInt64.not_lt.1 hlt, hwraps⟩]
  simp only [Exec.result_bind, Exec.result_zoomTry]
  unfold State.walState
  cases Exec.result (Wal.setHeight E.io (rs.height + 1)) ⟨s.eng.walLog, s.disk⟩ with
  | mk r w =>
    cases r with
    | ok u => rfl
    | error e => cases e <;> rfl

/-- A commit is logged if it is not obsolete. -/
theorem handleCommit_walState (s : State F) (c : BftCommit) :
    (Exec.result (handleCommit E c true) s).2.walState =
      if s.eng.height ≤ c.height ∧ E.walOn = true then
        afterLog E s.walState c.height LOG_TYPE_COMMIT (E.serde.bftCommit.toString c)
      else s.walState := by
  rw [handleCommit_eq, Exec.result_bind_get]
  by_cases hlt : c.height < s.eng.height
  · rw [Exec.result_bind_rejectIf_of hlt, if_neg fun h => UInt64.not_lt.2 h.1 hlt]
  rw [Exec.result_bind_rejectIf hlt, logIf_walState fun _ =>
    walState_of_beside fun _ _ h => settleCommit_beside h c]
  simp only [Bool.and_true, UInt64.not_lt.1 hlt, true_and]

section

variable [Content F] {m : LogMessage F} {bytes : Bytes} {record : UInt8 × Bytes}

/-- Signed proposals, statuses and commits may be logged, or move the log, when they are
replayed. -/
def LogMessage.Loud : LogMessage F → Prop
  | .signedProposal .. | .status _ | .bftCommit _ => True
  | _ => False

/-- **Replaying any other message does not depend on the log.** -/
theorem replayMessage_beside {W : WalState → WalState → Prop} (hm : ¬ m.Loud) (h : Beside W s t) :
    Sim False (Beside W) (replayMessage E bytes m) (replayMessage E bytes m) s t := by
  cases m with
  | bareProposal sp => exact .pure h
  | signedVote sv => exact .ifOk (handleSignedVote_beside h sv) fun _ _ _ h => sendBft_beside h _ _
  | feed f => exact acceptFeed_beside h f _
  | verifyResp vr => exact acceptVerdict_beside h vr _
  | bftProposal p =>
    exact .ifOk (handleProposal_beside h p) fun _ _ _ h => .bind (callTransmit_beside h _)
      fun _ _ _ _ h => .bind (orErr_beside h _ _) fun _ _ _ _ h => .pure h
  | bftVote v =>
    exact .ifOk (handleVote_beside h v) fun _ _ _ h => .bind (callTransmit_beside h _)
      fun _ _ _ _ h => .bind (orErr_beside h _ _) fun _ _ _ _ h => .pure h
  | _ => exact absurd trivial hm

/-- A signed proposal is replayed by handling it, once its block is cached. -/
theorem replayMessage_proposal (s : State F) (sp : SignedProposal) (block : F) (hash : Hash) :
    ∃ s', s'.walState = s.walState ∧ s'.eng.height = s.eng.height ∧
      Exec.result (replayMessage E bytes (.signedProposal sp block hash)) s =
        Exec.result (forwardProposal E sp bytes) s' := by
  unfold replayMessage replayProposal Exec.doIf
  rw [Exec.result_bind_modify, Exec.result_bind_get]
  dsimp only
  split_ifs
  · rw [Exec.result_bind_modify]
    refine ⟨_, ?_, ?_, rfl⟩
    · rfl
    · rfl
  · refine ⟨_, ?_, ?_, rfl⟩
    · rfl
    · rfl

theorem replayMessage_status (s : State F) (rs : Status) :
    (Exec.result (replayMessage E bytes (.status rs)) s).2.walState =
      (Exec.result (handleRichStatus E rs false) s).2.walState :=
  ifOk_walState fun _ s => sendBft_walState _ _ s

theorem replayMessage_commit (s : State F) (c : BftCommit) :
    (Exec.result (replayMessage E bytes (.bftCommit c)) s).2.walState =
      (Exec.result (handleCommit E c true) s).2.walState :=
  ifOk_walState fun _ _ => walState_of_beside fun _ _ h => .bind (callCommit_beside h _)
    fun _ _ _ _ h => .bind (orErr_beside h _ _) fun _ _ _ _ h => .pure h

omit [Content F] in
/-- Saving a text that adds nothing changes no file. -/
theorem afterLog_sameFiles {w : WalState} {height : UInt64} {tag : UInt8} {json : Option Bytes}
    (h : ∀ msg, json = some msg → ¬ Adds E.overflowChecks w height msg) :
    SameFiles w.disk (afterLog E w height tag json).disk := by
  cases json with
  | none => exact .refl _
  | some msg => exact Wal.save_sameFiles (h msg rfl)

omit [Content F] in
/-- If no file operation fails, what saving adds is seen. -/
theorem not_sameFiles_afterLog (hio : ∀ n, E.io n = .ok) {w : WalState} {height : UInt64}
    {tag : UInt8} {msg : Bytes} (h : Adds E.overflowChecks w height msg) :
    ¬ SameFiles w.disk (afterLog E w height tag (some msg)).disk := by
  obtain ⟨n, hn⟩ := Wal.save_result hio E.overflowChecks height (tag, msg) w h.fits
  change ¬ SameFiles w.disk (Exec.result (Wal.save E.io E.overflowChecks height tag msg) w).2.disk
  rw [hn]
  exact fun hsame => (Wal.saved_sameFiles_iff h.fits).1 hsame h

omit [Content F] in
/-- Whether a turn changes the files is seen in the log that it leaves. -/
theorem sameFiles_iff {s' : State F} {w : WalState} (hs : s'.walState = w) :
    SameFiles s.disk s'.disk ↔ SameFiles s.walState.disk w.disk := by
  subst hs
  exact Iff.rfl

/-- **A message that does not rewrite the log leaves index and files as they are**, whichever file
operations fail and however its turn ends. -/
theorem replayMessage_sameFiles (h : ¬ Rewrites E s m) :
    SameFiles s.disk (Exec.result (replayMessage E bytes m) s).2.disk := by
  by_cases hm : m.Loud
  swap
  · exact (sameFiles_iff (walState_of_beside fun _ _ => replayMessage_beside hm)).2 (.refl _)
  cases m with
  | signedProposal sp block hash =>
    obtain ⟨s', hw, hheight, hr⟩ := @replayMessage_proposal F E _ bytes s sp block hash
    obtain ⟨hpass, hfail⟩ := forwardProposal_walState (E := E) s' sp bytes
    rw [hw, hheight] at hpass hfail
    rw [hr]
    by_cases hg : sp.Genuine E ∧ LockHeight E s.eng.height sp.proposal.height
    · refine (sameFiles_iff (hpass hg)).2 ?_
      split_ifs with hon
      · exact afterLog_sameFiles fun msg htext hadds =>
          h (.signedProposal hg.1 hg.2 hon htext hadds)
      · exact .refl _
    · exact (sameFiles_iff (hfail hg)).2 (.refl _)
  | status rs =>
    refine (sameFiles_iff ((replayMessage_status s rs).trans
      (handleRichStatus_walState s rs))).2 ?_
    split_ifs with hlet
    · exact Wal.setHeight_sameFiles fun hshifts => h (.status hlet.1 hlet.2 hshifts)
    · exact .refl _
  | bftCommit c =>
    refine (sameFiles_iff ((replayMessage_commit s c).trans (handleCommit_walState s c))).2 ?_
    split_ifs with hlet
    · exact afterLog_sameFiles fun msg htext hadds => h (.commit hlet.1 hlet.2 htext hadds)
    · exact .refl _
  | _ => exact hm.elim

/-- **If no file operation fails, a message that rewrites the log changes a file or the index.** -/
theorem not_sameFiles_of_rewrites (hio : ∀ n, E.io n = .ok) (h : Rewrites E s m) :
    ¬ SameFiles s.disk (Exec.result (replayMessage E bytes m) s).2.disk := by
  cases h with
  | @signedProposal sp block hash msg genuine height on text adds =>
    obtain ⟨s', hw, hheight, hr⟩ := @replayMessage_proposal F E _ bytes s sp block hash
    obtain ⟨hpass, -⟩ := forwardProposal_walState (E := E) s' sp bytes
    rw [hw, hheight] at hpass
    rw [hr]
    rw [sameFiles_iff (hpass ⟨genuine, height⟩)]
    rw [if_pos on, text]
    exact not_sameFiles_afterLog hio adds
  | @commit c msg height on text adds =>
    rw [sameFiles_iff ((replayMessage_commit s c).trans (handleCommit_walState s c))]
    rw [if_pos ⟨height, on⟩, text]
    exact not_sameFiles_afterLog hio adds
  | @status rs height fits shifts =>
    rw [sameFiles_iff ((replayMessage_status s rs).trans (handleRichStatus_walState s rs))]
    rw [if_pos ⟨height, fits⟩, Wal.setHeight_result hio]
    exact fun hsame => Wal.moved_sameFiles_iff.1 hsame shifts

/-! ### Replays that leave the files as they were -/

/-- No record of the replay that starts at `p₀` rewrites the log. -/
def Harmless (E : Env F) (p₀ : Process F) : Prop :=
  ∀ n p record records m, Replayed E p₀ n p → p.pending = record :: records →
    readRecord E record = .ok (some m) → ¬ Rewrites E p.state m

/-- The disk when the replay that starts at `p₀` is cut off: between two records, or by the last
one, which may panic. -/
inductive CutOff (E : Env F) (p₀ : Process F) : Disk → Prop
  | between {n : ℕ} {p : Process F} (h : Replayed E p₀ n p) : CutOff E p₀ p.state.disk
  | ended {n : ℕ} {p : Process F} {record : UInt8 × Bytes} {records : List (UInt8 × Bytes)}
      (h : Replayed E p₀ n p) (hp : p.pending = record :: records) :
      CutOff E p₀ (Exec.result (loadRecord E record) p.state).2.disk

theorem loadRecord_sameFiles
    (h : ∀ m, readRecord E record = .ok (some m) → ¬ Rewrites E s m) :
    SameFiles s.disk (Exec.result (loadRecord E record) s).2.disk := by
  rw [loadRecord_eq]
  cases hread : readRecord E record with
  | error e =>
    rw [Exec.result_bind_lift_error rfl]
    exact .refl _
  | ok o =>
    rw [Exec.result_bind_lift rfl]
    cases o with
    | none => exact .refl _
    | some m => exact replayMessage_sameFiles (h m hread)

variable {p p₀ p₁ q : Process F} {n : ℕ} {address : Address} {disk d : Disk}

theorem Harmless.sameFiles_of_replayed (h : Harmless E p₀) (hr : Replayed E p₀ n p) :
    SameFiles p₀.state.disk p.state.disk := by
  induction n generalizing p with
  | zero =>
    obtain rfl := Option.some.inj hr
    exact .refl _
  | succ n ih =>
    obtain ⟨p', hr', hn⟩ := replayed_succ.1 hr
    obtain ⟨record, records, hp, -, hs⟩ := pending_of_replayNext hn
    obtain ⟨r, hload, -⟩ := Exec.survive_eq_some.1 hs
    have hsame := loadRecord_sameFiles fun m hread => h n p' record records m hr' hp hread
    rw [hload] at hsame
    exact (ih hr').trans hsame

/-- **A harmless replay leaves index and files as they were, wherever it is cut off**, and whichever
file operations fail. -/
theorem Harmless.sameFiles (h : Harmless E p₀) (hd : CutOff E p₀ d) :
    SameFiles p₀.state.disk d := by
  cases hd with
  | between hr => exact h.sameFiles_of_replayed hr
  | @ended n p record records hr hp =>
    exact (h.sameFiles_of_replayed hr).trans
      (loadRecord_sameFiles fun m hread => h n p record records m hr hp hread)

/-- **If no file operation fails, only a harmless replay does.** -/
theorem harmless_of_sameFiles (hio : ∀ n, E.io n = .ok)
    (h : ∀ d, CutOff E p₀ d → SameFiles p₀.state.disk d) : Harmless E p₀ := by
  intro n p record records m hr hp hread hrewrites
  have hbefore := h _ (.between hr)
  have hafter := h _ (.ended hr hp)
  rw [loadRecord_eq, Exec.result_bind_lift hread] at hafter
  exact not_sameFiles_of_rewrites hio hrewrites (hbefore.symm.trans hafter)

omit [Content F] in
theorem Rewrites.loud (h : Rewrites E s m) : m.Loud := by
  cases h <;> trivial

theorem replayed_suffix (hr : Replayed E p₀ n p) : p.pending <:+ p₀.pending := by
  induction n generalizing p with
  | zero =>
    obtain rfl := Option.some.inj hr
    exact List.suffix_rfl
  | succ n ih =>
    obtain ⟨p', hr', hn⟩ := replayed_succ.1 hr
    obtain ⟨record, records, hp, hsuffix, -⟩ := pending_of_replayNext hn
    have hrest : records <:+ p'.pending := hp ▸ List.suffix_cons record records
    exact (hsuffix.trans hrest).trans (ih hr')

/-- A replay is harmless if its first record is, and what follows. -/
theorem Harmless.cons {record : UInt8 × Bytes} {records : List (UInt8 × Bytes)}
    (hp : p₀.pending = record :: records)
    (hfirst : ∀ m, readRecord E record = .ok (some m) → ¬ Rewrites E p₀.state m)
    (hrest : ∀ p₁, next E .replay p₀ = some p₁ → Harmless E p₁) : Harmless E p₀ := by
  intro n p record' records' m hr hp' hread
  cases n with
  | zero =>
    obtain rfl := Option.some.inj hr
    obtain rfl := (List.cons.inj (hp.symm.trans hp')).1
    exact hfirst m hread
  | succ n =>
    obtain ⟨p₁, hn, hr⟩ := Machine.runFrom_cons.1 hr
    exact hrest p₁ hn n p record' records' m hr hp' hread

/-- **A log without signed proposals, statuses and commits is harmless.** -/
theorem harmless_of_tags (h : ∀ r ∈ p₀.pending, r.1 ≠ LOG_TYPE_SIGNED_PROPOSAL ∧
    r.1 ≠ LOG_TYPE_RICH_STATUS ∧ r.1 ≠ LOG_TYPE_COMMIT) : Harmless E p₀ := by
  intro n p record records m hr hp hread hrewrites
  have hmem : record ∈ p.pending := hp ▸ List.mem_cons_self
  obtain ⟨hproposal, hstatus, hcommit⟩ := h record ((replayed_suffix hr).subset hmem)
  have htag := tag_of_readRecord hread
  have hloud := hrewrites.loud
  cases m with
  | signedProposal sp block hash => exact hproposal htag.symm
  | status rs => exact hstatus htag.symm
  | bftCommit c => exact hcommit htag.symm
  | _ => exact hloud.elim

end

end ConsensusBft

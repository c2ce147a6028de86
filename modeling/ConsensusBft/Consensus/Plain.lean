import ConsensusBft.Consensus.Speech
import ConsensusBft.Consensus.Transparency
import ConsensusBft.Logic.SimUnless
import ConsensusBft.Wal.Working

/-!
# Runs with and without the log

The log may lose messages (a message that cannot be logged is dropped), but this is all that it
does to a node.

* `E.plain` : the node without its log, on a disk that never fails.
* `LogFailure e` : the way a method ends where the log fails.
* `Mirrors m m' s t` : the plain node does what the node does, unless the log fails; the lemmas
  `_mirrors` : so it is with every method.
* `LogFails E p i` : the log fails in the turn.
* `plain_run` : **in a run without such turns the node does what the plain node does**, call by
  call.
-/

namespace ConsensusBft

open Exec (Sim SimUnless)

variable {F : Type} {E : Env F} {s t : State F}

/-- The node without its log, on a disk that never fails. -/
def Env.plain (E : Env F) : Env F := { E with walOn := false, io := fun _ => .ok }

/-- The ways a method ends where the log fails. -/
inductive LogFailure : Stop ConsensusError → Prop
  | save (name : String) : LogFailure (.err (.saveWalErr name))
  | serialize (name : String) : LogFailure (.err (.serJsonErr name))
  | panicked : LogFailure .panicked

/-- The plain node does what the node does, unless the log fails. -/
abbrev Mirrors {α : Type} (m m' : EngineM F α) (s t : State F) : Prop :=
  SimUnless LogFailure Apart m m' s t

theorem Apart.of_setWal (h : Apart s t) (w : WalState) : Apart (s.setWal w) t := by
  obtain ⟨w', calls, rfl, hc⟩ := h
  exact ⟨w', calls, rfl, hc⟩

theorem Apart.setWal_right (h : Apart s t) (w : WalState) : Apart s (t.setWal w) := by
  obtain ⟨w', calls, rfl, hc⟩ := h
  exact ⟨w, calls, rfl, hc⟩

/-- What does not depend on the log. -/
theorem mirrors_of_beside {α : Type} {m : EngineM F α} {R : WalState → WalState → Prop}
    (h : Sim False (Beside R) m m s t) : Mirrors m m s t :=
  .of_sim (h.mono fun _ _ => Beside.apart)

/-! ### Logging -/

theorem saveJson_fails (height : UInt64) (tag : UInt8) (name : String) (json : Option Bytes) :
    Exec.wp (saveJson E height tag name json) (fun _ s' => ∃ w, s' = s.setWal w)
      (fun e _ => LogFailure e) s := by
  unfold saveJson
  cases json with
  | none => exact .serialize name
  | some msg =>
    refine Exec.wp_bind.2 (Exec.wp_zoomTry (fun n w _ => ?_) (fun e w _ => ?_) fun w _ => .panicked)
    · exact ⟨w, rfl⟩
    · exact .save name

/-- A message is logged by the one node only. -/
theorem logIf_mirrors {c c' : Prop} [Decidable c] [Decidable c'] {m : EngineM F PUnit}
    {height : UInt64} {tag : UInt8} {name : String} {json : Option Bytes} (hc : ¬ c')
    (h : Apart s t) :
    Mirrors (Exec.doIf c (saveJson E height tag name json)) (Exec.doIf c' m) s t := by
  refine .of_result (Exec.result_doIf_of_not hc m t) (Exec.wp_doIf.2 ⟨fun _ => ?_, fun _ => h⟩)
  refine (saveJson_fails height tag name json).mono ?_ fun _ _ he => he
  rintro _ _ ⟨w, rfl⟩
  exact h.of_setWal w

/-! ### Messages from other nodes -/

theorem verifySignature_mirrors (h : Apart s t) (sig : Signature) (hash : Hash) :
    Mirrors (verifySignature E sig hash) (verifySignature E.plain sig hash) s t :=
  mirrors_of_beside (orErr_beside h.beside _ _)

theorem forwardProposal_mirrors (h : Apart s t) (sp : SignedProposal) (bytes : Bytes) :
    Mirrors (forwardProposal E sp bytes) (forwardProposal E.plain sp bytes) s t := by
  have hon := forwardProposal_log E sp bytes E.walOn
  have hplain := forwardProposal_log E.plain sp bytes false
  change forwardProposal E sp bytes = _ at hon
  change forwardProposal E.plain sp bytes = _ at hplain
  rw [hon, hplain]
  refine .bind (verifySignature_mirrors h _ _) fun _ s₁ t₁ _ h₁ => .bind_rejectIf Iff.rfl h₁
    fun _ => .bind_get ?_
  rw [h₁.beside.height_eq]
  refine .bind_lift h₁ fun prev _ => .bind_rejectIf Iff.rfl h₁ fun _ => ?_
  exact .bind (logIf_mirrors (by simp) h₁) fun _ _ _ _ h₂ =>
    .of_sim (settleProposal_apart h₂ sp prev bytes)

theorem forwardVote_mirrors (h : Apart s t) (sv : SignedVote) :
    Mirrors (forwardVote E sv) (forwardVote E.plain sv) s t := by
  unfold forwardVote
  rw [handleSignedVote_eq, handleSignedVote_eq]
  refine .bind (.bind (verifySignature_mirrors h _ _) fun _ s₁ t₁ _ h₁ => .bind_get ?_)
    fun _ _ _ _ h₂ => mirrors_of_beside (sendBft_beside h₂.beside _ _)
  rw [h₁.beside.height_eq]
  refine .bind_lift h₁ fun prev _ => .bind_rejectIf Iff.rfl h₁ fun _ =>
    .bind_rejectIf Iff.rfl h₁ fun _ => .bind (.doIf Iff.rfl (fun _ => ?_) h₁) fun _ _ _ _ h₂ =>
      mirrors_of_beside (admitVote_beside h₂.beside sv)
  refine .bind (logIf_mirrors (by simp [Env.plain]) h₁) fun _ s₂ t₂ _ h₂ => ?_
  exact .doIf Iff.rfl (fun _ => mirrors_of_beside (cacheVote_beside h₂.beside sv)) h₂

/-! ### Status -/

/-- The log is moved on one disk that may fail, and on one that does not. -/
theorem setHeight_mirrors (h : Apart s t) (new : UInt64) :
    Mirrors (do
        let res ← Exec.zoomTry State.walState State.setWal (Wal.setHeight E.io new)
        let _ ← orErr res fun _ => .saveWalErr "CreateNewHeight")
      (do
        let res ← Exec.zoomTry State.walState State.setWal (Wal.setHeight E.plain.io new)
        let _ ← orErr res fun _ => .saveWalErr "CreateNewHeight") s t := by
  have hplain : Exec.result (Exec.zoomTry (ε := ConsensusError) State.walState State.setWal
      (Wal.setHeight E.plain.io new)) t =
        (.ok (.ok ⟨⟩), t.setWal (Wal.moved t.walState new)) := by
    have hmoves : Exec.result (Wal.setHeight E.plain.io new) t.walState =
        (.ok ⟨⟩, Wal.moved t.walState new) := Wal.setHeight_result (fun _ => rfl) new t.walState
    rw [Exec.result_zoomTry, hmoves]
    rfl
  refine .of_result (Exec.result_bind_ok hplain) (Exec.wp_bind.2 (Exec.wp_zoomTry ?_ ?_ ?_))
  · exact fun _ w _ => (h.of_setWal w).setWal_right _
  · exact fun _ _ _ => .save _
  · exact fun _ _ => .panicked

theorem gotoNewHeight_mirrors (h : Apart s t) (height : UInt64) :
    Mirrors (gotoNewHeight E height) (gotoNewHeight E.plain height) s t := by
  obtain ⟨w, calls, rfl, hc⟩ := h
  refine .bind_modify (.bind_lift ⟨w, calls, rfl, hc⟩ fun new _ => .bind_modify ?_)
  refine setHeight_mirrors ?_ new
  exact ⟨w, calls, rfl, hc⟩

theorem handleRichStatus_mirrors (h : Apart s t) (rs : Status) (needWal : Bool) :
    Mirrors (handleRichStatus E rs needWal) (handleRichStatus E.plain rs needWal) s t := by
  refine .bind_get (.bind_rejectIf (by rw [h.beside.height_eq]) h fun _ =>
    .bind (logIf_mirrors (by simp [Env.plain]) h) ?_)
  rintro _ s₁ _ - ⟨w, calls, rfl, hc⟩
  refine .bind_modify (.bind (gotoNewHeight_mirrors ?_ _) fun _ _ _ _ h₂ => .pure h₂)
  exact ⟨w, calls, rfl, hc⟩

theorem switchPower_mirrors (h : Apart s t) (rs : Status) :
    Mirrors (switchPower E rs) (switchPower E.plain rs) s t := by
  obtain ⟨w, calls, rfl, hc⟩ := h
  have h : Apart s { s.setWal w with calls } := ⟨w, calls, rfl, hc⟩
  refine .bind_get (.ite Iff.rfl (fun _ => .ite Iff.rfl (fun _ => .bind_modify ?_) fun _ => .pure h)
    fun _ => .ite Iff.rfl (fun _ => .bind_modify ?_) fun _ => .pure h)
  · refine mirrors_of_beside (sendBft_beside (Apart.beside ?_) _ _)
    exact ⟨w, calls, rfl, hc⟩
  · refine mirrors_of_beside (sendBft_beside (Apart.beside ?_) _ _)
    exact ⟨w, calls, rfl, hc⟩

theorem sendCacheProposal_mirrors (h : Apart s t) (height : UInt64) :
    Mirrors (sendCacheProposal E height) (sendCacheProposal E.plain height) s t := by
  obtain ⟨w, calls, rfl, hc⟩ := h
  have h : Apart s { s.setWal w with calls } := ⟨w, calls, rfl, hc⟩
  refine .bind_get ?_
  dsimp only [State.setWal]
  cases s.eng.proposalCache.lookup height with
  | none => exact .pure h
  | some proposals =>
    exact .bind_modify (.forM (fun entry _ _ _ h => forwardProposal_mirrors h _ _)
      ⟨w, calls, rfl, hc⟩)

theorem sendCacheVote_mirrors (h : Apart s t) (height : UInt64) :
    Mirrors (sendCacheVote E height) (sendCacheVote E.plain height) s t := by
  obtain ⟨w, calls, rfl, hc⟩ := h
  have h : Apart s { s.setWal w with calls } := ⟨w, calls, rfl, hc⟩
  refine .bind_get ?_
  dsimp only [State.setWal]
  cases s.eng.voteCache.lookup height with
  | none => exact .pure h
  | some votes =>
    exact .bind_modify (.forM (fun sv _ _ _ h => forwardVote_mirrors h sv) ⟨w, calls, rfl, hc⟩)

theorem processStatus_mirrors (h : Apart s t) (rs : Status) :
    Mirrors (processStatus E rs) (processStatus E.plain rs) s t := by
  refine .bind (handleRichStatus_mirrors h rs true) fun status _ _ _ h₁ =>
    .bind (switchPower_mirrors h₁ rs) fun _ _ _ _ h₂ =>
    .bind (mirrors_of_beside (sendBft_beside h₂.beside _ _)) fun _ s₃ t₃ _ h₃ => .bind_get ?_
  rw [h₃.beside.height_eq]
  refine .bind (sendCacheProposal_mirrors h₃ _) fun _ s₄ t₄ _ h₄ => .bind_get ?_
  rw [h₄.beside.height_eq]
  exact sendCacheVote_mirrors h₄ _

/-! ### Messages from outside -/

/-- A proposal of the window is logged as it came. -/
theorem logBytes_mirrors {c c' : Prop} [Decidable c] [Decidable c'] {m : EngineM F PUnit}
    {height : UInt64} {bytes : Bytes} (hc : ¬ c') (h : Apart s t) :
    Mirrors (Exec.doIf c do
        Exec.rejectIf (isUtf8 bytes = false) (.serJsonErr "SignedProposal")
        let res ← walSave E height LOG_TYPE_SIGNED_PROPOSAL bytes
        let _ ← orErr res fun _ => .saveWalErr "SignedProposal") (Exec.doIf c' m) s t := by
  refine .of_result (Exec.result_doIf_of_not hc m t) (Exec.wp_doIf.2 ⟨fun _ => ?_, fun _ => h⟩)
  refine Exec.wp_bind.2 (Exec.wp_rejectIf.2 ⟨fun _ => .serialize _, fun _ => ?_⟩)
  refine Exec.wp_bind.2 (Exec.wp_zoomTry (fun _ w _ => ?_) (fun _ _ _ => .save _)
    fun _ _ => .panicked)
  exact h.of_setWal w

theorem receiveProposal_mirrors (h : Apart s t) (sp : SignedProposal) (block : F) (bytes : Bytes) :
    Mirrors (receiveProposal E sp block bytes) (receiveProposal E.plain sp block bytes) s t := by
  refine .bind_get ?_
  rw [h.beside.height_eq]
  refine .ite Iff.rfl (fun _ => .bind (logBytes_mirrors (by simp [Env.plain]) h) ?_) fun _ =>
    forwardProposal_mirrors h sp bytes
  rintro _ s₁ _ - ⟨w, calls, rfl, hc⟩
  exact .of_sim (.modify ⟨w, calls, rfl, hc⟩)

theorem externalProcess_mirrors [Content F] (h : Apart s t) (m : ConsensusInput) :
    Mirrors (externalProcess E m) (externalProcess E.plain m) s t := by
  cases m with
  | signedProposal bytes =>
    obtain ⟨w, calls, rfl, hc⟩ := h
    refine .bind_lift ⟨w, calls, rfl, hc⟩ fun x _ => .bind_modify ?_
    refine receiveProposal_mirrors ?_ _ _ _
    exact ⟨w, calls, rfl, hc⟩
  | signedVote bytes => exact .bind_lift h fun sv _ => forwardVote_mirrors h sv
  | status rs => exact processStatus_mirrors h rs

/-! ### Messages of the BFT core -/

/-- A message that is logged is handled as one that need not be logged. -/
theorem result_logged {α : Type} {c c' : Prop} [Decidable c] [Decidable c'] {b : UInt64 → Prop}
    [∀ h, Decidable (b h)] {e : ConsensusError} {height : UInt64} {tag : UInt8} {name : String}
    {json : Option Bytes} {m : EngineM F PUnit} {f : EngineM F α} (hc : ¬ c') (s : State F) :
    Exec.result (do
        let s ← get
        Exec.rejectIf (b s.eng.height) e
        Exec.doIf c (saveJson E height tag name json)
        f) s =
      Exec.result (do
        let s ← get
        Exec.rejectIf (b s.eng.height) e
        Exec.doIf c (saveJson E height tag name json)
        let s ← get
        Exec.rejectIf (b s.eng.height) e
        Exec.doIf c' m
        f) s := by
  rw [Exec.result_bind_get, Exec.result_bind_get]
  by_cases hbad : b s.eng.height
  · rw [Exec.result_bind_rejectIf_of hbad, Exec.result_bind_rejectIf_of hbad]
  rw [Exec.result_bind_rejectIf hbad, Exec.result_bind_rejectIf hbad]
  have hleaves : Exec.wp (Exec.doIf c (saveJson E height tag name json))
      (fun _ s' => ∃ w, s' = s.setWal w) (fun _ _ => True) s :=
    Exec.wp_doIf.2 ⟨fun _ => (saveJson_leaves _ _ _ _ s).mono (fun _ _ h => h)
      fun _ _ _ => trivial, fun _ => ⟨s.walState, rfl⟩⟩
  cases hr : Exec.result (Exec.doIf c (saveJson E height tag name json)) s with
  | mk r s' =>
    cases r with
    | error e => rw [Exec.result_bind_error hr, Exec.result_bind_error hr]
    | ok a =>
      -- the log was written, and the height is as before
      obtain ⟨w, rfl⟩ := hleaves.ok hr
      rw [Exec.result_bind_ok hr, Exec.result_bind_ok hr, Exec.result_bind_get,
        Exec.result_bind_rejectIf (c := b (s.setWal w).eng.height) hbad,
        Exec.result_bind_ok (Exec.result_doIf_of_not hc m _)]

theorem handleProposal_logs [Content F] (p : BftProposal) (s : State F) :
    Exec.result (handleProposal E p true) s = Exec.result (do
      let s ← get
      Exec.rejectIf (p.height ≠ s.eng.height) .bftCoreErr
      Exec.doIf (E.walOn && true)
        (saveJson E p.height LOG_TYPE_PROPOSAL "BftProposal" (E.serde.bftProposal.toString p))
      handleProposal E p false) s :=
  result_logged (b := fun h => p.height ≠ h) (by simp) s

theorem handleVote_logs (v : BftVote) (s : State F) :
    Exec.result (handleVote E v true) s = Exec.result (do
      let s ← get
      Exec.rejectIf (v.height < s.eng.height) .bftCoreErr
      Exec.doIf (E.walOn && true)
        (saveJson E v.height LOG_TYPE_VOTE "BftVote" (E.serde.bftVote.toString v))
      handleVote E v false) s :=
  result_logged (b := fun h => v.height < h) (by simp) s

/-- A message that need not be logged is not. -/
theorem result_unlogged {α : Type} {c : Prop} [Decidable c] {b : UInt64 → Prop}
    [∀ h, Decidable (b h)] {e : ConsensusError} {m : EngineM F PUnit} {f : EngineM F α}
    (hc : ¬ c) (s : State F) :
    Exec.result (do
        let s ← get
        Exec.rejectIf (b s.eng.height) e
        Exec.doIf c m
        f) s =
      Exec.result (do
        let s ← get
        Exec.rejectIf (b s.eng.height) e
        f) s := by
  have hskip : Exec.doIf c m = pure ⟨⟩ := if_neg hc
  rw [hskip]
  rfl

theorem handleProposal_plain [Content F] (p : BftProposal) (s : State F) :
    Exec.result (handleProposal E.plain p false) s = Exec.result (handleProposal E p false) s :=
  (result_unlogged (b := fun h => p.height ≠ h) (by simp) s).trans
    (result_unlogged (b := fun h => p.height ≠ h) (by simp) s).symm

theorem handleVote_plain (v : BftVote) (s : State F) :
    Exec.result (handleVote E.plain v false) s = Exec.result (handleVote E v false) s :=
  (result_unlogged (b := fun h => v.height < h) (by simp) s).trans
    (result_unlogged (b := fun h => v.height < h) (by simp) s).symm

theorem handleProposal_mirrors [Content F] (h : Apart s t) (p : BftProposal) :
    Mirrors (handleProposal E p true) (handleProposal E.plain p true) s t := by
  refine .congr (handleProposal_logs p s) (handleProposal_logs p t) (.bind_get ?_)
  rw [h.beside.height_eq]
  refine .bind_rejectIf Iff.rfl h fun _ => .bind (logIf_mirrors (by simp [Env.plain]) h) ?_
  exact fun _ s₁ t₁ _ h₁ =>
    .congr rfl (handleProposal_plain p t₁) (mirrors_of_beside (handleProposal_beside h₁.beside p))

theorem handleVote_mirrors (h : Apart s t) (v : BftVote) :
    Mirrors (handleVote E v true) (handleVote E.plain v true) s t := by
  refine .congr (handleVote_logs v s) (handleVote_logs v t) (.bind_get ?_)
  rw [h.beside.height_eq]
  refine .bind_rejectIf Iff.rfl h fun _ => .bind (logIf_mirrors (by simp [Env.plain]) h) ?_
  exact fun _ s₁ t₁ _ h₁ =>
    .congr rfl (handleVote_plain v t₁) (mirrors_of_beside (handleVote_beside h₁.beside v))

theorem handleCommit_mirrors (h : Apart s t) (c : BftCommit) :
    Mirrors (handleCommit E c true) (handleCommit E.plain c true) s t := by
  rw [handleCommit_eq, handleCommit_eq]
  refine .bind_get ?_
  rw [h.beside.height_eq]
  exact .bind_rejectIf Iff.rfl h fun _ => .bind (logIf_mirrors (by simp [Env.plain]) h)
    fun _ _ _ _ h₁ => mirrors_of_beside (settleCommit_beside h₁.beside c)

theorem askForProposal_mirrors (h : Apart s t) (height : UInt64) :
    Mirrors (askForProposal E height) (askForProposal E.plain height) s t := by
  refine .bind_get (.bind_modify ?_)
  dsimp only [Env.plain]
  rw [h.beside.length_eq]
  generalize E.support.getContent s.calls.length height = res
  obtain ⟨w, calls, ht, hc, -⟩ := h.beside.record (.getContent height res)
  rw [ht]
  cases res with
  | ok content => exact .of_sim (.modify ⟨w, calls, rfl, hc⟩)
  | error e => exact .pure ⟨w, calls, rfl, hc⟩

theorem coreProcess_mirrors [Content F] (h : Apart s t) (m : CoreOutput) :
    Mirrors (coreProcess E m) (coreProcess E.plain m) s t := by
  cases m with
  | proposal p =>
    exact .bind (handleProposal_mirrors h p) fun _ _ _ _ h₁ =>
      .bind (mirrors_of_beside (callTransmit_beside h₁.beside _)) fun _ _ _ _ h₂ =>
      .bind (mirrors_of_beside (orErr_beside h₂.beside _ _)) fun _ _ _ _ h₃ => .pure h₃
  | vote v =>
    exact .bind (handleVote_mirrors h v) fun _ _ _ _ h₁ =>
      .bind (mirrors_of_beside (callTransmit_beside h₁.beside _)) fun _ _ _ _ h₂ =>
      .bind (mirrors_of_beside (orErr_beside h₂.beside _ _)) fun _ _ _ _ h₃ => .pure h₃
  | commit c =>
    exact .bind (handleCommit_mirrors h c) fun _ _ _ _ h₁ =>
      .bind (mirrors_of_beside (callCommit_beside h₁.beside _)) fun _ _ _ _ h₂ =>
      .bind (mirrors_of_beside (orErr_beside h₂.beside _ _)) fun _ _ _ _ h₃ =>
      processStatus_mirrors h₃ _
  | getProposalRequest height => exact askForProposal_mirrors h height

/-! ### Feeds and verdicts -/

/-- A message is logged at the current height. -/
theorem logCurrent_mirrors {c c' : Prop} [Decidable c] [Decidable c'] {m : EngineM F PUnit}
    {tag : UInt8} {name : String} {json : Option Bytes} (hc : ¬ c') (h : Apart s t) :
    Mirrors (Exec.doIf c do
      let s ← get
      saveJson E s.eng.height tag name json) (Exec.doIf c' m) s t := by
  refine .of_result (Exec.result_doIf_of_not hc m t) (Exec.wp_doIf.2 ⟨fun _ => ?_, fun _ => h⟩)
  refine Exec.wp_bind.2 ((saveJson_fails s.eng.height tag name json).mono ?_ fun _ _ he => he)
  rintro _ _ ⟨w, rfl⟩
  exact h.of_setWal w

theorem asyncProcess_mirrors [Content F] (h : Apart s t) (m : AsyncMsg F) :
    Mirrors (asyncProcess E m) (asyncProcess E.plain m) s t := by
  cases m with
  | verifyResp vr =>
    exact .bind (mirrors_of_beside (acceptVerdict_beside h.beside vr _)) fun _ _ _ _ h₁ =>
      logCurrent_mirrors (by simp [Env.plain]) h₁
  | feed f =>
    exact .bind (mirrors_of_beside (acceptFeed_beside h.beside f _)) fun _ _ _ _ h₁ =>
      logCurrent_mirrors (by simp [Env.plain]) h₁

/-! ### Runs -/

section

variable [Content F] {p p' q : Process F} {i : Input}

/-- The log fails in the turn. -/
def LogFails (E : Env F) (p : Process F) (i : Input) : Prop :=
  ∃ m s e, Attempt E p i m s ∧ LogFailure e ∧ (Exec.result m s).1 = .error e

theorem next_of_live {t : State F} (hi : i ≠ .replay) (hq : q.pending = [])
    (h : liveNext E q.state i = some t) : next E i q = some ⟨t, []⟩ := by
  cases i with
  | replay => exact absurd rfl hi
  | _ => simp [next, hq, h]

/-- **A live turn is followed by the plain node**, unless the log fails in it. -/
theorem next_mirrors (h : Apart p.state q.state) (hp : p.pending = []) (hq : q.pending = [])
    (hlog : ¬ LogFails E p i) (hn : next E i p = some p') :
    ∃ t, next E.plain i q = some ⟨t, []⟩ ∧ Apart p'.state t ∧ p'.pending = [] := by
  have hi : i ≠ .replay := by
    rintro rfl
    obtain ⟨record, records, hrecord, -⟩ := pending_of_replayNext hn
    exact nomatch hp.symm.trans hrecord
  obtain ⟨s', -, hs, rfl⟩ := live_of_next hi hn
  have hsound : ∀ m s, Attempt E p i m s → ∀ e, (Exec.result m s).1 = .error e → ¬ LogFailure e :=
    fun m s ha e he hfails => hlog ⟨m, s, e, ha, hfails, he⟩
  have hlive : ∃ t, liveNext E.plain q.state i = some t ∧ Apart s' t := by
    cases i with
    | core m => exact (coreProcess_mirrors h m).survive (hsound _ _ (.core m hp)) hs
    | external m => exact (externalProcess_mirrors h m).survive (hsound _ _ (.external m hp)) hs
    | async =>
      obtain ⟨m, queue, hqueue, hs⟩ := async_of_liveNext hs
      obtain ⟨w, calls, hw, hc⟩ := h
      have h₁ : Apart { p.state with asyncQueue := queue } { q.state with asyncQueue := queue } :=
        ⟨w, calls, by rw [hw]; rfl, hc⟩
      obtain ⟨t, ht, h₂⟩ := (asyncProcess_mirrors h₁ m).survive (hsound _ _ (.async hp hqueue)) hs
      have hqueue' : q.state.asyncQueue = m :: queue := by rw [hw]; exact hqueue
      refine ⟨t, ?_, h₂⟩
      unfold liveNext
      rw [hqueue']
      exact ht
    | replay => exact absurd rfl hi
  obtain ⟨t, ht, h₂⟩ := hlive
  exact ⟨t, next_of_live hi hq ht, h₂, rfl⟩

omit [Content F] in
/-- Two nodes that have just booted differ in their logs only. -/
theorem boot_apart {E' : Env F} {address : Address} {disk disk' : Disk}
    (hp : boot E address disk = some p) (hq : boot E' address disk' = some q) :
    Apart p.state q.state := by
  obtain ⟨heng, hqueue, hcalls⟩ := boot_state hp
  obtain ⟨heng', hqueue', hcalls'⟩ := boot_state hq
  refine ⟨q.state.walState, q.state.calls, ?_, by rw [hcalls, hcalls']⟩
  have hwal : q.state.eng = { p.state.eng with walLog := q.state.eng.walLog } := by
    rw [heng]
    exact heng'
  cases hs : q.state with
  | mk eng queue d calls =>
    rw [hs] at hwal hqueue'
    obtain rfl : queue = [] := hqueue'
    unfold State.setWal State.walState
    dsimp only
    rw [← hwal, hqueue]

/-- **A run in which the log does not fail is a run of the plain node**: the same calls are made in
the same order, and the engines differ in their logs only. -/
theorem plain_run {address : Address} {disk disk' : Disk} {is : List Input} {p q : Process F}
    (hboot : boot E address disk = some p) (hpending : p.pending = [])
    (hplain : boot E.plain address disk' = some q)
    (hlog : Machine.EachStep (next E) (fun p i => ¬ LogFails E p i) p is)
    (hrun : Machine.runFrom (next E) p is = some p') :
    ∃ q', Life E.plain address disk' is q' ∧ Apart p'.state q'.state := by
  have hq : q.pending = [] := by
    obtain ⟨s, -, hs⟩ := Option.bind_eq_some_iff.1 hplain
    exact (congrArg Process.pending (Option.some.inj hs)).symm
  have key : Machine.EachStep (next E) (fun p i => ¬ LogFails E p i) p is → p'.pending = [] ∧
      ∃ t, Machine.runFrom (next E.plain) q is = some ⟨t, []⟩ ∧ Apart p'.state t := by
    refine Machine.run_induction (P := fun is p' => Machine.EachStep (next E)
      (fun p i => ¬ LogFails E p i) p is → p'.pending = [] ∧ ∃ t,
        Machine.runFrom (next E.plain) q is = some ⟨t, []⟩ ∧ Apart p'.state t) ?_ ?_ is p' hrun
    · refine fun _ => ⟨hpending, q.state, ?_, boot_apart hboot hplain⟩
      rw [Machine.runFrom_nil, ← hq]
    · intro is₁ i p₁ p₂ hr ih hn hsteps
      obtain ⟨hp₁, t₁, ht₁, h₁⟩ := ih hsteps.init
      obtain ⟨t₂, ht₂, h₂, hp₂⟩ := next_mirrors (q := ⟨t₁, []⟩) h₁ hp₁ rfl (hsteps.last hr) hn
      exact ⟨hp₂, t₂, Machine.runFrom_snoc.2 ⟨_, ht₁, ht₂⟩, h₂⟩
  obtain ⟨-, t, ht, h⟩ := key hlog
  exact ⟨_, ⟨q, hplain, ht⟩, h⟩

theorem not_logFails {m : ConsensusInput}
    (h : (Exec.result (externalProcess E m) p.state).1 = .ok ⟨⟩) :
    ¬ LogFails E p (.external m) := by
  rintro ⟨_, _, e, ha, -, he⟩
  cases ha with
  | external m hp => exact nomatch h.symm.trans he

end

/-- The only authority enters height `1` and receives a vote of its own. -/
def votedRun : List Input :=
  Reference.readyRun [7] ++ [.external (.signedVote (Reference.voteBytes .prevote 1 0 [9] [7]))]

/-- A status and a vote are logged, and the plain node does the same with them. -/
theorem plain_run_vote :
    ∃ p p', Life Reference.printEnv [7] Reference.disk votedRun p ∧
      Life Reference.printEnv.plain [7] Reference.disk votedRun p' ∧
      Apart p.state p'.state := by
  obtain ⟨p₀, ⟨q₀, hboot, hq₀⟩, hf₀⟩ := Reference.exists_life Reference.printEnv [7] []
    (fun p => decide (p.pending = [] ∧ (Exec.result (externalProcess Reference.printEnv
      (.status ⟨0, none, [Node.new [7]]⟩)) p.state).1 = .ok ⟨⟩)) (by decide +kernel)
  obtain rfl := Option.some.inj hq₀
  obtain ⟨hpending, hstatus⟩ := of_decide_eq_true hf₀
  obtain ⟨p₁, p₂, ⟨q₁, hboot₁, hrun₁⟩, ⟨q₂, hboot₂, hrun₂⟩, -, hf₁, -⟩ :=
    Reference.exists_turn Reference.printEnv [7] (Reference.readyRun [7])
      (.external (.signedVote (Reference.voteBytes .prevote 1 0 [9] [7])))
      (fun p => decide ((Exec.result (externalProcess Reference.printEnv
        (.signedVote (Reference.voteBytes .prevote 1 0 [9] [7]))) p.state).1 = .ok ⟨⟩))
      (fun _ => true) (by decide +kernel) (by decide +kernel)
  obtain rfl := Option.some.inj (hboot.symm.trans hboot₁)
  obtain rfl := Option.some.inj (hboot.symm.trans hboot₂)
  obtain ⟨q, ⟨_, hplain, _⟩, -⟩ := Reference.exists_life Reference.printEnv.plain [7] []
    (fun _ => true) (by decide +kernel)
  -- both turns return
  have hlog : Machine.EachStep (next Reference.printEnv)
      (fun p i => ¬ LogFails Reference.printEnv p i) q₀ votedRun := by
    rintro (_ | ⟨a, _ | ⟨b, is₁⟩⟩) i is₂ p his hr
    · obtain rfl := Option.some.inj hr
      obtain rfl := (List.cons.inj his).1
      exact not_logFails hstatus
    · obtain ⟨ha, his⟩ := List.cons.inj his
      obtain rfl := (List.cons.inj his).1
      rw [← ha] at hr
      obtain rfl := Option.some.inj (hrun₁.symm.trans hr)
      exact not_logFails (of_decide_eq_true hf₁)
    · simp [votedRun, Reference.readyRun] at his
  obtain ⟨q', hlife, hapart⟩ := plain_run hboot hpending hplain hlog hrun₂
  exact ⟨p₂, q', ⟨q₀, hboot, hrun₂⟩, hlife, hapart⟩

end ConsensusBft

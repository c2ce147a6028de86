import ConsensusBft.Consensus.Life
import ConsensusBft.Wal.Failing

/-!
# New heights

What `handle_rich_status` can do, said once.

* `LetIn E s rs needWal` : the status is not obsolete, and it is logged if it has to be.
* `StatusEffect E s rs needWal r s'` : a status ends with `r` in `s'`: it was refused and changed
  the log at most, it panicked at the last height, or it brought the engine to a new height.
* `handleRichStatus_wp` : the rule for a status, one premise for each way it is handled.
* `handleRichStatus_effect` : **these are all the ways a status is handled.**
* `coreProcess_commit_wp` : the rule for a commit, one premise for each way it ends.
* `next_moves_of_quiet` : a turn that brings neither a status nor a commit is a sequence of moves.
-/

namespace ConsensusBft

variable {F : Type} {E : Env F} {s s' : State F} {rs : Status} {needWal : Bool}

/-- The log once a status was logged, if it was. -/
inductive StatusLogged (E : Env F) (s : State F) (rs : Status) : WalState → Prop
  | kept : StatusLogged E s rs s.walState
  | saved {bytes : Bytes} (on : E.walOn = true)
      (text : E.serde.status.toString rs = some bytes) : StatusLogged E s rs (Exec.result
        (Wal.save E.io E.overflowChecks rs.height LOG_TYPE_RICH_STATUS bytes) s.walState).2

/-- A status that the engine lets in: it is not obsolete, and it is logged if it has to be. -/
structure LetIn (E : Env F) (s : State F) (rs : Status) (needWal : Bool) : Prop where
  height_le : s.eng.height ≤ rs.height
  logged : (E.walOn && needWal) = true → ∃ bytes n, E.serde.status.toString rs = some bytes ∧
    (Exec.result (Wal.save E.io E.overflowChecks rs.height LOG_TYPE_RICH_STATUS bytes)
      s.walState).1 = .ok n

/-- The authorities of a status are installed, and the blocks and verdicts of the old height are
dropped. -/
def Consensus.install (eng : Consensus F) (rs : Status) : Consensus F := { eng with
  authority := eng.authority.updateAuthority eng.height rs.authorityList
  verifiedBlock := ∅
  blockOriginCache := ∅
  block := none }

/-- The engine enters the height after that of a status. -/
def State.enter (s : State F) (rs : Status) (w : WalState) : State F := { s with
  eng := { s.eng.install rs with height := rs.height + 1, walLog := w.wal }
  disk := w.disk }

/-- The ways in which a status is handled. -/
inductive StatusEffect (E : Env F) (s : State F) (rs : Status) (needWal : Bool) :
    Outcome ConsensusError BftStatus → State F → Prop
  | refused {e : Stop ConsensusError} {w : WalState} (logged : StatusLogged E s rs w)
      (out : ¬ LetIn E s rs needWal) : StatusEffect E s rs needWal (.error e) (s.setWal w)
  | crashed {w : WalState} (logged : StatusLogged E s rs w) (letIn : LetIn E s rs needWal)
      (wraps : rs.height + 1 = 0) : StatusEffect E s rs needWal (.error .panicked)
        { s.setWal w with eng := (s.setWal w).eng.install rs }
  | entered {r : Outcome ConsensusError BftStatus} {w : WalState}
      (logged : StatusLogged E s rs w) (letIn : LetIn E s rs needWal)
      (ret : ∀ st, r = .ok st → st = rs.toBftStatus) : StatusEffect E s rs needWal r
        (s.enter rs (Exec.result (Wal.setHeight E.io (rs.height + 1)) w).2)

/-! ### The rule for a status -/

/-- The log once a status was logged, if that was due. -/
inductive StatusFiled (E : Env F) (s : State F) (rs : Status) (needWal : Bool) : WalState → Prop
  | off (idle : ¬ (E.walOn && needWal) = true) : StatusFiled E s rs needWal s.walState
  | on {bytes : Bytes} {n : ℕ} {w : WalState} (due : (E.walOn && needWal) = true)
      (text : E.serde.status.toString rs = some bytes)
      (saved : Exec.result (Wal.save E.io E.overflowChecks rs.height LOG_TYPE_RICH_STATUS bytes)
        s.walState = (.ok n, w)) : StatusFiled E s rs needWal w

/-- The status is refused with an error, and leaves the log so. -/
inductive StatusRefused (E : Env F) (s : State F) (rs : Status) (needWal : Bool) :
    Stop ConsensusError → WalState → Prop
  | obsolete (lt : rs.height < s.eng.height) :
      StatusRefused E s rs needWal (.err .obsoleteMsg) s.walState
  | unprinted (e : Stop ConsensusError) (due : (E.walOn && needWal) = true)
      (text : E.serde.status.toString rs = none) : StatusRefused E s rs needWal e s.walState
  | unsaved {bytes : Bytes} {r : Outcome IoError ℕ} {w : WalState} (e : Stop ConsensusError)
      (due : (E.walOn && needWal) = true) (text : E.serde.status.toString rs = some bytes)
      (saved : Exec.result (Wal.save E.io E.overflowChecks rs.height LOG_TYPE_RICH_STATUS bytes)
        s.walState = (r, w)) (fails : ∀ n, r ≠ .ok n)
      (panics : r = .error .panicked → e = .panicked) : StatusRefused E s rs needWal e w

theorem StatusFiled.letIn {w : WalState} (h : StatusFiled E s rs needWal w)
    (hle : s.eng.height ≤ rs.height) : LetIn E s rs needWal := by
  cases h with
  | off idle => exact ⟨hle, fun due => absurd due idle⟩
  | on _ text saved => exact ⟨hle, fun _ => ⟨_, _, text, congrArg Prod.fst saved⟩⟩

theorem StatusFiled.statusLogged {w : WalState} (h : StatusFiled E s rs needWal w) :
    StatusLogged E s rs w := by
  cases h with
  | off => exact .kept
  | on due text saved =>
    have hw := StatusLogged.saved (s := s) (Bool.and_eq_true_iff.1 due).1 text
    rwa [saved] at hw

theorem StatusRefused.not_letIn {e : Stop ConsensusError} {w : WalState}
    (h : StatusRefused E s rs needWal e w) : ¬ LetIn E s rs needWal := by
  intro hlet
  cases h with
  | obsolete lt => exact UInt64.not_lt.2 hlet.height_le lt
  | unprinted _ due text =>
    obtain ⟨bytes, n, hbytes, -⟩ := hlet.logged due
    cases text.symm.trans hbytes
  | unsaved _ due text saved fails =>
    obtain ⟨bytes', n, hbytes, hn⟩ := hlet.logged due
    obtain rfl := Option.some.inj (text.symm.trans hbytes)
    exact fails n ((congrArg Prod.fst saved).symm.trans hn)

theorem StatusRefused.statusLogged {e : Stop ConsensusError} {w : WalState}
    (h : StatusRefused E s rs needWal e w) : StatusLogged E s rs w := by
  cases h with
  | obsolete => exact .kept
  | unprinted => exact .kept
  | unsaved _ due text saved =>
    have hw := StatusLogged.saved (s := s) (Bool.and_eq_true_iff.1 due).1 text
    rwa [saved] at hw

/-- **What holds of a status in each of the ways in which it is handled, holds of it.** -/
theorem handleRichStatus_wp {Q : BftStatus → State F → Prop}
    {R : Stop ConsensusError → State F → Prop}
    (refused : ∀ e w, StatusRefused E s rs needWal e w → R e (s.setWal w))
    (crashed : s.eng.height ≤ rs.height → ∀ w, StatusFiled E s rs needWal w →
      E.overflowChecks = true ∧ rs.height + 1 = 0 →
      R .panicked { s.setWal w with eng := (s.setWal w).eng.install rs })
    (entered : s.eng.height ≤ rs.height → ∀ w, StatusFiled E s rs needWal w →
      (Exec.result (Wal.setHeight E.io (rs.height + 1)) w).1 = .ok ⟨⟩ →
      Q rs.toBftStatus (s.enter rs (Exec.result (Wal.setHeight E.io (rs.height + 1)) w).2))
    (failed : s.eng.height ≤ rs.height → ∀ w, StatusFiled E s rs needWal w →
      ¬ (E.overflowChecks = true ∧ rs.height + 1 = 0) →
      (Exec.result (Wal.setHeight E.io (rs.height + 1)) w).1 ≠ .ok ⟨⟩ →
      ∀ e, R (.err e) (s.enter rs (Exec.result (Wal.setHeight E.io (rs.height + 1)) w).2)) :
    Exec.wp (handleRichStatus E rs needWal) Q R s := by
  unfold handleRichStatus
  refine Exec.wp_bind.2 (Exec.wp_bind.2 (Exec.wp_rejectIf.2
    ⟨fun hlt => refused _ _ (.obsolete hlt), fun hle => ?_⟩))
  rw [UInt64.not_lt] at hle
  -- what follows the logging
  have rest : ∀ w, StatusFiled E s rs needWal w → Exec.wp (do
      modify fun s : State F =>
        { s with eng.authority := s.eng.authority.updateAuthority s.eng.height rs.authorityList }
      gotoNewHeight E rs.height
      return rs.toBftStatus) Q R (s.setWal w) := by
    intro w hw
    unfold gotoNewHeight
    refine Exec.wp_bind.2 (Exec.wp_bind.2 (Exec.wp_bind.2 (Exec.wp_bind.2 (Exec.wp_lift.2
      ⟨fun new hnew => ?_, fun e he => ?_⟩))))
    · obtain rfl := add64_ok hnew
      have hfits : ¬ (E.overflowChecks = true ∧ rs.height + 1 = 0) := by
        intro hwraps
        rw [add64_one, if_pos hwraps] at hnew
        exact nomatch hnew
      refine Exec.wp_bind.2 (Exec.wp_bind.2 (Exec.wp_zoomTry ?_ ?_ ?_))
      · intro _ w' hset
        obtain rfl := congrArg Prod.snd hset
        exact entered hle w hw (congrArg Prod.fst hset)
      · intro e w' hset
        obtain rfl := congrArg Prod.snd hset
        exact failed hle w hw hfits (fun hok => nomatch (congrArg Prod.fst hset).symm.trans hok) _
      · intro w' hset
        exact absurd (congrArg Prod.fst hset) (Wal.setHeight_returns_iff _ _ _).2
    · obtain rfl := add64_error he
      rw [add64_one] at he
      split_ifs at he with hwraps
      exact crashed hle w hw hwraps
  refine Exec.wp_bind.2 (Exec.wp_doIf.2 ⟨fun due => ?_, fun idle => rest s.walState (.off idle)⟩)
  unfold saveJson
  cases htext : E.serde.status.toString rs with
  | none => exact refused _ _ (.unprinted _ due htext)
  | some bytes =>
    refine Exec.wp_bind.2 (Exec.wp_zoomTry ?_ ?_ ?_)
    · exact fun n w hsave => rest w (.on due htext hsave)
    · exact fun e w hsave => refused _ w (.unsaved _ due htext hsave nofun nofun)
    · exact fun w hsave => refused _ w (.unsaved _ due htext hsave nofun fun _ => rfl)

/-- **These are all the ways a status is handled.** -/
theorem handleRichStatus_effect (E : Env F) (s : State F) (rs : Status) (needWal : Bool) :
    StatusEffect E s rs needWal (Exec.result (handleRichStatus E rs needWal) s).1
      (Exec.result (handleRichStatus E rs needWal) s).2 := by
  refine Exec.result_of_wp (P := StatusEffect E s rs needWal) (handleRichStatus_wp ?_ ?_ ?_ ?_)
  · exact fun e w h => .refused h.statusLogged h.not_letIn
  · exact fun hle w hw hwraps => .crashed hw.statusLogged (hw.letIn hle) hwraps.2
  · exact fun hle w hw _ => .entered hw.statusLogged (hw.letIn hle) fun _ h =>
      (Except.ok.inj h).symm
  · exact fun hle w hw _ _ e => .entered hw.statusLogged (hw.letIn hle) nofun

/-! ### Turns without statuses and commits -/

variable [Content F] {p p' : Process F} {i : Input}

/-- A step is a move, or it handles a status. -/
theorem Advance.effect {S : Source F} (h : Advance E S s s') :
    Move E S s s' ∨ ∃ rs needWal r, S.status rs ∧ StatusEffect E s rs needWal r s' := by
  cases h with
  | move h => exact .inl h
  | status rs needWal given =>
    exact .inr ⟨rs, needWal, _, given, handleRichStatus_effect E s rs needWal⟩

/-- A source without statuses and commits. -/
def quietSource (F : Type) : Source F :=
  { Supply.all F with
    core := fun m => ∀ c, m ≠ .commit c
    status := fun _ => False
    verdict := fun _ => True }

omit [Content F] in
theorem not_quietSource (c : BftCommit) : ¬ (quietSource F).core (.commit c) := fun h => h c rfl

/-- **What holds once a status was handled, and is kept by moves, holds once it was processed.** -/
theorem processStatus_keeps {I : State F → Prop} {G : Stop ConsensusError → State F → Prop}
    (hI : ∀ s s', Move E (quietSource F) s s' → I s → I s') (hG : ∀ e s', I s' → G e s')
    (hc : Cached E (Supply.all F) s.eng)
    (h : Exec.wp (handleRichStatus E rs true) (fun _ => I) G s) :
    Exec.wp (processStatus E rs) (fun _ => I) G s := by
  have hadvance := (handleRichStatus_advances (E := E) (s := s)
    (show (Source.all F).status rs from trivial) true).reach
  have hc₁ := Advances.cached hadvance hc
  rw [processStatus_eq]
  refine Exec.wp_bind.2 (Exec.wp_of_result rfl (fun status hr => ?_) fun e he => ?_)
  · have hs₁ := h.ok (Prod.ext hr rfl)
    exact ((afterStatus_moves (S := quietSource F) ⟨hc₁.proposal, hc₁.vote⟩ rs status).keeps hI
      hs₁).mono (fun _ _ h => h) hG
  · exact h.error (Prod.ext he rfl)

/-- **What holds of a commit however it is answered holds of it**: it is refused, the application
answers with an error, or it answers with a status, which is processed. -/
theorem coreProcess_commit_wp {c : BftCommit} {Q : PUnit → State F → Prop}
    {G : Stop ConsensusError → State F → Prop}
    (refused : ∀ e s₁, Exec.result (handleCommit E c true) s = (.error e, s₁) → G e s₁)
    (denied : ∀ commit s₁ e, Exec.result (handleCommit E c true) s = (.ok commit, s₁) →
      E.support.commit s₁.calls.length commit = .error e →
      ∀ err, G (.err err) (s₁.record (.commit commit (.error e))))
    (answered : ∀ commit s₁ rs, Exec.result (handleCommit E c true) s = (.ok commit, s₁) →
      E.support.commit s₁.calls.length commit = .ok rs →
      Exec.wp (processStatus E rs) Q G (s₁.record (.commit commit (.ok rs)))) :
    Exec.wp (coreProcess E (.commit c)) Q G s := by
  cases hres : Exec.result (handleCommit E c true) s with
  | mk r s₁ =>
    refine Exec.wp_bind.2 (Exec.wp_of_result hres ?_ ?_)
    · rintro commit rfl
      refine Exec.wp_bind.2 (Exec.wp_of_result (result_callCommit commit s₁) ?_ nofun)
      rintro _ ⟨rfl⟩
      cases answer : E.support.commit s₁.calls.length commit with
      | error e => exact denied commit s₁ e hres answer _
      | ok rs => exact answered commit s₁ rs hres answer
    · rintro e rfl
      exact refused e s₁ hres

/-- **A turn that brings neither a status nor a commit is a sequence of moves.** -/
theorem next_moves_of_quiet (hc : Cached E (Supply.all F) p.state.eng)
    (hn : next E i p = some p') (hstatus : ∀ rs, ¬ BringsStatus E p i rs)
    (hcommit : ∀ c, ¬ BringsCore E p i (.commit c)) :
    Moves E (quietSource F) p.state p'.state := by
  have hs : Sourced E (quietSource F) p i :=
    { vote := fun _ _ => trivial
      proposal := fun _ _ _ _ => trivial
      block := fun _ _ _ _ _ => trivial
      core := by
        rintro m hm c rfl
        exact hcommit c hm
      status := hstatus
      verdict := fun _ _ => trivial }
  refine Relation.ReflTransGen.mono ?_ _ _ (next_advances hs ⟨hc.proposal, hc.vote⟩ hn)
  intro s s' ha
  cases ha with
  | move h => exact h
  | status rs needWal given => exact given.elim

end ConsensusBft

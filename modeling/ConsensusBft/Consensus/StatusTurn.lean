import ConsensusBft.Consensus.NewHeight
import ConsensusBft.Wal.Working

/-!
# Turns that handle a status

A status comes from outside, as the answer of the application to a commit, or from the log.

* `HandlesAt E p i rs needWal s` : the turn `i` at `p` hands the status `rs` to
  `handle_rich_status`, in the state `s`.
* `survive_of_handlesAt` : what such a turn does; `next_moves_of_none` : a turn without a status is
  a sequence of moves.
* `coreProcess_commit_cases` : what a commit does, with the status that answers it.
* `Accepts E p i rs` : the turn accepts `rs`.
* `next_position` : **a turn accepts a status and enters the height after it, or it leaves the
  height and the authorities.**
-/

namespace ConsensusBft

open Exec (wp wp_bind)

variable {F : Type} [Content F] {E : Env F} {s s' : State F} {rs rs' : Status}
variable {needWal needWal' : Bool} {i : Input} {p p' : Process F}

/-- A source without statuses. -/
def statusless (F : Type) : Source F := { Source.all F with status := fun _ => False }

/-- The turn hands the status `rs` to `handle_rich_status`, in the state `s`. -/
inductive HandlesAt (E : Env F) (p : Process F) : Input → Status → Bool → State F → Prop
  | external (rs : Status) : HandlesAt E p (.external (.status rs)) rs true p.state
  | committed {c : BftCommit} {commit : Commit F} {s : State F} {rs : Status}
      (handled : Exec.result (handleCommit E c true) p.state = (.ok commit, s))
      (answer : E.support.commit s.calls.length commit = .ok rs) :
      HandlesAt E p (.core (.commit c)) rs true (s.record (.commit commit (.ok rs)))
  | logged {msg : Bytes} {records : List (UInt8 × Bytes)} {rs : Status}
      (head : p.pending = (LOG_TYPE_RICH_STATUS, msg) :: records)
      (text : E.serde.status.fromSlice msg = some rs) : HandlesAt E p .replay rs false p.state

omit [Content F] in
/-- A turn handles one status at most. -/
theorem HandlesAt.unique (h : HandlesAt E p i rs needWal s) (h' : HandlesAt E p i rs' needWal' s') :
    rs = rs' ∧ needWal = needWal' ∧ s = s' := by
  cases h with
  | external =>
    cases h'
    exact ⟨rfl, rfl, rfl⟩
  | committed handled answer =>
    cases h' with
    | committed handled' answer' =>
      obtain ⟨hcommit, rfl⟩ := Prod.mk.inj (handled.symm.trans handled')
      obtain rfl := Except.ok.inj hcommit
      obtain rfl := Except.ok.inj (answer.symm.trans answer')
      exact ⟨rfl, rfl, rfl⟩
  | logged head text =>
    cases h' with
    | logged head' text' =>
      obtain rfl := (Prod.mk.inj (List.cons.inj (head.symm.trans head')).1).2
      exact ⟨Option.some.inj (text.symm.trans text'), rfl, rfl⟩

/-- What a turn does with its status. -/
def handleStatus (E : Env F) (rs : Status) (needWal : Bool) : EngineM F PUnit :=
  if needWal then processStatus E rs
  else Exec.ifOk (handleRichStatus E rs false) fun status => sendBft E (.status status) "BftStatus"

/-- The turn does with its status what `handleStatus` does. -/
theorem survive_of_handlesAt (hn : next E i p = some p') (h : HandlesAt E p i rs needWal s) :
    Exec.survive (handleStatus E rs needWal) s = some p'.state := by
  cases h with
  | external =>
    obtain ⟨s, -, hs, rfl⟩ := live_of_next (by simp) hn
    exact hs
  | @committed c commit s₁ rs handled answer =>
    obtain ⟨s, -, hs, rfl⟩ := live_of_next (by simp) hn
    have hrest : Exec.result (coreProcess E (.commit c)) p.state =
        Exec.result (processStatus E rs) (s₁.record (.commit commit (.ok rs))) := by
      refine (Exec.result_bind_ok handled).trans ?_
      have hcall := result_callCommit (E := E) commit s₁
      rw [answer] at hcall
      exact Exec.result_bind_ok hcall
    change Exec.survive (processStatus E rs) _ = _
    unfold Exec.survive
    rw [← hrest]
    exact hs
  | @logged msg records rs head text =>
    obtain ⟨record, records', hp', -, hs⟩ := pending_of_replayNext hn
    obtain rfl := (List.cons.inj (head.symm.trans hp')).1
    change Exec.survive (loadStatus E msg) p.state = _ at hs
    unfold loadStatus loadJson at hs
    rw [text] at hs
    exact hs

/-- A commit is refused, or it is handed over and the application answers with an error or with a
status, which is processed. -/
theorem coreProcess_commit_cases {c : BftCommit}
    (h : Exec.survive (coreProcess E (.commit c)) s = some s') :
    (∃ e, Exec.result (handleCommit E c true) s = (.error (.err e), s')) ∨
    ∃ commit s₁, Exec.result (handleCommit E c true) s = (.ok commit, s₁) ∧
      ((∃ e, E.support.commit s₁.calls.length commit = .error e ∧
          s' = s₁.record (.commit commit (.error e))) ∨
        ∃ rs, E.support.commit s₁.calls.length commit = .ok rs ∧
          Exec.survive (processStatus E rs) (s₁.record (.commit commit (.ok rs))) = some s') := by
  refine Exec.survive_of_wp (P := fun s' =>
    (∃ e, Exec.result (handleCommit E c true) s = (.error (.err e), s')) ∨
    ∃ commit s₁, Exec.result (handleCommit E c true) s = (.ok commit, s₁) ∧
      ((∃ e, E.support.commit s₁.calls.length commit = .error e ∧
          s' = s₁.record (.commit commit (.error e))) ∨
        ∃ rs, E.support.commit s₁.calls.length commit = .ok rs ∧
          Exec.survive (processStatus E rs) (s₁.record (.commit commit (.ok rs))) = some s'))
    (coreProcess_commit_wp ?_ ?_ ?_) h
  · intro e s₁ hr hne
    cases e with
    | err e => exact .inl ⟨e, hr⟩
    | panicked => exact absurd rfl hne
  · exact fun commit s₁ e hr answer _ _ => .inr ⟨commit, s₁, hr, .inl ⟨e, answer, rfl⟩⟩
  · intro commit s₁ rs hr answer
    refine Exec.wp_of_result rfl (fun a ha => ?_) fun e he hne => ?_
    · exact .inr ⟨commit, s₁, hr, .inr ⟨rs, answer, Exec.survive_ok (Prod.ext ha rfl)⟩⟩
    · exact .inr ⟨commit, s₁, hr, .inr ⟨rs, answer, Exec.survive_eq_some.2
        ⟨.error e, Prod.ext he rfl, fun h => hne (Except.error.inj h)⟩⟩⟩

/-- The status is handed over after some moves. -/
theorem HandlesAt.moves (h : HandlesAt E p i rs needWal s) :
    Moves E (statusless F) p.state s := by
  cases h with
  | external => exact .refl
  | @committed c commit s₁ rs handled answer =>
    have hsteps := handleCommit_moves (E := E) (S := statusless F) (s := p.state) (c := c)
      trivial true
    obtain ⟨hready, hheight, haddress⟩ := hsteps.ok handled
    have hmoves := hsteps.reached handled
    exact (Stills.moves hmoves).tail
      (.call s₁ (.commit commit (.ok rs)) ⟨answer.symm, hready⟩
        ⟨c, trivial, hheight, haddress⟩)
  | logged => exact .refl

/-- **A turn without a status is a sequence of moves.** -/
theorem next_moves_of_none {S : Source F} (hs : Supplied E S.toSupply p i)
    (hverdict : ∀ vr, BringsVerdict E p i vr → S.verdict vr) (hstatus : ∀ rs, ¬ S.status rs)
    (hc : Cached E S.toSupply p.state.eng) (hn : next E i p = some p')
    (hnone : ∀ rs needWal s, ¬ HandlesAt E p i rs needWal s) : Moves E S p.state p'.state := by
  -- only a commit may bring a status that is not handed over
  have quiet : (∀ rs, ¬ BringsStatus E p i rs) → Moves E S p.state p'.state := by
    intro hbrings
    have hsourced : Sourced E S p i := ⟨hs, fun rs hrs => (hbrings rs hrs).elim, hverdict⟩
    refine Relation.ReflTransGen.mono ?_ _ _ (next_advances hsourced hc hn)
    intro s s' hstep
    cases hstep with
    | move h => exact h
    | status rs needWal given => exact (hstatus rs given).elim
  cases i with
  | external m =>
    cases m with
    | status rs => exact absurd (.external rs) (hnone rs true p.state)
    | _ => exact quiet fun _ h => h.elim
  | core m =>
    cases m with
    | commit c =>
      have hcommit : S.core (.commit c) := hs.core _ rfl
      obtain ⟨s, -, hs, rfl⟩ := live_of_next (by simp) hn
      have hsteps := handleCommit_moves (E := E) (s := p.state) hcommit true
      rcases coreProcess_commit_cases hs with ⟨e, hr⟩ | ⟨commit, s₁, hr, hanswer⟩
      · exact Stills.moves (hsteps.reached hr)
      rcases hanswer with ⟨e, answer, rfl⟩ | ⟨rs, answer, -⟩
      · obtain ⟨hready, hheight, haddress⟩ := hsteps.ok hr
        exact (Stills.moves (hsteps.reached hr)).tail
          (.call s₁ _ ⟨answer.symm, hready⟩ ⟨c, hcommit, hheight, haddress⟩)
      · exact absurd (.committed hr answer) (hnone rs true _)
    | _ => exact quiet fun _ h => h.elim
  | async => exact quiet fun _ h => h.elim
  | replay =>
    exact quiet fun rs ⟨msg, records, hp, hmsg⟩ => hnone rs false p.state (.logged hp hmsg)

/-! ### Accepted statuses -/

/-- The turn accepts the status `rs`. -/
def Accepts (E : Env F) (p : Process F) (i : Input) (rs : Status) : Prop :=
  ∃ needWal s st s₁, HandlesAt E p i rs needWal s ∧
    Exec.result (handleRichStatus E rs needWal) s = (.ok st, s₁)

omit [Content F] in
theorem Accepts.unique (h : Accepts E p i rs) (h' : Accepts E p i rs') : rs = rs' := by
  obtain ⟨_, _, _, _, hs, -⟩ := h
  obtain ⟨_, _, _, _, hs', -⟩ := h'
  exact (hs.unique hs').1

omit [Content F] in
/-- A status that is not accepted leaves the height and the authorities, if the file operations
succeed. -/
theorem handleRichStatus_refused (hio : ∀ n, E.io n = .ok) (rs : Status) (needWal : Bool)
    (s : State F) : wp (handleRichStatus E rs needWal) (fun _ _ => True) (fun e s' =>
      e ≠ .panicked → s'.eng.height = s.eng.height ∧ s'.eng.authority = s.eng.authority) s := by
  refine handleRichStatus_wp (fun _ _ _ _ => ⟨rfl, rfl⟩) (fun _ _ _ _ hne => absurd rfl hne)
    (fun _ _ _ _ => trivial) ?_
  intro _ w _ _ hfails
  rw [Wal.setHeight_result hio] at hfails
  exact absurd rfl hfails

omit [Content F] in
/-- A status that is refused ends the turn; one that is accepted is announced, and a live one
opens its height. -/
theorem handleStatus_cases (h : Exec.survive (handleStatus E rs needWal) s = some s') :
    (∃ e, Exec.result (handleRichStatus E rs needWal) s = (.error (.err e), s')) ∨
    ∃ st s₁, Exec.result (handleRichStatus E rs needWal) s = (.ok st, s₁) ∧
      (needWal = true → Exec.survive (afterStatus E rs st) s₁ = some s') ∧
      (needWal = false →
        s' = s₁.record (.bft (.status st) (E.delivers s₁.calls.length))) := by
  cases needWal with
  | true =>
    obtain ⟨e, hr⟩ | ⟨st, s₁, hr, hs⟩ := Exec.survive_bind h
    · exact .inl ⟨e, hr⟩
    · exact .inr ⟨st, s₁, hr, fun _ => hs, nofun⟩
  | false =>
    obtain ⟨e, hr⟩ | ⟨st, s₁, hr, hs⟩ := Exec.survive_ifOk h
    · exact .inl ⟨e, hr⟩
    · obtain ⟨r, hsend, -⟩ := Exec.survive_eq_some.1 hs
      rw [result_sendBft] at hsend
      exact .inr ⟨st, s₁, hr, nofun, fun _ => (Prod.mk.inj hsend).2.symm⟩

/-- Only moves follow a status. -/
theorem handleStatus_moves (hc : Cached E (Supply.all F) s.eng)
    (h : Exec.survive (handleStatus E rs needWal) s = some s') :
    ∃ r s₁, Exec.result (handleRichStatus E rs needWal) s = (r, s₁) ∧ r ≠ .error .panicked ∧
      Moves E (statusless F) s₁ s' := by
  rcases handleStatus_cases h with ⟨e, hr⟩ | ⟨st, s₁, hr, hlive, hlogged⟩
  · exact ⟨_, s', hr, by simp, .refl⟩
  · refine ⟨_, s₁, hr, by simp, ?_⟩
    cases needWal with
    | true =>
      have hadvance := (handleRichStatus_advances (E := E) (s := s)
        (show (Source.all F).status rs from trivial) true).reached hr
      have hc₁ : Cached E (Supply.all F) s₁.eng := Advances.cached hadvance hc
      exact (afterStatus_moves (S := statusless F) hc₁ rs st).survive (hlive rfl)
    | false =>
      rw [hlogged rfl]
      exact .single (.call s₁ _ ⟨rfl, trivial⟩ trivial)

/-- A status is accepted and followed by moves, or it leaves the height and the authorities. -/
theorem handleStatus_position (hio : ∀ n, E.io n = .ok) (hc : Cached E (Supply.all F) s.eng)
    (h : Exec.survive (handleStatus E rs needWal) s = some s') :
    (∃ st s₁, Exec.result (handleRichStatus E rs needWal) s = (.ok st, s₁) ∧
      Moves E (statusless F) s₁ s') ∨
    (∀ st s₁, Exec.result (handleRichStatus E rs needWal) s ≠ (.ok st, s₁)) ∧
      s'.eng.height = s.eng.height ∧ s'.eng.authority = s.eng.authority := by
  obtain ⟨r, s₁, hr, hne, hmoves⟩ := handleStatus_moves hc h
  cases r with
  | ok st => exact .inl ⟨st, s₁, hr, hmoves⟩
  | error e =>
    obtain ⟨hheight, hauthority⟩ := (handleRichStatus_refused hio rs needWal s).error hr
      fun he => hne (congrArg _ he)
    exact .inr ⟨by simp [hr], hmoves.height_eq.trans hheight,
      hmoves.authority_eq.trans hauthority⟩

/-- **A turn accepts a status and enters the height after it, or it leaves the height and the
authorities.** -/
theorem next_position (hio : ∀ n, E.io n = .ok) (hc : Cached E (Supply.all F) p.state.eng)
    (hn : next E i p = some p') :
    (∃ rs, Accepts E p i rs ∧ p.state.eng.height ≤ rs.height ∧
      p'.state.eng.height = rs.height + 1 ∧
      p'.state.eng.authority =
        p.state.eng.authority.updateAuthority p.state.eng.height rs.authorityList) ∨
    (∀ rs, ¬ Accepts E p i rs) ∧ p'.state.eng.height = p.state.eng.height ∧
      p'.state.eng.authority = p.state.eng.authority := by
  by_cases hh : ∃ rs needWal s, HandlesAt E p i rs needWal s
  · obtain ⟨rs, needWal, s, hs⟩ := hh
    have hmoves := hs.moves
    have hc₁ : Cached E (Supply.all F) s.eng :=
      Advances.cached hmoves.advances ⟨hc.proposal, hc.vote⟩
    rcases handleStatus_position hio hc₁ (survive_of_handlesAt hn hs) with
      ⟨st, s₁, hr, hafter⟩ | ⟨hnot, hheight, hauthority⟩
    · refine .inl ⟨rs, ⟨needWal, s, st, s₁, hs, hr⟩, ?_⟩
      have heffect := handleRichStatus_effect E s rs needWal
      rw [hr] at heffect
      cases heffect with
      | entered logged letIn ret =>
        rw [hafter.height_eq, hafter.authority_eq, ← hmoves.height_eq, ← hmoves.authority_eq]
        exact ⟨letIn.height_le, rfl, rfl⟩
    · refine .inr ⟨?_, hheight.trans hmoves.height_eq, hauthority.trans hmoves.authority_eq⟩
      rintro rs' ⟨needWal', s', st, s₁, hs', hr⟩
      obtain ⟨rfl, rfl, rfl⟩ := hs.unique hs'
      exact hnot st s₁ hr
  · simp only [not_exists] at hh
    have hmoves := next_moves_of_none (S := statusless F) (Supplied.all E p i)
      (fun _ _ => trivial) (fun _ => not_false) ⟨hc.proposal, hc.vote⟩ hn hh
    exact .inr ⟨fun rs ⟨needWal, s, _, _, hs, _⟩ => hh rs needWal s hs, hmoves.height_eq,
      hmoves.authority_eq⟩

end ConsensusBft

import ConsensusBft.Consensus.Emission
import ConsensusBft.Consensus.NewHeight
import ConsensusBft.Consensus.Reference

/-!
# The order of commits

Without the log, every commit that the application accepts moves the engine past its height.

* `committedHeights calls` : the heights of the commits that the application accepted.
* `CommitsBelow s` : they are strictly increasing, and all below the height of the engine.
* `commits_increase` : **no height is committed twice**, whatever the order of messages and
  whichever file operations fail.
-/

namespace ConsensusBft

open Exec (Steps)

variable {F : Type} [Content F] {E : Env F} {S : Source F} {s s' : State F} {address : Address}
variable {disk : Disk} {is is₁ is₂ : List Input} {p p₁ p' : Process F} {i : Input} {rs : Status}

omit [Content F] in
/-- The height of a commit that the application accepted. -/
def Call.committed (call : Call F) : Option UInt64 :=
  match call.event with
  | .commit c (.ok _) => some c.height
  | _ => none

/-- The heights of the commits that the application accepted, in order. -/
def committedHeights (calls : List (Call F)) : List UInt64 := calls.filterMap Call.committed

/-- The accepted commits are strictly increasing, and below the height of the engine. -/
structure CommitsBelow (s : State F) : Prop where
  increasing : (committedHeights s.calls).Pairwise (· < ·)
  below : ∀ h ∈ committedHeights s.calls, h < s.eng.height

omit [Content F] in
theorem committedHeights_append (calls : List (Call F)) (call : Call F) :
    committedHeights (calls ++ [call]) = committedHeights calls ++ call.committed.toList := by
  simp only [committedHeights, List.filterMap_append, List.filterMap_cons, List.filterMap_nil]
  cases call.committed <;> rfl

omit [Content F] in
/-- The heights stay in order when the engine moves up. -/
theorem CommitsBelow.mono (h : CommitsBelow s)
    (hcalls : committedHeights s'.calls = committedHeights s.calls)
    (hle : s.eng.height ≤ s'.eng.height) : CommitsBelow s' := by
  refine ⟨hcalls ▸ h.increasing, fun k hk => ?_⟩
  exact UInt64.lt_of_lt_of_le (h.below k (hcalls ▸ hk)) hle

/-- A move of a turn that brings no commit commits nothing. -/
theorem Move.committedHeights_eq (h : Move E S s s') (hS : ∀ c, ¬ S.core (.commit c)) :
    committedHeights s'.calls = committedHeights s.calls := by
  cases h with
  | call e permitted founded =>
    change committedHeights (s.calls ++ [⟨s.eng, s.disk, e⟩]) = _
    rw [committedHeights_append]
    cases e with
    | commit c res =>
      obtain ⟨bc, hbc, -⟩ := founded
      exact absurd hbc (hS bc)
    | _ => simp [Call.committed]
  | check hash block bytes isLock isBySelf cached =>
    change committedHeights (s.calls ++ [_]) = _
    rw [committedHeights_append]
    simp [Call.committed]
  | _ => rfl

theorem Moves.committedHeights_eq (h : Moves E (quietSource F) s s') :
    committedHeights s'.calls = committedHeights s.calls := by
  induction h with
  | refl => rfl
  | tail _ hm ih => exact (hm.committedHeights_eq not_quietSource).trans ih

/-! ### Statuses -/

omit [Content F] in
/-- Without the log, a status is let in unless it is obsolete. -/
theorem letIn_of_le (hwal : E.walOn = false) (h : s.eng.height ≤ rs.height) :
    LetIn E s rs true :=
  ⟨h, fun hon => by simp [hwal] at hon⟩

/-- **A status that is not obsolete brings the engine past its height**, even if the log cannot be
moved to the new height, and commits nothing. -/
theorem processStatus_passes (hwal : E.walOn = false) (hc : Cached E (Supply.all F) s.eng)
    (hle : s.eng.height ≤ rs.height) (hmax : rs.height + 1 ≠ 0) :
    Exec.wp (processStatus E rs)
      (fun _ s' => s'.eng.height = rs.height + 1 ∧
        committedHeights s'.calls = committedHeights s.calls)
      (fun _ s' => s'.eng.height = rs.height + 1 ∧
        committedHeights s'.calls = committedHeights s.calls) s := by
  have heffect := handleRichStatus_effect E s rs true
  -- the height has moved whatever the outcome
  have entered : (Exec.result (handleRichStatus E rs true) s).2.eng.height = rs.height + 1 ∧
      committedHeights (Exec.result (handleRichStatus E rs true) s).2.calls =
        committedHeights s.calls := by
    generalize (Exec.result (handleRichStatus E rs true) s).1 = r at heffect
    generalize (Exec.result (handleRichStatus E rs true) s).2 = s₁ at heffect
    cases heffect with
    | refused _ out => exact absurd (letIn_of_le hwal hle) out
    | crashed _ _ wraps => exact absurd wraps hmax
    | entered _ _ _ => exact ⟨rfl, rfl⟩
  refine processStatus_keeps ?_ (fun _ _ h => h) hc
    (Exec.wp_of_result rfl (fun _ _ => entered) fun _ _ => entered)
  rintro a b hm ⟨hh, hcs⟩
  exact ⟨hm.height_eq.trans hh, (hm.committedHeights_eq not_quietSource).trans hcs⟩

/-- So does a status from outside, and one that is obsolete changes nothing. -/
theorem processStatus_commitsBelow (hwal : E.walOn = false) (hc : Cached E (Supply.all F) s.eng)
    (hmax : rs.height + 1 ≠ 0) (h : CommitsBelow s) :
    Exec.wp (processStatus E rs) (fun _ s' => CommitsBelow s' ∧ s.eng.height ≤ s'.eng.height)
      (fun _ s' => CommitsBelow s' ∧ s.eng.height ≤ s'.eng.height) s := by
  by_cases hle : s.eng.height ≤ rs.height
  · have up : s.eng.height ≤ rs.height + 1 := by
      have := UInt64.le_iff_toNat_le.1 hle
      grind
    refine (processStatus_passes hwal hc hle hmax).mono ?_ ?_ <;>
    · rintro _ s' ⟨hheight, hcalls⟩
      exact ⟨h.mono hcalls (hheight ▸ up), hheight ▸ up⟩
  · rw [processStatus_eq]
    unfold handleRichStatus
    simp only [bind_assoc]
    refine Exec.wp_bind.2 (Exec.wp_get.2 (Exec.wp_bind.2 (Exec.wp_rejectIf.2 ⟨fun _ => ?_, ?_⟩)))
    · exact ⟨h, UInt64.le_refl _⟩
    · exact fun hlt => absurd (UInt64.not_lt.1 hlt) hle

/-! ### Commits -/

omit [Content F] in
/-- A commit at the height of the engine or above comes after the earlier ones. -/
theorem CommitsBelow.commit {s s' : State F} {k : UInt64} (h : CommitsBelow s)
    (hge : s.eng.height ≤ k) (hup : k < s'.eng.height)
    (hcalls : committedHeights s'.calls = committedHeights s.calls ++ [k]) : CommitsBelow s' := by
  refine ⟨?_, fun l hl => ?_⟩
  · rw [hcalls, List.pairwise_append]
    refine ⟨h.increasing, List.pairwise_singleton _ _, fun a ha b hb => ?_⟩
    obtain rfl := List.mem_singleton.1 hb
    exact UInt64.lt_of_lt_of_le (h.below a ha) hge
  · rw [hcalls, List.mem_append, List.mem_singleton] at hl
    rcases hl with hl | rfl
    · exact UInt64.lt_trans (UInt64.lt_of_lt_of_le (h.below l hl) hge) hup
    · exact hup

/-- **A commit that the application accepts moves the engine past its height.** -/
theorem coreProcess_commitsBelow (hwal : E.walOn = false)
    (hanswer : ∀ n (c : Commit F) st, E.support.commit n c = .ok st →
      c.height ≤ st.height ∧ st.height + 1 ≠ 0)
    (c : BftCommit) (hc : Cached E (Supply.all F) s.eng) (h : CommitsBelow s) :
    Exec.wp (coreProcess E (.commit c))
      (fun _ s' => CommitsBelow s' ∧ s.eng.height ≤ s'.eng.height)
      (fun _ s' => CommitsBelow s' ∧ s.eng.height ≤ s'.eng.height) s := by
  have hleft := handleCommit_leaves (E := E) c true s
  refine coreProcess_commit_wp ?_ ?_ ?_
  · intro e s₁ hres
    obtain ⟨hheight, hcalls, -⟩ := hleft.error hres
    exact ⟨h.mono (by rw [hcalls]) (hheight ▸ UInt64.le_refl _), hheight ▸ UInt64.le_refl _⟩
  · -- the application refused
    intro commit s₁ e hres hcom _
    obtain ⟨hheight, hcalls, -⟩ := hleft.ok hres
    refine ⟨h.mono ?_ (hheight ▸ UInt64.le_refl _), hheight ▸ UInt64.le_refl _⟩
    change committedHeights (s₁.calls ++ [_]) = _
    rw [committedHeights_append, hcalls]
    simp [Call.committed]
  · intro commit s₁ st hres hcom
    obtain ⟨hheight, hcalls, -, -, hcommit, hge⟩ := hleft.ok hres
    have hmoves := (handleCommit_moves (E := E) (S := Source.all F) (s := s) (c := c) trivial
      true).reached hres
    have hc₁ : Cached E (Supply.all F) s₁.eng :=
      Advances.cached (Moves.advances (Stills.moves hmoves)) hc
    obtain ⟨hst, hmax⟩ := hanswer _ _ _ hcom
    rw [hcommit] at hst
    have hle : s₁.eng.height ≤ st.height := hheight ▸ UInt64.le_trans hge hst
    have hup : c.height < st.height + 1 := by
      have := UInt64.le_iff_toNat_le.1 hst
      grind
    -- the new commit is above all earlier ones, and the status moves the engine past it
    have key : ∀ s' : State F, s'.eng.height = st.height + 1 →
        committedHeights s'.calls = committedHeights
          (s₁.record (.commit commit (.ok st))).calls →
        CommitsBelow s' ∧ s.eng.height ≤ s'.eng.height := by
      intro s' hheight' hcalls'
      have heq : committedHeights s'.calls = committedHeights s.calls ++ [c.height] := by
        rw [hcalls']
        change committedHeights (s₁.calls ++ [_]) = _
        rw [committedHeights_append, hcalls]
        simp [Call.committed, hcommit]
      refine ⟨h.commit hge (hheight' ▸ hup) heq, ?_⟩
      rw [hheight']
      exact UInt64.le_of_lt (UInt64.lt_of_le_of_lt hge hup)
    have hpass := processStatus_passes (s := s₁.record (.commit commit (.ok st))) hwal hc₁ hle hmax
    refine hpass.mono ?_ ?_
    · exact fun _ s' hs' => key s' hs'.1 hs'.2
    · exact fun _ s' hs' => key s' hs'.1 hs'.2

/-! ### Turns and runs -/

/-- **One turn keeps the commits below the height, which does not decrease.** -/
theorem next_commitsBelow (hwal : E.walOn = false)
    (hanswer : ∀ n (c : Commit F) st, E.support.commit n c = .ok st →
      c.height ≤ st.height ∧ st.height + 1 ≠ 0)
    (hstatus : ∀ rs, i = .external (.status rs) → rs.height + 1 ≠ 0) (hi : i ≠ .replay)
    (hc : Cached E (Supply.all F) p.state.eng) (hn : next E i p = some p')
    (h : CommitsBelow p.state) :
    CommitsBelow p'.state ∧ p.state.eng.height ≤ p'.state.eng.height := by
  have quiet : (∀ rs, ¬ BringsStatus E p i rs) → (∀ c, ¬ BringsCore E p i (.commit c)) →
      CommitsBelow p'.state ∧ p.state.eng.height ≤ p'.state.eng.height := by
    intro hrs hcs
    have hm := next_moves_of_quiet hc hn hrs hcs
    have hle : p.state.eng.height ≤ p'.state.eng.height := hm.height_eq ▸ UInt64.le_refl _
    exact ⟨h.mono hm.committedHeights_eq hle, hle⟩
  have live : ∀ {m : EngineM F PUnit}, liveNext E p.state i = Exec.survive m p.state →
      Exec.wp m (fun _ s' => CommitsBelow s' ∧ p.state.eng.height ≤ s'.eng.height)
        (fun _ s' => CommitsBelow s' ∧ p.state.eng.height ≤ s'.eng.height) p.state →
      CommitsBelow p'.state ∧ p.state.eng.height ≤ p'.state.eng.height := by
    intro m heq hwp
    obtain ⟨s, -, hs, rfl⟩ := live_of_next hi hn
    exact Exec.survive_of_wp (P := fun s => CommitsBelow s ∧ p.state.eng.height ≤ s.eng.height)
      (hwp.mono (fun _ _ h => h) fun _ _ h _ => h) (heq.symm.trans hs)
  cases i with
  | core m =>
    cases m with
    | commit c => exact live rfl (coreProcess_commitsBelow hwal hanswer c hc h)
    | _ => exact quiet (fun _ h => h) (by simp [BringsCore])
  | external m =>
    cases m with
    | status rs => exact live rfl (processStatus_commitsBelow hwal hc (hstatus rs rfl) h)
    | _ => exact quiet (fun _ h => h) (fun _ h => h)
  | async => exact quiet (fun _ h => h) (fun _ h => h)
  | replay => exact absurd rfl hi

/-- **No height is committed twice**: without the log, if the application never answers a commit
with a status of an earlier height, and no status is of the last height, then in every state of
every run the heights of the accepted commits are strictly increasing and below the height of the
engine, and no turn decreases that height. -/
theorem commits_increase (hwal : E.walOn = false)
    (hanswer : ∀ n (c : Commit F) st, E.support.commit n c = .ok st →
      c.height ≤ st.height ∧ st.height + 1 ≠ 0)
    (hstatus : ∀ rs, .external (.status rs) ∈ is → rs.height + 1 ≠ 0) :
    EachState E address disk is (fun p => CommitsBelow p.state) ∧
      EachInput E address disk is fun p i =>
        ∀ p', next E i p = some p' → p.state.eng.height ≤ p'.state.eng.height := by
  have turn : ∀ {js i js' q q'}, is = js ++ i :: js' → Life E address disk js q →
      Cached E (Supply.all F) q.state.eng → next E i q = some q' → CommitsBelow q.state →
      CommitsBelow q'.state ∧ q.state.eng.height ≤ q'.state.eng.height := by
    intro js i js' q q' hjs hq hc hn h
    have hi : i ≠ .replay := by
      rintro rfl
      obtain ⟨record, records, hp, -⟩ := pending_of_replayNext hn
      rw [hq.not_replay hwal] at hp
      cases hp
    refine next_commitsBelow hwal hanswer ?_ hi hc hn h
    rintro rs rfl
    exact hstatus rs (by simp [hjs])
  have states : EachState E address disk is fun p => CommitsBelow p.state := by
    intro is₁ is₂ p his hl
    refine hl.induction (I := fun p => CommitsBelow p.state) ?_ ?_
    · intro p₀ hb
      have hcalls := (boot_state hb).2.2
      exact ⟨by simp [hcalls, committedHeights], by simp [hcalls, committedHeights]⟩
    · intro js i js' q q' hjs hq hc hn h
      have hjs' : is = js ++ i :: (js' ++ is₂) := by rw [his, hjs]; simp
      exact (turn hjs' hq hc hn h).1
  refine ⟨states, ?_⟩
  intro js i js' q hjs hq q' hn
  obtain ⟨-, -, -, hc⟩ := hq.updates (SuppliedLife.all E address disk js)
  exact (turn hjs hq hc hn (states js (i :: js') q hjs hq)).2

/-- The only authority commits a block at height `1`, and its BFT core repeats the commit. -/
def repeatedCommitRun : List Input :=
  Reference.precommitRun ++
    [.core (.commit Reference.firstCommit), .core (.commit Reference.firstCommit)]

/-- The reference application, refusing commits of the last height. -/
def boundedEnv : Env Block :=
  { Reference.env [7] with
    support := { Reference.support [7] with
      commit := fun _ c =>
        if c.height + 1 = 0 then .error "last height" else .ok ⟨c.height, none, [Node.new [7]]⟩ } }

theorem commits_increase_repeated :
    ∃ p, Life boundedEnv [7] Reference.disk repeatedCommitRun p ∧
      committedHeights p.state.calls = [1] ∧ CommitsBelow p.state := by
  obtain ⟨p, hl, hf⟩ := Reference.exists_life boundedEnv [7] repeatedCommitRun
    (fun p => decide (committedHeights p.state.calls = [1])) (by decide +kernel)
  refine ⟨p, hl, of_decide_eq_true hf, ?_⟩
  refine (commits_increase rfl ?_ ?_).1 repeatedCommitRun [] p (List.append_nil _).symm hl
  · intro n c st h
    change (if c.height + 1 = 0 then _ else _) = _ at h
    split_ifs at h with hmax
    obtain rfl := Except.ok.inj h
    exact ⟨UInt64.le_refl _, hmax⟩
  · intro rs hmem
    simp only [repeatedCommitRun, Reference.precommitRun, Reference.readyRun, List.cons_append,
      List.nil_append, List.mem_cons, List.not_mem_nil, or_false, reduceCtorEq,
      Input.external.injEq, ConsensusInput.status.injEq] at hmem
    subst hmem
    decide

end ConsensusBft

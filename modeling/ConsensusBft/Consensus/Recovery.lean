import ConsensusBft.Consensus.LogFiles
import ConsensusBft.Consensus.LogReference

/-!
# What a restart restores

The position of the engine is its height, its authorities and whether it takes part in consensus.

* `HandlesStatus E p i` : the turn handles a status; `next_synced` : after it the log is at the
  height of the engine.
* `PositionRestored E address p` : started again on the directory that `p` leaves, the engine
  replays its log and comes back to its position.
* `start_height` : **the replay ends at height `0`, or one height too far.**  The status that opened
  a height is in the file of the height before, which is not read.
* `position_restored_iff` : **nothing but the position of a new engine is restored.**
-/

namespace ConsensusBft

open Exec (wp wp_bind)

variable {F : Type} [Content F] {E : Env F} {s s' : State F} {rs : Status} {address : Address}
variable {disk : Disk} {is : List Input} {i : Input} {p p' : Process F} {S : Source F}

/-! ### Statuses -/

section

variable (hio : ∀ n, E.io n = .ok)

include hio

omit [Content F] in
/-- **Once a status was handled the log is at the height of the engine**, also if the status is
refused as obsolete. -/
theorem handleRichStatus_synced (needWal : Bool)
    (htext : needWal = true → (E.serde.status.toString rs).isSome) (hf : Follows s) :
    wp (handleRichStatus E rs needWal) (fun _ => Synced)
      (fun e s' => e ≠ .panicked → Synced s') s := by
  refine handleRichStatus_wp ?_ (fun _ _ _ _ hne => absurd rfl hne) ?_ ?_
  · intro e w hrefused hne
    cases hrefused with
    | obsolete lt => exact hf.synced (by grind)
    | unprinted _ due text =>
      have hprints := htext (Bool.and_eq_true_iff.1 due).2
      rw [text] at hprints
      cases hprints
    | @unsaved bytes _ _ _ _ _ saved fails panics =>
      -- saving succeeds, or panics where the log is full
      rcases Wal.save_cases hio E.overflowChecks rs.height (LOG_TYPE_RICH_STATUS, bytes)
        s.walState with heq | ⟨m, heq⟩ <;> rw [saved] at heq
      · exact absurd (panics (congrArg Prod.fst heq)) hne
      · exact absurd (congrArg Prod.fst heq) (fails m)
  · exact fun _ w hw _ =>
      LogStep.synced_of_entered hio hf.index hw.statusLogged.appended rfl rfl
  · intro _ w _ _ hfails
    rw [Wal.setHeight_result hio] at hfails
    exact absurd rfl hfails

/-- So it is after everything that follows a status. -/
theorem processStatus_synced (hc : Cached E (Supply.all F) s.eng)
    (htext : (E.serde.status.toString rs).isSome) (hf : Follows s) :
    wp (processStatus E rs) (fun _ => Synced) (fun e s' => e ≠ .panicked → Synced s') s :=
  processStatus_keeps (fun _ _ h => h.logStep.synced hio) (fun _ _ h _ => h) hc
    (handleRichStatus_synced hio true (fun _ => htext) hf)

omit hio in
/-- The turn handles a status that can be logged, and may refuse it as obsolete: a status from
outside, the answer of the application to a commit, or a status of the log. -/
def HandlesStatus (E : Env F) (p : Process F) : Input → Prop
  | .external (.status rs) => (E.serde.status.toString rs).isSome
  | .core (.commit c) => ∃ commit s₁ rs,
      Exec.result (handleCommit E c true) p.state = (.ok commit, s₁) ∧
        E.support.commit s₁.calls.length commit = .ok rs ∧ (E.serde.status.toString rs).isSome
  | .replay => ∃ rs, BringsStatus E p .replay rs
  | _ => False

/-- **After a turn that handles a status the log is at the height of the engine.** -/
theorem next_synced (hc : Cached E (Supply.all F) p.state.eng) (hn : next E i p = some p')
    (hh : HandlesStatus E p i) (hf : Follows p.state) : Synced p'.state := by
  cases i with
  | external m =>
    cases m with
    | status rs =>
      obtain ⟨s, -, hs, rfl⟩ := live_of_next (by simp) hn
      exact Exec.survive_of_wp (P := Synced) (processStatus_synced hio hc hh hf) hs
    | _ => exact hh.elim
  | core m =>
    cases m with
    | commit c =>
      obtain ⟨commit, s₁, rs, hres, hcom, htext⟩ := hh
      have hmoves := (handleCommit_moves (E := E) (S := Source.all F) (s := p.state) (c := c)
        trivial true).reached hres
      have hadvances := Moves.advances (Stills.moves hmoves)
      have hf₁ : Follows s₁ := Exec.invariant_of_moves (I := Follows)
        (fun _ _ h => h.logStep.follows hio) hadvances hf
      have hc₁ : Cached E (Supply.all F) s₁.eng := Advances.cached hadvances hc
      obtain ⟨s, -, hs, rfl⟩ := live_of_next (by simp) hn
      refine Exec.survive_of_wp (P := Synced) ?_ hs
      refine (Exec.wp_bind_ok hres).2 (wp_bind.2 (wp_bind.2 (Exec.wp_get.2 (wp_bind.2
        ((Exec.wp_modify _).2 (wp_bind.2 ?_))))))
      rw [hcom]
      exact processStatus_synced hio hc₁ htext
        ⟨hf₁.index, fun h => ⟨(hf₁.synced h).current, (hf₁.synced h).index⟩⟩
    | _ => exact hh.elim
  | async => exact hh.elim
  | replay =>
    obtain ⟨rs, msg, records, hp, hmsg⟩ := hh
    obtain ⟨record, records', hp', -, hs⟩ := pending_of_replayNext hn
    obtain rfl := (List.cons.inj (hp.symm.trans hp')).1
    refine Exec.survive_of_wp (P := Synced) (m := loadStatus E msg) ?_ hs
    unfold loadStatus loadJson
    rw [hmsg]
    refine wp_bind.2 (Exec.wp_ifOk ?_)
    refine (handleRichStatus_synced hio false (by simp) hf).mono (fun st s₁ hs₁ => ?_)
      fun e s₁ h => ⟨h, fun _ hne => absurd rfl hne⟩
    have hsend : Exec.Steps (Still E (Source.all F)) (sendBft E (.status st) "BftStatus")
        (fun _ _ => True) s₁ := sendBft_moves ⟨rfl, trivial⟩ trivial
    exact ((hsend.keeps (fun _ _ h => h.move.logStep.synced hio) hs₁).mono fun _ _ h => h)
      fun _ _ h _ => h

end

/-! ### Restarts -/

/-- The position of the engine. -/
structure Position where
  height : UInt64
  authorities : List Node
  authoritiesOld : List Node
  authorityHOld : UInt64
  consensusPower : Bool
deriving DecidableEq, Repr

/-- The position of a new engine. -/
def Position.initial : Position := ⟨INIT_HEIGHT, [], [], 0, false⟩

def Consensus.position (eng : Consensus F) : Position where
  height := eng.height
  authorities := eng.authority.authorities
  authoritiesOld := eng.authority.authoritiesOld
  authorityHOld := eng.authority.authorityHOld
  consensusPower := eng.consensusPower

/-- Started again in the surroundings `E`, on the directory that the process leaves, the engine
comes back to its position. -/
def PositionRestored (E : Env F) (address : Address) (p : Process F) : Prop :=
  ∃ s, start E address p.state.disk = some s ∧ s.eng.position = p.state.eng.position

section

variable {H : UInt64}

/-- Statuses of the height `H` only lead to the next one. -/
theorem Advances.height_cases (h : Advances E S s s') (hS : ∀ rs, S.status rs → rs.height = H)
    (hs : s.eng.height = 0 ∨ s.eng.height = H + 1) :
    s'.eng.height = 0 ∨ s'.eng.height = H + 1 := by
  refine Exec.invariant_of_moves (I := fun s => s.eng.height = 0 ∨ s.eng.height = H + 1) ?_ h hs
  intro s s' hstep hs
  rcases hstep.effect with h | ⟨rs, needWal, r, given, heffect⟩
  · rwa [h.height_eq]
  · cases heffect with
    | refused _ _ => exact hs
    | crashed _ _ _ => exact hs
    | entered _ _ _ => exact .inr (congrArg (· + 1) (hS rs given))

variable (hio : ∀ n, E.io n = .ok)

include hio

/-- **The replay ends at height `0`, or one height too far**: the file that is read holds no status
but for its own height. -/
theorem start_height (hinverts : E.serde.status.Inverts) (hdisk : disk.Holds (StatusUnder E))
    (hshort : disk.Short) (hindex : Wal.indexHeight disk = some H)
    (hs : start E address disk = some s) : s.eng.height = 0 ∨ s.eng.height = H + 1 := by
  obtain ⟨n, hl⟩ := start_iff_replay.1 hs
  refine (hl.induction (I := fun q => (q.state.eng.height = 0 ∨ q.state.eng.height = H + 1) ∧
    ∀ r ∈ q.pending, StatusUnder E H r) ?_ ?_).1
  · intro q hb
    obtain ⟨h, hh, hq⟩ := booted_of_boot hio hb
    obtain rfl := Option.some.inj (hh.symm.trans hindex)
    refine ⟨.inl (by rw [hq.eng]; rfl), fun r hr => ?_⟩
    rw [hq.pending] at hr
    split_ifs at hr
    · exact Wal.mem_of_loaded (hdisk.orInsert hq.logs) (hshort.orInsert hq.logs) hr
    · simp at hr
  · rintro is₁ i is₂ q q' his - - hn ⟨hheight, hpending⟩
    obtain rfl : i = .replay := by
      refine List.eq_of_mem_replicate (n := n) ?_
      rw [his]
      simp
    obtain ⟨record, records, hp, hsuffix, -⟩ := pending_of_replayNext hn
    let S : Source F := { Source.all F with status := fun rs => rs.height = H }
    have hS : Sourced E S q .replay :=
      { vote := fun _ _ => trivial
        proposal := fun _ _ _ _ => trivial
        block := fun _ _ _ _ _ => trivial
        core := fun _ _ => trivial
        status := by
          rintro rs ⟨msg, records', hp', hmsg⟩
          obtain ⟨rs', htext, hrs'⟩ := hpending (LOG_TYPE_RICH_STATUS, msg) (by simp [hp']) rfl
          obtain rfl := Option.some.inj (hmsg.symm.trans (hinverts rs' msg htext))
          exact hrs'
        verdict := fun _ _ => trivial }
    refine ⟨Advances.height_cases (replayNext_advances hS hn) (fun _ h => h) hheight, ?_⟩
    exact fun r hr => hpending r (hp ▸ List.mem_cons_of_mem record (hsuffix.subset hr))

/-- At height `0` nothing is replayed. -/
theorem start_of_index_zero (hindex : Wal.indexHeight disk = some 0) :
    ∃ s, start E address disk = some s ∧ s.eng.position = Position.initial := by
  obtain ⟨q, hb, hq⟩ : ∃ q, boot E address disk = some q ∧ Booted E address disk 0 q :=
    boot_of_index hio hindex
  have hpending : q.pending = [] := by
    rw [hq.pending]
    split_ifs <;> simp [Wal.loaded]
  refine ⟨q.state, start_iff_replay.2 ⟨0, q, hb, ?_⟩, by rw [hq.eng]; rfl⟩
  rw [← hpending]
  rfl

end

/-- A status is handled in the run. -/
def StatusHandled (E : Env F) (address : Address) (disk : Disk) (is : List Input) : Prop :=
  ∃ is₁ i is₂ q, is = is₁ ++ i :: is₂ ∧ Life E address disk is₁ q ∧ HandlesStatus E q i

/-- **Once a status was handled, the log is at the height of the engine.** -/
theorem Life.synced_of_statusHandled (hio : ∀ n, E.io n = .ok) (hl : Life E address disk is p)
    (hstatus : StatusHandled E address disk is) : Synced p.state := by
  obtain ⟨is₁, i, is₂, q, rfl, hq, hh⟩ := hstatus
  obtain ⟨p₁, p₂, hl₁, hn, hl₂⟩ := hl.split
  obtain rfl := hl₁.unique hq
  obtain ⟨-, -, -, hc⟩ := hl₁.updates (SuppliedLife.all E address disk is₁)
  have hsync := next_synced hio hc hn hh (hl₁.follows hio)
  exact Life.synced hio (by rwa [List.append_assoc]) hl₂ hsync

/-- **A restart restores the position if and only if it is that of a new engine**: after any run in
which a status was handled, on any directory whose files hold each status under its own height, and
whatever the application answers after the restart. -/
theorem position_restored_iff {E' : Env F} (hio : ∀ n, E.io n = .ok) (hio' : ∀ n, E'.io n = .ok)
    (hserde : E'.serde = E.serde) (hinverts : E.serde.status.Inverts)
    (hdisk : disk.Holds (StatusUnder E)) (hl : Life E address disk is p)
    (hstatus : StatusHandled E address disk is) (hshort : p.state.disk.Short) :
    PositionRestored E' address p ↔ p.state.eng.position = Position.initial := by
  have hsync := hl.synced_of_statusHandled hio hstatus
  have hindex := Wal.indexHeight_decimal hsync.index
  by_cases hzero : p.state.eng.height = 0
  · rw [hzero] at hindex
    obtain ⟨s, hs, hinitial⟩ : ∃ s, start E' address p.state.disk = some s ∧
        s.eng.position = Position.initial := start_of_index_zero hio' hindex
    constructor
    · rintro ⟨s', hs', hpos⟩
      obtain rfl := Option.some.inj (hs.symm.trans hs')
      rw [← hpos, hinitial]
    · exact fun h => ⟨s, hs, by rw [hinitial, h]⟩
  · refine iff_of_false ?_ fun h => hzero (congrArg Position.height h)
    rintro ⟨s, hs, hpos⟩
    have hholds : p.state.disk.Holds (StatusUnder E') := by
      unfold StatusUnder
      rw [hserde]
      exact hl.statusesUnder hio hdisk
    have hheight : s.eng.height = p.state.eng.height := congrArg Position.height hpos
    rcases start_height hio' (hserde ▸ hinverts) hholds hshort hindex hs with h | h
    · exact hzero (hheight.symm.trans h)
    · rw [hheight] at h
      exact absurd h (by grind)

/-- The only authority enters height `1`, and is started again: its position is not restored. -/
theorem position_restored_iff_ready : ∃ p,
    Life Reference.readyLog [7] Reference.disk (Reference.readyRun [7]) p ∧
      ¬ PositionRestored Reference.readyLog [7] p := by
  obtain ⟨p, hl, hf⟩ := Reference.exists_life Reference.readyLog [7] (Reference.readyRun [7])
    (fun p => decide (p.state.eng.height = 1) &&
      p.state.disk.logs.entries.all fun e => decide (e.2.length < 2 ^ 32)) (by decide +kernel)
  simp only [Bool.and_eq_true, decide_eq_true_eq, List.all_eq_true] at hf
  obtain ⟨hheight, hfiles⟩ := hf
  obtain ⟨p₁, hb, -⟩ := id hl
  have htext : (Reference.readyLog.serde.status.toString ⟨0, none, [Node.new [7]]⟩).isSome := by
    decide +kernel
  refine ⟨p, hl, fun h => ?_⟩
  have hiff := position_restored_iff (fun _ => rfl) (fun _ => rfl) rfl
    (Reference.logEnv_inverts _ _ _ _).status (Disk.Holds.empty rfl) hl
    ⟨[], _, [], p₁, rfl, ⟨p₁, hb, rfl⟩, htext⟩
    (Disk.Short.of_length fun k b hb => hfiles ⟨k, b⟩ (AList.mem_lookup_iff.1 hb))
  have hinitial := congrArg Position.height (hiff.1 h)
  exact absurd (hheight.symm.trans hinitial) (by decide)

/-- The engine is started again at height `0`, without authorities and without power. -/
theorem position_lost : ∃ p s,
    Life Reference.readyLog [7] Reference.disk (Reference.readyRun [7]) p ∧ p.pending = [] ∧
      p.state.eng.position = ⟨1, [Node.new [7]], [], 0, true⟩ ∧
      start Reference.readyLog [7] p.state.disk = some s ∧
      s.eng.position = ⟨0, [], [], 0, false⟩ := by
  obtain ⟨p, hl, hf⟩ := Reference.exists_life Reference.readyLog [7] (Reference.readyRun [7])
    (fun p => decide (p.pending = []) &&
      decide (p.state.eng.position = ⟨1, [Node.new [7]], [], 0, true⟩) &&
      (start Reference.readyLog [7] p.state.disk).any fun s : State Block =>
        decide (s.eng.position = (⟨0, [], [], 0, false⟩ : Position))) (by decide +kernel)
  simp only [Bool.and_eq_true, decide_eq_true_eq] at hf
  obtain ⟨⟨hpending, hpos⟩, hs⟩ := hf
  obtain ⟨s, hs, hlost⟩ := (Option.any_eq_true _ _).1 hs
  exact ⟨p, s, hl, hpending, hpos, hs, of_decide_eq_true hlost⟩

end ConsensusBft

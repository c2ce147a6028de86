import ConsensusBft.Consensus.NewHeight
import ConsensusBft.Consensus.Reference

/-!
# A status that fails half way

`handle_rich_status` installs the authorities, drops the blocks and moves the engine before the log
moves, which may fail.

* `LeftInPlace s s'` : the engine is at the height of `s`, with its authorities and blocks, and
  nobody was told anything.
* `HalfMoves E s rs needWal` : the status is let in and logged, the log does not move, and the
  engine is changed by the status.
* `failed_status_iff` : **a status that fails leaves the engine where it was if and only if it does
  not move half way.**
-/

namespace ConsensusBft

variable {F : Type} {E : Env F} {s s' : State F} {rs : Status} {needWal : Bool}

/-- The engine is where it was, and the BFT core was told nothing. -/
structure LeftInPlace (s s' : State F) : Prop where
  height : s'.eng.height = s.eng.height
  authority : s'.eng.authority = s.eng.authority
  verifiedBlock : s'.eng.verifiedBlock = s.eng.verifiedBlock
  blockOriginCache : s'.eng.blockOriginCache = s.eng.blockOriginCache
  calls : s'.calls = s.calls

/-- The number of file operations that logging the status makes. -/
def statusOps (E : Env F) (s : State F) (rs : Status) (needWal : Bool) : ℕ :=
  if (E.walOn && needWal) = true then
    ((E.serde.status.toString rs).map (Wal.saveOps s.eng.walLog rs.height)).getD 0
  else 0

/-- The status is not obsolete, and it is logged if that is due: it has a text, the log is not full,
and no file operation fails. -/
structure Passes (E : Env F) (s : State F) (rs : Status) (needWal : Bool) : Prop where
  height_le : s.eng.height ≤ rs.height
  logged : (E.walOn && needWal) = true → ∃ bytes, E.serde.status.toString rs = some bytes ∧
    ¬ (E.overflowChecks = true ∧ Wal.Full s.eng.walLog rs.height) ∧
    Wal.Works E.io s.disk.ops (Wal.saveOps s.eng.walLog rs.height bytes)

/-- The status changes the engine, if it is let in. -/
def Changes (s : State F) (rs : Status) : Prop :=
  rs.height + 1 ≠ s.eng.height ∨
    s.eng.authority.updateAuthority s.eng.height rs.authorityList ≠ s.eng.authority ∨
    s.eng.verifiedBlock ≠ ∅ ∨ s.eng.blockOriginCache ≠ ∅

/-- The status is let in and the height after it can be counted, but an operation fails that
`Wal::set_height` checks. -/
structure Stuck (E : Env F) (s : State F) (rs : Status) (needWal : Bool) : Prop where
  passes : Passes E s rs needWal
  counts : ¬ (E.overflowChecks = true ∧ rs.height + 1 = 0)
  fails : ¬ Wal.Moves E.io (s.disk.ops + statusOps E s rs needWal)

/-- So it moves the engine, but not the log. -/
structure HalfMoves (E : Env F) (s : State F) (rs : Status) (needWal : Bool) : Prop
    extends Stuck E s rs needWal where
  changes : Changes s rs

/-- Unless the height wraps, the engine is changed. -/
theorem changes_of_lt (hle : s.eng.height ≤ rs.height) (hwraps : rs.height + 1 ≠ 0) :
    Changes s rs := by
  left
  intro heq
  have hlt := rs.height.toNat_lt
  rw [UInt64.le_iff_toNat_le] at hle
  rw [← UInt64.toNat_inj, UInt64.toNat_add] at heq
  rw [Ne, ← UInt64.toNat_inj, UInt64.toNat_add] at hwraps
  simp only [UInt64.reduceToNat] at heq hwraps
  omega

/-! ### Logging the status -/

theorem Passes.letIn (h : Passes E s rs needWal) : LetIn E s rs needWal := by
  refine ⟨h.height_le, fun due => ?_⟩
  obtain ⟨bytes, htext, hroom, hworks⟩ := h.logged due
  have hsave := (Wal.save_spec E.io E.overflowChecks rs.height LOG_TYPE_RICH_STATUS bytes
    s.walState).2.2 ⟨hroom, hworks⟩
  obtain ⟨n, w, hw, -⟩ := hsave.returns
  exact ⟨bytes, n, htext, congrArg Prod.fst hw⟩

/-- A status that was filed passes, and its operations are counted. -/
theorem StatusFiled.passes {w : WalState} (h : StatusFiled E s rs needWal w)
    (hle : s.eng.height ≤ rs.height) :
    Passes E s rs needWal ∧ w.disk.ops = s.disk.ops + statusOps E s rs needWal := by
  cases h with
  | off idle =>
    refine ⟨⟨hle, fun due => absurd due idle⟩, ?_⟩
    rw [statusOps, if_neg idle]
    rfl
  | @on bytes n w due text saved =>
    have hreturns : Wal.Returns
        (Wal.save E.io E.overflowChecks rs.height LOG_TYPE_RICH_STATUS bytes) s.walState :=
      Exec.wp_of_result saved (fun _ _ => trivial) nofun
    obtain ⟨hroom, hworks⟩ := (Wal.save_spec _ _ _ _ _ _).2.1 hreturns
    refine ⟨⟨hle, fun _ => ⟨bytes, text, hroom, hworks⟩⟩, ?_⟩
    rw [statusOps, if_pos due, text]
    exact (Wal.save_ops E.io E.overflowChecks rs.height LOG_TYPE_RICH_STATUS bytes
      s.walState).ok saved

/-! ### Failing -/

/-- **What a status that fails leaves**: a stuck one has entered its height in the engine, any other
one has changed nothing. -/
theorem handleRichStatus_fails (E : Env F) (s : State F) (rs : Status) (needWal : Bool) :
    Exec.wp (handleRichStatus E rs needWal) (fun _ _ => ¬ Stuck E s rs needWal)
      (fun e s' => (Stuck E s rs needWal ∧ e ≠ .panicked ∧ ∃ w, s' = s.enter rs w) ∨
        (¬ Stuck E s rs needWal ∧ (e ≠ .panicked → LeftInPlace s s'))) s := by
  refine handleRichStatus_wp ?_ ?_ ?_ ?_
  · intro e w hrefused
    right
    exact ⟨fun hstuck => hrefused.not_letIn hstuck.passes.letIn,
      fun _ => ⟨rfl, rfl, rfl, rfl, rfl⟩⟩
  · intro _ w _ hwraps
    right
    exact ⟨fun hstuck => hstuck.counts hwraps, fun hne => absurd rfl hne⟩
  · intro hle w hw hset hstuck
    have hr : Exec.result (Wal.setHeight E.io (rs.height + 1)) w = (.ok ⟨⟩, _) := Prod.ext hset rfl
    have hreturns : Wal.Returns (Wal.setHeight E.io (rs.height + 1)) w :=
      Exec.wp_of_result hr (fun _ _ => trivial) nofun
    have hmoves := (Wal.setHeight_returns_iff E.io (rs.height + 1) w).1.1 hreturns
    rw [(hw.passes hle).2] at hmoves
    exact hstuck.fails hmoves
  · intro hle w hw hfits hset e
    left
    obtain ⟨hpasses, hops⟩ := hw.passes hle
    refine ⟨⟨hpasses, hfits, fun hmoves => hset ?_⟩, nofun, _, rfl⟩
    rw [← hops] at hmoves
    obtain ⟨⟨⟩, w', hw', -⟩ :=
      ((Wal.setHeight_returns_iff E.io (rs.height + 1) w).1.2 hmoves).returns
    exact congrArg Prod.fst hw'

/-- The engine that entered the height of a status is unmoved exactly if the status does not change
it. -/
theorem leftInPlace_enter_iff {w : WalState} : LeftInPlace s (s.enter rs w) ↔ ¬ Changes s rs := by
  unfold Changes
  simp only [not_or, not_not, ne_eq]
  constructor
  · rintro ⟨hheight, hauthority, hverified, hblocks, -⟩
    exact ⟨hheight, hauthority, hverified.symm, hblocks.symm⟩
  · rintro ⟨hheight, hauthority, hverified, hblocks⟩
    exact ⟨hheight, hauthority, hverified.symm, hblocks.symm, rfl⟩

/-- A stuck status fails once the engine has entered its height. -/
theorem Stuck.result (h : Stuck E s rs needWal) : ∃ e w,
    Exec.result (handleRichStatus E rs needWal) s = (.error (.err e), s.enter rs w) := by
  have hspec := handleRichStatus_fails E s rs needWal
  cases hr : Exec.result (handleRichStatus E rs needWal) s with
  | mk r s' =>
    cases r with
    | ok st => exact absurd h (hspec.ok hr)
    | error e =>
      rcases hspec.error hr with ⟨-, hne, w, rfl⟩ | ⟨hno, -⟩
      · cases e with
        | err e => exact ⟨e, w, rfl⟩
        | panicked => exact absurd rfl hne
      · exact absurd h hno

/-- **A status that fails leaves the engine where it was if and only if it does not move half
way**: for every state and every pattern of failing file operations. -/
theorem failed_status_iff (E : Env F) (s : State F) (rs : Status) (needWal : Bool) :
    (∀ e s', Exec.result (handleRichStatus E rs needWal) s = (.error (.err e), s') →
      LeftInPlace s s') ↔ ¬ HalfMoves E s rs needWal := by
  constructor
  · rintro hfails ⟨hstuck, hchanges⟩
    obtain ⟨e, w, hr⟩ := hstuck.result
    exact leftInPlace_enter_iff.1 (hfails e _ hr) hchanges
  · intro hno e s' hr
    rcases (handleRichStatus_fails E s rs needWal).error hr with ⟨hstuck, -, w, rfl⟩ |
      ⟨-, hplace⟩
    · exact leftInPlace_enter_iff.2 fun hchanges => hno ⟨hstuck, hchanges⟩
    · exact hplace nofun

/-! ### A run -/

/-- The file operations of a node whose index cannot be moved once it is started. -/
def stuckEnv : Env Block := { Reference.env [7] with io := fun n => if n = 5 then .fail 0 else .ok }

/-- **The engine moves and the log does not**: the first status of a node fails since the index
cannot be sought, and leaves the engine at height `1`. -/
theorem status_moves_half_way : ∃ p e s', Life stuckEnv [7] Reference.disk [] p ∧
    p.state.eng.height = 0 ∧
    Exec.result (handleRichStatus stuckEnv ⟨0, none, [Node.new [7]]⟩ true) p.state =
      (.error (.err e), s') ∧ s'.eng.height = 1 ∧ ¬ LeftInPlace p.state s' := by
  obtain ⟨p, hl, hp⟩ := Reference.exists_life stuckEnv [7] []
    (fun p => decide (p.state.eng.height = 0 ∧ p.state.disk.ops = 5)) (by decide +kernel)
  obtain ⟨hheight, hops⟩ := of_decide_eq_true hp
  have hstuck : Stuck stuckEnv p.state ⟨0, none, [Node.new [7]]⟩ true := by
    refine ⟨⟨by rw [hheight]; decide, nofun⟩, by decide, ?_⟩
    change ¬ Wal.Moves stuckEnv.io (p.state.disk.ops + 0)
    rw [hops]
    decide
  obtain ⟨e, w, hr⟩ := hstuck.result
  refine ⟨p, e, _, hl, hheight, hr, rfl, fun hplace => ?_⟩
  have hmoved : (1 : UInt64) = p.state.eng.height := hplace.height
  rw [hheight] at hmoved
  exact absurd hmoved (by decide)

end ConsensusBft

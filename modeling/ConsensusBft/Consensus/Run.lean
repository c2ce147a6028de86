import ConsensusBft.Consensus.Process
import ConsensusBft.Logic.Machine

/-!
# Runs of the engine

The engine is one thread that selects the next message from three channels, in any order; an
error is logged and the loop goes on, a panic ends the thread.

* `Input` : one turn of the thread: a message of the BFT core or from outside, the head of the
  async queue, or the next record of the replay.
* `Process F` : the engine and the records that the replay has not handed over yet.  Live messages
  are only taken when there are none.
* `next`, `Life` : one turn, and the runs from a start on a given disk.
* `start_iff_replay` : the replay turn by turn is `load_wal_log`.
-/

namespace ConsensusBft

variable {F : Type} [Content F] (E : Env F)

/-- One turn of the engine thread. -/
inductive Input where
  | core (msg : CoreOutput)
  | external (msg : ConsensusInput)
  | async
  | replay
deriving DecidableEq, Repr

/-- The engine and the records that are still to be replayed. -/
structure Process (F : Type) where
  state : State F
  pending : List (UInt8 × Bytes)

/-- `Consensus::new`, without the log. -/
def Consensus.init (F : Type) (address : Address) (walLog : Wal) : Consensus F where
  height := INIT_HEIGHT
  block := none
  verifiedBlock := ∅
  address := address
  authority := AuthorityManage.default
  votes := VoteCollector.new
  proposals := ProposalCollector.new
  proof := none
  walLog := walLog
  blockOriginCache := ∅
  proposalCache := ∅
  voteCache := ∅
  consensusPower := false

/-- `Consensus::new`: the engine, if the log can be opened. -/
def newEngine (address : Address) (disk : Disk) : Option (State F) :=
  match Exec.result (Wal.new E.io) disk with
  | (.ok wal, disk) =>
    some { eng := Consensus.init F address wal, asyncQueue := [], disk, calls := [] }
  | _ => none

/-- What `start` does before its loop.  An error of the replay is only logged. -/
def start (address : Address) (disk : Disk) : Option (State F) :=
  (newEngine E address disk).bind fun s =>
    if E.walOn then Exec.survive (loadWalLog E) s else some s

/-- The engine when it is about to replay the records of its log. -/
def boot (address : Address) (disk : Disk) : Option (Process F) :=
  (newEngine E address disk).bind fun s =>
    if E.walOn then
      match Exec.result (Wal.load E.io) s.walState with
      | (.ok records, w) => some ⟨s.setWal w, records⟩
      | (.error (.err _), w) => some ⟨s.setWal w, []⟩
      | (.error .panicked, _) => none
    else some ⟨s, []⟩

/-- Hand the next record over; after an error no record is left. -/
def replayNext (p : Process F) : Option (Process F) :=
  match p.pending with
  | [] => none
  | record :: records =>
    match Exec.result (loadRecord E record) p.state with
    | (.ok _, s) => some ⟨s, records⟩
    | (.error (.err _), s) => some ⟨s, []⟩
    | (.error .panicked, _) => none

/-- A live message.  An error is only logged. -/
def liveNext (s : State F) : Input → Option (State F)
  | .core msg => Exec.survive (coreProcess E msg) s
  | .external msg => Exec.survive (externalProcess E msg) s
  | .async =>
    match s.asyncQueue with
    | [] => none
    | msg :: queue => Exec.survive (asyncProcess E msg) { s with asyncQueue := queue }
  | .replay => none

/-- One turn of the engine thread; `none` if there is no such turn, or if the thread panics. -/
def next (i : Input) (p : Process F) : Option (Process F) :=
  match i with
  | .replay => replayNext E p
  | i => if p.pending = [] then (liveNext E p.state i).map fun s => ⟨s, []⟩ else none

/-- Started by `address` on `disk`, the engine reaches `p` by the turns `is`. -/
def Life (address : Address) (disk : Disk) (is : List Input) (p : Process F) : Prop :=
  ∃ p₀, boot E address disk = some p₀ ∧ Machine.runFrom (next E) p₀ is = some p

variable {E}

/-- A replay of no records takes no turn. -/
theorem replay_nil {s s' : State F} :
    (∃ n, Machine.runFrom (next E) ⟨s, []⟩ (List.replicate n .replay) = some ⟨s', []⟩) ↔
      s = s' := by
  constructor
  · rintro ⟨n, h⟩
    cases n with
    | zero => exact (Process.mk.inj (Option.some.inj h)).1
    | succ n => exact nomatch h
  · rintro rfl
    exact ⟨0, rfl⟩

/-- A replay of some records starts with the turn of the first one. -/
theorem replay_cons {s s' : State F} {record : UInt8 × Bytes} {records : List (UInt8 × Bytes)} :
    (∃ n, Machine.runFrom (next E) ⟨s, record :: records⟩ (List.replicate n .replay) =
        some ⟨s', []⟩) ↔
      ∃ p, replayNext E ⟨s, record :: records⟩ = some p ∧
        ∃ n, Machine.runFrom (next E) p (List.replicate n .replay) = some ⟨s', []⟩ := by
  constructor
  · rintro ⟨n, h⟩
    cases n with
    | zero => exact nomatch (Process.mk.inj (Option.some.inj h)).2
    | succ n =>
      obtain ⟨p, hp, h⟩ := Machine.runFrom_cons.1 h
      exact ⟨p, hp, n, h⟩
  · rintro ⟨p, hp, n, h⟩
    exact ⟨n + 1, Machine.runFrom_cons.2 ⟨p, hp, h⟩⟩

/-- Replaying turn by turn does what the loop of `load_wal_log` does. -/
theorem replay_forM (records : List (UInt8 × Bytes)) (s s' : State F) :
    Exec.survive (records.forM (loadRecord E)) s = some s' ↔
      ∃ n, Machine.runFrom (next E) ⟨s, records⟩ (List.replicate n .replay) = some ⟨s', []⟩ := by
  induction records generalizing s with
  | nil =>
    rw [replay_nil, ← Option.some.injEq s s']
    rfl
  | cons record records ih =>
    rw [replay_cons]
    change Exec.survive (loadRecord E record >>= fun _ => records.forM (loadRecord E)) s = _ ↔ _
    cases hr : Exec.result (loadRecord E record) s with
    | mk r s₁ =>
      cases r with
      | ok a =>
        have hp : replayNext E ⟨s, record :: records⟩ = some ⟨s₁, records⟩ := by
          simp only [replayNext, hr]
        simp only [hp, Option.some.injEq, exists_eq_left', ← ih s₁, Exec.survive,
          Exec.result_bind_ok hr]
      | error e =>
        cases e with
        | panicked =>
          have hp : replayNext E ⟨s, record :: records⟩ = none := by
            simp only [replayNext, hr]
          simp [hp, Exec.survive_panicked (Exec.result_bind_error hr)]
        | err e =>
          have hp : replayNext E ⟨s, record :: records⟩ = some ⟨s₁, []⟩ := by
            simp only [replayNext, hr]
          simp only [hp, Option.some.injEq, exists_eq_left', replay_nil,
            Exec.survive_err (Exec.result_bind_error hr)]

/-- **The start of the engine is its boot followed by the replay of all records**, turn by turn. -/
theorem start_iff_replay {address : Address} {disk : Disk} {s : State F} :
    start E address disk = some s ↔
      ∃ n, Life E address disk (List.replicate n .replay) ⟨s, []⟩ := by
  -- the boot decides where the replay starts and which records it hands over
  have key : ∀ p₀, boot E address disk = some p₀ →
      ((∃ n, Life E address disk (List.replicate n .replay) ⟨s, []⟩) ↔
        ∃ n, Machine.runFrom (next E) p₀ (List.replicate n .replay) = some ⟨s, []⟩) := by
    intro p₀ hp₀
    simp only [Life, hp₀, Option.some.injEq, exists_eq_left']
  have hnone : boot E address disk = none →
      ¬ ∃ n, Life E address disk (List.replicate n .replay) ⟨s, []⟩ := by
    rintro hb ⟨n, p₀, hp₀, -⟩
    exact nomatch hb.symm.trans hp₀
  cases hn : newEngine E address disk with
  | none =>
    simp only [start, hn, Option.bind_none, reduceCtorEq, false_iff]
    exact hnone (by simp only [boot, hn, Option.bind_none])
  | some s₀ =>
    by_cases hw : E.walOn = true
    · simp only [start, hn, Option.bind_some, hw, if_true]
      cases hl : Exec.result (Wal.load E.io) s₀.walState with
      | mk r w =>
        have hz := Exec.result_zoomTry (ε := ConsensusError) State.walState State.setWal
          (Wal.load E.io) s₀
        rw [hl] at hz
        cases r with
        | ok records =>
          rw [key ⟨s₀.setWal w, records⟩
              (by simp only [boot, hn, Option.bind_some, hw, if_true, hl]),
            ← replay_forM]
          simp only [Exec.survive, loadWalLog, Exec.result_bind_ok hz]
        | error e =>
          cases e with
          | panicked =>
            have hp : Exec.survive (loadWalLog E) s₀ = none :=
              Exec.survive_panicked (Exec.result_bind_error hz)
            simp only [hp, reduceCtorEq, false_iff]
            exact hnone (by simp only [boot, hn, Option.bind_some, hw, if_true, hl])
          | err e =>
            have hs : Exec.survive (loadWalLog E) s₀ = some (s₀.setWal w) :=
              Exec.survive_ok ((Exec.result_bind_ok hz).trans rfl)
            rw [key ⟨s₀.setWal w, []⟩ (by simp only [boot, hn, Option.bind_some, hw, if_true, hl]),
              replay_nil, hs, Option.some.injEq]
    · simp only [start, hn, Option.bind_some, hw]
      rw [key ⟨s₀, []⟩ (by simp only [boot, hn, Option.bind_some, hw]; rfl), replay_nil]
      exact ⟨Option.some.inj, congrArg some⟩

end ConsensusBft

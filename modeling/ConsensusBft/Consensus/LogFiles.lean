import ConsensusBft.Consensus.NewHeight
import ConsensusBft.Wal.Working

/-!
# The log of a run

What a turn does to the log, when the file operations succeed.

* `StatusUnder E h r` : if the record is a status, it is the status of that height.
* `LogStep E s s'` : a step leaves the height and appends at most one record, or it moves the engine
  and the log to a height together; `Advance.logStep` : **every step is one of the two.**
* `Synced s` : the log is at the height of the engine, in the index too.
* `Life.statusesUnder` : **every run leaves the statuses in the files of their own heights.**
* `Life.follows` : **once the engine has entered a height, the log is at it.**
-/

namespace ConsensusBft

open Exec (wp)

variable {F : Type} [Content F] {E : Env F} {S : Source F} {s s' : State F} {address : Address}
variable {disk : Disk} {is : List Input} {i : Input} {p p' : Process F}

/-! ### What a step does to the log -/

/-- A record of a status is under the height of the status. -/
def StatusUnder (E : Env F) (h : UInt64) (r : UInt8 × Bytes) : Prop :=
  r.1 = LOG_TYPE_RICH_STATUS → ∃ rs, E.serde.status.toString rs = some r.2 ∧ rs.height = h

/-- At most one record was appended. -/
def Appended (E : Env F) (w w' : WalState) : Prop :=
  w' = w ∨ ∃ h r, StatusUnder E h r ∧
    w' = (Exec.result (Wal.save E.io E.overflowChecks h r.1 r.2) w).2

/-- What a step does to the log. -/
inductive LogStep (E : Env F) (s s' : State F) : Prop
  | level (appended : Appended E s.walState s'.walState) (height_eq : s'.eng.height = s.eng.height)
  | entered {w : WalState} {height : UInt64} (appended : Appended E s.walState w)
      (moved : s'.walState = (Exec.result (Wal.setHeight E.io height) w).2)
      (height_eq : s'.eng.height = height)

theorem LogMessage.statusUnder {m : LogMessage F} {bytes : Bytes} (htext : m.Text E bytes)
    (eng : Consensus F) : StatusUnder E (m.height eng) (m.tag, bytes) := by
  intro htag
  cases m with
  | status rs => exact ⟨rs, htext, rfl⟩
  | _ => exact absurd htag (by simp [LogMessage.tag, LOG_TYPE_RICH_STATUS,
      LOG_TYPE_SIGNED_PROPOSAL, LOG_TYPE_RAW_BYTES, LOG_TYPE_BLOCK_TXS, LOG_TYPE_VERIFY_BLOCK_PESP,
      LOG_TYPE_PROPOSAL, LOG_TYPE_VOTE, LOG_TYPE_COMMIT])

theorem Move.logStep (h : Move E S s s') : LogStep E s s' := by
  cases h with
  | save m bytes on given text =>
    exact .level (.inr ⟨_, (m.tag, bytes), LogMessage.statusUnder text s.eng, rfl⟩) rfl
  | _ => exact .level (.inl rfl) rfl

omit [Content F] in
theorem StatusLogged.appended {rs : Status} {w : WalState} (h : StatusLogged E s rs w) :
    Appended E s.walState w := by
  cases h with
  | kept => exact .inl rfl
  | saved on text => exact .inr ⟨rs.height, (_, _), fun _ => ⟨rs, text, rfl⟩, rfl⟩

/-- **Every step leaves the height, or moves the engine and the log together.** -/
theorem Advance.logStep (h : Advance E S s s') : LogStep E s s' := by
  rcases h.effect with h | ⟨rs, needWal, r, -, heffect⟩
  · exact h.logStep
  · cases heffect with
    | refused logged _ => exact .level logged.appended rfl
    | crashed logged _ _ => exact .level logged.appended rfl
    | entered logged _ _ => exact .entered logged.appended rfl rfl

/-! ### What is kept -/

section

/-- The log is at the height of the engine, in the index too. -/
structure Synced (s : State F) : Prop where
  current : s.eng.walLog.currentHeight = s.eng.height
  index : s.disk.index = some (decimal s.eng.height)

/-- The index exists, and once the engine has entered a height the log is at it. -/
structure Follows (s : State F) : Prop where
  index : s.disk.index.isSome
  synced : s.eng.height ≠ 0 → Synced s

variable (hio : ∀ n, E.io n = .ok) {w w' : WalState}

omit [Content F]

include hio

/-- What saving a record keeps. -/
theorem Appended.keeps {I : WalState → Prop} (h : Appended E w w')
    (hI : ∀ w h r, StatusUnder E h r → I w → I (Wal.saved w h r)) (hw : I w) : I w' := by
  rcases h with rfl | ⟨h, r, hr, rfl⟩
  · exact hw
  · rcases Wal.save_cases hio E.overflowChecks h r w with heq | ⟨n, heq⟩ <;> rw [heq]
    · exact hw
    · exact hI w h r hr hw

theorem Appended.index_eq (h : Appended E w w') : w'.disk.index = w.disk.index :=
  h.keeps hio (I := fun w' => w'.disk.index = w.disk.index)
    (fun w h r _ hw => (Wal.saved_index w h r).trans hw) rfl

theorem Appended.currentHeight_eq (h : Appended E w w') :
    w'.wal.currentHeight = w.wal.currentHeight :=
  h.keeps hio (I := fun w' => w'.wal.currentHeight = w.wal.currentHeight)
    (fun w h r _ hw => (Wal.saved_currentHeight w h r).trans hw) rfl

/-- What holds of the records of all files, if it holds of all that are not statuses and of each
status under its own height. -/
theorem LogStep.holds {P : UInt64 → UInt8 × Bytes → Prop} (hP : ∀ h r, StatusUnder E h r → P h r)
    (h : LogStep E s s') (hs : s.disk.Holds P) : s'.disk.Holds P := by
  have happended : ∀ w, Appended E s.walState w → w.disk.Holds P := fun w hw =>
    hw.keeps hio (I := fun w => w.disk.Holds P)
      (fun w h r hr hw => Wal.saved_holds hw (hP h r hr)) hs
  cases h with
  | level appended _ => exact happended _ appended
  | entered appended moved _ =>
    rw [Wal.setHeight_result hio] at moved
    have hdisk := congrArg WalState.disk moved
    change s'.disk = _ at hdisk
    rw [hdisk]
    exact Wal.moved_holds (happended _ appended) _

theorem LogStep.synced_of_entered {height : UInt64} (hs : s.disk.index.isSome)
    (appended : Appended E s.walState w)
    (moved : s'.walState = (Exec.result (Wal.setHeight E.io height) w).2)
    (height_eq : s'.eng.height = height) : Synced s' := by
  rw [Wal.setHeight_result hio] at moved
  obtain ⟨b, hb⟩ := Option.isSome_iff_exists.1 hs
  have hindex : w.disk.index = some b := (appended.index_eq hio).trans hb
  refine ⟨?_, ?_⟩
  · rw [height_eq]
    exact congrArg (fun w => w.wal.currentHeight) moved
  · have hdisk := congrArg (fun w => w.disk.index) moved
    change s'.disk.index = w.disk.index.map _ at hdisk
    rw [hdisk, hindex, height_eq]
    rfl

/-- **Once the log is at the height of the engine, it stays there.** -/
theorem LogStep.synced (h : LogStep E s s') (hs : Synced s) : Synced s' := by
  cases h with
  | level appended height_eq =>
    refine ⟨?_, ?_⟩
    · rw [height_eq, ← hs.current]
      exact appended.currentHeight_eq hio
    · rw [height_eq, ← hs.index]
      exact appended.index_eq hio
  | entered appended moved height_eq =>
    exact LogStep.synced_of_entered hio (by rw [hs.index]; rfl) appended moved height_eq

theorem LogStep.follows (h : LogStep E s s') (hs : Follows s) : Follows s' := by
  have hlevel := h
  cases h with
  | level appended height_eq =>
    refine ⟨?_, fun hne => hlevel.synced hio (hs.synced (height_eq ▸ hne))⟩
    have hindex : s'.disk.index = s.disk.index := appended.index_eq hio
    rw [hindex]
    exact hs.index
  | entered appended moved height_eq =>
    have hsync := LogStep.synced_of_entered hio hs.index appended moved height_eq
    exact ⟨by rw [hsync.index]; rfl, fun _ => hsync⟩

/-! ### Boots -/

omit hio [Content F] in
/-- The engine that is about to replay the log of a directory. -/
structure Booted (E : Env F) (address : Address) (disk : Disk) (h : UInt64) (p : Process F) :
    Prop where
  eng : p.state.eng = Consensus.init F address ⟨[h], h⟩
  index : p.state.disk.index = some (disk.index.getD [])
  logs : p.state.disk.logs = disk.logs.orInsert h []
  pending : p.pending = if E.walOn then Wal.loaded p.state.disk h else []

/-- **The engine boots at the height of the index.** -/
theorem boot_of_index {h : UInt64} (hd : Wal.indexHeight disk = some h) :
    ∃ p, boot E address disk = some p ∧ Booted E address disk h p := by
  have hnew := Wal.new_wp hio disk
  unfold boot newEngine
  cases hn : Exec.result (Wal.new E.io) disk with
  | mk r d =>
    cases r with
    | error e => exact nomatch hd.symm.trans (hnew.error hn)
    | ok wal =>
      obtain ⟨h', hd', rfl, hindex, hlogs⟩ := hnew.ok hn
      obtain rfl := Option.some.inj (hd'.symm.trans hd)
      by_cases hon : E.walOn = true
      · obtain ⟨ops, hload⟩ := Wal.load_result hio h' d
        simp only [Option.bind_some, hon, if_true, State.walState, Consensus.init, hload]
        refine ⟨_, rfl, rfl, hindex, hlogs, ?_⟩
        simp only [hon, if_true]
        rfl
      · simp only [Option.bind_some, hon]
        exact ⟨_, rfl, rfl, hindex, hlogs, by simp [hon]⟩

theorem booted_of_boot (hb : boot E address disk = some p) :
    ∃ h, Wal.indexHeight disk = some h ∧ Booted E address disk h p := by
  cases hd : Wal.indexHeight disk with
  | some h =>
    obtain ⟨p', hb', h'⟩ : ∃ p', boot E address disk = some p' ∧ Booted E address disk h p' :=
      boot_of_index hio hd
    obtain rfl := Option.some.inj (hb.symm.trans hb')
    exact ⟨h, rfl, h'⟩
  | none =>
    -- a directory whose index cannot be read is not opened
    unfold boot newEngine at hb
    cases hn : Exec.result (Wal.new E.io) disk with
    | mk r d =>
      cases r with
      | ok wal =>
        obtain ⟨h, hh, -⟩ := (Wal.new_wp hio disk).ok hn
        exact nomatch hd.symm.trans hh
      | error e =>
        rw [hn] at hb
        exact nomatch hb

omit hio [Content F] in
theorem Booted.follows {h : UInt64} (hp : Booted E address disk h p) : Follows p.state := by
  refine ⟨by rw [hp.index]; rfl, fun hne => absurd ?_ hne⟩
  rw [hp.eng]
  rfl

end

/-! ### Runs -/

section

variable (hio : ∀ n, E.io n = .ok)

/-- A turn is a sequence of steps of the log. -/
theorem next_logSteps (hc : Cached E (Supply.all F) p.state.eng) (h : next E i p = some p') :
    Relation.ReflTransGen (LogStep E) p.state p'.state :=
  Relation.ReflTransGen.mono (fun _ _ => Advance.logStep) _ _
    (next_advances (Supplied.all E p i).sourced hc h)

include hio

theorem Life.holds {P : UInt64 → UInt8 × Bytes → Prop} (hP : ∀ h r, StatusUnder E h r → P h r)
    (hl : Life E address disk is p) (hdisk : disk.Holds P) : p.state.disk.Holds P := by
  refine hl.induction (I := fun p => p.state.disk.Holds P) ?_ ?_
  · intro p₀ hb
    obtain ⟨h, -, hp⟩ := booted_of_boot hio hb
    exact hdisk.orInsert hp.logs
  · intro is₁ i is₂ q q' _ _ hc hn hq
    exact Exec.invariant_of_moves (I := fun s => s.disk.Holds P)
      (fun _ _ h => h.holds hio hP) (next_logSteps hc hn) hq

/-- **Every run leaves the statuses in the files of their own heights.** -/
theorem Life.statusesUnder (hl : Life E address disk is p) (hdisk : disk.Holds (StatusUnder E)) :
    p.state.disk.Holds (StatusUnder E) :=
  hl.holds hio (fun _ _ h => h) hdisk

/-- **Once the engine has entered a height, the log is at it.** -/
theorem Life.follows (hl : Life E address disk is p) : Follows p.state := by
  refine hl.induction (I := fun p => Follows p.state) ?_ ?_
  · intro p₀ hb
    obtain ⟨h, -, hp⟩ := booted_of_boot hio hb
    exact hp.follows
  · intro is₁ i is₂ q q' _ _ hc hn hq
    exact Exec.invariant_of_moves (I := Follows) (fun _ _ h => h.follows hio)
      (next_logSteps hc hn) hq

/-- **Once the log is at the height of the engine, it stays there to the end of the run.** -/
theorem Life.synced {is₁ is₂ : List Input} {q : Process F}
    (hl : Life E address disk (is₁ ++ is₂) p) (hq : Life E address disk is₁ q)
    (hs : Synced q.state) : Synced p.state :=
  hl.induction_from (I := fun p => Synced p.state) hq hs fun _ _ _ _ _ _ _ hc hn =>
    Exec.invariant_of_moves (I := Synced) (fun _ _ h => h.synced hio) (next_logSteps hc hn)

end

end ConsensusBft

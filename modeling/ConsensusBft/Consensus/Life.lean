import ConsensusBft.Consensus.Moves

/-!
# Runs as sequences of atomic updates

* `BringsVote`, `BringsProposal`, `BringsCore`, `BringsStatus`, `BringsVerdict` : what an input
  brings into the engine, live or from the log.
* `Supplied E K p i`, `Sourced E S p i` : all that the input `i` brings at `p` is in the supply `K`,
  or in the source `S`.
* `next_advances` : **a turn is a sequence of moves and statuses.**
* `Life.updates` : **a run whose inputs are all supplied is a sequence of atomic updates.**
* `Life.invariant` : the invariant rule for such runs.
* `Received E address disk is` : the supply of everything that the run on `is` received; every run
  is supplied by it.
-/

namespace ConsensusBft

open Exec (Steps)

variable {F : Type} [Content F] {E : Env F} {K : Supply F} {S : Source F}
variable {address : Address} {disk : Disk} {is : List Input} {i : Input} {p p' : Process F}

/-! ### What inputs bring -/

/-- The input brings the signed vote `sv`. -/
def BringsVote (E : Env F) (p : Process F) (i : Input) (sv : SignedVote) : Prop :=
  match i with
  | .external (.signedVote bytes) => SignedVote.decode E.rlp bytes = .ok sv
  | .replay => ∃ msg records, p.pending = (LOG_TYPE_RAW_BYTES, msg) :: records ∧
      E.serde.signedVote.fromSlice msg = some sv
  | _ => False

/-- The input brings the signed proposal `sp` and a block that it declares to have the hash
`hash`. -/
def BringsProposal (E : Env F) (p : Process F) (i : Input) (sp : SignedProposal) (block : F)
    (hash : Hash) : Prop :=
  match i with
  | .external (.signedProposal bytes) => decodeProposal E bytes = .ok (sp, block, hash)
  | .replay => ∃ msg records, p.pending = (LOG_TYPE_SIGNED_PROPOSAL, msg) :: records ∧
      decodeLogged E msg = .ok (sp, block, hash)
  | _ => False

/-- The input brings the message `m` of the BFT core. -/
def BringsCore (E : Env F) (p : Process F) (i : Input) (m : CoreOutput) : Prop :=
  match i with
  | .core m' => m' = m
  | .replay => ∃ tag msg records, p.pending = (tag, msg) :: records ∧
      match m with
      | .proposal b => tag = LOG_TYPE_PROPOSAL ∧ E.serde.bftProposal.fromSlice msg = some b
      | .vote v => tag = LOG_TYPE_VOTE ∧ E.serde.bftVote.fromSlice msg = some v
      | .commit c => tag = LOG_TYPE_COMMIT ∧ E.serde.bftCommit.fromSlice msg = some c
      | .getProposalRequest _ => False
  | _ => False

/-- The input brings the status `rs`: from outside, as the answer to a commit, or from the log. -/
def BringsStatus (E : Env F) (p : Process F) (i : Input) (rs : Status) : Prop :=
  match i with
  | .external (.status rs') => rs' = rs
  | .core (.commit _) => ∃ n commit, E.support.commit n commit = .ok rs
  | .replay => ∃ msg records, p.pending = (LOG_TYPE_RICH_STATUS, msg) :: records ∧
      E.serde.status.fromSlice msg = some rs
  | _ => False

/-- The input brings the verdict `vr`: from the async queue, or from the log. -/
def BringsVerdict (E : Env F) (p : Process F) (i : Input) (vr : VerifyResp) : Prop :=
  match i with
  | .async => ∃ queue, p.state.asyncQueue = .verifyResp vr :: queue
  | .replay => ∃ msg records, p.pending = (LOG_TYPE_VERIFY_BLOCK_PESP, msg) :: records ∧
      E.serde.verifyResp.fromSlice msg = some vr
  | _ => False

omit [Content F] in
theorem BringsVerdict.unique {vr vr' : VerifyResp} (h : BringsVerdict E p i vr)
    (h' : BringsVerdict E p i vr') : vr = vr' := by
  cases i with
  | async =>
    obtain ⟨queue, hq⟩ := h
    obtain ⟨queue', hq'⟩ := h'
    simpa using (List.cons.inj (hq.symm.trans hq')).1
  | replay =>
    obtain ⟨msg, records, hp, hmsg⟩ := h
    obtain ⟨msg', records', hp', hmsg'⟩ := h'
    obtain rfl : msg = msg' := by simpa using (List.cons.inj (hp.symm.trans hp')).1
    exact Option.some.inj (hmsg.symm.trans hmsg')
  | _ => exact h.elim

/-- All that the input brings is in the supply.  A block only counts if the hash declared for it
has none yet, since otherwise it is dropped. -/
structure Supplied (E : Env F) (K : Supply F) (p : Process F) (i : Input) : Prop where
  vote : ∀ sv, BringsVote E p i sv → K.vote sv
  proposal : ∀ sp block hash, BringsProposal E p i sp block hash → K.proposal sp
  block : ∀ sp block hash, BringsProposal E p i sp block hash →
    p.state.eng.blockOriginCache.lookup hash = none → K.block hash block
  core : ∀ m, BringsCore E p i m → K.core m

/-- All that the input brings is in the source. -/
structure Sourced (E : Env F) (S : Source F) (p : Process F) (i : Input) : Prop
    extends Supplied E S.toSupply p i where
  status : ∀ rs, BringsStatus E p i rs → S.status rs
  verdict : ∀ vr, BringsVerdict E p i vr → S.verdict vr

theorem Supplied.sourced (hs : Supplied E K p i) : Sourced E K.source p i :=
  ⟨hs, fun _ _ => trivial, fun _ _ => trivial⟩

/-- The supply without bounds. -/
def Supply.all (F : Type) : Supply F :=
  ⟨fun _ => True, fun _ => True, fun _ _ => True, fun _ => True⟩

/-- The source without bounds. -/
def Source.all (F : Type) : Source F := (Supply.all F).source

theorem Supplied.all (E : Env F) (p : Process F) (i : Input) : Supplied E (Supply.all F) p i :=
  ⟨fun _ _ => trivial, fun _ _ _ _ => trivial, fun _ _ _ _ _ => trivial, fun _ _ => trivial⟩

/-! ### One turn -/

/-- Handing a record over advances the engine. -/
theorem loadRecord_advances {record : UInt8 × Bytes} {records : List (UInt8 × Bytes)}
    (hp : p.pending = record :: records) (hs : Sourced E S p .replay) :
    Steps (Advance E S) (loadRecord E record) (fun _ _ => True) p.state := by
  obtain ⟨tag, msg⟩ := record
  refine .ite (fun h => ?_) fun _ => .ite (fun h => ?_) fun _ => .ite (fun h => ?_) fun _ =>
    .ite (fun _ => ?_) fun _ => .ite (fun h => ?_) fun _ => .ite (fun h => ?_) fun _ =>
    .ite (fun h => ?_) fun _ => .ite (fun h => ?_) fun _ => .pure trivial
  · subst h
    exact Steps.advance (loadSignedProposal_moves msg fun sp block hash hd =>
      have hb : BringsProposal E p .replay sp block hash := ⟨msg, records, hp, hd⟩
      ⟨hs.proposal sp block hash hb, hs.block sp block hash hb⟩)
  · subst h
    exact Steps.advance
      (loadSignedVote_moves msg fun sv hsv => hs.vote sv ⟨msg, records, hp, hsv⟩)
  · subst h
    exact loadStatus_advances msg fun rs hrs => hs.status rs ⟨msg, records, hp, hrs⟩
  · exact Steps.bind_loadJson fun f _ => Steps.advance (acceptFeed_moves f _)
  · subst h
    exact Steps.bind_loadJson fun vr hvr =>
      Steps.advance (acceptVerdict_moves (hs.verdict vr ⟨msg, records, hp, hvr⟩) _)
  · exact Steps.advance
      (loadProposal_moves msg fun b hb => hs.core _ ⟨tag, msg, records, hp, h, hb⟩)
  · exact Steps.advance (loadVote_moves msg fun v hv => hs.core _ ⟨tag, msg, records, hp, h, hv⟩)
  · exact Steps.advance (loadCommit_moves msg fun c hc => hs.core _ ⟨tag, msg, records, hp, h, hc⟩)

/-- A turn of the replay leaves the state that its record leaves, and some of the records after
it. -/
theorem pending_of_replayNext (h : replayNext E p = some p') :
    ∃ record records, p.pending = record :: records ∧ p'.pending <:+ records ∧
      Exec.survive (loadRecord E record) p.state = some p'.state := by
  unfold replayNext at h
  cases hp : p.pending with
  | nil => rw [hp] at h; exact nomatch h
  | cons record records =>
    refine ⟨record, records, rfl, ?_⟩
    rw [hp] at h
    cases hr : Exec.result (loadRecord E record) p.state with
    | mk r s =>
      simp only [hr] at h
      cases r with
      | ok _ =>
        obtain rfl := Option.some.inj h
        exact ⟨List.suffix_rfl, Exec.survive_ok hr⟩
      | error e =>
        cases e with
        | err _ =>
          obtain rfl := Option.some.inj h
          exact ⟨List.nil_suffix, Exec.survive_err hr⟩
        | panicked => exact nomatch h

theorem replayNext_advances (hs : Sourced E S p .replay) (h : replayNext E p = some p') :
    Advances E S p.state p'.state := by
  obtain ⟨record, records, hp, -, hp'⟩ := pending_of_replayNext h
  exact (loadRecord_advances hp hs).survive hp'

/-- An asynchronous turn takes the head of the queue of the service threads. -/
theorem async_of_liveNext {s s' : State F} (h : liveNext E s .async = some s') :
    ∃ m queue, s.asyncQueue = m :: queue ∧
      Exec.survive (asyncProcess E m) { s with asyncQueue := queue } = some s' := by
  unfold liveNext at h
  cases hq : s.asyncQueue with
  | nil => simp [hq] at h
  | cons m queue => exact ⟨m, queue, rfl, by simpa only [hq] using h⟩

/-- The live messages other than statuses and commits. -/
def KeepsHeight : Input → Prop
  | .external (.status _) | .core (.commit _) | .replay => False
  | _ => True

/-- **A live turn other than a status or a commit is a sequence of moves.** -/
theorem liveNext_moves {s : State F} (hi : KeepsHeight i) (hs : Sourced E S p i)
    (h : liveNext E p.state i = some s) : Moves E S p.state s := by
  cases i with
  | core m =>
    have hm : ∀ c, m ≠ .commit c := by
      rintro c rfl
      exact hi
    exact (coreProcess_moves (hs.core m rfl) hm).survive h
  | external m =>
    cases m with
    | signedProposal bytes =>
      exact (processSignedProposal_moves bytes fun sp block hash hd =>
        ⟨hs.proposal sp block hash hd, hs.block sp block hash hd⟩).survive h
    | signedVote bytes => exact (processSignedVote_moves bytes fun sv hd => hs.vote sv hd).survive h
    | status rs => exact hi.elim
  | async =>
    obtain ⟨m, queue, hq, h⟩ := async_of_liveNext h
    refine .head (.dequeue p.state m queue hq) ((asyncProcess_moves ?_).survive h)
    rintro vr rfl
    exact hs.verdict vr ⟨queue, hq⟩
  | replay => exact hi.elim

/-- Only statuses and commits move the height. -/
theorem liveNext_level {s : State F} (hi : KeepsHeight i) (hs : Supplied E K p i)
    (h : liveNext E p.state i = some s) : Relation.ReflTransGen (Level E K) p.state s :=
  Relation.ReflTransGen.mono (fun _ _ => Move.level) _ _ (liveNext_moves hi hs.sourced h)

theorem liveNext_advances {s : State F} (hs : Sourced E S p i)
    (hc : Cached E S.toSupply p.state.eng) (h : liveNext E p.state i = some s) :
    Advances E S p.state s := by
  have keeps : KeepsHeight i → Advances E S p.state s := fun hi =>
    (liveNext_moves hi hs h).advances
  cases i with
  | core m =>
    cases m with
    | commit c =>
      refine (coreProcess_commit_advances (hs.core _ rfl) ?_ hc).survive h
      exact fun n commit rs hrs => hs.status rs ⟨n, commit, hrs⟩
    | _ => exact keeps trivial
  | external m =>
    cases m with
    | status rs => exact (processStatus_advances hc (hs.status rs rfl)).survive h
    | _ => exact keeps trivial
  | async => exact keeps trivial
  | replay => exact nomatch h

/-- A live turn. -/
theorem live_of_next (hi : i ≠ .replay) (h : next E i p = some p') :
    ∃ s, p.pending = [] ∧ liveNext E p.state i = some s ∧ p' = ⟨s, []⟩ := by
  have hn : (if p.pending = [] then (liveNext E p.state i).map fun s => Process.mk s [] else none)
      = some p' := by
    cases i with
    | replay => exact absurd rfl hi
    | _ => exact h
  split_ifs at hn with hp
  obtain ⟨s, hl, rfl⟩ := Option.map_eq_some_iff.1 hn
  exact ⟨s, hp, hl, rfl⟩

/-- **A turn of the engine is a sequence of moves and statuses.** -/
theorem next_advances (hs : Sourced E S p i) (hc : Cached E S.toSupply p.state.eng)
    (h : next E i p = some p') : Advances E S p.state p'.state := by
  by_cases hi : i = .replay
  · subst hi
    exact replayNext_advances hs h
  · obtain ⟨s, -, hl, rfl⟩ := live_of_next hi h
    exact liveNext_advances hs hc hl

/-- So it is a sequence of atomic updates. -/
theorem next_moves (hs : Supplied E K p i) (hc : Cached E K p.state.eng)
    (h : next E i p = some p') : Updates E K p.state p'.state :=
  (next_advances hs.sourced hc h).updates

/-! ### Runs -/

omit [Content F] in
/-- The state of the engine when it boots. -/
theorem boot_state (h : boot E address disk = some p) :
    p.state.eng = Consensus.init F address p.state.eng.walLog ∧ p.state.asyncQueue = [] ∧
      p.state.calls = [] := by
  unfold boot newEngine at h
  cases hn : Exec.result (Wal.new E.io) disk with
  | mk r d =>
    rw [hn] at h
    cases r with
    | error e => exact nomatch h
    | ok wal =>
      simp only [Option.bind_some] at h
      split_ifs at h with hw
      · cases hl : Exec.result (Wal.load E.io) ⟨wal, d⟩ with
        | mk r w =>
          simp only [State.walState, Consensus.init, hl] at h
          cases r with
          | ok records =>
            obtain rfl := Option.some.inj h
            exact ⟨rfl, rfl, rfl⟩
          | error e =>
            cases e with
            | err e =>
              obtain rfl := Option.some.inj h
              exact ⟨rfl, rfl, rfl⟩
            | panicked => exact nomatch h
      · obtain rfl := Option.some.inj h
        exact ⟨rfl, rfl, rfl⟩

/-- `P` holds of every state of the run on `is`. -/
def EachState (E : Env F) (address : Address) (disk : Disk) (is : List Input)
    (P : Process F → Prop) : Prop :=
  ∀ is₁ is₂ p, is = is₁ ++ is₂ → Life E address disk is₁ p → P p

/-- `C` holds of every input of the run on `is`, at the moment it is taken. -/
def EachInput (E : Env F) (address : Address) (disk : Disk) (is : List Input)
    (C : Process F → Input → Prop) : Prop :=
  ∀ is₁ i is₂ p, is = is₁ ++ i :: is₂ → Life E address disk is₁ p → C p i

/-- Every input of the run is supplied at the moment it is taken. -/
abbrev SuppliedLife (E : Env F) (K : Supply F) (address : Address) (disk : Disk)
    (is : List Input) : Prop :=
  EachInput E address disk is (Supplied E K)

/-- A run up to and including one of its inputs. -/
theorem Life.split {is₁ is₂ : List Input} (h : Life E address disk (is₁ ++ i :: is₂) p) :
    ∃ p₁ p₂, Life E address disk is₁ p₁ ∧ next E i p₁ = some p₂ ∧
      Life E address disk (is₁ ++ [i]) p₂ := by
  obtain ⟨p₀, hb, hr⟩ := h
  obtain ⟨p₁, hr₁, hr₂⟩ := Machine.runFrom_append.1 hr
  obtain ⟨p₂, hn, -⟩ := Machine.runFrom_cons.1 hr₂
  exact ⟨p₁, p₂, ⟨p₀, hb, hr₁⟩, hn, p₀, hb, Machine.runFrom_snoc.2 ⟨p₁, hr₁, hn⟩⟩

/-- The inputs determine the state. -/
theorem Life.unique (h : Life E address disk is p) (h' : Life E address disk is p') : p = p' := by
  obtain ⟨p₀, hb, hr⟩ := h
  obtain ⟨p₀', hb', hr'⟩ := h'
  obtain rfl := Option.some.inj (hb.symm.trans hb')
  exact Option.some.inj (hr.symm.trans hr')

/-- **A supplied run is a sequence of atomic updates**, and what is cached at its end was
received. -/
theorem Life.updates (hl : Life E address disk is p) (hs : SuppliedLife E K address disk is) :
    ∃ p₀, boot E address disk = some p₀ ∧ Updates E K p₀.state p.state ∧
      Cached E K p.state.eng := by
  obtain ⟨p₀, hb, hr⟩ := hl
  have hc₀ : Cached E K p₀.state.eng := by
    rw [(boot_state hb).1]
    exact ⟨nofun, nofun⟩
  refine ⟨p₀, hb, ?_⟩
  refine Machine.run_induction
    (P := fun is₁ p => ∀ is₂, is = is₁ ++ is₂ →
      Updates E K p₀.state p.state ∧ Cached E K p.state.eng)
    (fun _ _ => ⟨.refl, hc₀⟩) ?_ is p hr [] (List.append_nil is).symm
  intro is₁ i p₁ p₂ hr₁ ih hn is₂ his
  obtain ⟨hu, hc⟩ := ih (i :: is₂) (by rw [his, List.append_assoc]; rfl)
  have hsi : Supplied E K p₁ i :=
    hs is₁ i is₂ p₁ (by rw [his, List.append_assoc]; rfl) ⟨p₀, hb, hr₁⟩
  have hu₂ := next_moves hsi hc hn
  exact ⟨hu.trans hu₂, Updates.cached hu₂ hc⟩

/-- **The invariant rule**: what holds at the boot and is preserved by every atomic update holds
at the end of every supplied run. -/
theorem Life.invariant {I : State F → Prop} (hl : Life E address disk is p)
    (hs : SuppliedLife E K address disk is)
    (h₀ : ∀ p₀, boot E address disk = some p₀ → I p₀.state)
    (hI : ∀ s s', Update E K s s' → I s → I s') : I p.state := by
  obtain ⟨p₀, hb, hu, -⟩ := hl.updates hs
  exact Updates.invariant hI hu (h₀ p₀ hb)

theorem SuppliedLife.all (E : Env F) (address : Address) (disk : Disk) (is : List Input) :
    SuppliedLife E (Supply.all F) address disk is :=
  fun _ i _ p _ _ => Supplied.all E p i

/-- **Induction over the turns of a run.**  What is cached is cached under its own height. -/
theorem Life.induction {I : Process F → Prop} (hl : Life E address disk is p)
    (h₀ : ∀ p₀, boot E address disk = some p₀ → I p₀)
    (hstep : ∀ is₁ i is₂ p p', is = is₁ ++ i :: is₂ → Life E address disk is₁ p →
      Cached E (Supply.all F) p.state.eng → next E i p = some p' → I p → I p') : I p := by
  obtain ⟨p₀, hb, hr⟩ := hl
  refine Machine.run_induction (P := fun is₁ p => ∀ is₂, is = is₁ ++ is₂ → I p)
    (fun _ _ => h₀ p₀ hb) ?_ is p hr [] (List.append_nil is).symm
  intro is₁ i p₁ p₂ hr₁ ih hn is₂ his
  have hl₁ : Life E address disk is₁ p₁ := ⟨p₀, hb, hr₁⟩
  obtain ⟨-, -, -, hc⟩ := hl₁.updates (SuppliedLife.all E address disk is₁)
  have his' : is = is₁ ++ i :: is₂ := by rw [his, List.append_assoc]; rfl
  exact hstep is₁ i is₂ p₁ p₂ his' hl₁ hc hn (ih (i :: is₂) his')

/-- **Induction over the turns of a run from one of its states on.** -/
theorem Life.induction_from {I : Process F → Prop} {is₁ is₂ : List Input} {q : Process F}
    (hl : Life E address disk (is₁ ++ is₂) p) (hq : Life E address disk is₁ q) (h₀ : I q)
    (hstep : ∀ is₀ i is₃ p p', is₁ ++ is₂ = is₀ ++ i :: is₃ → Life E address disk is₀ p →
      Cached E (Supply.all F) p.state.eng → next E i p = some p' → I p → I p') : I p := by
  induction is₂ generalizing is₁ q with
  | nil =>
    rw [List.append_nil] at hl
    rwa [hl.unique hq]
  | cons i is₂ ih =>
    obtain ⟨p₁, p₂, hl₁, hn, hl₂⟩ := hl.split
    obtain rfl := hl₁.unique hq
    obtain ⟨-, -, -, hc⟩ := hl₁.updates (SuppliedLife.all E address disk is₁)
    have happend : is₁ ++ i :: is₂ = (is₁ ++ [i]) ++ is₂ := by rw [List.append_assoc]; rfl
    exact ih (happend ▸ hl) hl₂ (hstep is₁ i is₂ p₁ p₂ rfl hl₁ hc hn h₀)
      fun is₀ j is₃ p p' h => hstep is₀ j is₃ p p' (happend.trans h)

/-- The records that are left are the last ones of those that the replay started with. -/
theorem Life.pending (hl : Life E address disk is p) :
    ∃ p₀, boot E address disk = some p₀ ∧ p.pending <:+ p₀.pending := by
  refine hl.induction (I := fun p => ∃ p₀, boot E address disk = some p₀ ∧ p.pending <:+ p₀.pending)
    (fun p₀ hb => ⟨p₀, hb, List.suffix_rfl⟩) ?_
  rintro is₁ i is₂ p p' - - - hn ⟨p₀, hb, hsuffix⟩
  refine ⟨p₀, hb, List.IsSuffix.trans ?_ hsuffix⟩
  by_cases hi : i = .replay
  · subst hi
    obtain ⟨record, records, hp, hsuffix, -⟩ := pending_of_replayNext hn
    rw [hp]
    exact hsuffix.trans (List.suffix_cons record records)
  · obtain ⟨s, -, -, rfl⟩ := live_of_next hi hn
    exact List.nil_suffix

omit [Content F] in
/-- Without the log, nothing is replayed. -/
theorem not_replay (hwal : E.walOn = false) (hb : boot E address disk = some p) :
    p.pending = [] := by
  unfold boot at hb
  obtain ⟨s, -, hb⟩ := Option.bind_eq_some_iff.1 hb
  rw [hwal] at hb
  obtain rfl := Option.some.inj hb
  rfl

theorem Life.not_replay (hl : Life E address disk is p) (hwal : E.walOn = false) :
    p.pending = [] := by
  obtain ⟨p₀, hb, hsuffix⟩ := hl.pending
  rw [ConsensusBft.not_replay hwal hb] at hsuffix
  exact List.suffix_nil.1 hsuffix

/-- What a run receives. -/
def Received (E : Env F) (address : Address) (disk : Disk) (is : List Input) : Supply F where
  vote sv := ∃ is₁ i is₂ p, is = is₁ ++ i :: is₂ ∧ Life E address disk is₁ p ∧ BringsVote E p i sv
  proposal sp := ∃ is₁ i is₂ p block hash, is = is₁ ++ i :: is₂ ∧ Life E address disk is₁ p ∧
    BringsProposal E p i sp block hash
  block hash block := ∃ is₁ i is₂ p sp, is = is₁ ++ i :: is₂ ∧ Life E address disk is₁ p ∧
    BringsProposal E p i sp block hash
  core m := ∃ is₁ i is₂ p, is = is₁ ++ i :: is₂ ∧ Life E address disk is₁ p ∧ BringsCore E p i m

theorem SuppliedLife.received (E : Env F) (address : Address) (disk : Disk) (is : List Input) :
    SuppliedLife E (Received E address disk is) address disk is :=
  fun is₁ i is₂ p his hl =>
    ⟨fun _ hb => ⟨is₁, i, is₂, p, his, hl, hb⟩,
      fun _ block hash hb => ⟨is₁, i, is₂, p, block, hash, his, hl, hb⟩,
      fun sp _ _ hb _ => ⟨is₁, i, is₂, p, sp, his, hl, hb⟩,
      fun _ hb => ⟨is₁, i, is₂, p, his, hl, hb⟩⟩

end ConsensusBft

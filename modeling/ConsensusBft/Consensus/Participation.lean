import ConsensusBft.Consensus.EarlyProposals
import ConsensusBft.Consensus.StatusTurn
import ConsensusBft.Data.Relay

/-!
# Participation follows the authorities

The BFT core is started when the node becomes an authority and paused when it no longer is one;
`consensus_power` remembers which of the two was sent last.

* `State.switches` : the messages that started or paused the BFT core, in their order.
* `Unswitched s s'` : nothing was switched between the two states; the lemmas `_unswitched` : so it
  is with every method but the one that switches the power, and with the replay of the log.
* `Powered r s` : the switches are the announcements of the relay `r`; `switchPower_powered` :
  switching the power sets the relay to what the authorities of the status ask for.
* `Adopts E p i rs s'` : the turn accepts a status from outside, or the answer to a commit.
* `next_adopts` : **a turn accepts a status, or it switches nothing.**
* `participation_follows` : **in every run starts and pauses alternate, and the last accepted status
  decides which of them was sent last.**
-/

namespace ConsensusBft

open Exec (Steps wp wp_bind doIf)

variable {F : Type} {E : Env F} {s s' s'' : State F} {rs : Status}

/-! ### What is switched -/

/-- The message starts or pauses the BFT core. -/
def CoreInput.IsSwitch : CoreInput → Prop
  | .start | .pause => True
  | _ => False

/-- The message of a call that starts or pauses the BFT core. -/
def Event.switch : Event F → Option CoreInput
  | .bft .start _ => some .start
  | .bft .pause _ => some .pause
  | _ => none

theorem Event.switch_eq_none {e : Event F} (h : ∀ m d, e = .bft m d → ¬ m.IsSwitch) :
    e.switch = none := by
  cases e with
  | bft msg delivered =>
    cases msg with
    | start => exact absurd trivial (h _ _ rfl)
    | pause => exact absurd trivial (h _ _ rfl)
    | _ => rfl
  | _ => rfl

/-- The messages that started or paused the BFT core, in their order. -/
def State.switches (s : State F) : List CoreInput := s.calls.filterMap fun call => call.event.switch

theorem State.switches_record (s : State F) (e : Event F) :
    (s.record e).switches = s.switches ++ e.switch.toList := by
  unfold State.switches State.record
  rw [List.filterMap_append]
  cases he : e.switch with
  | none => simp [he]
  | some m => simp [he]

theorem Unsent.switches_eq (h : Unsent CoreInput.IsSwitch s s') : s'.switches = s.switches := by
  obtain ⟨calls, hcalls, hunsent⟩ := h
  have hnone : calls.filterMap (fun call => call.event.switch) = [] :=
    List.filterMap_eq_nil_iff.2 fun call hmem => Event.switch_eq_none (hunsent call hmem)
  unfold State.switches
  rw [hcalls, List.filterMap_append, hnone, List.append_nil]

/-- Nothing was switched between the two states. -/
structure Unswitched (s s' : State F) : Prop where
  address_eq : s'.eng.address = s.eng.address
  power_eq : s'.eng.consensusPower = s.eng.consensusPower
  unsent : Unsent CoreInput.IsSwitch s s'

namespace Unswitched

theorem refl (s : State F) : Unswitched s s := ⟨rfl, rfl, .of_calls_eq rfl⟩

theorem trans (h : Unswitched s s') (h' : Unswitched s' s'') : Unswitched s s'' :=
  ⟨h'.address_eq.trans h.address_eq, h'.power_eq.trans h.power_eq, h.unsent.trans h'.unsent⟩

theorem of_moves (h : Relation.ReflTransGen Unswitched s s') : Unswitched s s' := by
  induction h with
  | refl => exact refl _
  | tail _ h' ih => exact ih.trans h'

theorem record {e : Event F} (h : ∀ m d, e = .bft m d → ¬ m.IsSwitch) :
    Unswitched s (s.record e) := ⟨rfl, rfl, .record h⟩

end Unswitched

/-! ### Calls that switch nothing -/

theorem sendBft_unswitched {msg : CoreInput} {name : String} (hm : ¬ msg.IsSwitch) :
    Steps Unswitched (sendBft E msg name) (fun _ _ => True) s :=
  (sendBft_records ⟨rfl, rfl, .recordBft hm⟩).mono fun _ _ _ _ => trivial

theorem callTransmit_unswitched (msg : ConsensusOutput F) :
    Steps Unswitched (callTransmit E msg) (fun _ _ => True) s := by
  unfold callTransmit
  exact .bind_get (.bind_modify (.record nofun) (.pure trivial))

theorem callCommit_unswitched (c : Commit F) :
    Steps Unswitched (callCommit E c) (fun r _ => r = E.support.commit s.calls.length c) s := by
  unfold callCommit
  exact .bind_get (.bind_modify (.record nofun) (.pure rfl))

theorem checkProposal_unswitched (hash : Hash) (block : F) (bytes : Bytes)
    (isLock isBySelf : Bool) :
    Steps Unswitched (checkProposal E hash block bytes isLock isBySelf) (fun _ _ => True) s := by
  unfold checkProposal
  have hrecord : ∀ res : Except String Unit, Unsent CoreInput.IsSwitch s
      (s.record (.checkProposal hash block bytes isLock isBySelf res)) := fun _ => .record nofun
  exact .bind_get (.modify ⟨rfl, rfl, (hrecord _).trans (.of_calls_eq rfl)⟩ trivial)

theorem askForProposal_unswitched (height : UInt64) :
    Steps Unswitched (askForProposal E height) (fun _ _ => True) s := by
  unfold askForProposal
  refine .bind_get (.bind_modify (.record nofun) ?_)
  cases E.support.getContent s.calls.length height with
  | ok content => exact .modify ⟨rfl, rfl, .of_calls_eq rfl⟩ trivial
  | error e => exact .pure trivial

/-! ### Messages from other nodes -/

theorem verdictOf_unswitched (hash : Hash) (bytes : Bytes) (isLock : Bool) :
    Steps Unswitched (verdictOf E hash bytes isLock) (fun _ _ => True) s := by
  unfold verdictOf
  refine .bind_get ?_
  cases s.eng.verifiedBlock.lookup hash with
  | some isPass => exact .pure trivial
  | none =>
    cases s.eng.blockOriginCache.lookup hash with
    | none => exact .throw
    | some content => exact .bind (checkProposal_unswitched ..) fun _ _ _ _ => .pure trivial

theorem handleSignedProposal_unswitched (sp : SignedProposal) (needWal : Bool) (bytes : Bytes) :
    Steps Unswitched (handleSignedProposal E sp needWal bytes) (fun _ _ => True) s := by
  unfold handleSignedProposal
  refine Steps.bind_verifySignature fun _ _ => .bind_rejectIf fun _ => .bind_get
    (.bind_lift fun _ _ => .bind_rejectIf fun _ => ?_)
  refine .bind (logIf_moves fun _ _ _ => ⟨rfl, rfl, .of_calls_eq rfl⟩) fun _ _ _ _ =>
    .bind_modify ⟨rfl, rfl, .of_calls_eq rfl⟩ (.bind (checkProposer_moves ..) fun _ _ _ _ => ?_)
  refine .bind (checkLockVotes_steps fun _ _ => ⟨rfl, rfl, .of_calls_eq rfl⟩) fun _ _ _ _ =>
    .ite (fun _ => .pure trivial) fun _ => ?_
  refine .bind (verdictOf_unswitched ..) fun _ _ _ _ =>
    .bind (P := fun _ _ => True) ?_ fun _ _ _ _ => .pure trivial
  unfold checkProofOf
  exact .bind_get (.bind_rejectIf fun _ => .bind_lift fun _ _ => .bind_rejectIf fun _ =>
    .doIf (fun _ => .modify ⟨rfl, rfl, .of_calls_eq rfl⟩ trivial) fun _ => trivial)

theorem forwardProposal_unswitched (sp : SignedProposal) (bytes : Bytes) :
    Steps Unswitched (forwardProposal E sp bytes) (fun _ _ => True) s := by
  unfold forwardProposal sendProposal
  refine .bind (handleSignedProposal_unswitched sp true bytes) fun r _ _ _ => ?_
  refine .bind (sendBft_unswitched id) fun _ _ _ _ => ?_
  cases r.2 with
  | none => exact .pure trivial
  | some resp => exact sendBft_unswitched id

theorem handleSignedVote_unswitched (sv : SignedVote) (needWal : Bool) :
    Steps Unswitched (handleSignedVote E sv needWal) (fun _ _ => True) s := by
  unfold handleSignedVote
  refine Steps.bind_verifySignature fun _ _ => .bind_get (.bind_lift fun _ _ =>
    .bind_rejectIf fun _ => .bind_rejectIf fun _ => .bind (P := fun _ _ => True) ?_ ?_)
  · refine .doIf (fun _ => .bind (logIf_moves fun _ _ _ => ⟨rfl, rfl, .of_calls_eq rfl⟩)
      fun _ _ _ _ => ?_) fun _ => trivial
    exact .doIf (fun _ => .bind_modify ⟨rfl, rfl, .of_calls_eq rfl⟩ .throw) fun _ => trivial
  · intro _ _ _ _
    exact .bind_modify ⟨rfl, rfl, .of_calls_eq rfl⟩
      (.bind (checkVoteSender_moves _ _) fun _ _ _ _ => .pure trivial)

theorem forwardVote_unswitched (sv : SignedVote) :
    Steps Unswitched (forwardVote E sv) (fun _ _ => True) s :=
  .bind (handleSignedVote_unswitched sv true) fun _ _ _ _ => sendBft_unswitched id

theorem sendCacheProposal_unswitched (height : UInt64) :
    Steps Unswitched (sendCacheProposal E height) (fun _ _ => True) s := by
  unfold sendCacheProposal
  refine .bind_get ?_
  cases s.eng.proposalCache.lookup height with
  | none => exact .pure trivial
  | some proposals =>
    exact .bind_modify ⟨rfl, rfl, .of_calls_eq rfl⟩
      (.forM (fun _ _ _ _ => forwardProposal_unswitched _ _) trivial)

theorem sendCacheVote_unswitched (height : UInt64) :
    Steps Unswitched (sendCacheVote E height) (fun _ _ => True) s := by
  unfold sendCacheVote
  refine .bind_get ?_
  cases s.eng.voteCache.lookup height with
  | none => exact .pure trivial
  | some votes =>
    exact .bind_modify ⟨rfl, rfl, .of_calls_eq rfl⟩
      (.forM (fun _ _ _ _ => forwardVote_unswitched _) trivial)

/-! ### Messages of the BFT core -/

theorem Prepares.unswitched (h : Prepares s s') : Unswitched s s' :=
  ⟨by cases h <;> rfl, by cases h <;> rfl, h.unsent⟩

theorem handleCommit_unswitched (c : BftCommit) (needWal : Bool) :
    Steps Unswitched (handleCommit E c needWal) (fun _ _ => True) s :=
  (handleCommit_prepares c needWal s).weaken fun _ _ => Prepares.unswitched

theorem handleProposal_unswitched [Content F] (p : BftProposal) (needWal : Bool) :
    Steps Unswitched (handleProposal E p needWal) (fun _ _ => True) s :=
  ((handleProposal_emits p needWal s).weaken fun _ _ => Prepares.unswitched).mono
    fun _ _ _ _ => trivial

theorem handleVote_unswitched (v : BftVote) (needWal : Bool) :
    Steps Unswitched (handleVote E v needWal) (fun _ _ => True) s :=
  (handleVote_prepares v needWal s).weaken fun _ _ => Prepares.unswitched

/-- A message of the BFT core other than a commit switches nothing. -/
theorem coreProcess_unswitched [Content F] {m : CoreOutput} (hm : ∀ c, m ≠ .commit c) :
    Steps Unswitched (coreProcess E m) (fun _ _ => True) s := by
  cases m with
  | proposal p =>
    exact .bind (handleProposal_unswitched p true) fun _ _ _ _ =>
      .bind (callTransmit_unswitched _) fun _ _ _ _ => Steps.bind_orErr fun _ _ => .pure trivial
  | vote v =>
    exact .bind (handleVote_unswitched v true) fun _ _ _ _ =>
      .bind (callTransmit_unswitched _) fun _ _ _ _ => Steps.bind_orErr fun _ _ => .pure trivial
  | commit c => exact absurd rfl (hm c)
  | getProposalRequest height => exact askForProposal_unswitched height

/-! ### Messages from outside, verdicts and feeds -/

section

variable [Content F]

theorem processSignedProposal_unswitched (bytes : Bytes) :
    Steps Unswitched (processSignedProposal E bytes) (fun _ _ => True) s := by
  unfold processSignedProposal receiveProposal
  refine .bind_lift fun _ _ => .bind_modify ⟨rfl, rfl, .of_calls_eq rfl⟩ (.bind_get ?_)
  refine .ite (fun _ => ?_) fun _ => forwardProposal_unswitched _ _
  refine .bind (P := fun _ _ => True) (.doIf (fun _ => .bind_rejectIf fun _ => ?_) fun _ => trivial)
    fun _ _ _ _ => .modify ⟨rfl, rfl, .of_calls_eq rfl⟩ trivial
  exact .bind (walSave_moves _ _ _ ⟨rfl, rfl, .of_calls_eq rfl⟩) fun _ _ _ _ =>
    Steps.bind_orErr fun _ _ => .pure trivial

omit [Content F] in
theorem processSignedVote_unswitched (bytes : Bytes) :
    Steps Unswitched (processSignedVote E bytes) (fun _ _ => True) s :=
  .bind_lift fun _ _ => forwardVote_unswitched _

theorem acceptFeed_unswitched (f : Feed F) (name : String) :
    Steps Unswitched (acceptFeed E f name) (fun _ _ => True) s :=
  .bind (sendBft_unswitched id) fun _ _ _ _ => .modify ⟨rfl, rfl, .of_calls_eq rfl⟩ trivial

omit [Content F] in
theorem acceptVerdict_unswitched (vr : VerifyResp) (name : String) :
    Steps Unswitched (acceptVerdict E vr name) (fun _ _ => True) s :=
  .bind (sendBft_unswitched id) fun _ _ _ _ => .modify ⟨rfl, rfl, .of_calls_eq rfl⟩ trivial

theorem asyncProcess_unswitched (m : AsyncMsg F) :
    Steps Unswitched (asyncProcess E m) (fun _ _ => True) s := by
  have logged : ∀ (s : State F) (tag : UInt8) (name : String) (json : Option Bytes),
      Steps Unswitched (doIf E.walOn do
        let s ← get
        saveJson E s.eng.height tag name json) (fun _ _ => True) s := by
    intro s tag name json
    refine .doIf (fun _ => .bind_get ?_) fun _ => trivial
    exact (saveJson_moves _ _ _ _ fun _ _ => ⟨rfl, rfl, .of_calls_eq rfl⟩).mono
      fun _ _ _ _ => trivial
  cases m with
  | verifyResp vr => exact .bind (acceptVerdict_unswitched vr _) fun _ s₁ _ _ => logged s₁ _ _ _
  | feed f => exact .bind (acceptFeed_unswitched f _) fun _ s₁ _ _ => logged s₁ _ _ _

/-! ### Statuses and replay -/

omit [Content F] in
/-- Handling a status switches nothing. -/
theorem handleRichStatus_unswitched (rs : Status) (needWal : Bool) :
    Steps Unswitched (handleRichStatus E rs needWal) (fun st _ => st = rs.toBftStatus) s := by
  unfold Steps
  refine handleRichStatus_wp (fun _ _ _ => .single ?_) (fun _ _ _ _ => .single ?_)
    (fun _ _ _ _ => ⟨.single ?_, rfl⟩) fun _ _ _ _ _ _ => .single ?_
  all_goals exact ⟨rfl, rfl, .of_calls_eq rfl⟩

/-- **A replay switches nothing**: a status that is read from the log is announced to the BFT core,
which is neither started nor paused. -/
theorem loadRecord_unswitched (record : UInt8 × Bytes) :
    Steps Unswitched (loadRecord E record) (fun _ _ => True) s := by
  obtain ⟨tag, msg⟩ := record
  refine .ite (fun _ => ?_) fun _ => .ite (fun _ => ?_) fun _ => .ite (fun _ => ?_) fun _ =>
    .ite (fun _ => ?_) fun _ => .ite (fun _ => ?_) fun _ => .ite (fun _ => ?_) fun _ =>
    .ite (fun _ => ?_) fun _ => .ite (fun _ => ?_) fun _ => .pure trivial
  · refine .bind_lift fun _ _ => .bind_modify ⟨rfl, rfl, .of_calls_eq rfl⟩ (.bind_get ?_)
    refine .bind (P := fun _ _ => True) ?_ fun _ _ _ _ => forwardProposal_unswitched _ _
    exact .doIf (fun _ => .modify ⟨rfl, rfl, .of_calls_eq rfl⟩ trivial) fun _ => trivial
  · exact Steps.bind_loadJson fun sv _ => .ifOk (handleSignedVote_unswitched sv false)
      (fun _ _ _ _ => sendBft_unswitched id) fun _ _ => trivial
  · exact Steps.bind_loadJson fun rs _ => .ifOk (handleRichStatus_unswitched rs false)
      (fun _ _ _ _ => sendBft_unswitched id) fun _ _ => trivial
  · exact Steps.bind_loadJson fun f _ => acceptFeed_unswitched f _
  · exact Steps.bind_loadJson fun vr _ => acceptVerdict_unswitched vr _
  · exact Steps.bind_loadJson fun p _ => .ifOk (handleProposal_unswitched p false)
      (fun _ _ _ _ => .bind (callTransmit_unswitched _) fun _ _ _ _ =>
        Steps.bind_orErr fun _ _ => .pure trivial) fun _ _ => trivial
  · exact Steps.bind_loadJson fun v _ => .ifOk (handleVote_unswitched v false)
      (fun _ _ _ _ => .bind (callTransmit_unswitched _) fun _ _ _ _ =>
        Steps.bind_orErr fun _ _ => .pure trivial) fun _ _ => trivial
  · exact Steps.bind_loadJson fun c _ => .ifOk (handleCommit_unswitched c true)
      (fun _ _ _ _ => .bind (callCommit_unswitched _) fun _ _ _ _ =>
        Steps.bind_orErr fun _ _ => .pure trivial) fun _ _ => trivial

end

/-! ### The power as a relay -/

/-- What the BFT core of a node is to do under the authorities of a status. -/
def Status.role (rs : Status) (address : Address) : CoreInput :=
  if address ∈ intoAddrSet rs.authorityList then .start else .pause

/-- The switches so far are the announcements of a relay that is paused at first, and the power
tells its value. -/
structure Powered (r : Relay CoreInput .pause) (s : State F) : Prop where
  switches_eq : s.switches = r.log
  value_eq : r.value = if s.eng.consensusPower then .start else .pause

variable {r : Relay CoreInput .pause}

theorem Unswitched.powered (h : Unswitched s s') (hr : Powered r s) : Powered r s' := by
  refine ⟨h.unsent.switches_eq.trans hr.switches_eq, ?_⟩
  rw [h.power_eq]
  exact hr.value_eq

/-- A switch that is a change sets the relay. -/
theorem Powered.switch (hr : Powered r s) {on d : Bool} {m : CoreInput}
    (hm : m = if on then .start else .pause) (hne : r.value ≠ m) :
    Powered (r.set m) (({ s with eng.consensusPower := on } : State F).record (.bft m d)) := by
  constructor
  · rw [State.switches_record, Relay.log_set_of_ne hne, ← hr.switches_eq]
    cases on with
    | true => rw [hm]; rfl
    | false => rw [hm]; rfl
  · rw [Relay.value_set]
    exact hm

/-- **Switching the power sets the relay** to what the authorities of the status ask for. -/
theorem switchPower_powered (rs : Status) (hr : Powered r s) : wp (switchPower E rs)
    (fun _ s' => Powered (r.set (rs.role s.eng.address)) s' ∧ s.calls <+: s'.calls)
    (fun _ s' => Powered (r.set (rs.role s.eng.address)) s' ∧ ∃ n, E.delivers n = false) s := by
  have switch : ∀ (on : Bool) (m : CoreInput) (name : String),
      (m = if on then .start else .pause) → rs.role s.eng.address = m → r.value ≠ m →
      wp (do
        modify fun s : State F => { s with eng.consensusPower := on }
        sendBft E m name)
        (fun _ s' => Powered (r.set (rs.role s.eng.address)) s' ∧ s.calls <+: s'.calls)
        (fun _ s' => Powered (r.set (rs.role s.eng.address)) s' ∧ ∃ n, E.delivers n = false) s := by
    intro on m name hm hrole hne
    have hsend := result_sendBft (E := E) { s with eng.consensusPower := on } m name
    rw [hrole]
    refine wp_bind.2 ((Exec.wp_modify _).2
      (Exec.wp_of_result hsend (fun _ _ => ?_) fun e he => ?_))
    · exact ⟨hr.switch hm hne, List.prefix_append _ _⟩
    · split_ifs at he with hd
      exact ⟨hr.switch hm hne, _, Bool.not_eq_true _ ▸ hd⟩
  have keep : r.value = rs.role s.eng.address →
      Powered (r.set (rs.role s.eng.address)) s ∧ s.calls <+: s.calls := by
    intro hvalue
    rw [Relay.set_of_eq hvalue]
    exact ⟨hr, List.prefix_rfl⟩
  have hvalue := hr.value_eq
  unfold switchPower
  refine wp_bind.2 (Exec.wp_ite.2 ⟨fun hmem => ?_, fun hmem => ?_⟩)
  · have hrole : rs.role s.eng.address = .start := if_pos hmem
    refine Exec.wp_ite.2 ⟨fun hp => switch true .start _ rfl hrole ?_, fun hp => keep ?_⟩
    · rw [hvalue, hp]
      exact nofun
    · rw [Bool.not_eq_false] at hp
      rw [hvalue, hrole, hp]
      rfl
  · have hrole : rs.role s.eng.address = .pause := if_neg hmem
    refine Exec.wp_ite.2 ⟨fun hp => switch false .pause _ rfl hrole ?_, fun hp => keep ?_⟩
    · rw [hvalue, hp]
      exact nofun
    · rw [Bool.not_eq_true] at hp
      rw [hvalue, hrole, hp]
      rfl

/-! ### Accepted statuses -/

/-- Since `s` the BFT core received the status, and it was not switched after that. -/
def Told (rs : Status) (s s' : State F) : Prop :=
  ∃ calls eng files later, s'.calls =
    s.calls ++ calls ++ ⟨eng, files, .bft (.status rs.toBftStatus) true⟩ :: later ∧
      ∀ call ∈ later, call.event.switch = none

theorem Told.of_unswitched {s₁ s₂ : State F} (h : s₂.calls = s₁.calls ++
    [⟨s₁.eng, s₁.disk, .bft (.status rs.toBftStatus) true⟩]) (hpre : s.calls <+: s₁.calls)
    (hun : Unswitched s₂ s') : Told rs s s' := by
  obtain ⟨calls, hcalls⟩ := hpre
  obtain ⟨later, hlater, hunsent⟩ := hun.unsent
  refine ⟨calls, s₁.eng, s₁.disk, later, ?_, fun call hmem =>
    Event.switch_eq_none (hunsent call hmem)⟩
  rw [hlater, h, ← hcalls, List.append_assoc, List.append_assoc, List.append_assoc]
  rfl

theorem Told.trans_unswitched (h : Told rs s s') (hun : Unswitched s' s'') : Told rs s s'' := by
  obtain ⟨calls, eng, files, later, hcalls, hlater⟩ := h
  obtain ⟨more, hmore, hunsent⟩ := hun.unsent
  refine ⟨calls, eng, files, later ++ more, ?_, fun call hmem => ?_⟩
  · rw [hmore, hcalls, List.append_assoc, List.cons_append]
  · rcases List.mem_append.1 hmem with hmem | hmem
    · exact hlater call hmem
    · exact Event.switch_eq_none (hunsent call hmem)

theorem Told.earlier (h : Told rs s s') (hpre : s''.calls <+: s.calls) : Told rs s'' s' := by
  obtain ⟨calls, eng, files, later, hcalls, hlater⟩ := h
  obtain ⟨before, hbefore⟩ := hpre
  refine ⟨before ++ calls, eng, files, later, ?_, hlater⟩
  rw [hcalls, ← hbefore, List.append_assoc s''.calls]

/-- Since `s` the relay was set to what the authorities of the status ask for, and the BFT core was
told of the status, if everything that is sent is delivered. -/
structure Informs (E : Env F) (r : Relay CoreInput .pause) (rs : Status) (s s' : State F) :
    Prop where
  powered : Powered (r.set (rs.role s.eng.address)) s'
  told : (∀ n, E.delivers n = true) → Told rs s s'

/-- **A status that was accepted sets the relay, and the BFT core is told of it**, whether draining
the caches returns, fails or panics. -/
theorem afterStatus_informs (rs : Status) (hr : Powered r s) :
    wp (afterStatus E rs rs.toBftStatus) (fun _ => Informs E r rs s) (fun _ => Informs E r rs s)
      s := by
  unfold afterStatus
  refine wp_bind.2 ((switchPower_powered rs hr).mono ?_ ?_)
  swap
  · rintro _ s₁ ⟨hpowered, n, hn⟩
    exact ⟨hpowered, fun hsends => nomatch hn.symm.trans (hsends n)⟩
  rintro _ s₁ ⟨hpowered, hpre⟩
  have hsent : Unswitched s₁ (s₁.record
      (.bft (.status rs.toBftStatus) (E.delivers s₁.calls.length))) :=
    ⟨rfl, rfl, .recordBft id⟩
  refine wp_bind.2 (Exec.wp_of_result (result_sendBft s₁ _ _) (fun _ hr => ?_) fun _ hr => ?_)
  · -- draining the caches switches nothing
    have hdelivered : E.delivers s₁.calls.length = true := by
      split_ifs at hr with hd
      exact hd
    have drained : ∀ s', Unswitched (s₁.record
        (.bft (.status rs.toBftStatus) (E.delivers s₁.calls.length))) s' → Informs E r rs s s' := by
      intro s' hun
      refine ⟨hun.powered (hsent.powered hpowered), fun _ => .of_unswitched ?_ hpre hun⟩
      rw [hdelivered]
      rfl
    have hdrain : Steps Unswitched (do
        let s ← get
        sendCacheProposal E s.eng.height
        let s ← get
        sendCacheVote E s.eng.height) (fun _ _ => True) (s₁.record
          (.bft (.status rs.toBftStatus) (E.delivers s₁.calls.length))) :=
      .bind_get (.bind (sendCacheProposal_unswitched _) fun _ _ _ _ =>
        .bind_get (sendCacheVote_unswitched _))
    exact wp.mono hdrain (fun _ s' h => drained s' (.of_moves h.1)) fun _ s' h =>
      drained s' (.of_moves h)
  · -- the status is not delivered
    refine ⟨hsent.powered hpowered, fun hsends => ?_⟩
    rw [hsends] at hr
    exact nomatch hr

variable [Content F] {address : Address} {disk : Disk} {is : List Input} {i : Input}
variable {p p' : Process F}

/-- The turn accepts a status that comes from outside or answers a commit, and leaves `s'`, whether
it returns, fails or panics after that. -/
def Adopts (E : Env F) (p : Process F) (i : Input) (rs : Status) (s' : State F) : Prop :=
  ∃ s st s₁, HandlesAt E p i rs true s ∧
    Exec.result (handleRichStatus E rs true) s = (.ok st, s₁) ∧
    (Exec.result (processStatus E rs) s).2 = s'

omit [Content F] in
/-- Nothing is switched before the status is handled. -/
theorem HandlesAt.unswitched {needWal : Bool} (h : HandlesAt E p i rs needWal s) :
    Unswitched p.state s := by
  cases h with
  | external => exact .refl _
  | @committed c commit s rs handled answer =>
    have hcommit := (handleCommit_unswitched (E := E) (s := p.state) c true).reached handled
    exact (Unswitched.of_moves hcommit).trans (.record nofun)
  | logged => exact .refl _

omit [Content F] in
/-- **A turn that accepts a status sets the relay**, and the BFT core is told of the status. -/
theorem Adopts.informs (h : Adopts E p i rs s') (hr : Powered r p.state) :
    Informs E r rs p.state s' := by
  obtain ⟨s, st, s₁, hs, hrich, rfl⟩ := h
  have hsteps := handleRichStatus_unswitched (E := E) (s := s) rs true
  obtain rfl : st = rs.toBftStatus := hsteps.ok hrich
  have hun : Unswitched p.state s₁ :=
    hs.unswitched.trans (.of_moves (hsteps.reached hrich))
  have hafter : Informs E r rs s₁ (Exec.result (afterStatus E rs rs.toBftStatus) s₁).2 :=
    Exec.result_of_wp (P := fun _ => Informs E r rs s₁) (afterStatus_informs rs (hun.powered hr))
  obtain ⟨calls, hcalls, -⟩ := hun.unsent
  rw [processStatus_eq, Exec.result_bind_ok hrich]
  refine ⟨?_, fun hsends => (hafter.told hsends).earlier ⟨calls, hcalls.symm⟩⟩
  rw [← hun.address_eq]
  exact hafter.powered

/-- **A turn accepts a status, or it switches nothing.** -/
theorem next_adopts (hn : next E i p = some p') :
    (∃ rs, Adopts E p i rs p'.state) ∨ Unswitched p.state p'.state := by
  -- a turn that processes a status
  have processed : ∀ {s rs}, HandlesAt E p i rs true s →
      Exec.survive (processStatus E rs) s = some p'.state →
      (∃ rs, Adopts E p i rs p'.state) ∨ Unswitched p.state p'.state := by
    intro s rs hs h
    obtain ⟨r, hr, -⟩ := Exec.survive_eq_some.1 h
    cases hrich : Exec.result (handleRichStatus E rs true) s with
    | mk res s₁ =>
      cases res with
      | ok st => exact .inl ⟨rs, s, st, s₁, hs, hrich, congrArg Prod.snd hr⟩
      | error e =>
        have hrefused := Exec.result_bind_error (f := afterStatus E rs) hrich
        obtain ⟨-, rfl⟩ := Prod.mk.inj (hrefused.symm.trans hr)
        have hsteps := handleRichStatus_unswitched (E := E) (s := s) rs true
        exact .inr (hs.unswitched.trans (.of_moves (hsteps.reached hrich)))
  -- any other turn
  have quiet : ∀ {m : EngineM F PUnit} {s : State F}, Unswitched p.state s →
      Steps Unswitched m (fun _ _ => True) s → Exec.survive m s = some p'.state →
      (∃ rs, Adopts E p i rs p'.state) ∨ Unswitched p.state p'.state :=
    fun hs hm h => .inr (hs.trans (.of_moves (hm.survive h)))
  cases i with
  | external m =>
    obtain ⟨s, -, hs, rfl⟩ := live_of_next (by simp) hn
    cases m with
    | signedProposal bytes => exact quiet (.refl _) (processSignedProposal_unswitched bytes) hs
    | signedVote bytes => exact quiet (.refl _) (processSignedVote_unswitched bytes) hs
    | status rs => exact processed (.external rs) hs
  | core m =>
    obtain ⟨s, -, hs, rfl⟩ := live_of_next (by simp) hn
    cases m with
    | commit c =>
      have hcommit := handleCommit_unswitched (E := E) (s := p.state) c true
      rcases coreProcess_commit_cases hs with ⟨e, hr⟩ | ⟨commit, s₁, hr, hanswer⟩
      · exact .inr (.of_moves (hcommit.reached hr))
      rcases hanswer with ⟨e, -, rfl⟩ | ⟨rs, hrs, hstatus⟩
      · exact .inr ((Unswitched.of_moves (hcommit.reached hr)).trans (.record nofun))
      · exact processed (.committed hr hrs) hstatus
    | _ => exact quiet (.refl _) (coreProcess_unswitched (by simp)) hs
  | async =>
    obtain ⟨s, -, hs, rfl⟩ := live_of_next (by simp) hn
    obtain ⟨m, queue, -, hs⟩ := async_of_liveNext hs
    exact quiet (s := { p.state with asyncQueue := queue }) ⟨rfl, rfl, .of_calls_eq rfl⟩
      (asyncProcess_unswitched m) hs
  | replay =>
    obtain ⟨record, records, -, -, hs⟩ := pending_of_replayNext hn
    exact quiet (.refl _) (loadRecord_unswitched record) hs

/-! ### Runs -/

theorem Adopts.state_eq (h : Adopts E p i rs s') (hn : next E i p = some p') :
    p'.state = s' := by
  obtain ⟨s, st, s₁, hs, -, rfl⟩ := h
  obtain ⟨r, hr, -⟩ := Exec.survive_eq_some.1 (survive_of_handlesAt hn hs)
  exact (congrArg Prod.snd hr).symm

/-- The node keeps its address. -/
theorem Life.address_eq (hl : Life E address disk is p) : p.state.eng.address = address := by
  refine hl.invariant (I := fun s => s.eng.address = address)
    (SuppliedLife.all E address disk is) (fun p₀ hb => ?_) fun s s' hu h => ?_
  · rw [(boot_state hb).1]
    rfl
  · cases hu <;> exact h

/-- **In every state of a run the power is a relay.** -/
theorem Life.powered (hl : Life E address disk is p) : ∃ r, Powered r p.state := by
  refine hl.induction (I := fun p => ∃ r, Powered r p.state) (fun p₀ hb => ?_) ?_
  · obtain ⟨heng, -, hcalls⟩ := boot_state hb
    refine ⟨.new CoreInput.pause, ?_, ?_⟩
    · rw [State.switches, hcalls]
      rfl
    · rw [heng]
      rfl
  · rintro is₁ i is₂ p p' - - - hn ⟨r, hr⟩
    rcases next_adopts hn with ⟨rs, h⟩ | hun
    · exact ⟨_, (h.informs hr).powered⟩
    · exact ⟨r, hun.powered hr⟩

/-- The messages begin with `Start`, and none repeats the one before it. -/
structure Alternates (l : List CoreInput) : Prop where
  first : ∀ m ∈ l.head?, m = .start
  chain : l.IsChain (· ≠ ·)

omit [Content F] in
/-- Only `Start` and `Pause` are switches. -/
theorem State.isSwitch_of_mem {m : CoreInput} (h : m ∈ s.switches) : m = .start ∨ m = .pause := by
  obtain ⟨call, -, hcall⟩ := List.mem_filterMap.1 h
  unfold Event.switch at hcall
  split at hcall
  · exact .inl (Option.some.inj hcall).symm
  · exact .inr (Option.some.inj hcall).symm
  · exact nomatch hcall

omit [Content F] in
theorem Powered.alternates (h : Powered r s) : Alternates s.switches := by
  refine ⟨fun m hm => ?_, h.switches_eq ▸ r.isChain_log⟩
  have hne : m ≠ .pause := r.head?_log_ne m (h.switches_eq ▸ hm)
  exact (State.isSwitch_of_mem (List.mem_of_mem_head? hm)).resolve_right hne

/-- The last switch is `Start` if and only if the node is one of the authorities of the status, and
the BFT core received the status, since `s`, after the last switch. -/
structure Informed (address : Address) (rs : Status) (s s' : State F) : Prop where
  last_iff : s'.switches.getLast? = some .start ↔ address ∈ intoAddrSet rs.authorityList
  told : Told rs s s'

omit [Content F] in
theorem Informs.informed (h : Informs E r rs s s') (hsends : ∀ n, E.delivers n = true) :
    Informed s.eng.address rs s s' := by
  refine ⟨?_, h.told hsends⟩
  have hne : CoreInput.start ≠ .pause := nofun
  rw [h.powered.switches_eq, Relay.getLast?_log_eq_some _ hne, Relay.value_set, Status.role]
  by_cases hmem : s.eng.address ∈ intoAddrSet rs.authorityList
  · exact iff_of_true (if_pos hmem) hmem
  · rw [if_neg hmem]
    exact iff_of_false nofun hmem

omit [Content F] in
theorem Informed.of_unswitched (h : Informed address rs s s') (hun : Unswitched s' s'') :
    Informed address rs s s'' :=
  ⟨hun.unsent.switches_eq ▸ h.last_iff, h.told.trans_unswitched hun⟩

/-- The last status that the run accepts, from outside or as the answer to a commit, is `rs`, and
it does so in `q`. -/
inductive LastAdopted (E : Env F) (address : Address) (disk : Disk) :
    List Input → Process F → Status → Prop
  | adopted {is : List Input} {q : Process F} {i : Input} {rs : Status} {s' : State F}
      (life : Life E address disk is q) (adopts : Adopts E q i rs s') :
      LastAdopted E address disk (is ++ [i]) q rs
  | kept {is : List Input} {p q : Process F} {i : Input} {rs : Status}
      (last : LastAdopted E address disk is q rs) (life : Life E address disk is p)
      (none : ∀ rs' s', ¬ Adopts E p i rs' s') : LastAdopted E address disk (is ++ [i]) q rs

theorem LastAdopted.informed {q : Process F} (h : LastAdopted E address disk is q rs)
    (hsends : ∀ n, E.delivers n = true) (hl : Life E address disk is p) :
    Informed address rs q.state p.state := by
  induction h generalizing p with
  | @adopted is q i rs s' life adopts =>
    obtain ⟨q', p', hq, hn, hp⟩ := hl.split
    obtain rfl := hq.unique life
    obtain rfl := hp.unique hl
    obtain ⟨r, hr⟩ := life.powered
    rw [adopts.state_eq hn, ← life.address_eq]
    exact (adopts.informs hr).informed hsends
  | @kept is p₁ q i rs last life none ih =>
    obtain ⟨q', p', hq, hn, hp⟩ := hl.split
    obtain rfl := hq.unique life
    obtain rfl := hp.unique hl
    rcases next_adopts hn with ⟨rs', h⟩ | hun
    · exact absurd h (none rs' _)
    · exact (ih life).of_unswitched hun

/-- **Participation follows the authorities.**  In every run the BFT core is started and paused in
turns, beginning with a start, and after each accepted status it participates if and only if the
node is one of the authorities of that status, of which it was told after the last switch.  So it is
at the end of the turn that accepts the status, however the turn ends. -/
theorem participation_follows (hsends : ∀ n, E.delivers n = true)
    (hl : Life E address disk is p) :
    Alternates p.state.switches ∧
      (∀ q rs, LastAdopted E address disk is q rs → Informed address rs q.state p.state) ∧
      ∀ i rs s', Adopts E p i rs s' →
        Alternates s'.switches ∧ Informed address rs p.state s' := by
  obtain ⟨r, hr⟩ := hl.powered
  refine ⟨hr.alternates, fun q rs h => h.informed hsends hl, fun i rs s' h => ?_⟩
  have hinforms := h.informs hr
  refine ⟨hinforms.powered.alternates, ?_⟩
  rw [← hl.address_eq]
  exact hinforms.informed hsends

/-- The status of height `1` that makes another node the only authority. -/
def leavingStatus : Status := ⟨1, none, [Node.new [8]]⟩

/-- The node leaves the authorities with a status that is accepted, but ends in an error, since the
proposal that was cached for its height is rejected. -/
theorem participation_follows_leaving : ∃ p p', next (Reference.env [7])
      (.external (.status leavingStatus)) p = some p' ∧
    (Exec.result (externalProcess (Reference.env [7]) (.status leavingStatus)) p.state).1.isOk =
      false ∧ p'.state.switches = [.start, .pause] ∧ Alternates p'.state.switches ∧
    Informed [7] leavingStatus p.state p'.state := by
  obtain ⟨p, p', hl, hl', hn, h, h'⟩ := Reference.exists_turn (Reference.env [7]) [7]
    (Reference.readyRun [7] ++ [.external (.signedProposal earlyBytes)])
    (.external (.status leavingStatus))
    (fun p => (Exec.result (handleRichStatus (Reference.env [7]) leavingStatus true)
        p.state).1.isOk &&
      !(Exec.result (externalProcess (Reference.env [7]) (.status leavingStatus)) p.state).1.isOk)
    (fun p' => decide (p'.state.switches = [.start, .pause]))
    (by decide +kernel) (by decide +kernel)
  rw [Bool.and_eq_true, Bool.not_eq_true'] at h
  obtain ⟨hok, herror⟩ := h
  obtain ⟨halternates, hinformed, -⟩ := participation_follows (fun _ => rfl) hl'
  refine ⟨p, p', hn, herror, of_decide_eq_true h', halternates, hinformed p _ ?_⟩
  obtain ⟨st, s₁, hr⟩ := Exec.exists_of_isOk hok
  exact .adopted hl ⟨p.state, st, s₁, .external _, hr, rfl⟩

end ConsensusBft

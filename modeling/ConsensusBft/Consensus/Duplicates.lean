import ConsensusBft.Consensus.CommitOrder
import ConsensusBft.Consensus.Idle
import ConsensusBft.Consensus.NewHeight
import ConsensusBft.Consensus.Transparency
import ConsensusBft.Logic.Potential

/-!
# No message is multiplied

A vote or a proposal of another node is handed to the BFT core, or waits in a cache until its height
is reached.

* `waiting x eng` : how often the message `x` waits.
* `load x s` : how often it waits or has been handed over; `Input.weight`, `recordWeight` : what a
  turn and a record may add.
* `next_load` : **no turn adds more than it brings.**
* `handed_le` : **no message is handed over more often than it was received**, live or in the log.
-/

namespace ConsensusBft

open Exec (Steps Raises rejectIf)

variable {F : Type} {E : Env F} {s s' : State F} {x : CoreInput}

/-! ### Loads -/

/-- The message is one of another node. -/
def CoreInput.FromPeer : CoreInput → Prop
  | .vote _ | .proposal _ => True
  | _ => False

/-- What is handed over of a signed vote. -/
def SignedVote.toCore (sv : SignedVote) : CoreInput := .vote sv.vote.toBftVote

/-- What is handed over of a signed proposal. -/
def SignedProposal.toCore (sp : SignedProposal) : CoreInput :=
  .proposal (sp.proposal.toBftProposal sp.proposal.hash)

/-- One if the message is `x`. -/
def weigh (x y : CoreInput) : ℕ := if y = x then 1 else 0

/-- How often the message waits in the caches. -/
def waiting (x : CoreInput) (eng : Consensus F) : ℕ :=
  HashMap.sumAll (fun sv => weigh x sv.toCore) eng.voteCache +
    HashMap.sumAll (fun e => weigh x e.1.toCore) eng.proposalCache

/-- How often the message has been handed over or may still be. -/
def load (x : CoreInput) (s : State F) : ℕ := s.sentBft.count x + waiting x s.eng

theorem weigh_of_ne {y : CoreInput} (h : y ≠ x) : weigh x y = 0 := if_neg h

theorem waiting_pushProposal (x : CoreInput) (eng : Consensus F) (k : UInt64)
    (e : SignedProposal × F × Bytes) :
    waiting x { eng with proposalCache := eng.proposalCache.pushEntry k e } =
      waiting x eng + weigh x e.1.toCore := by
  unfold waiting
  dsimp only
  rw [HashMap.sumAll_pushEntry, Nat.add_assoc]

theorem waiting_pushVote (x : CoreInput) (eng : Consensus F) (k : UInt64) (sv : SignedVote) :
    waiting x { eng with voteCache := eng.voteCache.pushEntry k sv } =
      waiting x eng + weigh x sv.toCore := by
  unfold waiting
  dsimp only
  rw [HashMap.sumAll_pushEntry, Nat.add_right_comm]

/-- What is taken out of the cache of proposals no longer waits. -/
theorem waiting_takeProposals (x : CoreInput) (eng : Consensus F) (k : UInt64) :
    waiting x { eng with proposalCache := eng.proposalCache.erase k } +
        (((eng.proposalCache.lookup k).getD []).map fun e => weigh x e.1.toCore).sum =
      waiting x eng := by
  unfold waiting
  rw [HashMap.sumAll_eq _ eng.proposalCache k, Nat.add_assoc]

/-- What is taken out of the cache of votes no longer waits. -/
theorem waiting_takeVotes (x : CoreInput) (eng : Consensus F) (k : UInt64) :
    waiting x { eng with voteCache := eng.voteCache.erase k } +
        (((eng.voteCache.lookup k).getD []).map fun sv => weigh x sv.toCore).sum =
      waiting x eng := by
  unfold waiting
  rw [HashMap.sumAll_eq _ eng.voteCache k, Nat.add_right_comm]

/-- All messages but `x`. -/
def Source.otherThan (F : Type) (x : CoreInput) : Source F where
  vote sv := sv.toCore ≠ x
  proposal sp := sp.toCore ≠ x
  block _ _ := True
  core _ := True
  status _ := True
  verdict _ := True

/-! ### What adds nothing -/

variable [Content F]

omit [Content F] in
theorem load_record_of_ne {e : Event F} (h : Call.sent ⟨s.eng, s.disk, e⟩ ≠ some x) :
    load x (s.record e) = load x s := by
  unfold load
  rw [sentBft_record, List.count_append]
  cases hsent : Call.sent ⟨s.eng, s.disk, e⟩ with
  | none => rfl
  | some y =>
    rw [hsent] at h
    have hne : y ≠ x := fun heq => h (congrArg some heq)
    simp [hne, waiting, State.record]

/-- A call that brings other messages does not hand `x` over. -/
theorem sent_ne (hx : x.FromPeer) {e : Event F}
    (h : Permitted E (Source.otherThan F x).toSupply s e) :
    Call.sent ⟨s.eng, s.disk, e⟩ ≠ some x := by
  cases e with
  | bft msg d =>
    rintro ⟨⟩
    cases x with
    | vote v =>
      obtain ⟨-, sv, hne, rfl, -⟩ := h
      exact hne rfl
    | proposal p =>
      obtain ⟨-, sp, hne, rfl, -⟩ := h
      exact hne rfl
    | _ => exact hx
  | _ => exact nofun

theorem Move.load_le (hx : x.FromPeer) (h : Move E (Source.otherThan F x) s s') :
    load x s' ≤ load x s := by
  cases h with
  | call e permitted => exact (load_record_of_ne (sent_ne hx permitted)).le
  | check hash block bytes isLock isBySelf =>
    exact (load_record_of_ne (s := s) (e := .checkProposal hash block bytes isLock isBySelf _)
      nofun).le
  | cacheProposal sp block bytes received =>
    refine Nat.add_le_add_left (Nat.le_of_eq ?_) _
    rw [waiting_pushProposal, weigh_of_ne received, Nat.add_zero]
  | cacheVote sv received =>
    refine Nat.add_le_add_left (Nat.le_of_eq ?_) _
    rw [waiting_pushVote, weigh_of_ne received, Nat.add_zero]
  | takeProposals height =>
    exact Nat.add_le_add_left (Nat.le.intro (waiting_takeProposals x s.eng height)) _
  | takeVotes height =>
    exact Nat.add_le_add_left (Nat.le.intro (waiting_takeVotes x s.eng height)) _
  | _ => exact Nat.le_refl _

theorem Advance.load_le (hx : x.FromPeer) (h : Advance E (Source.otherThan F x) s s') :
    load x s' ≤ load x s := by
  cases h with
  | move move => exact move.load_le hx
  | status rs needWal =>
    have heffect := handleRichStatus_effect (E := E) s rs needWal
    cases hr : Exec.result (handleRichStatus E rs needWal) s with
    | mk r s₁ =>
      rw [hr] at heffect
      cases heffect <;> exact Nat.le_refl _

theorem raises_of_moves {α : Type} {m : EngineM F α} {Q : α → State F → Prop} (hx : x.FromPeer)
    (h : Steps (Move E (Source.otherThan F x)) m Q s) : Raises (load x) 0 m s :=
  .of_steps h fun _ _ h => h.load_le hx

theorem raises_of_advances {α : Type} {m : EngineM F α} {Q : α → State F → Prop} (hx : x.FromPeer)
    (h : Steps (Advance E (Source.otherThan F x)) m Q s) : Raises (load x) 0 m s :=
  .of_steps h fun _ _ h => h.load_le hx

/-! ### Handing over -/

omit [Content F] in
/-- Handing a message over adds it. -/
theorem sendBft_raises (msg : CoreInput) (name : String) :
    Raises (load x) (weigh x msg) (sendBft E msg name) s := by
  have hload : load x (s.record (.bft msg (E.delivers s.calls.length))) ≤
      load x s + weigh x msg := by
    unfold load weigh
    rw [sentBft_record, List.count_append]
    simp only [Call.sent, Option.toList_some, List.count_singleton, beq_iff_eq]
    change _ + waiting x s.eng ≤ _
    omega
  exact Exec.wp_bind.2 (Exec.wp_get.2 (Exec.wp_bind.2 ((Exec.wp_modify _).2
    (Exec.wp_rejectIf.2 ⟨fun _ => hload, fun _ => hload⟩))))

/-- The caches are left alone, and nothing is handed over. -/
structure Aside (s s' : State F) : Prop where
  sent : s'.sentBft = s.sentBft
  proposalCache : s'.eng.proposalCache = s.eng.proposalCache
  voteCache : s'.eng.voteCache = s.eng.voteCache

omit [Content F] in
theorem Aside.load_le (h : Aside s s') : load x s' ≤ load x s := by
  unfold load waiting
  rw [h.sent, h.proposalCache, h.voteCache]

omit [Content F] in
theorem Aside.of_record {e : Event F} (h : Call.sent ⟨s.eng, s.disk, e⟩ = none) :
    Aside s (s.record e) :=
  ⟨by rw [sentBft_record, h]; exact List.append_nil _, rfl, rfl⟩

omit [Content F] in
theorem Aside.queued (h : Aside s s') (queue : List (AsyncMsg F)) :
    Aside s { s' with asyncQueue := queue } := ⟨h.sent, h.proposalCache, h.voteCache⟩

omit [Content F] in
/-- A proposal that is handled is neither cached nor handed over yet. -/
theorem handleSignedProposal_aside (sp : SignedProposal) (needWal : Bool) (bytes : Bytes) :
    Steps Aside (handleSignedProposal E sp needWal bytes)
      (fun r _ => .proposal r.1 = sp.toCore) s := by
  unfold handleSignedProposal
  refine Steps.bind_verifySignature fun _ _ => .bind_rejectIf fun _ => .bind_get
    (.bind_lift fun _ _ => .bind_rejectIf fun _ => ?_)
  refine .bind (logIf_moves fun _ _ _ => ⟨rfl, rfl, rfl⟩) fun _ _ _ _ =>
    .bind_modify ⟨rfl, rfl, rfl⟩ (.bind (checkProposer_moves ..) fun _ _ _ _ => ?_)
  refine .bind (checkLockVotes_steps fun _ _ => ⟨rfl, rfl, rfl⟩) fun _ s₁ _ _ =>
    .ite (fun _ => .pure rfl) fun _ => ?_
  refine .bind (P := fun _ _ => True) ?_ fun _ s₂ _ _ =>
    .bind (P := fun _ _ => True) ?_ fun _ _ _ _ => .pure rfl
  · unfold verdictOf
    refine .bind_get ?_
    cases s₁.eng.verifiedBlock.lookup sp.proposal.hash with
    | some isPass => exact .pure trivial
    | none =>
      cases s₁.eng.blockOriginCache.lookup sp.proposal.hash with
      | none => exact .throw
      | some content =>
        refine .bind (P := fun _ _ => True) ?_ fun _ _ _ _ => .pure trivial
        exact .bind_get (.modify ((Aside.of_record (s := s₁) (e := .checkProposal _ content bytes
          _ false _) rfl).queued _) trivial)
  · unfold checkProofOf
    exact .bind_get (.bind_rejectIf fun _ => .bind_lift fun _ _ => .bind_rejectIf fun _ =>
      .doIf (fun _ => .modify ⟨rfl, rfl, rfl⟩ trivial) fun _ => trivial)

omit [Content F] in
/-- **A proposal is handed over once at most.** -/
theorem forwardProposal_raises (hx : x.FromPeer) (sp : SignedProposal) (bytes : Bytes) :
    Raises (load x) (weigh x sp.toCore) (forwardProposal E sp bytes) s := by
  unfold forwardProposal sendProposal
  have haside := handleSignedProposal_aside (E := E) (s := s) sp true bytes
  refine Raises.mono (.bind (.of_steps haside fun _ _ h => h.load_le) fun r s₁ hr => ?_)
    (Nat.zero_add _).le
  have hcore : .proposal r.1 = sp.toCore := haside.ok hr
  rw [← hcore]
  refine Raises.mono (.bind (sendBft_raises _ _) fun _ s₂ _ => ?_) (Nat.add_zero _).le
  cases r.2 with
  | none => exact .pure _
  | some resp =>
    have hne : CoreInput.verifyResp resp.toBftResp ≠ x := by
      rintro rfl
      exact hx
    exact (sendBft_raises _ _).mono (weigh_of_ne hne).le

omit [Content F] in
/-- A vote that is accepted is neither cached nor handed over yet; one of a later height is
cached. -/
theorem handleSignedVote_loads (sv : SignedVote) (needWal : Bool) :
    Exec.wp (handleSignedVote E sv needWal)
      (fun v s' => .vote v = sv.toCore ∧ load x s' ≤ load x s)
      (fun _ s' => load x s' ≤ load x s + weigh x sv.toCore) s := by
  by_cases hlt : s.eng.height < sv.vote.height
  · refine handleSignedVote_later hlt (fun _ _ => Nat.le_add_right _ _)
      (fun _ _ w => Nat.le_add_right _ _) fun _ w => ?_
    have hpush := waiting_pushVote x (s.setWal w).eng sv.vote.height sv
    exact (Nat.add_le_add_left hpush.le _).trans (Nat.add_assoc _ _ _).ge
  · have haside : Steps Aside (handleSignedVote E sv needWal)
        (fun v _ => .vote v = sv.toCore) s := by
      unfold handleSignedVote
      refine Steps.bind_verifySignature fun _ _ => .bind_get (.bind_lift fun _ _ =>
        .bind_rejectIf fun _ => .bind_rejectIf fun _ => .bind (P := fun _ _ => True) ?_ ?_)
      · refine .doIf (fun _ => .bind (logIf_moves fun _ _ _ => ⟨rfl, rfl, rfl⟩) fun _ s₁ h₁ _ => ?_)
          fun _ => trivial
        exact .doIf (fun hlt' => absurd hlt' hlt) fun _ => trivial
      · intro _ _ _ _
        exact .bind_modify ⟨rfl, rfl, rfl⟩ (.bind (checkVoteSender_moves _ _) fun _ _ _ _ =>
          .pure rfl)
    have hload := Raises.of_steps (Φ := load x) haside fun _ _ h => h.load_le
    refine (Exec.wp.and haside hload).mono (fun _ _ h => ⟨h.1.2, h.2⟩) fun _ _ h => ?_
    exact h.2.trans (Nat.le_add_right _ _)

omit [Content F] in
/-- **A vote is cached or handed over, and once at most.** -/
theorem forwardVote_raises (sv : SignedVote) :
    Raises (load x) (weigh x sv.toCore) (forwardVote E sv) s := by
  unfold forwardVote
  refine Exec.wp_bind.2 ((handleSignedVote_loads sv true).mono ?_ fun _ _ h => h)
  rintro v s₁ ⟨hcore, hle⟩
  have hweigh : weigh x (.vote v) = weigh x sv.toCore := by rw [hcore]
  exact Exec.wp.mono (sendBft_raises (x := x) _ _) (fun _ _ h => by omega) fun _ _ h => by omega

/-! ### The caches -/

omit [Content F] in
/-- Handing the cached proposals of a height over adds nothing. -/
theorem sendCacheProposal_raises (hx : x.FromPeer) (height : UInt64) :
    Raises (load x) 0 (sendCacheProposal E height) s := by
  unfold sendCacheProposal
  refine .bind_get ?_
  cases hl : s.eng.proposalCache.lookup height with
  | none => exact .pure _
  | some proposals =>
    refine .bind_modify ?_ (.forM fun e _ s => forwardProposal_raises hx e.1 e.2.2)
    have htake := waiting_takeProposals x s.eng height
    rw [hl, Option.getD_some] at htake
    change s.sentBft.count x + _ + _ ≤ _
    rw [Nat.add_assoc, htake]
    exact Nat.le_refl _

omit [Content F] in
/-- Handing the cached votes of a height over adds nothing. -/
theorem sendCacheVote_raises (height : UInt64) :
    Raises (load x) 0 (sendCacheVote E height) s := by
  unfold sendCacheVote
  refine .bind_get ?_
  cases hl : s.eng.voteCache.lookup height with
  | none => exact .pure _
  | some votes =>
    refine .bind_modify ?_ (.forM fun sv _ s => forwardVote_raises sv)
    have htake := waiting_takeVotes x s.eng height
    rw [hl, Option.getD_some] at htake
    change s.sentBft.count x + _ + _ ≤ _
    rw [Nat.add_assoc, htake]
    exact Nat.le_refl _

/-! ### Turns -/

/-- A status hands cached messages over at most. -/
theorem processStatus_raises (hx : x.FromPeer) (rs : Status) :
    Raises (load x) 0 (processStatus E rs) s := by
  have hstatus : (Source.otherThan F x).status rs := trivial
  rw [processStatus_eq]
  refine .bind (n := 0) (k := 0) (raises_of_advances hx (handleRichStatus_advances hstatus true))
    fun status s₁ _ => ?_
  unfold afterStatus
  refine .bind (n := 0) (k := 0) (raises_of_moves hx (switchPower_moves rs)) fun _ s₂ _ => ?_
  refine .bind (n := 0) (k := 0) (raises_of_moves hx (Steps.still
    (sendBft_moves ⟨rfl, trivial⟩ trivial))) fun _ s₃ _ => .bind_get ?_
  exact .bind (n := 0) (k := 0) (sendCacheProposal_raises hx _) fun _ s₄ _ =>
    .bind_get (sendCacheVote_raises _)

theorem coreProcess_raises (hx : x.FromPeer) (m : CoreOutput) :
    Raises (load x) 0 (coreProcess E m) s := by
  have hcore : (Source.otherThan F x).core m := trivial
  cases m with
  | commit c =>
    have hcommit := handleCommit_moves (E := E) (s := s) hcore true
    refine .bind (n := 0) (k := 0) (raises_of_moves hx (Steps.still hcommit)) fun commit s₁ h₁ => ?_
    have hready := hcommit.ok h₁
    refine .bind (n := 0) (k := 0) (raises_of_moves hx (Steps.still
      (callCommit_moves hready.1 ⟨c, hcore, hready.2⟩))) fun r s₂ _ => ?_
    cases r with
    | error e => exact .throw _
    | ok rs => exact processStatus_raises hx rs
  | _ => exact raises_of_moves hx (coreProcess_moves hcore nofun)

/-- What a record of the log may add: replay caches a proposal of a coming height and hands it over
as well. -/
def recordWeight (E : Env F) (x : CoreInput) (record : UInt8 × Bytes) : ℕ :=
  if record.1 = LOG_TYPE_SIGNED_PROPOSAL then
    match decodeLogged E record.2 with
    | .ok (sp, _, _) => 2 * weigh x sp.toCore
    | .error _ => 0
  else if record.1 = LOG_TYPE_RAW_BYTES then
    match E.serde.signedVote.fromSlice record.2 with
    | some sv => weigh x sv.toCore
    | none => 0
  else 0

/-- What a turn may add. -/
def Input.weight (E : Env F) (x : CoreInput) : Input → ℕ
  | .external (.signedProposal bytes) =>
    match decodeProposal E bytes with
    | .ok (sp, _, _) => weigh x sp.toCore
    | .error _ => 0
  | .external (.signedVote bytes) =>
    match SignedVote.decode E.rlp bytes with
    | .ok sv => weigh x sv.toCore
    | .error _ => 0
  | _ => 0

theorem processSignedProposal_raises (hx : x.FromPeer) (bytes : Bytes) :
    Raises (load x) (Input.weight E x (.external (.signedProposal bytes)))
      (processSignedProposal E bytes) s := by
  unfold processSignedProposal receiveProposal Input.weight
  refine .bind_lift ?_
  rintro ⟨sp, block, hash⟩ hd
  simp only [hd]
  refine .bind_modify (k := weigh x sp.toCore) (Nat.le_refl _) (.bind_get (.ite (fun _ => ?_)
    fun _ => forwardProposal_raises hx sp bytes))
  refine Raises.mono (.bind (n := 0) (.doIf fun _ => ?_) fun _ s₁ _ => ?_) (Nat.zero_add _).le
  · have hsave : ∀ s : State F, Steps Aside (do
        rejectIf (isUtf8 bytes = false) (.serJsonErr "SignedProposal")
        let res ← walSave E sp.proposal.height LOG_TYPE_SIGNED_PROPOSAL bytes
        let _ ← orErr res fun _ => .saveWalErr "SignedProposal") (fun _ _ => True) s := fun _ =>
      .bind_rejectIf fun _ => .bind (walSave_moves _ _ _ ⟨rfl, rfl, rfl⟩) fun _ _ _ _ =>
        Steps.bind_orErr fun _ _ => .pure trivial
    exact .of_steps (hsave _) fun _ _ h => h.load_le
  · have hpush := waiting_pushProposal x s₁.eng sp.proposal.height (sp, block, bytes)
    exact (Nat.add_le_add_left hpush.le _).trans (Nat.add_assoc _ _ _).ge

theorem processSignedVote_raises (bytes : Bytes) :
    Raises (load x) (Input.weight E x (.external (.signedVote bytes)))
      (processSignedVote E bytes) s := by
  unfold processSignedVote Input.weight
  refine .bind_lift fun sv hd => ?_
  simp only [Exec.mapErr_eq_ok.1 hd]
  exact forwardVote_raises sv

/-- Replaying a record adds no more than its weight. -/
theorem loadRecord_raises (hx : x.FromPeer) (record : UInt8 × Bytes) :
    Raises (load x) (recordWeight E x record) (loadRecord E record) s := by
  obtain ⟨tag, msg⟩ := record
  have zero : ∀ {m : EngineM F PUnit} {n : ℕ}, Raises (load x) 0 m s → Raises (load x) n m s :=
    fun h => h.mono (Nat.zero_le _)
  unfold recordWeight
  refine .ite (fun h => ?_) fun hsp => .ite (fun h => ?_) fun _ => .ite (fun _ => ?_) fun _ =>
    .ite (fun _ => ?_) fun _ => .ite (fun _ => ?_) fun _ => .ite (fun _ => ?_) fun _ =>
    .ite (fun _ => ?_) fun _ => .ite (fun _ => ?_) fun _ => .pure _
  · rw [if_pos h]
    unfold loadSignedProposal replayProposal
    refine .bind_lift ?_
    rintro ⟨sp, block, hash⟩ hd
    simp only [hd]
    rw [Nat.two_mul]
    refine .bind_modify (Nat.le_refl _) (.bind_get (.bind (.doIf fun _ => ?_) fun _ s₁ _ =>
      forwardProposal_raises hx sp msg))
    have hpush := waiting_pushProposal x s.eng sp.proposal.height (sp, block, msg)
    exact (Nat.add_le_add_left hpush.le _).trans (Nat.add_assoc _ _ _).ge
  · rw [if_neg hsp, if_pos h]
    unfold loadSignedVote loadJson
    cases hj : E.serde.signedVote.fromSlice msg with
    | none => exact .throw _
    | some sv =>
      dsimp only
      refine Exec.wp_bind.2 (Exec.wp_ifOk ((handleSignedVote_loads sv false).mono ?_ fun _ _ h =>
        ⟨fun _ => h, fun _ => h⟩))
      rintro v s₁ ⟨hcore, hle⟩
      have hweigh : weigh x (.vote v) = weigh x sv.toCore := by rw [hcore]
      exact Exec.wp.mono (sendBft_raises (x := x) _ _) (fun _ _ h => by omega) fun _ _ h => by omega
  · exact zero (raises_of_advances hx (loadStatus_advances msg fun _ _ => trivial))
  · exact zero (raises_of_moves hx (Steps.bind_loadJson fun f _ => acceptFeed_moves f _))
  · exact zero (raises_of_moves hx (Steps.bind_loadJson fun vr _ => acceptVerdict_moves trivial _))
  · exact zero (raises_of_moves hx (loadProposal_moves msg fun _ _ => trivial))
  · exact zero (raises_of_moves hx (loadVote_moves msg fun _ _ => trivial))
  · exact zero (raises_of_moves hx (loadCommit_moves msg fun _ _ => trivial))

variable {address : Address} {disk : Disk} {is : List Input} {i : Input} {p p' : Process F}

/-- What the records may add that are still to be replayed. -/
def pendingWeight (E : Env F) (x : CoreInput) (p : Process F) : ℕ :=
  (p.pending.map (recordWeight E x)).sum

/-- **No turn adds more than it brings.** -/
theorem next_load (hx : x.FromPeer) (h : next E i p = some p') :
    load x p'.state + pendingWeight E x p' ≤
      load x p.state + pendingWeight E x p + i.weight E x := by
  by_cases hi : i = .replay
  · subst hi
    obtain ⟨record, records, hp, hsuffix, hs⟩ := pending_of_replayNext h
    have hle := (loadRecord_raises hx record).survive hs
    obtain ⟨taken, hrecords⟩ := hsuffix
    have hsum : pendingWeight E x p' ≤ (records.map (recordWeight E x)).sum := by
      unfold pendingWeight
      rw [← hrecords, List.map_append, List.sum_append]
      exact Nat.le_add_left _ _
    have hpending : pendingWeight E x p =
        recordWeight E x record + (records.map (recordWeight E x)).sum := by
      unfold pendingWeight
      rw [hp, List.map_cons, List.sum_cons]
    omega
  · obtain ⟨s, hidle, hs, rfl⟩ := live_of_next hi h
    have hraises : load x s ≤ load x p.state + i.weight E x := by
      cases i with
      | core m => exact (coreProcess_raises hx m).survive hs
      | external m =>
        cases m with
        | signedProposal bytes => exact (processSignedProposal_raises hx bytes).survive hs
        | signedVote bytes => exact (processSignedVote_raises bytes).survive hs
        | status rs => exact (processStatus_raises hx rs).survive hs
      | async =>
        obtain ⟨m, queue, -, hm⟩ := async_of_liveNext hs
        have hraises := raises_of_moves (s := { p.state with asyncQueue := queue }) hx
          (asyncProcess_moves (E := E) (m := m) fun _ _ => trivial)
        exact hraises.survive hm
      | replay => exact absurd rfl hi
    change load x s + 0 ≤ _
    omega

/-- **No message is multiplied**: a vote or a proposal of another node is handed to the BFT core,
and waits in the caches, no more often than it was received; a proposal of the log counts twice. -/
theorem handed_le (hx : x.FromPeer) (hl : Life E address disk is p) :
    ∃ p₀, boot E address disk = some p₀ ∧
      p.state.sentBft.count x + waiting x p.state.eng + pendingWeight E x p ≤
        pendingWeight E x p₀ + (is.map (Input.weight E x)).sum := by
  induction is using List.reverseRecOn generalizing p with
  | nil =>
    obtain ⟨p₀, hboot, hrun⟩ := hl
    obtain rfl := Option.some.inj hrun
    obtain ⟨heng, -, hcalls⟩ := boot_state hboot
    refine ⟨p₀, hboot, ?_⟩
    rw [heng]
    simp [State.sentBft, hcalls, waiting, HashMap.sumAll, Consensus.init]
  | append_singleton is i ih =>
    obtain ⟨p₁, p₂, hl₁, hn, hl₂⟩ := hl.split
    obtain rfl := hl₂.unique hl
    obtain ⟨p₀, hboot, hle⟩ := ih hl₁
    have hturn := next_load hx hn
    unfold load at hturn
    refine ⟨p₀, hboot, ?_⟩
    rw [List.map_append, List.sum_append, List.map_singleton, List.sum_singleton]
    omega

/-- A vote is received twice, before its height is reached and after. -/
def twiceRun : List Input :=
  Reference.readyRun [7] ++
    [.external (.signedVote (Reference.voteBytes .prevote 2 0 [5] [7])),
      .external (.status ⟨1, none, [Node.new [7]]⟩),
      .external (.signedVote (Reference.voteBytes .prevote 2 0 [5] [7]))]

/-- What the BFT core is handed of it. -/
def twiceVote : CoreInput := .vote ⟨.prevote, 2, 0, [5], [7]⟩

/-- It is handed over twice, and no more often. -/
theorem handed_le_twice : ∃ p : Process Block,
    Life (Reference.env [7]) [7] Reference.disk twiceRun p ∧
      p.state.sentBft.count twiceVote = 2 ∧ p.state.sentBft.count twiceVote ≤
        (twiceRun.map (Input.weight (Reference.env [7]) twiceVote)).sum := by
  obtain ⟨p, hl, hcount⟩ := Reference.exists_life (Reference.env [7]) [7] twiceRun
    (fun p => decide (p.state.sentBft.count twiceVote = 2)) (by decide +kernel)
  refine ⟨p, hl, of_decide_eq_true hcount, ?_⟩
  obtain ⟨p₀, hboot, hle⟩ := handed_le (x := twiceVote) trivial hl
  have hpending : pendingWeight (Reference.env [7]) twiceVote p₀ = 0 := by
    rw [pendingWeight, not_replay rfl hboot]
    rfl
  omega

end ConsensusBft

import ConsensusBft.Consensus.Move

/-!
# Every method moves along the atomic updates

One lemma for each method: whatever it does, on every exit, is a sequence of atomic updates, and
what it returns satisfies the guard that the next call needs.  Callers use these lemmas and never
look into the methods again.

* `handleSignedVote_moves`, `handleSignedProposal_moves` : what is returned is admitted.
* `handleProposal_moves`, `handleCommit_moves` : what is returned may be sent out.
-/

namespace ConsensusBft

open Exec (Steps rejectIf doIf lift)

variable {F : Type} {E : Env F} {S : Source F} {s s' : State F}
variable {R : State F → State F → Prop} {α β ε : Type}

/-! ### Computations that touch nothing -/

theorem Steps.bind_orErr {x : Except ε α} {g : ε → ConsensusError} {f : α → EngineM F β}
    {Q : β → State F → Prop} (h : ∀ a, x = .ok a → Steps R (f a) Q s) :
    Steps R (orErr x g >>= f) Q s := by
  cases x with
  | ok a => exact h a rfl
  | error e => exact Steps.throw

theorem Steps.bind_verifySignature {sig : Signature} {hash : Hash} {f : Address → EngineM F β}
    {Q : β → State F → Prop}
    (h : ∀ a, E.support.verifySignature sig hash = .ok a → Steps R (f a) Q s) :
    Steps R (verifySignature E sig hash >>= f) Q s :=
  Steps.bind_orErr h

theorem checkProposer_moves (height round : UInt64) (address : Address) :
    Steps R (checkProposer E height round address) (fun _ s' => s' = s ∧
      s.eng.authority.Proposes height round address ∧
        (E.overflowChecks = true → height.toNat + round.toNat < 2 ^ 64)) s := by
  unfold checkProposer
  refine .bind_get (.bind_rejectIf fun _ => .bind_lift fun nonce hnonce => .rejectIf fun hp => ?_)
  obtain rfl := add64_ok hnonce
  refine ⟨rfl, not_not.1 hp, ?_⟩
  intro hc
  unfold add64 at hnonce
  split_ifs at hnonce with hlt
  exact not_le.1 fun hle => hlt ⟨hc, hle⟩

theorem checkVoteSender_moves (height : UInt64) (sender : Address) :
    Steps R (checkVoteSender height sender)
      (fun _ s' => s' = s ∧ sender ∈ s.eng.authority.setAt height) s := by
  unfold checkVoteSender
  exact .bind_get (.rejectIf fun h => ⟨rfl, not_not.1 h⟩)

/-- Checking lock votes changes the stored votes at most. -/
theorem checkLockVotes_steps {sp : SignedProposal} {hash : Hash}
    (hR : ∀ (s : State F) votes, R s { s with eng.votes := votes }) :
    Steps R (checkLockVotes E sp hash) (fun _ _ => True) s := by
  unfold checkLockVotes
  dsimp only
  cases sp.proposal.lockRound with
  | none => exact .pure trivial
  | some round =>
    refine .bind (P := fun _ _ => True) (.foldlM (fun set sv _ s _ => ?_) trivial)
      fun _ _ _ _ => .bind_get (.rejectIf fun _ => trivial)
    refine .bind (P := fun _ _ => True) ?_ fun _ _ _ _ => .bind_rejectIf fun _ => .pure trivial
    unfold checkSignedVote
    refine .bind_get (.bind_lift fun _ _ => .bind_rejectIf fun _ => .bind_rejectIf fun _ =>
      .bind_rejectIf fun _ => Steps.bind_verifySignature fun _ _ => .bind_rejectIf fun _ => ?_)
    exact .bind_modify (hR s _) (.pure trivial)

/-- The heights that pass the two height checks for votes. -/
theorem height_of_window {h H : UInt64} (hlo : ¬ h < H - 1) (hhi : ¬ H < h) :
    (h = H ∨ h = H - 1) ∧ H ≠ 0 := by
  grind

variable [Content F]

/-! ### Log, calls and verdicts -/

omit [Content F] in
/-- Saving a record touches the log and the disk only. -/
theorem walSave_moves (height : UInt64) (tag : UInt8) (msg : Bytes)
    (hR : R s (s.setWal (Exec.result (Wal.save E.io E.overflowChecks height tag msg)
      s.walState).2)) :
    Steps R (walSave E height tag msg) (fun _ s' => ∃ w, s' = s.setWal w) s :=
  .zoomTry hR fun _ _ => ⟨_, rfl⟩

omit [Content F] in
theorem saveJson_moves (height : UInt64) (tag : UInt8) (name : String) (json : Option Bytes)
    (hR : ∀ msg, json = some msg → R s (s.setWal (Exec.result
      (Wal.save E.io E.overflowChecks height tag msg) s.walState).2)) :
    Steps R (saveJson E height tag name json) (fun _ s' => ∃ w, s' = s.setWal w) s := by
  unfold saveJson
  cases json with
  | none => exact .throw
  | some msg =>
    refine .bind (walSave_moves height tag msg (hR msg rfl)) ?_
    intro _ _ _ hw
    exact Steps.bind_orErr fun _ _ => .pure hw

omit [Content F] in
/-- However saving a record ends, it touched the log and the disk only. -/
theorem saveJson_leaves (height : UInt64) (tag : UInt8) (name : String) (json : Option Bytes)
    (s : State F) : Exec.wp (saveJson E height tag name json) (fun _ s' => ∃ w, s' = s.setWal w)
      (fun _ s' => ∃ w, s' = s.setWal w) s := by
  unfold saveJson
  cases json with
  | none => exact ⟨s.walState, rfl⟩
  | some msg =>
    refine Exec.wp_bind.2 (Exec.wp_zoomTry ?_ ?_ ?_)
    · exact fun n w _ => ⟨w, rfl⟩
    · exact fun e w _ => ⟨w, rfl⟩
    · exact fun w _ => ⟨w, rfl⟩

omit [Content F] in
/-- Logging a message, or not. -/
theorem logIf_moves {c : Prop} [Decidable c] {height : UInt64} {tag : UInt8} {name : String}
    {json : Option Bytes} (hR : c → ∀ msg, json = some msg → R s (s.setWal (Exec.result
      (Wal.save E.io E.overflowChecks height tag msg) s.walState).2)) :
    Steps R (doIf c (saveJson E height tag name json)) (fun _ s' => ∃ w, s' = s.setWal w) s :=
  .doIf (fun hc => saveJson_moves height tag name json (hR hc)) fun _ => ⟨s.walState, rfl⟩

/-- Logging a message that was brought into the engine. -/
theorem logged_moves {c : Prop} [Decidable c] {name : String} {json : Option Bytes}
    (m : LogMessage F) (on : c → E.walOn = true) (given : m.Given S)
    (text : ∀ msg, json = some msg → m.Text E msg) :
    Steps (Still E S) (doIf c (saveJson E (m.height s.eng) m.tag name json))
      (fun _ s' => ∃ w, s' = s.setWal w) s :=
  logIf_moves fun hc msg hm => ⟨.save s m msg (on hc) given (text msg hm), rfl, rfl⟩

omit [Content F] in
/-- Sending a message records the call, and succeeds if the message is delivered. -/
theorem result_sendBft (s : State F) (msg : CoreInput) (name : String) :
    Exec.result (sendBft E msg name) s =
      (if E.delivers s.calls.length then .ok ⟨⟩ else .error (.err (.sendMsgErr name)),
        s.record (.bft msg (E.delivers s.calls.length))) := by
  unfold sendBft
  rw [Exec.result_bind_get, Exec.result_bind_modify]
  cases hd : E.delivers s.calls.length with
  | true => rfl
  | false => rfl

omit [Content F] in
/-- Sending a message records the call, and nothing else. -/
theorem sendBft_records {msg : CoreInput} {name : String}
    (hR : R s (s.record (.bft msg (E.delivers s.calls.length)))) :
    Steps R (sendBft E msg name)
      (fun _ s' => s' = s.record (.bft msg (E.delivers s.calls.length))) s := by
  unfold sendBft
  exact .bind_get (.bind_modify hR (.rejectIf fun _ => rfl))

theorem sendBft_moves {msg : CoreInput} {name : String}
    (h : Permitted E S.toSupply s (.bft msg (E.delivers s.calls.length)))
    (hf : Founded S s (.bft msg (E.delivers s.calls.length))) :
    Steps (Still E S) (sendBft E msg name) (fun _ _ => True) s :=
  (sendBft_records ⟨.call _ _ h hf, rfl, rfl⟩).mono fun _ _ _ _ => trivial

/-- A send that succeeds was delivered. -/
theorem sendBft_delivered {msg : CoreInput} {name : String}
    (h : Permitted E S.toSupply s (.bft msg (E.delivers s.calls.length)))
    (hf : Founded S s (.bft msg (E.delivers s.calls.length))) :
    Steps (Still E S) (sendBft E msg name) (fun _ s' => s' = s.record (.bft msg true)) s := by
  unfold sendBft
  refine .bind_get (.bind_modify ⟨.call _ _ h hf, rfl, rfl⟩ (.rejectIf fun hd => ?_))
  rw [Bool.not_eq_false] at hd
  rw [hd]

theorem callTransmit_moves {msg : ConsensusOutput F}
    (h : Permitted E S.toSupply s (.transmit msg (E.support.transmit s.calls.length msg))) :
    Steps (Still E S) (callTransmit E msg) (fun _ _ => True) s := by
  unfold callTransmit
  exact .bind_get (.bind_modify ⟨.call _ _ h trivial, rfl, rfl⟩ (.pure trivial))

omit [Content F] in
/-- Handing a commit over records the answer of the application. -/
theorem result_callCommit (commit : Commit F) (s : State F) :
    Exec.result (callCommit E commit) s = (.ok (E.support.commit s.calls.length commit),
      s.record (.commit commit (E.support.commit s.calls.length commit))) := by
  unfold callCommit
  rw [Exec.result_bind_get, Exec.result_bind_modify]
  rfl

theorem callCommit_moves {c : Commit F} (h : CommitReady s.eng c)
    (hf : Founded S s (.commit c (E.support.commit s.calls.length c))) :
    Steps (Still E S) (callCommit E c) (fun r _ => r = E.support.commit s.calls.length c) s := by
  unfold callCommit
  exact .bind_get (.bind_modify ⟨.call _ _ ⟨rfl, h⟩ hf, rfl, rfl⟩ (.pure rfl))

theorem callSign_moves (hash : Hash) :
    Steps (Still E S) (callSign E hash) (fun r _ => ∃ n, r = E.support.sign n hash) s := by
  unfold callSign
  exact .bind_get (.bind_modify ⟨.call _ _ trivial trivial, rfl, rfl⟩ (.pure ⟨_, rfl⟩))

theorem checkProposal_moves {hash : Hash} {block : F}
    (h : s.eng.blockOriginCache.lookup hash = some block) (bytes : Bytes) (isLock isBySelf : Bool) :
    Steps (Still E S) (checkProposal E hash block bytes isLock isBySelf) (fun _ _ => True) s := by
  unfold checkProposal
  refine .bind_get (.modify ?_ trivial)
  exact ⟨.check s hash block bytes isLock isBySelf h, rfl, rfl⟩

theorem askForProposal_moves (height : UInt64) :
    Steps (Still E S) (askForProposal E height) (fun _ _ => True) s := by
  unfold askForProposal
  refine .bind_get (.bind_modify ⟨.call _ _ trivial trivial, rfl, rfl⟩ ?_)
  cases hres : E.support.getContent s.calls.length height with
  | ok content =>
    exact .modify ⟨.enqueueFeed _ s.calls.length ⟨height, content⟩ hres, rfl, rfl⟩ trivial
  | error e => exact .pure trivial

/-- A verdict that is known at once is the one that is kept. -/
theorem verdictOf_moves (hash : Hash) (bytes : Bytes) (isLock : Bool) :
    Steps (Still E S) (verdictOf E hash bytes isLock) (fun resp s' => ∀ vr, resp = some vr →
      vr.proposal = hash ∧ s'.eng.verifiedBlock.lookup hash = some vr.isPass) s := by
  unfold verdictOf
  refine .bind_get ?_
  cases hv : s.eng.verifiedBlock.lookup hash with
  | some isPass =>
    refine .pure ?_
    rintro vr ⟨⟩
    exact ⟨rfl, hv⟩
  | none =>
    cases hb : s.eng.blockOriginCache.lookup hash with
    | some content =>
      exact .bind (checkProposal_moves hb bytes isLock false) fun _ _ _ _ => .pure (by simp)
    | none => exact .throw

/-! ### Signed proposals and votes -/

theorem checkSignedVote_moves {sp : SignedProposal} {round : UInt64} {sv : SignedVote}
    (hK : S.proposal sp) (hsp : sp.Genuine E) (hlock : sp.proposal.lockRound = some round)
    (hmem : sv ∈ sp.proposal.lockVotes) :
    Steps (Still E S) (checkSignedVote E sp.proposal.height round sp.proposal.hash sv)
      (fun _ _ => True) s := by
  unfold checkSignedVote
  refine .bind_get (.bind_lift fun _ _ => .bind_rejectIf fun _ => .bind_rejectIf fun _ =>
    .bind_rejectIf fun _ => Steps.bind_verifySignature fun a ha => .bind_rejectIf fun hne => ?_)
  obtain rfl : a = sv.vote.voter := not_not.1 hne
  exact .bind_modify ⟨.addVote s _ _ _ _ _ (.lock hK hsp hlock hmem ha), rfl, rfl⟩
    (.pure trivial)

theorem checkLockVotes_moves {sp : SignedProposal} (hK : S.proposal sp) (hsp : sp.Genuine E) :
    Steps (Still E S) (checkLockVotes E sp sp.proposal.hash) (fun _ _ => True) s := by
  unfold checkLockVotes
  dsimp only
  cases hlock : sp.proposal.lockRound with
  | none => exact .pure trivial
  | some round =>
    refine .bind (P := fun _ _ => True) (.foldlM (fun set sv hmem s _ => ?_) trivial)
      fun _ _ _ _ => .bind_get (.rejectIf fun _ => trivial)
    exact .bind (checkSignedVote_moves hK hsp hlock hmem) fun _ _ _ _ =>
      .bind_rejectIf fun _ => .pure trivial

theorem checkProofOf_moves (height : UInt64) (proof : Proof) :
    Steps (Still E S) (checkProofOf E height proof) (fun _ _ => height = s.eng.height) s := by
  unfold checkProofOf
  refine .bind_get (.bind_rejectIf fun hne => .bind_lift fun prev hprev =>
    .bind_rejectIf fun hv => ?_)
  obtain rfl : height = s.eng.height := not_not.1 hne
  obtain ⟨rfl, hzero⟩ := sub64_ok hprev
  refine .doIf (fun hstale => .modify ⟨.setProof s proof (.adopted ?_ ?_ hstale), rfl, rfl⟩ rfl)
    fun _ => rfl
  · intro hc h0
    have := hzero hc
    grind
  · simpa using hv

/-- Where the verdict that comes with a proposal is from: it is the kept one, or the proposal is
for the previous height. -/
def Answered (eng : Consensus F) (p : BftProposal) (resp : Option VerifyResp) : Prop :=
  ∀ vr, resp = some vr → vr.proposal = p.content ∧
    (eng.verifiedBlock.lookup vr.proposal = some vr.isPass ∨
      vr.isPass = true ∧ p.height = eng.height - 1)

/-- **A signed proposal that is accepted may be handed to the BFT core.** -/
theorem handleSignedProposal_moves {sp : SignedProposal} (hK : S.proposal sp) (needWal : Bool)
    (bytes : Bytes) :
    Steps (Still E S) (handleSignedProposal E sp needWal bytes)
      (fun r s' => ProposalAdmitted E S.toSupply s'.eng r.1 ∧ Answered s'.eng r.1 r.2) s := by
  unfold handleSignedProposal
  refine Steps.bind_verifySignature fun a ha => .bind_rejectIf fun hne => .bind_get
    (.bind_lift fun prev hprev => .bind_rejectIf fun _ => ?_)
  obtain rfl : a = sp.proposal.proposer := (not_not.1 hne).symm
  obtain ⟨rfl, hzero⟩ := sub64_ok hprev
  refine .bind (logged_moves (.bareProposal sp) (by simp_all) hK fun _ hm => hm) fun _ s₁ h₁ _ =>
    .bind_modify ⟨.addProposal s₁ _ _ _, rfl, rfl⟩ ?_
  have hh₁ : s₁.eng.height = s.eng.height := Stills.height_eq h₁
  refine .bind (checkProposer_moves ..) ?_
  rintro _ s₂ _ ⟨hs₂, hproposer, hsum⟩
  subst hs₂
  refine .bind (checkLockVotes_moves hK ha) ?_
  intro _ s₃ h₃ _
  have hA₃ := Stills.authority_eq h₃
  -- what was checked so far holds of every later state of the same view
  have key : ∀ s₄, Stills E S s₃ s₄ →
      (sp.proposal.height = s.eng.height ∨ sp.proposal.height = s.eng.height - 1) →
      ProposalAdmitted E S.toSupply s₄.eng (sp.proposal.toBftProposal sp.proposal.hash) := by
    intro s₄ h₄ hheight
    have hh : s₄.eng.height = s.eng.height :=
      ((Stills.height_eq h₄).trans (Stills.height_eq h₃)).trans hh₁
    have hA : s₄.eng.authority = s₁.eng.authority := (Stills.authority_eq h₄).trans hA₃
    refine ⟨sp, hK, rfl, ha, by rw [hh]; exact hheight, fun hc => ?_, by rw [hA]; exact hproposer,
      hsum⟩
    rw [hh]
    have := hzero hc
    grind
  refine .ite (fun heq => .pure ⟨key s₃ .refl (Or.inr heq), ?_⟩) ?_
  · rintro vr ⟨⟩
    refine ⟨rfl, Or.inr ⟨rfl, heq.trans ?_⟩⟩
    rw [(Stills.height_eq h₃).trans hh₁]
  intro _
  refine .bind (verdictOf_moves ..) ?_
  intro resp s₄ h₄ hresp
  refine .bind (checkProofOf_moves ..) fun _ s₅ h₅ heq =>
    .pure ⟨key s₅ (h₄.trans h₅) (Or.inl ?_), ?_⟩
  · exact heq.trans (((Stills.height_eq h₄).trans (Stills.height_eq h₃)).trans hh₁)
  · intro vr hvr
    obtain ⟨hhash, hlookup⟩ := hresp vr hvr
    refine ⟨hhash, Or.inl ?_⟩
    rw [Stills.verdicts_eq h₅, hhash]
    exact hlookup

/-- **A signed vote that is accepted may be handed to the BFT core.** -/
theorem handleSignedVote_moves {sv : SignedVote} (hK : S.vote sv) (needWal : Bool) :
    Steps (Still E S) (handleSignedVote E sv needWal)
      (fun v s' => VoteAdmitted E S.toSupply s'.eng v) s := by
  unfold handleSignedVote
  refine Steps.bind_verifySignature fun a ha => .bind_get (.bind_lift fun prev hprev =>
    .bind_rejectIf fun hlo => .bind_rejectIf fun hne => ?_)
  obtain rfl : a = sv.vote.voter := (not_not.1 hne).symm
  obtain ⟨rfl, -⟩ := sub64_ok hprev
  -- a vote of a later height is cached, and does not get past this point
  have hfuture : Steps (Still E S)
      (doIf (s.eng.height ≤ sv.vote.height) do
        doIf (E.walOn && decide ((sv.vote.height - s.eng.height).toNat < CACHE_NUMBER) && needWal)
          (saveJson E sv.vote.height LOG_TYPE_RAW_BYTES "SignedVote"
            (E.serde.signedVote.toString sv))
        doIf (s.eng.height < sv.vote.height) do
          modify fun s =>
            { s with eng.voteCache := s.eng.voteCache.pushEntry sv.vote.height sv }
          throw (.err .futureMsg))
      (fun _ _ => ¬ s.eng.height < sv.vote.height) s := by
    refine .doIf (fun _ => ?_) fun hlt hgt => hlt (UInt64.le_of_lt hgt)
    refine .bind (logged_moves (.signedVote sv) (by simp_all) hK fun _ hm => hm) fun _ s₁ h₁ _ =>
      .doIf (fun hgt => ?_) id
    have hahead : s₁.eng.height < sv.vote.height := by
      rw [Stills.height_eq h₁]
      exact hgt
    exact .bind_modify ⟨.cacheVote s₁ sv hK ha hahead, rfl, rfl⟩
      .throw
  refine .bind hfuture ?_
  intro _ s₁ h₁ hhi
  obtain ⟨hheight, hzero⟩ := height_of_window hlo hhi
  have hle : sv.vote.height ≤ s₁.eng.height := by
    rw [Stills.height_eq h₁]
    exact UInt64.not_lt.1 hhi
  refine .bind_modify ⟨.addVote s₁ _ _ _ _ _ (.network hK ha hle), rfl, rfl⟩ ?_
  refine .bind (checkVoteSender_moves ..) fun _ s₂ _ ⟨hs₂, hsender⟩ => .pure ?_
  subst hs₂
  have hh : s₁.eng.height = s.eng.height := Stills.height_eq h₁
  exact ⟨sv, hK, rfl, ha, by rw [hh]; exact hheight, by rw [hh]; exact hzero, hsender⟩

theorem sendProposal_moves {p : BftProposal} {resp : Option VerifyResp}
    (h : ProposalAdmitted E S.toSupply s.eng p) (hresp : Answered s.eng p resp) :
    Steps (Still E S) (sendProposal E p resp) (fun _ _ => True) s := by
  unfold sendProposal
  refine .bind (sendBft_delivered ⟨rfl, h⟩ trivial) ?_
  rintro _ s' _ rfl
  cases resp with
  | some vr =>
    refine sendBft_moves ⟨rfl, trivial⟩ ?_
    obtain ⟨hhash, hkept | ⟨hpass, hprev⟩⟩ := hresp vr rfl
    · exact .kept hkept
    · obtain ⟨isPass, hash⟩ := vr
      obtain rfl := hpass
      exact .previous ⟨s.eng, s.disk, p, by simp [State.record], hhash.symm, hprev⟩
  | none => exact .pure trivial

theorem forwardProposal_moves {sp : SignedProposal} (hK : S.proposal sp) (bytes : Bytes) :
    Steps (Still E S) (forwardProposal E sp bytes) (fun _ _ => True) s :=
  .bind (handleSignedProposal_moves hK true bytes) fun _ _ _ hr => sendProposal_moves hr.1 hr.2

theorem forwardVote_moves {sv : SignedVote} (hK : S.vote sv) :
    Steps (Still E S) (forwardVote E sv) (fun _ _ => True) s :=
  .bind (handleSignedVote_moves hK true) fun _ _ _ hv => sendBft_moves ⟨rfl, hv⟩ trivial

/-! ### New heights -/

/-- A computation that leaves the cached blocks alone is a computation of moves. -/
theorem Steps.still {m : EngineM F α} {Q : α → State F → Prop} (h : Steps (Still E S) m Q s) :
    Steps (Move E S) m Q s :=
  h.weaken fun _ _ => Still.move

/-- A computation of moves advances the engine. -/
theorem Steps.advance {m : EngineM F α} {Q : α → State F → Prop} (h : Steps (Move E S) m Q s) :
    Steps (Advance E S) m Q s :=
  h.weaken fun _ _ => .move

theorem gotoNewHeight_moves {K : Supply F} (height : UInt64) :
    Steps (Update E K) (gotoNewHeight E height) (fun _ _ => True) s := by
  unfold gotoNewHeight
  refine .bind_modify (.clear s) (.bind_lift fun new _ => ?_)
  refine .bind_modify (.setHeight _ new rfl rfl) ?_
  exact .bind (P := fun _ _ => True) (.zoomTry (.log _ _) fun _ _ => trivial) fun _ _ _ _ =>
    Steps.bind_orErr fun _ _ => .pure trivial

theorem handleRichStatus_moves {K : Supply F} (rs : Status) (needWal : Bool) :
    Steps (Update E K) (handleRichStatus E rs needWal) (fun _ _ => True) s := by
  unfold handleRichStatus
  refine .bind_get (.bind_rejectIf fun _ => ?_)
  refine .bind (logIf_moves fun _ _ _ => .log s _) fun _ s₁ _ _ =>
    .bind_modify (.setAuthority s₁ _) ?_
  exact .bind (gotoNewHeight_moves rs.height) fun _ _ _ _ => .pure trivial

/-- A status advances the engine as a whole. -/
theorem handleRichStatus_advances {rs : Status} (hS : S.status rs) (needWal : Bool) :
    Steps (Advance E S) (handleRichStatus E rs needWal) (fun _ _ => True) s :=
  .whole (.status rs needWal hS) fun _ _ => trivial

/-- What the engine advances by is a sequence of atomic updates. -/
theorem Advance.updates (h : Advance E S s s') : Updates E S.toSupply s s' := by
  cases h with
  | move h => exact .single h.update
  | status rs needWal _ => exact (handleRichStatus_moves rs needWal).reach

theorem Advances.updates (h : Advances E S s s') : Updates E S.toSupply s s' := by
  induction h with
  | refl => exact .refl
  | tail _ ha ih => exact ih.trans ha.updates

theorem Advances.cached (h : Advances E S s s') (hc : Cached E S.toSupply s.eng) :
    Cached E S.toSupply s'.eng :=
  Updates.cached h.updates hc

/-- Moves advance the engine. -/
theorem Moves.advances (h : Moves E S s s') : Advances E S s s' :=
  Relation.ReflTransGen.mono (fun _ _ => .move) _ _ h

theorem sendCacheProposal_moves {height : UInt64}
    (hc : ∀ l e, s.eng.proposalCache.lookup height = some l → e ∈ l → S.proposal e.1) :
    Steps (Move E S) (sendCacheProposal E height) (fun _ _ => True) s := by
  unfold sendCacheProposal
  refine .bind_get ?_
  cases hl : s.eng.proposalCache.lookup height with
  | none => exact .pure trivial
  | some proposals =>
    refine .bind_modify (.takeProposals s height) (.forM (fun e he s _ => ?_) trivial)
    exact Steps.still (forwardProposal_moves (hc _ e hl he) _)

theorem sendCacheVote_moves {height : UInt64}
    (hc : ∀ l sv, s.eng.voteCache.lookup height = some l → sv ∈ l → S.vote sv) :
    Steps (Move E S) (sendCacheVote E height) (fun _ _ => True) s := by
  unfold sendCacheVote
  refine .bind_get ?_
  cases hl : s.eng.voteCache.lookup height with
  | none => exact .pure trivial
  | some votes =>
    refine .bind_modify (.takeVotes s height) (.forM (fun sv hsv s _ => ?_) trivial)
    exact Steps.still (forwardVote_moves (hc _ sv hl hsv))

theorem switchPower_moves (rs : Status) :
    Steps (Move E S) (switchPower E rs) (fun _ _ => True) s := by
  unfold switchPower
  refine .bind_get (.ite (fun _ => .ite (fun _ => ?_) fun _ => .pure trivial) fun _ =>
    .ite (fun _ => ?_) fun _ => .pure trivial)
  · exact .bind_modify (.power s true) (Steps.still (sendBft_moves ⟨rfl, trivial⟩ trivial))
  · exact .bind_modify (.power s false) (Steps.still (sendBft_moves ⟨rfl, trivial⟩ trivial))

/-- What `external_process` does with a status once the height has moved. -/
def afterStatus (E : Env F) (rs : Status) (status : BftStatus) : EngineM F PUnit := do
  switchPower E rs
  sendBft E (.status status) "BftStatus"
  let s ← get
  sendCacheProposal E s.eng.height
  let s ← get
  sendCacheVote E s.eng.height

omit [Content F] in
theorem processStatus_eq (rs : Status) :
    processStatus E rs = handleRichStatus E rs true >>= afterStatus E rs := rfl

/-- **What follows a new height is a sequence of moves.** -/
theorem afterStatus_moves (hc : Cached E S.toSupply s.eng) (rs : Status) (status : BftStatus) :
    Steps (Move E S) (afterStatus E rs status) (fun _ _ => True) s := by
  unfold afterStatus
  refine .bind (switchPower_moves rs) ?_
  intro _ s₁ h₁ _
  refine .bind (Steps.still (sendBft_moves ⟨rfl, trivial⟩ trivial)) fun _ s₂ h₂ _ => .bind_get ?_
  have hc₂ : Cached E S.toSupply s₂.eng := Advances.cached (Moves.advances (h₁.trans h₂)) hc
  refine .bind (sendCacheProposal_moves fun l e hl he => (hc₂.proposal _ l e hl he).1)
    fun _ s₃ h₃ _ => .bind_get ?_
  exact sendCacheVote_moves fun l sv hl hsv =>
    ((Advances.cached (Moves.advances h₃) hc₂).vote _ l sv hl hsv).1

theorem processStatus_advances (hc : Cached E S.toSupply s.eng) {rs : Status}
    (hS : S.status rs) :
    Steps (Advance E S) (processStatus E rs) (fun _ _ => True) s := by
  rw [processStatus_eq]
  refine .bind (handleRichStatus_advances hS true) ?_
  intro status s₁ h₁ _
  exact Steps.advance (afterStatus_moves (Advances.cached h₁ hc) rs status)

/-! ### Messages from outside -/

/-- Caching a block under a hash: nothing happens if the hash has one. -/
theorem cacheBlock_moves {hash : Hash} {block : F} {Q : β → State F → Prop}
    {f : PUnit → EngineM F β}
    (source : s.eng.blockOriginCache.lookup hash = none →
      S.block hash block ∨ hash = Content.hash block)
    (h : Steps (Move E S) (f ⟨⟩) Q
      { s with eng.blockOriginCache := s.eng.blockOriginCache.orInsert hash block }) :
    Steps (Move E S) ((modify fun s : State F =>
      { s with eng.blockOriginCache := s.eng.blockOriginCache.orInsert hash block }) >>= f) Q
      s := by
  cases hl : s.eng.blockOriginCache.lookup hash with
  | none => exact .bind_modify (.cacheBlock s hash block hl (source hl)) h
  | some block' =>
    have heq : s.eng.blockOriginCache.orInsert hash block = s.eng.blockOriginCache :=
      HashMap.orInsert_of_some hl
    rw [heq] at h
    exact .bind_modify_self (by rw [heq]) h

theorem receiveProposal_moves {sp : SignedProposal} (hK : S.proposal sp) {block : F} {hash : Hash}
    {bytes : Bytes} (hd : decodeProposal E bytes = .ok (sp, block, hash)) :
    Steps (Still E S) (receiveProposal E sp block bytes) (fun _ _ => True) s := by
  unfold receiveProposal
  refine .bind_get (.ite (fun hw => ?_) fun _ => ?_)
  · refine .bind (.doIf (Q := fun _ _ => True) (fun hon => .bind_rejectIf fun hutf8 => ?_)
      fun _ => trivial) fun _ s₁ h₁ _ => ?_
    · have text : (LogMessage.signedProposal sp block hash).Text E bytes :=
        ⟨hd, by simpa using hutf8⟩
      exact .bind (walSave_moves _ _ _ ⟨.save s (.signedProposal sp block hash) bytes hon hK text,
        rfl, rfl⟩) fun _ _ _ _ => Steps.bind_orErr fun _ _ => .pure trivial
    have hh₁ := Stills.height_eq h₁
    exact .modify ⟨.cacheProposal s₁ sp block bytes hK (by rw [hh₁]; exact hw), rfl, rfl⟩
      trivial
  · exact forwardProposal_moves hK bytes

theorem processSignedProposal_moves (bytes : Bytes)
    (hs : ∀ sp block hash, decodeProposal E bytes = .ok (sp, block, hash) →
      S.proposal sp ∧ (s.eng.blockOriginCache.lookup hash = none → S.block hash block)) :
    Steps (Move E S) (processSignedProposal E bytes) (fun _ _ => True) s := by
  unfold processSignedProposal
  refine .bind_lift ?_
  rintro ⟨sp, block, hash⟩ hd
  obtain ⟨hK, hb⟩ := hs sp block hash hd
  exact cacheBlock_moves (fun hl => Or.inl (hb hl))
    (Steps.still (receiveProposal_moves hK hd))

theorem processSignedVote_moves (bytes : Bytes)
    (hs : ∀ sv, SignedVote.decode E.rlp bytes = .ok sv → S.vote sv) :
    Steps (Move E S) (processSignedVote E bytes) (fun _ _ => True) s := by
  unfold processSignedVote
  refine .bind_lift ?_
  intro sv hd
  exact Steps.still (forwardVote_moves (hs sv (Exec.mapErr_eq_ok.1 hd)))

/-! ### Messages of the BFT core -/

theorem VoteSet.signed_eq_ok {vs : VoteSet} {v : BftVote} {sv : SignedVote} :
    vs.signed v = .ok sv ↔ vs.votePair.lookup v = some sv := by
  unfold VoteSet.signed
  cases vs.votePair.lookup v <;> simp

omit [Content F] in
theorem result_getVoteSet (height round : UInt64) (voteType : VoteType) (s : State F) :
    Exec.result (getVoteSet height round voteType) s =
      (.ok (s.eng.votes.voteSet height round voteType),
        { s with eng.votes := (s.eng.votes.getVoteSet height round voteType).2 }) := by
  simp only [getVoteSet, Exec.result_bind_get, Exec.result_bind_modify, Exec.result_pure,
    VoteCollector.getVoteSet_fst]

theorem getVoteSet_moves {height round : UInt64} {voteType : VoteType}
    (h : Consulted S.toSupply height round voteType) :
    Steps (Still E S) (getVoteSet height round voteType) (fun _ _ => True) s := by
  unfold getVoteSet
  exact .bind_get (.bind_modify ⟨.readVotes s _ _ _ h, rfl, rfl⟩ (.pure trivial))

theorem collectLockVotes_moves {p : BftProposal} (hK : S.core (.proposal p)) :
    Steps (Still E S) (collectLockVotes p) (fun _ _ => True) s := by
  unfold collectLockVotes
  refine .ite (fun hl => .bind (getVoteSet_moves (.proposal hK hl)) fun voteSet _ _ _ => ?_)
    fun _ => .pure trivial
  cases voteSet with
  | none => exact .throw
  | some voteSet => exact .lift fun _ _ => trivial

theorem proofFor_moves (hash : Hash) : Steps (Still E S) (proofFor hash) (fun _ _ => True) s := by
  unfold proofFor
  refine .bind_get (.ite (fun _ => .pure trivial) fun _ => ?_)
  cases s.eng.proof with
  | some proof => exact .pure trivial
  | none => exact .throw

theorem buildSignedProposal_moves {p : BftProposal} (hK : S.core (.proposal p)) :
    Steps (Still E S) (buildSignedProposal E p)
      (fun sp _ => sp.proposal.hash = p.content ∧ sp.proposal.height = p.height) s := by
  unfold buildSignedProposal
  refine .bind_get (.bind_rejectIf fun _ => ?_)
  refine .bind (collectLockVotes_moves hK) ?_
  intro lockVotes _ _ _
  refine .bind (proofFor_moves p.content) ?_
  intro proof _ _ _
  exact .bind (callSign_moves _) fun _ _ _ _ => Steps.bind_orErr fun _ _ => .pure ⟨rfl, rfl⟩

/-- **What the engine proposes may be transmitted.** -/
theorem handleProposal_moves {p : BftProposal} (hK : S.core (.proposal p)) (needWal : Bool) :
    Steps (Still E S) (handleProposal E p needWal) (fun bytes s' => ProposalReady s'.eng bytes)
      s := by
  unfold handleProposal
  refine .bind_get (.bind_rejectIf fun hne => ?_)
  refine .bind (logged_moves (.bftProposal p) (by simp_all) hK fun _ hm => hm) ?_
  intro _ s₁ h₁ _
  refine .bind (buildSignedProposal_moves hK) ?_
  rintro sp s₂ h₂ ⟨hhash, hheight⟩
  refine .bind_modify ⟨.addProposal s₂ _ _ _, rfl, rfl⟩ (.bind_get ?_)
  have hh₂ : s₂.eng.height = s.eng.height :=
    (Stills.height_eq h₂).trans (Stills.height_eq h₁)
  dsimp only
  cases hl : s₂.eng.blockOriginCache.lookup p.content with
  | none => exact .throw
  | some content =>
    refine Steps.bind_orErr ?_
    intro encoded henc
    refine .bind (checkProposal_moves ?_ _ _ _) fun _ s₃ h₃ _ => .pure ?_
    · exact hl
    have hh₃ := Stills.height_eq h₃
    have hb₃ := Stills.blocks_eq h₃
    refine ⟨sp, content, encoded, by rw [hh₃, hhash], by rw [hb₃, hhash]; exact hl, henc, ?_⟩
    rw [hheight, hh₃]
    exact (not_not.1 hne).trans hh₂.symm

theorem handleVote_moves {v : BftVote} (hK : S.core (.vote v)) (needWal : Bool) :
    Steps (Still E S) (handleVote E v needWal) (fun _ _ => True) s := by
  unfold handleVote
  refine .bind_get (.bind_rejectIf fun _ => ?_)
  refine .bind (logged_moves (.bftVote v) (by simp_all) hK fun _ hm => hm) ?_
  intro _ s₁ _ _
  refine .bind (callSign_moves _) fun r s₂ _ ⟨n, hr⟩ => Steps.bind_orErr fun sig hsig => ?_
  exact .bind_modify ⟨.addVote s₂ _ _ _ _ _ (.own hK (hr.symm.trans hsig)), rfl, rfl⟩
    (.pure trivial)

theorem generateProof_moves {c : BftCommit} (hK : S.core (.commit c)) :
    Steps (Still E S) (generateProof c.height c.round c.proposal c.lockVotes)
      (fun proof _ => proof.height = c.height ∧ proof.blockHash = c.proposal) s := by
  unfold generateProof
  refine .bind (getVoteSet_moves (.commit hK)) ?_
  intro voteSet _ _ _
  cases voteSet with
  | none => exact .throw
  | some voteSet => exact .bind_lift fun _ _ => .pure ⟨rfl, rfl⟩

/-- **What the engine commits may be handed to the application.** -/
theorem handleCommit_moves {c : BftCommit} (hK : S.core (.commit c)) (needWal : Bool) :
    Steps (Still E S) (handleCommit E c needWal) (fun commit s' => CommitReady s'.eng commit ∧
      commit.height = c.height ∧ commit.address = c.address) s := by
  unfold handleCommit
  refine .bind_get (.bind_rejectIf fun hge => ?_)
  refine .bind (logged_moves (.bftCommit c) (by simp_all) hK fun _ hm => hm) fun _ s₁ h₁ _ =>
    .bind_get ?_
  have hh₁ := Stills.height_eq h₁
  dsimp only
  cases hl : s₁.eng.blockOriginCache.lookup c.proposal with
  | none => exact .throw
  | some block =>
    refine .bind (generateProof_moves hK) ?_
    rintro proof s₂ h₂ ⟨hheight, hhash⟩
    have hle : s₂.eng.height ≤ c.height := by
      rw [Stills.height_eq h₂, hh₁]
      exact UInt64.not_lt.1 hge
    refine .bind_modify ⟨.setProof s₂ proof (.committed c hK hle hheight), rfl, rfl⟩
      (.pure ⟨⟨?_, rfl, hheight, hle⟩, rfl, rfl⟩)
    rw [hhash]
    exact (congrArg _ (Stills.blocks_eq h₂)).trans hl

/-- Only a commit moves the height. -/
theorem coreProcess_moves {m : CoreOutput} (hK : S.core m) (hm : ∀ c, m ≠ .commit c) :
    Steps (Move E S) (coreProcess E m) (fun _ _ => True) s := by
  cases m with
  | proposal p =>
    exact .bind (Steps.still (handleProposal_moves hK true)) fun bytes s₁ _ hb =>
      .bind (Steps.still (callTransmit_moves ⟨rfl, hb⟩)) fun _ _ _ _ =>
        Steps.bind_orErr fun _ _ => .pure trivial
  | vote v =>
    exact .bind (Steps.still (handleVote_moves hK true)) fun sv s₁ _ _ =>
      .bind (Steps.still (callTransmit_moves ⟨rfl, trivial⟩)) fun _ _ _ _ =>
        Steps.bind_orErr fun _ _ => .pure trivial
  | commit c => exact absurd rfl (hm c)
  | getProposalRequest height => exact Steps.still (askForProposal_moves height)

/-- A commit is handed to the application, and its status is processed. -/
theorem coreProcess_commit_advances {c : BftCommit} (hK : S.core (.commit c))
    (hS : ∀ n commit rs, E.support.commit n commit = .ok rs → S.status rs)
    (hc : Cached E S.toSupply s.eng) :
    Steps (Advance E S) (coreProcess E (.commit c)) (fun _ _ => True) s := by
  refine .bind (Steps.advance (Steps.still (handleCommit_moves hK true))) ?_
  rintro commit s₁ h₁ ⟨hready, hheight, haddress⟩
  refine .bind (P := fun r _ => r = E.support.commit s₁.calls.length commit)
    (Steps.advance (Steps.still (callCommit_moves hready ⟨c, hK, hheight, haddress⟩))) ?_
  intro r s₂ h₂ hr
  exact Steps.bind_orErr fun rs hrs => processStatus_advances (Advances.cached (h₁.trans h₂) hc)
    (hS s₁.calls.length commit rs (hr.symm.trans hrs))

/-! ### Feeds and verdicts -/

theorem acceptFeed_moves (f : Feed F) (name : String) :
    Steps (Move E S) (acceptFeed E f name) (fun _ _ => True) s := by
  unfold acceptFeed
  refine .bind (Steps.still (sendBft_moves ⟨rfl, trivial⟩ trivial)) ?_
  intro _ s₁ _ _
  exact cacheBlock_moves (f := Pure.pure) (fun _ => Or.inr rfl) (.pure trivial)

theorem acceptVerdict_moves {vr : VerifyResp} (hS : S.verdict vr) (name : String) :
    Steps (Move E S) (acceptVerdict E vr name) (fun _ _ => True) s := by
  unfold acceptVerdict
  exact .bind (Steps.still (sendBft_moves ⟨rfl, trivial⟩ (.brought hS))) fun _ s₁ _ _ =>
    .modify (.keepVerdict s₁ vr hS) trivial

theorem asyncProcess_moves {m : AsyncMsg F} (hS : ∀ vr, m = .verifyResp vr → S.verdict vr) :
    Steps (Move E S) (asyncProcess E m) (fun _ _ => True) s := by
  -- a message that is handed over is logged afterwards
  have logged : ∀ (s : State F) (m : LogMessage F) (name : String) (json : Option Bytes),
      m.Given S → (∀ msg, json = some msg → m.Text E msg) →
      Steps (Move E S) (doIf E.walOn do
        let s ← get
        saveJson E (m.height s.eng) m.tag name json) (fun _ _ => True) s := by
    intro s m name json hgiven htext
    refine .doIf (fun hon => .bind_get ?_) fun _ => trivial
    exact .mono (saveJson_moves _ _ _ _ fun msg hm => .save s m msg hon hgiven (htext msg hm))
      fun _ _ _ _ => trivial
  cases m with
  | verifyResp vr =>
    exact .bind (acceptVerdict_moves (hS vr rfl) _) fun _ s₁ _ _ =>
      logged s₁ (.verifyResp vr) _ _ (hS vr rfl) fun _ hm => hm
  | feed f =>
    exact .bind (acceptFeed_moves f _) fun _ s₁ _ _ =>
      logged s₁ (.feed f) _ _ trivial fun _ hm => hm

/-! ### Replay -/

omit [Content F] in
theorem Steps.bind_loadJson {json : Json α} {name : String} {msg : Bytes} {f : α → EngineM F β}
    {Q : β → State F → Prop} (h : ∀ a, json.fromSlice msg = some a → Steps R (f a) Q s) :
    Steps R (loadJson json name msg >>= f) Q s := by
  unfold loadJson
  cases hj : json.fromSlice msg with
  | some a => exact h a hj
  | none => exact .throw

theorem replayProposal_moves {sp : SignedProposal} (hK : S.proposal sp) (block : F)
    (msg : Bytes) :
    Steps (Still E S) (replayProposal E sp block msg) (fun _ _ => True) s := by
  unfold replayProposal
  refine .bind_get (.bind (P := fun _ _ => True) (.doIf (fun hw => ?_) fun _ => trivial)
    fun _ s₁ _ _ => ?_)
  · exact .modify ⟨.cacheProposal s sp block msg hK hw, rfl, rfl⟩ trivial
  · exact forwardProposal_moves hK msg

theorem loadSignedProposal_moves (msg : Bytes)
    (hs : ∀ sp block hash, decodeLogged E msg = .ok (sp, block, hash) →
      S.proposal sp ∧ (s.eng.blockOriginCache.lookup hash = none → S.block hash block)) :
    Steps (Move E S) (loadSignedProposal E msg) (fun _ _ => True) s := by
  unfold loadSignedProposal
  refine .bind_lift ?_
  rintro ⟨sp, block, hash⟩ hd
  obtain ⟨hK, hb⟩ := hs sp block hash hd
  exact cacheBlock_moves (fun hl => Or.inl (hb hl))
    (Steps.still (replayProposal_moves hK block msg))

theorem loadSignedVote_moves (msg : Bytes)
    (hs : ∀ sv, E.serde.signedVote.fromSlice msg = some sv → S.vote sv) :
    Steps (Move E S) (loadSignedVote E msg) (fun _ _ => True) s :=
  Steps.bind_loadJson fun sv hsv => .ifOk (Steps.still (handleSignedVote_moves (hs sv hsv) false))
    (fun _ _ _ hv => Steps.still (sendBft_moves ⟨rfl, hv⟩ trivial)) fun _ _ => trivial

theorem loadStatus_advances (msg : Bytes)
    (hs : ∀ rs, E.serde.status.fromSlice msg = some rs → S.status rs) :
    Steps (Advance E S) (loadStatus E msg) (fun _ _ => True) s :=
  Steps.bind_loadJson fun rs hrs => .ifOk (handleRichStatus_advances (hs rs hrs) false)
    (fun _ _ _ _ => Steps.advance (Steps.still (sendBft_moves ⟨rfl, trivial⟩ trivial)))
    fun _ _ => trivial

theorem loadProposal_moves (msg : Bytes)
    (hs : ∀ p, E.serde.bftProposal.fromSlice msg = some p → S.core (.proposal p)) :
    Steps (Move E S) (loadProposal E msg) (fun _ _ => True) s :=
  Steps.bind_loadJson fun p hp => .ifOk (Steps.still (handleProposal_moves (hs p hp) false))
    (fun _ _ _ hb => .bind (Steps.still (callTransmit_moves ⟨rfl, hb⟩)) fun _ _ _ _ =>
      Steps.bind_orErr fun _ _ => .pure trivial) fun _ _ => trivial

theorem loadVote_moves (msg : Bytes)
    (hs : ∀ v, E.serde.bftVote.fromSlice msg = some v → S.core (.vote v)) :
    Steps (Move E S) (loadVote E msg) (fun _ _ => True) s :=
  Steps.bind_loadJson fun v hv => .ifOk (Steps.still (handleVote_moves (hs v hv) false))
    (fun _ _ _ _ => .bind (Steps.still (callTransmit_moves ⟨rfl, trivial⟩)) fun _ _ _ _ =>
      Steps.bind_orErr fun _ _ => .pure trivial) fun _ _ => trivial

theorem loadCommit_moves (msg : Bytes)
    (hs : ∀ c, E.serde.bftCommit.fromSlice msg = some c → S.core (.commit c)) :
    Steps (Move E S) (loadCommit E msg) (fun _ _ => True) s := by
  refine Steps.bind_loadJson fun c hc => .ifOk (Steps.still (handleCommit_moves (hs c hc) true))
    ?_ fun _ _ => trivial
  rintro commit s' _ ⟨hready, hheight, haddress⟩
  exact .bind (Steps.still (callCommit_moves hready ⟨c, hs c hc, hheight, haddress⟩))
    fun _ _ _ _ => Steps.bind_orErr fun _ _ => .pure trivial

end ConsensusBft

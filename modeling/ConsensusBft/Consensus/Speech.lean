import ConsensusBft.Consensus.Arrival
import ConsensusBft.Consensus.NewHeight

/-!
# What the engine says

* `Signable E K hash` : what the engine may sign: votes of its BFT core, and what it builds of the
  proposals of its BFT core.
* `Said E K e` : what is behind a call: a message that is handed to the BFT core was received with a
  genuine signature, the lock votes of a proposal included; a message that is transmitted, signed or
  committed was brought by the BFT core.
* `answers` : the messages that the application's answers put into the async queue.
* `Speaks E K s s'` : between the two states only such calls are made, and nothing but their answers
  is queued; the lemmas `_speaks` : **so it is with every method.**
* `Attempt E p i m s` : the turn `i` at `p` runs `m` from the state `s`; `attempt_speaks` : **so it
  is with every turn, wherever it stops.**
-/

namespace ConsensusBft

open Exec (Steps doIf)

variable {F : Type} {E : Env F} {K K' : Supply F} {s s' s'' : State F}

/-! ### Calls -/

/-- The proposal of the BFT core as other nodes get it: lock votes without a lock round are
dropped. -/
def BftProposal.settled (p : BftProposal) : BftProposal :=
  { p with lockVotes := if p.lockRound.isSome then p.lockVotes else [] }

/-- The vote of the BFT core as it is signed. -/
def BftVote.toVote (v : BftVote) : Vote := Vote.fromBftVote v v.voteType.toVoteType

/-- What the engine may sign. -/
inductive Signable (E : Env F) (K : Supply F) : Hash → Prop
  | vote {v : BftVote} (received : K.core (.vote v)) :
      Signable E K (E.support.hash v.toVote.rlpBytes)
  | proposal {p : BftProposal} {q : Proposal} (received : K.core (.proposal p))
      (stands : q.toBftProposal q.hash = p.settled) : Signable E K (E.support.hash q.rlpBytes)

/-- The application of the node signed the message. -/
def SignedBy (E : Env F) (message : Bytes) (sig : Signature) : Prop :=
  ∃ n, E.support.sign n (E.support.hash message) = .ok sig

/-- What is behind a call. -/
def Said (E : Env F) (K : Supply F) : Event F → Prop
  | .bft (.vote v) _ => ∃ sv, K.vote sv ∧ sv.Genuine E ∧ v = sv.vote.toBftVote
  | .bft (.proposal p) _ => ∃ sp, K.proposal sp ∧ sp.Genuine E ∧
      p = sp.proposal.toBftProposal sp.proposal.hash ∧
      (p.lockRound.isSome → ∀ sv ∈ sp.proposal.lockVotes, sv.Genuine E)
  | .transmit (.signedVote bytes) _ => ∃ (v : BftVote) (sig : Signature), K.core (.vote v) ∧
      SignedBy E v.toVote.rlpBytes sig ∧ bytes = (SignedVote.mk v.toVote sig).rlpBytes
  | .transmit (.signedProposal bytes) _ => ∃ (p : BftProposal) (sp : SignedProposal)
      (block : Bytes), K.core (.proposal p) ∧
      sp.proposal.toBftProposal sp.proposal.hash = p.settled ∧
      SignedBy E sp.proposal.rlpBytes sp.signature ∧ bytes = combine sp.rlpBytes block
  | .transmit (.commit _) _ => False
  | .commit c _ => ∃ bc, K.core (.commit bc) ∧ c.height = bc.height ∧ c.address = bc.address ∧
      c.proof.height = bc.height ∧ c.proof.round = bc.round ∧ c.proof.blockHash = bc.proposal
  | .sign hash _ => Signable E K hash
  | _ => True

/-- One supply is part of the other. -/
structure Supply.Le (K K' : Supply F) : Prop where
  vote : ∀ sv, K.vote sv → K'.vote sv
  proposal : ∀ sp, K.proposal sp → K'.proposal sp
  core : ∀ m, K.core m → K'.core m

theorem Said.mono (hle : K.Le K') {e : Event F} (h : Said E K e) : Said E K' e := by
  cases e with
  | bft msg d =>
    cases msg with
    | vote v =>
      obtain ⟨sv, hsv, h⟩ := h
      exact ⟨sv, hle.vote sv hsv, h⟩
    | proposal p =>
      obtain ⟨sp, hsp, h⟩ := h
      exact ⟨sp, hle.proposal sp hsp, h⟩
    | _ => trivial
  | transmit msg r =>
    cases msg with
    | signedVote bytes =>
      obtain ⟨v, sig, hv, h⟩ := h
      exact ⟨v, sig, hle.core _ hv, h⟩
    | signedProposal bytes =>
      obtain ⟨p, sp, block, hp, h⟩ := h
      exact ⟨p, sp, block, hle.core _ hp, h⟩
    | commit c => exact h
  | commit c r =>
    obtain ⟨bc, hbc, h⟩ := h
    exact ⟨bc, hle.core _ hbc, h⟩
  | sign hash r =>
    have hsign : Signable E K hash := h
    cases hsign with
    | vote hv => exact .vote (hle.core _ hv)
    | proposal hp hq => exact .proposal (hle.core _ hp) hq
  | _ => trivial

theorem Cached.mono (hle : K.Le K') {eng : Consensus F} (h : Cached E K eng) :
    Cached E K' eng where
  proposal k l e hl he := ⟨hle.proposal _ (h.proposal k l e hl he).1, (h.proposal k l e hl he).2⟩
  vote k l sv hl hsv := ⟨hle.vote _ (h.vote k l sv hl hsv).1, (h.vote k l sv hl hsv).2⟩

/-- The message that the answer of the application puts into the async queue. -/
def Event.answer : Event F → Option (AsyncMsg F)
  | .checkProposal hash _ _ _ _ res => some (.verifyResp ⟨res.isOk, hash⟩)
  | .getContent height (.ok content) => some (.feed ⟨height, content⟩)
  | _ => none

/-- The messages that the answers to the calls put into the async queue. -/
def answers (calls : List (Call F)) : List (AsyncMsg F) :=
  calls.filterMap fun call => call.event.answer

theorem answers_append (l l' : List (Call F)) : answers (l ++ l') = answers l ++ answers l' :=
  List.filterMap_append

theorem answers_singleton (call : Call F) : answers [call] = call.event.answer.toList := by
  unfold answers
  cases h : call.event.answer <;> simp [h]

/-- Between the two states only calls with something behind them are made, nothing but their answers
is queued, and what is cached was received. -/
structure Speaks (E : Env F) (K : Supply F) (s s' : State F) : Prop where
  calls : ∃ calls, s'.calls = s.calls ++ calls ∧ (∀ call ∈ calls, Said E K call.event) ∧
    s'.asyncQueue = s.asyncQueue ++ answers calls
  cached : Cached E K s.eng → Cached E K s'.eng

namespace Speaks

/-- Nothing is called or queued. -/
theorem uncalled (hcalls : s'.calls = s.calls) (hqueue : s'.asyncQueue = s.asyncQueue)
    (hc : Cached E K s.eng → Cached E K s'.eng) : Speaks E K s s' :=
  ⟨⟨[], by rw [hcalls, List.append_nil], List.forall_mem_nil _,
    hqueue.trans (List.append_nil _).symm⟩, hc⟩

/-- Nothing is called, queued or cached. -/
theorem silent (hcalls : s'.calls = s.calls) (hqueue : s'.asyncQueue = s.asyncQueue)
    (hproposals : s'.eng.proposalCache = s.eng.proposalCache)
    (hvotes : s'.eng.voteCache = s.eng.voteCache) : Speaks E K s s' := by
  refine .uncalled hcalls hqueue fun hc => ⟨?_, ?_⟩
  · rw [hproposals]
    exact hc.proposal
  · rw [hvotes]
    exact hc.vote

theorem refl (s : State F) : Speaks E K s s := silent rfl rfl rfl rfl

theorem trans (h : Speaks E K s s') (h' : Speaks E K s' s'') : Speaks E K s s'' := by
  obtain ⟨⟨l, hl, hsaid, hq⟩, hc⟩ := h
  obtain ⟨⟨l', hl', hsaid', hq'⟩, hc'⟩ := h'
  refine ⟨⟨l ++ l', by rw [hl', hl, List.append_assoc], fun call hmem => ?_, ?_⟩, hc' ∘ hc⟩
  · rcases List.mem_append.1 hmem with hmem | hmem
    · exact hsaid call hmem
    · exact hsaid' call hmem
  · rw [hq', hq, answers_append, List.append_assoc]

theorem of_moves (h : Relation.ReflTransGen (Speaks E K) s s') : Speaks E K s s' := by
  induction h with
  | refl => exact refl _
  | tail _ h' ih => exact ih.trans h'

/-- A call with something behind it, the answer to which is queued. -/
theorem asked {e : Event F} (h : Said E K e) :
    Speaks E K s { s.record e with asyncQueue := s.asyncQueue ++ e.answer.toList } := by
  refine ⟨⟨[⟨s.eng, s.disk, e⟩], rfl, fun call hmem => ?_, ?_⟩, id⟩
  · obtain rfl := List.mem_singleton.1 hmem
    exact h
  · rw [answers_singleton]

/-- A call that has no answer. -/
theorem record {e : Event F} (h : Said E K e) (hanswer : e.answer = none) :
    Speaks E K s (s.record e) := by
  have hasked := asked (s := s) h
  rw [hanswer] at hasked
  exact hasked.trans (silent rfl (List.append_nil _).symm rfl rfl)

end Speaks

/-! ### Calls to the outside -/

theorem sendBft_speaks {msg : CoreInput} {name : String} (h : ∀ d, Said E K (.bft msg d)) :
    Steps (Speaks E K) (sendBft E msg name) (fun _ _ => True) s :=
  (sendBft_records (.record (h _) rfl)).mono fun _ _ _ _ => trivial

theorem callTransmit_speaks {msg : ConsensusOutput F} (h : ∀ r, Said E K (.transmit msg r)) :
    Steps (Speaks E K) (callTransmit E msg) (fun _ _ => True) s := by
  unfold callTransmit
  exact .bind_get (.bind_modify (.record (h _) rfl) (.pure trivial))

theorem callCommit_speaks {c : Commit F} (h : ∀ r, Said E K (.commit c r)) :
    Steps (Speaks E K) (callCommit E c) (fun _ _ => True) s := by
  unfold callCommit
  exact .bind_get (.bind_modify (.record (h _) rfl) (.pure trivial))

theorem callSign_speaks {message : Bytes} (h : Signable E K (E.support.hash message)) :
    Steps (Speaks E K) (callSign E (E.support.hash message))
      (fun r _ => ∀ sig, r = .ok sig → SignedBy E message sig) s := by
  unfold callSign
  exact .bind_get (.bind_modify (.record h rfl) (.pure fun sig hsig => ⟨_, hsig⟩))

theorem checkProposal_speaks (hash : Hash) (block : F) (bytes : Bytes) (isLock isBySelf : Bool) :
    Steps (Speaks E K) (checkProposal E hash block bytes isLock isBySelf) (fun _ _ => True) s := by
  unfold checkProposal
  exact .bind_get (.modify (.asked (e := .checkProposal hash block bytes isLock isBySelf _) trivial)
    trivial)

theorem askForProposal_speaks (height : UInt64) :
    Steps (Speaks E K) (askForProposal E height) (fun _ _ => True) s := by
  unfold askForProposal
  -- the question and the answer are one step
  refine Steps.whole ?_ fun _ _ => trivial
  rw [Exec.result_bind_get, Exec.result_bind_modify]
  cases hres : E.support.getContent s.calls.length height with
  | ok content => exact .asked (e := .getContent height (.ok content)) trivial
  | error e => exact .record trivial rfl

/-! ### Messages from other nodes -/

/-- Logging a message says nothing. -/
theorem logIf_speaks {c : Prop} [Decidable c] {height : UInt64} {tag : UInt8} {name : String}
    {json : Option Bytes} : Steps (Speaks E K) (doIf c (saveJson E height tag name json))
      (fun _ s' => ∃ w, s' = s.setWal w) s :=
  logIf_moves fun _ _ _ => .silent rfl rfl rfl rfl

theorem verdictOf_speaks (hash : Hash) (bytes : Bytes) (isLock : Bool) :
    Steps (Speaks E K) (verdictOf E hash bytes isLock) (fun _ _ => True) s := by
  unfold verdictOf
  refine .bind_get ?_
  cases s.eng.verifiedBlock.lookup hash with
  | some isPass => exact .pure trivial
  | none =>
    cases s.eng.blockOriginCache.lookup hash with
    | none => exact .throw
    | some content => exact .bind (checkProposal_speaks ..) fun _ _ _ _ => .pure trivial

/-- **Lock votes that pass the check are genuine.** -/
theorem checkLockVotes_speaks (sp : SignedProposal) (hash : Hash) :
    Steps (Speaks E K) (checkLockVotes E sp hash) (fun _ _ => sp.proposal.lockRound.isSome →
      ∀ sv ∈ sp.proposal.lockVotes, sv.Genuine E) s := by
  unfold checkLockVotes
  dsimp only
  cases sp.proposal.lockRound with
  | none => exact .pure nofun
  | some round =>
    have votes : ∀ (l : List SignedVote) (set : Finset Address) (s : State F), Steps (Speaks E K)
        (l.foldlM (addLockVote E sp.proposal.height round hash) set)
        (fun _ _ => ∀ sv ∈ l, sv.Genuine E) s := by
      intro l
      induction l with
      | nil => exact fun _ _ => .pure nofun
      | cons sv l ih =>
        intro set s
        refine .bind (P := fun _ _ => sv.Genuine E) ?_ fun set _ _ hsv =>
          (ih set _).mono fun _ _ _ hl => List.forall_mem_cons.2 ⟨hsv, hl⟩
        refine .bind (P := fun _ _ => sv.Genuine E) ?_ fun _ _ _ hsv =>
          .bind_rejectIf fun _ => .pure hsv
        unfold checkSignedVote
        refine .bind_get (.bind_lift fun _ _ => .bind_rejectIf fun _ => .bind_rejectIf fun _ =>
          .bind_rejectIf fun _ => Steps.bind_verifySignature fun a ha => .bind_rejectIf
          fun hne => ?_)
        obtain rfl : a = sv.vote.voter := not_not.1 hne
        exact .bind_modify (.silent rfl rfl rfl rfl) (.pure ha)
    exact .bind (votes _ _ _) fun _ _ _ hl => .bind_get (.rejectIf fun _ _ => hl)

/-- **A signed proposal that is accepted is genuine, and so are its lock votes.** -/
theorem handleSignedProposal_speaks {sp : SignedProposal} (hK : K.proposal sp) (needWal : Bool)
    (bytes : Bytes) : Steps (Speaks E K) (handleSignedProposal E sp needWal bytes)
      (fun r _ => ∀ d, Said E K (.bft (.proposal r.1) d)) s := by
  unfold handleSignedProposal
  refine Steps.bind_verifySignature fun a ha => .bind_rejectIf fun hne => .bind_get
    (.bind_lift fun _ _ => .bind_rejectIf fun _ => ?_)
  obtain rfl : a = sp.proposal.proposer := (not_not.1 hne).symm
  refine .bind logIf_speaks fun _ _ _ _ => .bind_modify (.silent rfl rfl rfl rfl)
    (.bind (checkProposer_moves ..) fun _ _ _ _ => ?_)
  refine .bind (checkLockVotes_speaks sp _) ?_
  intro _ s₁ _ hvotes
  have hsaid : ∀ d, Said E K
      (.bft (.proposal (sp.proposal.toBftProposal sp.proposal.hash)) d) :=
    fun _ => ⟨sp, hK, ha, rfl, hvotes⟩
  refine .ite (fun _ => .pure hsaid) fun _ => .bind (verdictOf_speaks ..) fun _ _ _ _ =>
    .bind (P := fun _ _ => True) ?_ fun _ _ _ _ => .pure hsaid
  unfold checkProofOf
  exact .bind_get (.bind_rejectIf fun _ => .bind_lift fun _ _ => .bind_rejectIf fun _ =>
    .doIf (fun _ => .modify (.silent rfl rfl rfl rfl) trivial) fun _ => trivial)

theorem forwardProposal_speaks {sp : SignedProposal} (hK : K.proposal sp) (bytes : Bytes) :
    Steps (Speaks E K) (forwardProposal E sp bytes) (fun _ _ => True) s := by
  unfold forwardProposal sendProposal
  refine .bind (handleSignedProposal_speaks hK true bytes) fun r _ _ hr => ?_
  refine .bind (sendBft_speaks hr) fun _ _ _ _ => ?_
  cases r.2 with
  | none => exact .pure trivial
  | some resp => exact sendBft_speaks fun _ => trivial

/-- **A signed vote that is accepted is genuine.** -/
theorem handleSignedVote_speaks {sv : SignedVote} (hK : K.vote sv) (needWal : Bool) :
    Steps (Speaks E K) (handleSignedVote E sv needWal)
      (fun v _ => ∀ d, Said E K (.bft (.vote v) d)) s := by
  unfold handleSignedVote
  refine Steps.bind_verifySignature fun a ha => .bind_get (.bind_lift fun _ _ =>
    .bind_rejectIf fun _ => .bind_rejectIf fun hne => ?_)
  obtain rfl : a = sv.vote.voter := (not_not.1 hne).symm
  refine .bind (P := fun _ _ => True) ?_ fun _ _ _ _ =>
    .bind_modify (.silent rfl rfl rfl rfl) (.bind (checkVoteSender_moves _ _) fun _ _ _ _ =>
      .pure fun _ => ⟨sv, hK, ha, rfl⟩)
  refine .doIf (fun _ => .bind logIf_speaks fun _ s₁ h₁ _ => .doIf (fun hgt => ?_) fun _ => trivial)
    fun _ => trivial
  -- a later vote is cached
  refine .bind_modify (.uncalled rfl rfl
    fun hc => ⟨hc.proposal, fun k l sv' hl hmem => ?_⟩) .throw
  rcases HashMap.mem_of_pushEntry hl hmem with ⟨l', hl', hmem'⟩ | ⟨rfl, rfl⟩
  · exact hc.vote k l' sv' hl' hmem'
  · exact ⟨hK, ha, rfl, by grind⟩

theorem forwardVote_speaks {sv : SignedVote} (hK : K.vote sv) :
    Steps (Speaks E K) (forwardVote E sv) (fun _ _ => True) s :=
  .bind (handleSignedVote_speaks hK true) fun _ _ _ hv => sendBft_speaks hv

theorem sendCacheProposal_speaks {height : UInt64} (hc : Cached E K s.eng) :
    Steps (Speaks E K) (sendCacheProposal E height) (fun _ _ => True) s := by
  unfold sendCacheProposal
  refine .bind_get ?_
  cases hl : s.eng.proposalCache.lookup height with
  | none => exact .pure trivial
  | some proposals =>
    refine .bind_modify (.uncalled rfl rfl
      fun hc => ⟨fun k l e hl he => hc.proposal k l e (HashMap.lookup_of_erase hl) he, hc.vote⟩)
      (.forM (fun e he s _ => ?_) trivial)
    exact forwardProposal_speaks (hc.proposal height _ e hl he).1 _

theorem sendCacheVote_speaks {height : UInt64} (hc : Cached E K s.eng) :
    Steps (Speaks E K) (sendCacheVote E height) (fun _ _ => True) s := by
  unfold sendCacheVote
  refine .bind_get ?_
  cases hl : s.eng.voteCache.lookup height with
  | none => exact .pure trivial
  | some votes =>
    refine .bind_modify (.uncalled rfl rfl
      fun hc => ⟨hc.proposal, fun k l e hl he => hc.vote k l e (HashMap.lookup_of_erase hl) he⟩)
      (.forM (fun sv hsv s _ => ?_) trivial)
    exact forwardVote_speaks (hc.vote height _ sv hl hsv).1

/-! ### Statuses -/

theorem switchPower_speaks (rs : Status) :
    Steps (Speaks E K) (switchPower E rs) (fun _ _ => True) s := by
  unfold switchPower
  refine .bind_get (.ite (fun _ => .ite (fun _ => ?_) fun _ => .pure trivial) fun _ =>
    .ite (fun _ => ?_) fun _ => .pure trivial)
  · exact .bind_modify (.silent rfl rfl rfl rfl) (sendBft_speaks fun _ => trivial)
  · exact .bind_modify (.silent rfl rfl rfl rfl) (sendBft_speaks fun _ => trivial)

theorem handleRichStatus_speaks (rs : Status) (needWal : Bool) :
    Steps (Speaks E K) (handleRichStatus E rs needWal) (fun _ _ => True) s := by
  unfold Steps
  refine handleRichStatus_wp (fun _ _ _ => .single ?_) (fun _ _ _ _ => .single ?_)
    (fun _ _ _ _ => ⟨.single ?_, trivial⟩) fun _ _ _ _ _ _ => .single ?_
  all_goals exact .silent rfl rfl rfl rfl

theorem processStatus_speaks (rs : Status) (hc : Cached E K s.eng) :
    Steps (Speaks E K) (processStatus E rs) (fun _ _ => True) s := by
  unfold processStatus
  refine .bind (handleRichStatus_speaks rs true) fun _ s₁ h₁ _ => ?_
  refine .bind (switchPower_speaks rs) fun _ s₂ h₂ _ => .bind (sendBft_speaks fun _ => trivial)
    fun _ s₃ h₃ _ => .bind_get ?_
  have hc₃ := (Speaks.of_moves ((h₁.trans h₂).trans h₃)).cached hc
  refine .bind (sendCacheProposal_speaks hc₃) fun _ s₄ h₄ _ => .bind_get ?_
  exact sendCacheVote_speaks ((Speaks.of_moves h₄).cached hc₃)

/-! ### Messages of the BFT core -/

theorem getVoteSet_speaks (height round : UInt64) (voteType : VoteType) :
    Steps (Speaks E K) (getVoteSet height round voteType) (fun _ _ => True) s := by
  unfold getVoteSet
  exact .bind_get (.bind_modify (.silent rfl rfl rfl rfl) (.pure trivial))

/-- The signed votes of a proposal are found without saying anything. -/
theorem collectLockVotes_speaks (p : BftProposal) :
    Steps (Speaks E K) (collectLockVotes p) (fun l _ => LockVotesOf s.eng p l) s := by
  have hspeaks : Steps (Speaks E K) (collectLockVotes p) (fun _ _ => True) s := by
    unfold collectLockVotes
    refine .ite (fun _ => .bind (getVoteSet_speaks ..) fun voteSet _ _ _ => ?_)
      fun _ => .pure trivial
    cases voteSet with
    | none => exact .throw
    | some voteSet => exact .lift fun _ _ => trivial
  exact (hspeaks.and_wp (collectLockVotes_finds p s)).mono fun _ _ _ h => h.2.2.1

/-- **What the engine signs and sends for a proposal stands for it.** -/
theorem buildSignedProposal_speaks {p : BftProposal} (hK : K.core (.proposal p))
    (hs : VotesBound s.eng) : Steps (Speaks E K) (buildSignedProposal E p) (fun sp _ =>
      sp.proposal.toBftProposal sp.proposal.hash = p.settled ∧
        SignedBy E sp.proposal.rlpBytes sp.signature) s := by
  unfold buildSignedProposal
  refine .bind_get (.bind_rejectIf fun _ => .bind (collectLockVotes_speaks p) ?_)
  intro l s₁ _ hl
  refine .bind (P := fun _ _ => True) ?_ ?_
  · unfold proofFor
    refine .bind_get (.ite (fun _ => .pure trivial) fun _ => ?_)
    cases s₁.eng.proof with
    | some proof => exact .pure trivial
    | none => exact .throw
  intro proof s₂ _ _
  have hstands : (Proposal.mk p.height p.round p.content proof p.lockRound l
      p.proposer).toBftProposal p.content = p.settled := by
    unfold Proposal.toBftProposal BftProposal.settled
    rw [hl.toBftVote hs]
  exact .bind (callSign_speaks (.proposal hK hstands)) fun _ _ _ hsig =>
    Steps.bind_orErr fun sig hres => .pure ⟨hstands, hsig sig hres⟩

theorem handleProposal_speaks [Content F] {p : BftProposal} (hK : K.core (.proposal p))
    (hs : VotesBound s.eng) (needWal : Bool) :
    Steps (Speaks E K) (handleProposal E p needWal)
      (fun bytes _ => ∀ r, Said E K (.transmit (.signedProposal bytes) r)) s := by
  unfold handleProposal
  refine .bind_get (.bind_rejectIf fun _ => .bind logIf_speaks ?_)
  rintro _ _ _ ⟨w, rfl⟩
  refine .bind (buildSignedProposal_speaks hK hs) ?_
  rintro sp s₂ _ ⟨hstands, hsigned⟩
  refine .bind_modify (.silent rfl rfl rfl rfl) (.bind_get ?_)
  cases s₂.eng.blockOriginCache.lookup p.content with
  | none => exact .throw
  | some content =>
    exact Steps.bind_orErr fun _ _ => .bind (checkProposal_speaks ..) fun _ _ _ _ =>
      .pure fun _ => ⟨p, sp, _, hK, hstands, hsigned, rfl⟩

theorem handleVote_speaks {v : BftVote} (hK : K.core (.vote v)) (needWal : Bool) :
    Steps (Speaks E K) (handleVote E v needWal)
      (fun sv _ => ∀ r, Said E K (.transmit (.signedVote sv.rlpBytes) r)) s := by
  unfold handleVote
  refine .bind_get (.bind_rejectIf fun _ => .bind logIf_speaks fun _ _ _ _ => ?_)
  exact .bind (callSign_speaks (.vote hK)) fun _ _ _ hsig => Steps.bind_orErr fun sig hres =>
    .bind_modify (.silent rfl rfl rfl rfl) (.pure fun _ => ⟨v, sig, hK, hsig sig hres, rfl⟩)

theorem handleCommit_speaks {c : BftCommit} (hK : K.core (.commit c)) (needWal : Bool) :
    Steps (Speaks E K) (handleCommit E c needWal)
      (fun commit _ => ∀ r, Said E K (.commit commit r)) s := by
  unfold handleCommit generateProof
  refine .bind_get (.bind_rejectIf fun _ => .bind logIf_speaks fun _ s₁ _ _ => .bind_get ?_)
  cases s₁.eng.blockOriginCache.lookup c.proposal with
  | none => exact .throw
  | some block =>
    refine .bind (P := fun proof _ => proof.height = c.height ∧ proof.round = c.round ∧
      proof.blockHash = c.proposal) (.bind (getVoteSet_speaks ..) fun voteSet _ _ _ => ?_) ?_
    · cases voteSet with
      | none => exact .throw
      | some voteSet => exact .bind_lift fun _ _ => .pure ⟨rfl, rfl, rfl⟩
    · rintro proof _ _ ⟨hheight, hround, hhash⟩
      exact .bind_modify (.silent rfl rfl rfl rfl)
        (.pure fun _ => ⟨c, hK, rfl, rfl, hheight, hround, hhash⟩)

variable [Content F]

theorem coreProcess_speaks {m : CoreOutput} (hK : K.core m) (hc : Cached E K s.eng)
    (hs : VotesBound s.eng) : Steps (Speaks E K) (coreProcess E m) (fun _ _ => True) s := by
  cases m with
  | proposal p =>
    exact .bind (handleProposal_speaks hK hs true) fun _ _ _ hsaid =>
      .bind (callTransmit_speaks hsaid) fun _ _ _ _ => Steps.bind_orErr fun _ _ => .pure trivial
  | vote v =>
    exact .bind (handleVote_speaks hK true) fun _ _ _ hsaid =>
      .bind (callTransmit_speaks hsaid) fun _ _ _ _ => Steps.bind_orErr fun _ _ => .pure trivial
  | commit c =>
    exact .bind (handleCommit_speaks hK true) fun _ s₁ h₁ hsaid =>
      .bind (callCommit_speaks hsaid) fun _ s₂ h₂ _ => Steps.bind_orErr fun rs _ =>
        processStatus_speaks rs ((Speaks.of_moves (h₁.trans h₂)).cached hc)
  | getProposalRequest height => exact askForProposal_speaks height

/-! ### Messages from outside, feeds and verdicts -/

theorem processSignedProposal_speaks (bytes : Bytes)
    (hK : ∀ sp block hash, decodeProposal E bytes = .ok (sp, block, hash) → K.proposal sp) :
    Steps (Speaks E K) (processSignedProposal E bytes) (fun _ _ => True) s := by
  unfold processSignedProposal receiveProposal
  refine .bind_lift ?_
  rintro ⟨sp, block, hash⟩ hd
  have hsp := hK sp block hash hd
  refine .bind_modify (.silent rfl rfl rfl rfl) (.bind_get (.ite (fun _ => ?_)
    fun _ => forwardProposal_speaks hsp _))
  refine .bind (P := fun _ _ => True) (.doIf (fun _ => .bind_rejectIf fun _ => ?_) fun _ => trivial)
    fun _ s₁ _ _ => .modify (.uncalled rfl rfl
      fun hc => ⟨fun k l e hl he => ?_, hc.vote⟩) trivial
  · exact .bind (walSave_moves _ _ _ (.silent rfl rfl rfl rfl)) fun _ _ _ _ =>
      Steps.bind_orErr fun _ _ => .pure trivial
  · rcases HashMap.mem_of_pushEntry hl he with ⟨l', hl', he'⟩ | ⟨rfl, rfl⟩
    · exact hc.proposal k l' e hl' he'
    · exact ⟨hsp, rfl⟩

omit [Content F] in
theorem processSignedVote_speaks (bytes : Bytes)
    (hK : ∀ sv, SignedVote.decode E.rlp bytes = .ok sv → K.vote sv) :
    Steps (Speaks E K) (processSignedVote E bytes) (fun _ _ => True) s :=
  .bind_lift fun sv hd => forwardVote_speaks (hK sv (Exec.mapErr_eq_ok.1 hd))

theorem acceptFeed_speaks (f : Feed F) (name : String) :
    Steps (Speaks E K) (acceptFeed E f name) (fun _ _ => True) s :=
  .bind (sendBft_speaks fun _ => trivial) fun _ _ _ _ => .modify (.silent rfl rfl rfl rfl) trivial

omit [Content F] in
theorem acceptVerdict_speaks (vr : VerifyResp) (name : String) :
    Steps (Speaks E K) (acceptVerdict E vr name) (fun _ _ => True) s :=
  .bind (sendBft_speaks fun _ => trivial) fun _ _ _ _ => .modify (.silent rfl rfl rfl rfl) trivial

theorem asyncProcess_speaks (m : AsyncMsg F) :
    Steps (Speaks E K) (asyncProcess E m) (fun _ _ => True) s := by
  have logged : ∀ (s : State F) (tag : UInt8) (name : String) (json : Option Bytes),
      Steps (Speaks E K) (doIf E.walOn do
        let s ← get
        saveJson E s.eng.height tag name json) (fun _ _ => True) s := by
    intro s tag name json
    refine .doIf (fun _ => .bind_get ?_) fun _ => trivial
    exact (saveJson_moves _ _ _ _ fun _ _ => .silent rfl rfl rfl rfl).mono fun _ _ _ _ => trivial
  cases m with
  | verifyResp vr => exact .bind (acceptVerdict_speaks vr _) fun _ s₁ _ _ => logged s₁ _ _ _
  | feed f => exact .bind (acceptFeed_speaks f _) fun _ s₁ _ _ => logged s₁ _ _ _

/-! ### Replay and turns -/

variable {i : Input} {p p' : Process F}

/-- **Replaying a record says what a live turn says.** -/
theorem loadRecord_speaks {record : UInt8 × Bytes} {records : List (UInt8 × Bytes)}
    (hp : p.pending = record :: records) (hK : Supplied E K p .replay)
    (hs : VotesBound p.state.eng) :
    Steps (Speaks E K) (loadRecord E record) (fun _ _ => True) p.state := by
  obtain ⟨tag, msg⟩ := record
  refine .ite (fun h => ?_) fun _ => .ite (fun h => ?_) fun _ => .ite (fun _ => ?_) fun _ =>
    .ite (fun _ => ?_) fun _ => .ite (fun _ => ?_) fun _ => .ite (fun h => ?_) fun _ =>
    .ite (fun h => ?_) fun _ => .ite (fun h => ?_) fun _ => .pure trivial
  · subst h
    unfold loadSignedProposal replayProposal
    refine .bind_lift ?_
    rintro ⟨sp, block, hash⟩ hd
    have hsp : K.proposal sp := hK.proposal sp block hash ⟨msg, records, hp, hd⟩
    refine .bind_modify (.silent rfl rfl rfl rfl) (.bind_get (.bind (P := fun _ _ => True)
      (.doIf (fun _ => .modify (.uncalled rfl rfl
        fun hc => ⟨fun k l e hl he => ?_, hc.vote⟩) trivial) fun _ => trivial)
      fun _ _ _ _ => forwardProposal_speaks hsp _))
    rcases HashMap.mem_of_pushEntry hl he with ⟨l', hl', he'⟩ | ⟨rfl, rfl⟩
    · exact hc.proposal k l' e hl' he'
    · exact ⟨hsp, rfl⟩
  · subst h
    exact Steps.bind_loadJson fun sv hsv =>
      .ifOk (handleSignedVote_speaks (hK.vote sv ⟨msg, records, hp, hsv⟩) false)
        (fun _ _ _ hv => sendBft_speaks hv) fun _ _ => trivial
  · exact Steps.bind_loadJson fun rs _ => .ifOk (handleRichStatus_speaks rs false)
      (fun _ _ _ _ => sendBft_speaks fun _ => trivial) fun _ _ => trivial
  · exact Steps.bind_loadJson fun f _ => acceptFeed_speaks f _
  · exact Steps.bind_loadJson fun vr _ => acceptVerdict_speaks vr _
  · exact Steps.bind_loadJson fun q hq => .ifOk
      (handleProposal_speaks (hK.core _ ⟨tag, msg, records, hp, h, hq⟩) hs false)
      (fun _ _ _ hsaid => .bind (callTransmit_speaks hsaid) fun _ _ _ _ =>
        Steps.bind_orErr fun _ _ => .pure trivial) fun _ _ => trivial
  · exact Steps.bind_loadJson fun v hv => .ifOk
      (handleVote_speaks (hK.core _ ⟨tag, msg, records, hp, h, hv⟩) false)
      (fun _ _ _ hsaid => .bind (callTransmit_speaks hsaid) fun _ _ _ _ =>
        Steps.bind_orErr fun _ _ => .pure trivial) fun _ _ => trivial
  · exact Steps.bind_loadJson fun c hcm => .ifOk
      (handleCommit_speaks (hK.core _ ⟨tag, msg, records, hp, h, hcm⟩) true)
      (fun _ _ _ hsaid => .bind (callCommit_speaks hsaid) fun _ _ _ _ =>
        Steps.bind_orErr fun _ _ => .pure trivial) fun _ _ => trivial

/-- The turn `i` at `p` runs `m` from the state `s`. -/
inductive Attempt (E : Env F) (p : Process F) : Input → EngineM F PUnit → State F → Prop
  | core (m : CoreOutput) (idle : p.pending = []) :
      Attempt E p (.core m) (coreProcess E m) p.state
  | external (m : ConsensusInput) (idle : p.pending = []) :
      Attempt E p (.external m) (externalProcess E m) p.state
  | async {m : AsyncMsg F} {queue : List (AsyncMsg F)} (idle : p.pending = [])
      (head : p.state.asyncQueue = m :: queue) :
      Attempt E p .async (asyncProcess E m) { p.state with asyncQueue := queue }
  | replay {record : UInt8 × Bytes} {records : List (UInt8 × Bytes)}
      (head : p.pending = record :: records) : Attempt E p .replay (loadRecord E record) p.state

/-- A turn has called nothing when it starts. -/
theorem Attempt.state {m : EngineM F PUnit} (ha : Attempt E p i m s) :
    s.eng = p.state.eng ∧ s.calls = p.state.calls := by
  cases ha <;> exact ⟨rfl, rfl⟩

/-- A turn that is survived. -/
theorem attempt_of_next (h : next E i p = some p') :
    ∃ m s, Attempt E p i m s ∧ Exec.survive m s = some p'.state := by
  by_cases hi : i = .replay
  · subst hi
    obtain ⟨record, records, hp, -, hs⟩ := pending_of_replayNext h
    exact ⟨_, _, .replay hp, hs⟩
  · obtain ⟨s, hidle, hs, rfl⟩ := live_of_next hi h
    cases i with
    | core m => exact ⟨_, _, .core m hidle, hs⟩
    | external m => exact ⟨_, _, .external m hidle, hs⟩
    | async =>
      obtain ⟨m, queue, hq, hs⟩ := async_of_liveNext hs
      exact ⟨_, _, .async hidle hq, hs⟩
    | replay => exact absurd rfl hi

/-- **Whatever a turn says has something behind it**, wherever the turn stops. -/
theorem attempt_speaks {m : EngineM F PUnit} (ha : Attempt E p i m s) (hK : Supplied E K p i)
    (hc : Cached E K p.state.eng) (hs : VotesBound p.state.eng) :
    Steps (Speaks E K) m (fun _ _ => True) s := by
  cases ha with
  | core m _ => exact coreProcess_speaks (hK.core m rfl) hc hs
  | external m _ =>
    cases m with
    | signedProposal bytes =>
      exact processSignedProposal_speaks bytes fun sp block hash hd => hK.proposal sp block hash hd
    | signedVote bytes => exact processSignedVote_speaks bytes fun sv hd => hK.vote sv hd
    | status rs => exact processStatus_speaks rs hc
  | async _ _ => exact asyncProcess_speaks _
  | replay head => exact loadRecord_speaks head hK hs

end ConsensusBft

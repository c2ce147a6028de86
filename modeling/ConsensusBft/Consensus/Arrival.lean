import ConsensusBft.Consensus.Emission
import ConsensusBft.Consensus.Reproposal
import ConsensusBft.Types.RoundTrip
import ConsensusBft.Util.Framing

/-!
# A proposal arrives as it was proposed

* `VotesBound` : every stored vote is stored under what the BFT core sees of it, in every state of
  a run (`Life.votesBound`).
* `LockVotesOf.toBftVote` : so the signed votes that a proposal is sent with stand for the lock
  votes of the BFT core, in their order.
* `Emitted.decode` : what was emitted is decoded as it was built.
* `Arrived` : what a receiver has of a proposal; `proposal_arrives` : **whatever is returned for a
  proposal of the BFT core arrives.**
-/

namespace ConsensusBft

variable {F : Type} {E E' : Env F} {s s' : State F} {p : BftProposal} {bytes : Bytes}

/-! ### Lock votes -/

/-- Every stored vote is stored under what the BFT core sees of it. -/
def VotesBound (eng : Consensus F) : Prop :=
  ∀ h r t bv sv, eng.votes.stored h r t bv = some sv → bv = sv.vote.toBftVote

theorem Filed.toBftVote {K : Supply F} {eng : Consensus F} {h r : UInt64} {t : VoteType}
    {bv : BftVote} {sv : SignedVote} (hf : Filed E K eng h r t bv sv) :
    bv = sv.vote.toBftVote := by
  cases hf with
  | network _ _ _ => rfl
  | lock _ _ _ _ _ => rfl
  | own _ _ => exact (toBftVote_fromBftVote bv).symm

/-- **In every state of a run the votes are stored under what the BFT core sees of them.** -/
theorem Life.votesBound [Content F] {address : Address} {disk : Disk} {is : List Input}
    {P : Process F} (hl : Life E address disk is P) : VotesBound P.state.eng := by
  refine hl.invariant (I := fun s => VotesBound s.eng) (SuppliedLife.all E address disk is) ?_
    fun _ _ h hs => h.storedVotes (fun _ _ _ _ _ _ filed => filed.toBftVote) hs
  intro p₀ hb
  rw [(boot_state hb).1]
  exact nofun

/-- The signed votes of a proposal are those of its lock votes, in their order. -/
theorem LockVotesOf.toBftVote {l : List SignedVote} (h : LockVotesOf s.eng p l)
    (hs : VotesBound s.eng) :
    (if p.lockRound.isSome then l.map fun sv => sv.vote.toBftVote else []) =
      if p.lockRound.isSome then p.lockVotes else [] := by
  unfold LockVotesOf at h
  by_cases hlock : p.lockRound.isSome
  · simp only [hlock, if_true] at h ⊢
    obtain ⟨vs, hvs, hl⟩ := h
    have hlookup := mapM_signed_eq_ok.1 hl
    have hbound : ∀ bv sv, vs.votePair.lookup bv = some sv → bv = sv.vote.toBftVote := by
      intro bv sv hsv
      refine hs p.height p.round .prevote bv sv ?_
      rw [VoteCollector.stored_eq, hvs]
      exact hsv
    clear hl
    -- the lock votes and the signed votes have the same length
    generalize p.lockVotes = votes at hlookup ⊢
    induction votes generalizing l with
    | nil =>
      obtain rfl : l = [] := List.map_eq_nil_iff.1 hlookup.symm
      rfl
    | cons v votes ih =>
      cases l with
      | nil => exact nomatch hlookup
      | cons sv l =>
        obtain ⟨hv, hrest⟩ := List.cons.inj hlookup
        rw [List.map_cons, ih hrest, hbound v sv hv]
  · simp [hlock]

/-! ### What is emitted -/

section

variable [Content F] {sp₀ : SignedProposal} {content : F} {encoded : Bytes}

omit [Content F] in
/-- What was built stands for the proposal of the BFT core. -/
theorem Built.toBftProposal (h : Built E s p sp₀) (hs : VotesBound s.eng)
    (hp : p.lockRound.isSome ∨ p.lockVotes = []) :
    sp₀.proposal.toBftProposal sp₀.proposal.hash = p := by
  have hvotes := h.lockVotes.toBftVote hs
  have hall : (if p.lockRound.isSome then p.lockVotes else []) = p.lockVotes := by
    rcases hp with hp | hp <;> simp [hp]
  unfold Proposal.toBftProposal
  rw [h.height, h.round, h.hash, h.lockRound, h.proposer, hvotes, hall]

/-- **What was emitted is decoded as it was built**, with the block that was cached. -/
theorem Emitted.decode (h : Emitted E s p bytes sp₀ content encoded) (hreads : E'.rlp.Reads)
    (hcontent : ∀ (c : F) b, Content.encode c = .ok b → Content.decode b = .ok c)
    (hlen : bytes.length < 2 ^ 63) :
    decodeProposal E' bytes = .ok (sp₀.sorted, content, p.content) := by
  have hall : bytes.length = 8 + sp₀.rlpBytes.length +
      (8 + (8 + p.content.length + encoded.length)) := by
    rw [h.bytes_eq]
    simp only [combine, encodeBlock, List.length_append, length_toBeBytes]
  have hfit : sp₀.toItem.Fits := by
    change sp₀.rlpBytes.length < 2 ^ 63
    omega
  have hframe : extract E'.overflowChecks bytes =
      .ok (sp₀.rlpBytes, encodeBlock s.eng.height encoded p.content) := by
    rw [h.bytes_eq]
    exact extract_combine hfit
  have hsp := SignedProposal.decode_rlpBytes hreads hfit
  have hblock : decodeBlock E'.overflowChecks (encodeBlock s.eng.height encoded p.content) =
      .ok (s.eng.height, encoded, p.content) := decodeBlock_encodeBlock (by omega)
  unfold decodeProposal
  rw [hframe]
  change (Exec.mapErr _ (SignedProposal.decode E'.rlp sp₀.rlpBytes) >>= _) = _
  rw [hsp]
  change (Exec.mapErr _ (decodeBlock E'.overflowChecks _) >>= _) = _
  rw [hblock]
  simp only [Exec.mapErr, bind, Except.bind, hcontent content encoded h.encode_eq]

end

/-! ### What arrives -/

/-- A receiver `E'` of the bytes has the proposal `p`, the block that the sender had cached, and
the bytes that the sender hashed and signed when it made `built` of `p`. -/
structure Arrived [Content F] (E' : Env F) (s : State F) (p : BftProposal) (bytes : Bytes)
    (built received : SignedProposal) (block : F) : Prop where
  decoded : decodeProposal E' bytes = .ok (received, block, p.content)
  proposal : received.proposal.toBftProposal received.proposal.hash = p
  block : s.eng.blockOriginCache.lookup p.content = some block
  signedBytes : received.proposal.rlpBytes = built.proposal.rlpBytes
  signature : received.signature = built.signature

/-- **A proposal arrives as it was proposed**, at any receiver: with all its lock votes in their
order, with its block, and with the bytes that were signed for it. -/
theorem proposal_arrives [Content F] {address : Address} {disk : Disk} {is : List Input}
    {P : Process F} {needWal : Bool}
    (hcontent : ∀ (c : F) b, Content.encode c = .ok b → Content.decode b = .ok c)
    (hreads : E'.rlp.Reads) (hl : Life E address disk is P)
    (hp : p.lockRound.isSome ∨ p.lockVotes = [])
    (h : Exec.result (handleProposal E p needWal) P.state = (.ok bytes, s'))
    (hlen : bytes.length < 2 ^ 63) :
    ∃ built received block, Built E P.state p built ∧
      (∃ eng files check, s'.calls = P.state.calls ++ [⟨eng, files, .sign
        (E.support.hash built.proposal.rlpBytes) (.ok built.signature)⟩, check]) ∧
      Arrived E' P.state p bytes built received block := by
  obtain ⟨sp, content, encoded, he, hcalls⟩ := (handleProposal_emits p needWal P.state).ok h
  refine ⟨sp, sp.sorted, content, he.toBuilt, hcalls, ?_⟩
  exact
    { decoded := he.decode hreads hcontent hlen
      proposal := he.toBuilt.toBftProposal hl.votesBound hp
      block := he.cached
      signedBytes := sp.rlpBytes_sorted
      signature := rfl }

/-- The only authority prevotes in round `0`, and the block is cached. -/
def relockRun : List Input :=
  lockRun ++ [.external (.signedProposal
    (Reference.proposalBytes (Reference.signedProposal 1 0 [5] none [] [7]) [5] [5]))]

/-- In round `0` the block is proposed again, and arrives with the lock vote. -/
theorem proposal_arrives_locked :
    ∃ P bytes built received block, Life (Reference.env [7]) [7] Reference.disk relockRun P ∧
      Arrived (Reference.env [8]) P.state (lockedAgain 0) bytes built received block := by
  obtain ⟨P, hl, hf⟩ := Reference.exists_life (Reference.env [7]) [7] relockRun
    (fun P => decide (∃ bytes ∈ (Exec.result (handleProposal (Reference.env [7]) (lockedAgain 0)
      true) P.state).1.toOption, bytes.length < 2 ^ 63)) (by decide +kernel)
  obtain ⟨bytes, hbytes, hlen⟩ := of_decide_eq_true hf
  cases hres : Exec.result (handleProposal (Reference.env [7]) (lockedAgain 0) true) P.state with
  | mk r s' =>
    rw [hres] at hbytes
    cases r with
    | error e => exact nomatch hbytes
    | ok b =>
      obtain rfl := Option.some.inj hbytes
      have hreads : (Reference.env [8]).rlp.Reads := Rlp.reader_reads
      obtain ⟨built, received, block, -, -, h⟩ :=
        proposal_arrives decode_of_encode hreads hl (Or.inl rfl) hres hlen
      exact ⟨P, b, built, received, block, hl, h⟩

end ConsensusBft

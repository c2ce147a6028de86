import ConsensusBft.Consensus.State

/-!
# The operations of the engine

`consensus.rs`, method by method, under the source's names.  A method runs in `EngineM F`: what it
did to the engine before it returned an error stays.

* `rejectIf c e` stands for `if c { return Err(e) }`, `doIf c m` for `if c { m }`, `sub64` and
  `add64` for `-` and `+` on `u64`.
* `sendBft`, `callTransmit`, `callCommit`, `callSign` record the call they make.
* `checkProposal` and `askForProposal` spawn a thread inside `crossbeam_thread::scope`, which
  joins it before it returns: its message is in the async queue when the method returns.
-/

namespace ConsensusBft

open Exec (rejectIf doIf lift mapErr)

/-! ### Log tags -/

def LOG_TYPE_SIGNED_PROPOSAL : UInt8 := 1
def LOG_TYPE_RAW_BYTES : UInt8 := 2
def LOG_TYPE_RICH_STATUS : UInt8 := 3
def LOG_TYPE_BLOCK_TXS : UInt8 := 4
def LOG_TYPE_VERIFY_BLOCK_PESP : UInt8 := 5
def LOG_TYPE_PROPOSAL : UInt8 := 6
def LOG_TYPE_VOTE : UInt8 := 7
def LOG_TYPE_COMMIT : UInt8 := 8

variable {F : Type} (E : Env F)

/-! ### Calls to the outside -/

/-- `Result::map_err` followed by `?`. -/
def orErr {ε α : Type} (x : Except ε α) (f : ε → ConsensusError) : EngineM F α :=
  match x with
  | .ok a => pure a
  | .error e => throw (.err (f e))

/-- `self.bft.send_bft_msg(msg)`, which fails if the BFT core is gone. -/
def sendBft (msg : CoreInput) (name : String) : EngineM F PUnit := do
  let s ← get
  modify fun s => s.record (.bft msg (E.delivers s.calls.length))
  rejectIf (E.delivers s.calls.length = false) (.sendMsgErr name)

/-- `self.function.transmit(msg)`. -/
def callTransmit (msg : ConsensusOutput F) : EngineM F (Except String Unit) := do
  let s ← get
  modify fun s => s.record (.transmit msg (E.support.transmit s.calls.length msg))
  return E.support.transmit s.calls.length msg

/-- `self.function.commit(commit)`. -/
def callCommit (c : Commit F) : EngineM F (Except String Status) := do
  let s ← get
  modify fun s => s.record (.commit c (E.support.commit s.calls.length c))
  return E.support.commit s.calls.length c

/-- `self.function.sign(hash)`. -/
def callSign (hash : Hash) : EngineM F (Except String Signature) := do
  let s ← get
  modify fun s => s.record (.sign hash (E.support.sign s.calls.length hash))
  return E.support.sign s.calls.length hash

/-- `self.function.verify_signature(sig, hash)` with its error mapped. -/
def verifySignature (sig : Signature) (hash : Hash) : EngineM F Address :=
  orErr (E.support.verifySignature sig hash) fun e => .supportErr ("Verify signature error " ++ e)

/-- `self.wal_log.save(height, tag, msg)`. -/
def walSave (height : UInt64) (tag : UInt8) (msg : Bytes) : EngineM F (Except IoError ℕ) :=
  Exec.zoomTry State.walState State.setWal (Wal.save E.io E.overflowChecks height tag msg)

/-- Log a serialized message; `name` is the name the error texts use for it. -/
def saveJson (height : UInt64) (tag : UInt8) (name : String) (json : Option Bytes) :
    EngineM F PUnit :=
  match json with
  | some msg => do
    let res ← walSave E height tag msg
    let _ ← orErr res fun _ => .saveWalErr name
  | none => throw (.err (.serJsonErr name))

/-! ### Checks -/

/-- The authority list that is selected for the messages of a height. -/
def AuthorityManage.listAt (a : AuthorityManage) (height : UInt64) : List Node :=
  if height = a.authorityHOld then a.authoritiesOld else a.authorities

/-- The address set that is selected for the messages of a height. -/
def AuthorityManage.setAt (a : AuthorityManage) (height : UInt64) : Finset Address :=
  if height = a.authorityHOld then a.addressSetOld else a.addressSet

/-- `check_proposer`. -/
def checkProposer (height round : UInt64) (address : Address) : EngineM F PUnit := do
  let s ← get
  let authorities := s.eng.authority.listAt height
  rejectIf (authorities = []) .noAuthorityList
  let authList := intoAddrSet authorities
  let proposerNonce ← lift (add64 E.overflowChecks height round)
  let proposer := authList[proposerNonce.toNat % authorities.length]?
  rejectIf (proposer ≠ some address) .invalidProposer

/-- `check_vote_sender`. -/
def checkVoteSender (height : UInt64) (sender : Address) : EngineM F PUnit := do
  let s ← get
  rejectIf (sender ∉ s.eng.authority.setAt height) .invalidVoter

/-- `check_signed_vote`: a lock vote of a proposal.  The vote is stored under the height and lock
round of the proposal. -/
def checkSignedVote (height round : UInt64) (proposalHash : Hash) (signedVote : SignedVote) :
    EngineM F Address := do
  let vote := signedVote.vote
  let s ← get
  let prev ← lift (sub64 E.overflowChecks s.eng.height 1)
  rejectIf (height < prev) .obsoleteMsg
  rejectIf (vote.proposal ≠ proposalHash) .blockVerifyDiff
  let sender := vote.voter
  rejectIf (sender ∉ s.eng.authority.setAt height) .invalidVoter
  let hash := E.support.hash vote.rlpBytes
  let address ← verifySignature E signedVote.signature hash
  rejectIf (address ≠ sender) .signatureErr
  modify fun s =>
    { s with eng.votes := (s.eng.votes.add height round .prevote vote.toBftVote signedVote).2 }
  return sender

/-- One turn of the loop of `check_lock_votes`. -/
def addLockVote (height lockRound : UInt64) (proposalHash : Hash) (set : Finset Address)
    (vote : SignedVote) : EngineM F (Finset Address) := do
  let sender ← checkSignedVote E height lockRound proposalHash vote
  rejectIf (sender ∈ set) .blockVerifyDiff
  return insert sender set

/-- `check_lock_votes`. -/
def checkLockVotes (signedProposal : SignedProposal) (proposalHash : Hash) : EngineM F PUnit := do
  let proposal := signedProposal.proposal
  let height := proposal.height
  match proposal.lockRound with
  | none => pure ⟨⟩
  | some lockRound => do
    let set ← proposal.lockVotes.foldlM (addLockVote E height lockRound proposalHash) ∅
    let s ← get
    let isOld := decide (height = s.eng.authority.authorityHOld)
    rejectIf (¬ (s.eng.authority.isAboveThreshold set.card isOld ∧
      s.eng.authority.containsSender set isOld)) .illegalProposalLock

/-- `verify_proof`: the engine's own check of a proof.  An error of `verify_signature` is not a
reason to reject. -/
def verifyProof (proof : Proof) (h : UInt64) (authority : List Node) : Bool :=
  if h = 0 then true
  else
    let authority := intoAddrSet authority
    if h ≠ proof.height ∨ 2 * authority.length ≥ 3 * proof.precommitVotes.entries.length then false
    else proof.precommitVotes.entries.all fun entry =>
      if entry.1 ∈ authority then
        match E.support.verifySignature entry.2
            (E.support.hash (proof.voteOf entry.1).rlpBytes) with
        | .ok address => address = entry.1
        | .error _ => true
      else false

/-- `check_proof`. -/
def checkProofOf (height : UInt64) (proof : Proof) : EngineM F PUnit := do
  let s ← get
  rejectIf (height ≠ s.eng.height) .proofErr
  let prev ← lift (sub64 E.overflowChecks height 1)
  let authorities :=
    if s.eng.authority.authorityHOld = prev then s.eng.authority.authoritiesOld
    else s.eng.authority.authorities
  rejectIf (verifyProof E proof prev authorities = false) .proofErr
  doIf (s.eng.proof.map Proof.height ≠ some prev)
    (modify fun s => { s with eng.proof := some proof })

/-- `check_proposal`: the application checks a block, and its verdict goes to the async queue. -/
def checkProposal (proposalHash : Hash) (proposal : F) (signedProposalHash : Bytes)
    (isLock isBySelf : Bool) : EngineM F PUnit := do
  let s ← get
  let res :=
    E.support.checkProposal s.calls.length proposalHash proposal signedProposalHash isLock isBySelf
  modify fun s =>
    { s.record (.checkProposal proposalHash proposal signedProposalHash isLock isBySelf res) with
      asyncQueue := s.asyncQueue ++ [.verifyResp ⟨res.isOk, proposalHash⟩] }

/-- `ask_for_proposal`: the application is asked for a block, which goes to the async queue. -/
def askForProposal (height : UInt64) : EngineM F PUnit := do
  let s ← get
  let res := E.support.getContent s.calls.length height
  modify fun s => s.record (.getContent height res)
  match res with
  | .ok content =>
    modify fun s => { s with asyncQueue := s.asyncQueue ++ [.feed ⟨height, content⟩] }
  | .error _ => pure ⟨⟩

/-! ### Messages from other nodes -/

/-- The verdict on the block of a proposal if it is known; otherwise the application is asked for
one. -/
def verdictOf (hash : Hash) (signedProposalHash : Bytes) (isLock : Bool) :
    EngineM F (Option VerifyResp) := do
  let s ← get
  match s.eng.verifiedBlock.lookup hash with
  | some isPass => return some ⟨isPass, hash⟩
  | none => match s.eng.blockOriginCache.lookup hash with
    | some content => do
      checkProposal E hash content signedProposalHash isLock false
      return none
    | none => throw (.err .loseBlock)

/-- `handle_signed_proposal`. -/
def handleSignedProposal (msg : SignedProposal) (needWal : Bool) (signedProposalHash : Bytes) :
    EngineM F (BftProposal × Option VerifyResp) := do
  let proposal := msg.proposal
  let address ← verifySignature E msg.signature (E.support.hash proposal.rlpBytes)
  let height := proposal.height
  let round := proposal.round
  let hash := proposal.hash
  rejectIf (proposal.proposer ≠ address) .signatureErr
  let s ← get
  let prev ← lift (sub64 E.overflowChecks s.eng.height 1)
  rejectIf (height < prev) .obsoleteMsg
  doIf (E.walOn && needWal)
    (saveJson E height LOG_TYPE_SIGNED_PROPOSAL "SignedProposal"
      (E.serde.signedProposal.toString msg))
  modify fun s => { s with eng.proposals := (s.eng.proposals.add height round msg).2 }
  let bftProposal := proposal.toBftProposal hash
  checkProposer E height round bftProposal.proposer
  checkLockVotes E msg hash
  if height = prev then return (bftProposal, some ⟨true, hash⟩)
  else do
    let verifyResp ← verdictOf E hash signedProposalHash proposal.lockRound.isSome
    checkProofOf E height proposal.proof
    return (bftProposal, verifyResp)

/-- `handle_signed_vote`. -/
def handleSignedVote (msg : SignedVote) (needWal : Bool) : EngineM F BftVote := do
  let vote := msg.vote
  let address ← verifySignature E msg.signature (E.support.hash vote.rlpBytes)
  let height := vote.height
  let s ← get
  let prev ← lift (sub64 E.overflowChecks s.eng.height 1)
  rejectIf (height < prev) .obsoleteMsg
  rejectIf (vote.voter ≠ address) .signatureErr
  let bftVote := vote.toBftVote
  doIf (s.eng.height ≤ height) do
    doIf (E.walOn && decide ((height - s.eng.height).toNat < CACHE_NUMBER) && needWal)
      (saveJson E height LOG_TYPE_RAW_BYTES "SignedVote" (E.serde.signedVote.toString msg))
    doIf (s.eng.height < height) do
      modify fun s => { s with eng.voteCache := s.eng.voteCache.pushEntry height msg }
      throw (.err .futureMsg)
  modify fun s =>
    { s with eng.votes := (s.eng.votes.add height vote.round vote.voteType bftVote msg).2 }
  checkVoteSender height vote.voter
  return bftVote

/-- Hand a proposal and the verdict on its block, if it is known, to the BFT core. -/
def sendProposal (p : BftProposal) (resp : Option VerifyResp) : EngineM F PUnit := do
  sendBft E (.proposal p) "BftProposal"
  match resp with
  | some r => sendBft E (.verifyResp r.toBftResp) "BftVerifyResp"
  | none => pure ⟨⟩

/-- Handle a signed proposal and hand it to the BFT core. -/
def forwardProposal (signedProposal : SignedProposal) (bytes : Bytes) : EngineM F PUnit := do
  let (proposal, verifyResp) ← handleSignedProposal E signedProposal true bytes
  sendProposal E proposal verifyResp

/-- Handle a signed vote and hand it to the BFT core. -/
def forwardVote (signedVote : SignedVote) : EngineM F PUnit := do
  let vote ← handleSignedVote E signedVote true
  sendBft E (.vote vote) "BftVote"

/-- `goto_new_height`. -/
def gotoNewHeight (height : UInt64) : EngineM F PUnit := do
  modify fun s => { s with
    eng.verifiedBlock := ∅
    eng.blockOriginCache := ∅
    eng.block := none }
  let new ← lift (add64 E.overflowChecks height 1)
  modify fun s => { s with eng.height := new }
  let res ← Exec.zoomTry State.walState State.setWal (Wal.setHeight E.io new)
  let _ ← orErr res fun _ => .saveWalErr "CreateNewHeight"

/-- `handle_rich_status`. -/
def handleRichStatus (msg : Status) (needWal : Bool) : EngineM F BftStatus := do
  let height := msg.height
  let s ← get
  rejectIf (height < s.eng.height) .obsoleteMsg
  doIf (E.walOn && needWal)
    (saveJson E height LOG_TYPE_RICH_STATUS "Status" (E.serde.status.toString msg))
  modify fun s =>
    { s with eng.authority := s.eng.authority.updateAuthority s.eng.height msg.authorityList }
  gotoNewHeight E height
  return msg.toBftStatus

/-- `send_cache_proposal`. -/
def sendCacheProposal (height : UInt64) : EngineM F PUnit := do
  let s ← get
  match s.eng.proposalCache.lookup height with
  | none => pure ⟨⟩
  | some proposals => do
    modify fun s => { s with eng.proposalCache := s.eng.proposalCache.erase height }
    proposals.forM fun entry => forwardProposal E entry.1 entry.2.2

/-- `send_cache_vote`. -/
def sendCacheVote (height : UInt64) : EngineM F PUnit := do
  let s ← get
  match s.eng.voteCache.lookup height with
  | none => pure ⟨⟩
  | some votes => do
    modify fun s => { s with eng.voteCache := s.eng.voteCache.erase height }
    votes.forM (forwardVote E)

/-- Whether a height is in the window of proposals that are cached. -/
def inWindow (height current : UInt64) : Bool :=
  decide (current < height) && decide ((height - current).toNat < CACHE_NUMBER)

/-- The step of `external_process` that gives the node its consensus power, or takes it away: the
BFT core is started when the node becomes an authority, and paused when it no longer is one. -/
def switchPower (rs : Status) : EngineM F PUnit := do
  let s ← get
  if s.eng.address ∈ intoAddrSet rs.authorityList then
    if s.eng.consensusPower = false then do
      modify fun s => { s with eng.consensusPower := true }
      sendBft E .start "BftStart"
    else pure ⟨⟩
  else if s.eng.consensusPower = true then do
    modify fun s => { s with eng.consensusPower := false }
    sendBft E .pause "BftPause"
  else pure ⟨⟩

section

variable [Content F]

/-- The decoding steps of `external_process` for a signed proposal: the proposal, the block and
the hash declared for it. -/
def decodeProposal (bytes : Bytes) : Outcome ConsensusError (SignedProposal × F × Hash) := do
  let (sp, block) ← mapErr (fun _ => .decodeErr "Decode signed proposal error")
    (extract E.overflowChecks bytes)
  let signedProposal ← mapErr (fun e => .decodeErr ("Rlp decode block error " ++ e.debug))
    (SignedProposal.decode E.rlp sp)
  let (_, b, hash) ← mapErr (fun _ => .decodeErr "Decode block error")
    (decodeBlock E.overflowChecks block)
  match Content.decode b with
  | .error _ => .error (.err (.decodeErr "Decode block error"))
  | .ok block => .ok (signedProposal, block, hash)

/-- `external_process` for a signed proposal, once its block is cached: a proposal of the window
of future heights is cached, any other one is handled. -/
def receiveProposal (signedProposal : SignedProposal) (block : F) (bytes : Bytes) :
    EngineM F PUnit := do
  let s ← get
  let height := signedProposal.proposal.height
  if inWindow height s.eng.height then do
    doIf E.walOn do
      rejectIf (isUtf8 bytes = false) (.serJsonErr "SignedProposal")
      let res ← walSave E height LOG_TYPE_SIGNED_PROPOSAL bytes
      let _ ← orErr res fun _ => .saveWalErr "SignedProposal"
    modify fun s => { s with
      eng.proposalCache := s.eng.proposalCache.pushEntry height (signedProposal, block, bytes) }
  else forwardProposal E signedProposal bytes

/-- `external_process` for a signed proposal. -/
def processSignedProposal (bytes : Bytes) : EngineM F PUnit := do
  let (signedProposal, block, hash) ← lift (decodeProposal E bytes)
  modify fun s => { s with eng.blockOriginCache := s.eng.blockOriginCache.orInsert hash block }
  receiveProposal E signedProposal block bytes

/-- `external_process` for a signed vote. -/
def processSignedVote (bytes : Bytes) : EngineM F PUnit := do
  let sv ← lift (mapErr (fun e => .decodeErr ("Rlp decode signed vote error " ++ e.debug))
    (SignedVote.decode E.rlp bytes))
  forwardVote E sv

end

/-- `external_process` for a status. -/
def processStatus (rs : Status) : EngineM F PUnit := do
  let status ← handleRichStatus E rs true
  switchPower E rs
  sendBft E (.status status) "BftStatus"
  let s ← get
  sendCacheProposal E s.eng.height
  let s ← get
  sendCacheVote E s.eng.height

/-- `external_process`. -/
def externalProcess [Content F] : ConsensusInput → EngineM F PUnit
  | .signedProposal bytes => processSignedProposal E bytes
  | .signedVote bytes => processSignedVote E bytes
  | .status rs => processStatus E rs

end ConsensusBft

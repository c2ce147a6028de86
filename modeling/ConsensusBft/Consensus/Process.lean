import ConsensusBft.Consensus.Basic

/-!
# Messages from the BFT core, async messages and replay

The rest of `consensus.rs`: what the engine does with a proposal, a vote or a commit of its own
BFT core, with the results of the threads it spawned, and with the records of the log.

* `handleProposal`, `handleVote`, `handleCommit`, and `coreProcess` over them.
* `asyncProcess` : a verdict or a block that was asked for has arrived.
* `loadRecord`, `loadWalLog` : the replay of the log at startup.
-/

namespace ConsensusBft

open Exec (rejectIf doIf lift mapErr)

variable {F : Type} (E : Env F)

/-! ### Own proposals, votes and commits -/

/-- `self.votes.get_vote_set(height, round, vote_type)`. -/
def getVoteSet (height round : UInt64) (voteType : VoteType) : EngineM F (Option VoteSet) := do
  let s ← get
  let (voteSet, votes) := s.eng.votes.getVoteSet height round voteType
  modify fun s => { s with eng.votes := votes }
  return voteSet

/-- The signed vote that was kept for a vote. -/
def VoteSet.signed (vs : VoteSet) (v : BftVote) : Outcome ConsensusError SignedVote :=
  match vs.votePair.lookup v with
  | some signedVote => .ok signedVote
  | none => .error (.err .loseSignedVote)

/-- The lock votes of a proposal, looked up under the height and **round of the proposal**. -/
def collectLockVotes (proposal : BftProposal) : EngineM F (List SignedVote) :=
  if proposal.lockRound.isSome then do
    match ← getVoteSet proposal.height proposal.round .prevote with
    | none => throw (.err .noVoteset)
    | some voteSet => lift (proposal.lockVotes.mapM voteSet.signed)
  else return []

/-- The proof that a proposal of the current height carries. -/
def proofFor (hash : Hash) : EngineM F Proof := do
  let s ← get
  if s.eng.height = 1 then
    return { height := 0, round := 0, blockHash := hash, precommitVotes := ∅ }
  else match s.eng.proof with
    | some proof => return proof
    | none => throw .panicked

/-- `build_signed_proposal`. -/
def buildSignedProposal (proposal : BftProposal) : EngineM F SignedProposal := do
  let s ← get
  rejectIf (s.eng.proof.isNone ∧ s.eng.height ≠ 1) .missingProof
  let hash := proposal.content
  let lockVotes ← collectLockVotes proposal
  let proof ← proofFor hash
  let signedProposal : Proposal :=
    { height := proposal.height
      round := proposal.round
      hash
      proof
      lockRound := proposal.lockRound
      lockVotes
      proposer := proposal.proposer }
  let sig ← callSign E (E.support.hash signedProposal.rlpBytes)
  let sig ← orErr sig fun e => .supportErr ("Sign proposal error " ++ e)
  return { proposal := signedProposal, signature := sig }

/-- `handle_proposal`: the encoded signed proposal with its block. -/
def handleProposal [Content F] (proposal : BftProposal) (needWal : Bool) : EngineM F Bytes := do
  let height := proposal.height
  let s ← get
  rejectIf (height ≠ s.eng.height) .bftCoreErr
  let hash := proposal.content
  doIf (E.walOn && needWal)
    (saveJson E height LOG_TYPE_PROPOSAL "BftProposal" (E.serde.bftProposal.toString proposal))
  let signedProposal ← buildSignedProposal E proposal
  modify fun s =>
    { s with eng.proposals := (s.eng.proposals.add height proposal.round signedProposal).2 }
  let s ← get
  match s.eng.blockOriginCache.lookup hash with
  | some content => do
    let contentEncode ← orErr (Content.encode content) fun _ => .encodeErr
    let encode :=
      combine signedProposal.rlpBytes (encodeBlock s.eng.height contentEncode hash)
    checkProposal E hash content encode proposal.lockRound.isSome true
    return encode
  | none => throw (.err .loseBlock)

/-- `handle_vote`. -/
def handleVote (vote : BftVote) (needWal : Bool) : EngineM F SignedVote := do
  let height := vote.height
  let s ← get
  rejectIf (height < s.eng.height) .bftCoreErr
  doIf (E.walOn && needWal)
    (saveJson E height LOG_TYPE_VOTE "BftVote" (E.serde.bftVote.toString vote))
  let vtype := vote.voteType.toVoteType
  let signedVote := Vote.fromBftVote vote vtype
  let signature ← callSign E (E.support.hash signedVote.rlpBytes)
  let signature ← orErr signature fun e => .supportErr ("Sign vote error " ++ e)
  let res : SignedVote := { vote := signedVote, signature }
  modify fun s => { s with eng.votes := (s.eng.votes.add height vote.round vtype vote res).2 }
  return res

/-- One turn of the loop of `generate_proof`. -/
def addSignature (voteSet : VoteSet) (tmp : HashMap Address Signature) (v : BftVote) :
    Outcome ConsensusError (HashMap Address Signature) := do
  let signedVote ← voteSet.signed v
  return tmp.orInsert v.voter signedVote.signature

/-- The signatures of the votes of a proof, the first one for each voter. -/
def collectSignatures (voteSet : VoteSet) (votes : List BftVote) :
    Outcome ConsensusError (HashMap Address Signature) :=
  votes.foldlM (addSignature voteSet) ∅

/-- `generate_proof`. -/
def generateProof (height round : UInt64) (blockHash : Hash) (votes : List BftVote) :
    EngineM F Proof := do
  match ← getVoteSet height round .precommit with
  | some voteSet => do
    let precommitVotes ← lift (collectSignatures voteSet votes)
    return { height, round, blockHash, precommitVotes }
  | none => throw (.err .noVoteset)

/-- `handle_commit`. -/
def handleCommit (commit : BftCommit) (needWal : Bool) : EngineM F (Commit F) := do
  let height := commit.height
  let s ← get
  rejectIf (height < s.eng.height) .bftCoreErr
  doIf (E.walOn && needWal)
    (saveJson E height LOG_TYPE_COMMIT "BftCommit" (E.serde.bftCommit.toString commit))
  let s ← get
  match s.eng.blockOriginCache.lookup commit.proposal with
  | some proposal => do
    let proof ← generateProof height commit.round commit.proposal commit.lockVotes
    modify fun s => { s with eng.proof := some proof }
    return { height, result := proposal, proof, address := commit.address }
  | none => throw (.err .loseBlock)

/-- `core_process`. -/
def coreProcess [Content F] : CoreOutput → EngineM F PUnit
  | .proposal p => do
    let sp ← handleProposal E p true
    let res ← callTransmit E (.signedProposal sp)
    let _ ← orErr res fun e => .supportErr ("Transmit signed proposal error " ++ e)
  | .vote v => do
    let sv ← handleVote E v true
    let res ← callTransmit E (.signedVote sv.rlpBytes)
    let _ ← orErr res fun e => .supportErr ("Transmit signed vote error " ++ e)
  | .commit c => do
    let commit ← handleCommit E c true
    let res ← callCommit E commit
    let status ← orErr res fun e => .supportErr ("Commit proposal error " ++ e)
    externalProcess E (.status status)
  | .getProposalRequest h => askForProposal E h

/-! ### Results of the spawned threads -/

/-- Hand a feed to the BFT core and keep its block under its own hash; `name` is the name the
error text uses. -/
def acceptFeed [Content F] (f : Feed F) (name : String) : EngineM F PUnit := do
  let hash := Content.hash f.content
  sendBft E (.feed ⟨f.height, hash⟩) name
  modify fun s =>
    { s with eng.blockOriginCache := s.eng.blockOriginCache.orInsert hash f.content }

/-- Hand a verdict to the BFT core and keep it; `name` is the name the error text uses. -/
def acceptVerdict (vr : VerifyResp) (name : String) : EngineM F PUnit := do
  sendBft E (.verifyResp vr.toBftResp) name
  modify fun s =>
    { s with eng.verifiedBlock := s.eng.verifiedBlock.orInsert vr.proposal vr.isPass }

/-- `async_process`. -/
def asyncProcess [Content F] : AsyncMsg F → EngineM F PUnit
  | .verifyResp vr => do
    acceptVerdict E vr "VerifyResp"
    doIf E.walOn do
      let s ← get
      saveJson E s.eng.height LOG_TYPE_VERIFY_BLOCK_PESP "VerifyResp"
        (E.serde.verifyResp.toString vr)
  | .feed f => do
    acceptFeed E f "Feed"
    doIf E.walOn do
      let s ← get
      saveJson E s.eng.height LOG_TYPE_BLOCK_TXS "Feed" (E.serde.feed.toString f)

/-! ### Replay -/

/-- The decoding steps of `load_wal_log` for a signed proposal. -/
def decodeLogged [Content F] (msg : Bytes) :
    Outcome ConsensusError (SignedProposal × F × Hash) := do
  let (sp, block) ← extract E.overflowChecks msg
  let signedProposal ← mapErr
    (fun e => .decodeErr ("Rlp decode signed proposal error " ++ e.debug))
    (SignedProposal.decode E.rlp sp)
  let (_, b, hash) ← mapErr (fun e => .decodeErr ("Rlp decode block error " ++ e.debug))
    (decodeBlock E.overflowChecks block)
  match Content.decode b with
  | .error e => .error (.err (.decodeErr ("Rlp decode block error " ++ e)))
  | .ok block => .ok (signedProposal, block, hash)

/-- Replay of a logged signed proposal, once its block is cached.  A proposal of the window of
future heights is cached and, unlike a live one, also handled. -/
def replayProposal (signedProposal : SignedProposal) (block : F) (msg : Bytes) :
    EngineM F PUnit := do
  let s ← get
  let height := signedProposal.proposal.height
  doIf (inWindow height s.eng.height) do
    modify fun s => { s with
      eng.proposalCache := s.eng.proposalCache.pushEntry height (signedProposal, block, msg) }
  forwardProposal E signedProposal msg

/-- Replay of a logged signed proposal. -/
def loadSignedProposal [Content F] (msg : Bytes) : EngineM F PUnit := do
  let (signedProposal, block, hash) ← lift (decodeLogged E msg)
  modify fun s => { s with eng.blockOriginCache := s.eng.blockOriginCache.orInsert hash block }
  replayProposal E signedProposal block msg

/-- `from_slice(&msg)` with its error mapped. -/
def loadJson {α : Type} (json : Json α) (name : String) (msg : Bytes) : EngineM F α :=
  match json.fromSlice msg with
  | some a => pure a
  | none => throw (.err (.deJsonErr name))

/-- Replay of a logged vote. -/
def loadSignedVote (msg : Bytes) : EngineM F PUnit := do
  let msg ← loadJson E.serde.signedVote "SignedVote" msg
  Exec.ifOk (handleSignedVote E msg false) fun vote => sendBft E (.vote vote) "BftVote"

/-- Replay of a logged status.  Unlike a live one it does not switch the consensus power. -/
def loadStatus (msg : Bytes) : EngineM F PUnit := do
  let msg ← loadJson E.serde.status "Status" msg
  Exec.ifOk (handleRichStatus E msg false) fun status => sendBft E (.status status) "BftStatus"

/-- Replay of a logged proposal of the own BFT core. -/
def loadProposal [Content F] (msg : Bytes) : EngineM F PUnit := do
  let proposal ← loadJson E.serde.bftProposal "BftProposal" msg
  Exec.ifOk (handleProposal E proposal false) fun signedProposal => do
    let res ← callTransmit E (.signedProposal signedProposal)
    let _ ← orErr res fun _ => .sendMsgErr "SignedProposal"

/-- Replay of a logged vote of the own BFT core. -/
def loadVote (msg : Bytes) : EngineM F PUnit := do
  let vote ← loadJson E.serde.bftVote "BftVote" msg
  Exec.ifOk (handleVote E vote false) fun signedVote => do
    let res ← callTransmit E (.signedVote signedVote.rlpBytes)
    let _ ← orErr res fun _ => .sendMsgErr "SignedVote"

/-- Replay of a logged commit; the status that the application returns is dropped. -/
def loadCommit (msg : Bytes) : EngineM F PUnit := do
  let commit ← loadJson E.serde.bftCommit "BftCommit" msg
  Exec.ifOk (handleCommit E commit true) fun commit => do
    let res ← callCommit E commit
    let _ ← orErr res fun _ => .sendMsgErr "Commit"

/-- One turn of the loop of `load_wal_log`. -/
def loadRecord [Content F] (record : UInt8 × Bytes) : EngineM F PUnit :=
  let (msgType, msg) := record
  if msgType = LOG_TYPE_SIGNED_PROPOSAL then loadSignedProposal E msg
  else if msgType = LOG_TYPE_RAW_BYTES then loadSignedVote E msg
  else if msgType = LOG_TYPE_RICH_STATUS then loadStatus E msg
  else if msgType = LOG_TYPE_BLOCK_TXS then do
    let msg ← loadJson E.serde.feed "Feed" msg
    acceptFeed E msg "BftFeed"
  else if msgType = LOG_TYPE_VERIFY_BLOCK_PESP then do
    let msg ← loadJson E.serde.verifyResp "VerifyResp" msg
    acceptVerdict E msg "BftVerifyResp"
  else if msgType = LOG_TYPE_PROPOSAL then loadProposal E msg
  else if msgType = LOG_TYPE_VOTE then loadVote E msg
  else if msgType = LOG_TYPE_COMMIT then loadCommit E msg
  else pure ⟨⟩

/-- `load_wal_log`: the replay ends at the first record that returns an error. -/
def loadWalLog [Content F] : EngineM F PUnit := do
  match ← Exec.zoomTry State.walState State.setWal (Wal.load E.io) with
  | .ok records => records.forM (loadRecord E)
  | .error _ => pure ⟨⟩

end ConsensusBft

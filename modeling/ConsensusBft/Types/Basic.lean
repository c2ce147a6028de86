import ConsensusBft.Data.HashMap
import ConsensusBft.Data.Rlp
import Mathlib.Data.Finset.Card

/-!
# The data types of the engine

The messages of `types.rs`, the types shared with the BFT core, and the errors of `error.rs`.
Heights and rounds are `u64`, weights are `u32`, addresses, hashes and signatures are byte
strings.  A string is represented by its UTF-8 bytes where only its bytes matter.

* `Proposal`, `Vote`, `Proof` and their signed forms are what nodes exchange.
* `BftProposal`, `BftVote`, `BftCommit`, ... are what the engine exchanges with the BFT core.
* `AuthorityManage` holds the authority list of the current height and of the one before.
-/

namespace ConsensusBft

/-- Address type. -/
abbrev Address := Bytes
/-- Hash type. -/
abbrev Hash := Bytes
/-- Signature type. -/
abbrev Signature := Bytes

/-- The errors of the engine. -/
inductive ConsensusError where
  | blockVerifyDiff
  | decodeErr (msg : String)
  | encodeErr
  | sendMsgErr (msg : String)
  | recvMsgErr
  | supportErr (msg : String)
  | serJsonErr (msg : String)
  | deJsonErr (msg : String)
  | saveWalErr (msg : String)
  | bftCoreErr
  | proofErr
  | loseBlock
  | loseSignedVote
  | missingProof
  | missingPrevHash
  | noVoteset
  | signatureErr
  | obsoleteMsg
  | futureMsg
  | noAuthorityList
  | invalidProposer
  | invalidVoter
  | illegalProposalLock
deriving DecidableEq, Repr

/-- The debug text of an error. -/
def ConsensusError.debug : ConsensusError → String
  | .blockVerifyDiff => "BlockVerifyDiff"
  | .decodeErr msg => "DecodeErr(" ++ msg.quote ++ ")"
  | .encodeErr => "EncodeErr"
  | .sendMsgErr msg => "SendMsgErr(" ++ msg.quote ++ ")"
  | .recvMsgErr => "RecvMsgErr"
  | .supportErr msg => "SupportErr(" ++ msg.quote ++ ")"
  | .serJsonErr msg => "SerJsonErr(" ++ msg.quote ++ ")"
  | .deJsonErr msg => "DeJsonErr(" ++ msg.quote ++ ")"
  | .saveWalErr msg => "SaveWalErr(" ++ msg.quote ++ ")"
  | .bftCoreErr => "BftCoreErr"
  | .proofErr => "ProofErr"
  | .loseBlock => "LoseBlock"
  | .loseSignedVote => "LoseSignedVote"
  | .missingProof => "MissingProof"
  | .missingPrevHash => "MissingPrevHash"
  | .noVoteset => "NoVoteset"
  | .signatureErr => "SignatureErr"
  | .obsoleteMsg => "ObsoleteMsg"
  | .futureMsg => "FutureMsg"
  | .noAuthorityList => "NoAuthorityList"
  | .invalidProposer => "InvalidProposer"
  | .invalidVoter => "InvalidVoter"
  | .illegalProposalLock => "IllegalProposalLock"

/-! ### The types of the BFT core -/

/-- Vote types of the BFT core. -/
inductive BftVoteType where
  | prevote
  | precommit
deriving DecidableEq, Repr

/-- A vote of the BFT core. -/
structure BftVote where
  voteType : BftVoteType
  height : UInt64
  round : UInt64
  proposal : Hash
  voter : Address
deriving DecidableEq, Repr

/-- A proposal of the BFT core. -/
structure BftProposal where
  height : UInt64
  round : UInt64
  content : Hash
  lockRound : Option UInt64
  lockVotes : List BftVote
  proposer : Address
deriving DecidableEq, Repr

/-- The BFT core asks to commit a proposal that a quorum of precommits has locked. -/
structure BftCommit where
  height : UInt64
  round : UInt64
  proposal : Hash
  lockVotes : List BftVote
  address : Address
deriving DecidableEq, Repr

/-- A status as the BFT core receives it. -/
structure BftStatus where
  height : UInt64
  interval : Option UInt64
  authorityList : List Address
deriving DecidableEq, Repr

/-- A feed as the BFT core receives it. -/
structure BftFeed where
  height : UInt64
  proposal : Hash
deriving DecidableEq, Repr

/-- A verify response as the BFT core receives it. -/
structure BftVerifyResp where
  isPass : Bool
  proposal : Hash
deriving DecidableEq, Repr

/-- What the engine sends to the BFT core. -/
inductive CoreInput where
  | proposal (p : BftProposal)
  | vote (v : BftVote)
  | feed (f : BftFeed)
  | status (s : BftStatus)
  | verifyResp (r : BftVerifyResp)
  | start
  | pause
deriving DecidableEq, Repr

/-- What the BFT core sends to the engine. -/
inductive CoreOutput where
  | proposal (p : BftProposal)
  | vote (v : BftVote)
  | commit (c : BftCommit)
  | getProposalRequest (height : UInt64)
deriving DecidableEq, Repr

/-! ### Votes, proofs and proposals -/

/-- Vote types. -/
inductive VoteType where
  | prevote
  | precommit
deriving DecidableEq, Repr

/-- The byte that stands for a vote type. -/
def VoteType.toU8 : VoteType → UInt8
  | .prevote => 0
  | .precommit => 1

/-- A vote. -/
structure Vote where
  voteType : VoteType
  height : UInt64
  round : UInt64
  proposal : Hash
  voter : Address
deriving DecidableEq, Repr

/-- A signed vote. -/
structure SignedVote where
  vote : Vote
  signature : Signature
deriving DecidableEq, Repr

/-- A proof: the precommit signatures of a block, by voter. -/
structure Proof where
  blockHash : Hash
  height : UInt64
  round : UInt64
  precommitVotes : HashMap Address Signature

/-- A proposal.  Without a lock, `lockRound` is `none` and `lockVotes` is empty. -/
structure Proposal where
  height : UInt64
  round : UInt64
  hash : Hash
  proof : Proof
  lockRound : Option UInt64
  lockVotes : List SignedVote
  proposer : Address

/-- A signed proposal. -/
structure SignedProposal where
  proposal : Proposal
  signature : Signature

/-- The type of a vote in the BFT core. -/
def VoteType.toBft : VoteType → BftVoteType
  | .prevote => .prevote
  | .precommit => .precommit

/-- The type under which a vote of the BFT core is signed. -/
def BftVoteType.toVoteType : BftVoteType → VoteType
  | .prevote => .prevote
  | .precommit => .precommit

/-- `Vote::to_bft_vote`. -/
def Vote.toBftVote (v : Vote) : BftVote where
  voteType := v.voteType.toBft
  height := v.height
  round := v.round
  proposal := v.proposal
  voter := v.voter

/-- `Vote::from_bft_vote`. -/
def Vote.fromBftVote (v : BftVote) (vtype : VoteType) : Vote where
  voteType := vtype
  height := v.height
  round := v.round
  proposal := v.proposal
  voter := v.voter

/-- `Proposal::to_bft_proposal`: lock votes without a lock round are dropped. -/
def Proposal.toBftProposal (p : Proposal) (hash : Hash) : BftProposal where
  height := p.height
  round := p.round
  content := hash
  lockRound := p.lockRound
  lockVotes := if p.lockRound.isSome then p.lockVotes.map fun v => v.vote.toBftVote else []
  proposer := p.proposer

@[simp] theorem toVoteType_toBft (t : VoteType) : t.toBft.toVoteType = t := by cases t <;> rfl

@[simp] theorem toBft_toVoteType (t : BftVoteType) : t.toVoteType.toBft = t := by cases t <;> rfl

@[simp] theorem toBftVote_fromBftVote (v : BftVote) :
    (Vote.fromBftVote v v.voteType.toVoteType).toBftVote = v := by
  cases v
  simp [Vote.fromBftVote, Vote.toBftVote]

/-- A vote is determined by what the BFT core sees of it. -/
theorem Vote.toBftVote_injective : Function.Injective Vote.toBftVote := by
  intro v w h
  have ht : v.voteType = w.voteType := by
    have := congrArg (fun b => b.voteType.toVoteType) h
    simpa [Vote.toBftVote] using this
  cases v
  cases w
  simp_all [Vote.toBftVote]

/-! ### Authorities -/

/-- A node. -/
structure Node where
  address : Address
  proposalWeight : UInt32
  voteWeight : UInt32
deriving DecidableEq, Repr

/-- A node with the default weights. -/
def Node.new (address : Address) : Node := ⟨address, 1, 1⟩

/-- `into_addr_set`: the addresses of a list of nodes, in order. -/
def intoAddrSet (nodes : List Node) : List Address := nodes.map Node.address

/-- The authorities of the current height and of the height before. -/
structure AuthorityManage where
  authorities : List Node
  addressSet : Finset Address
  authoritiesOld : List Node
  addressSetOld : Finset Address
  authorityHOld : UInt64

namespace AuthorityManage

/-- `AuthorityManage::default`; the height is `INIT_HEIGHT`. -/
def default : AuthorityManage := ⟨[], ∅, [], ∅, 0⟩

/-- `AuthorityManage::update_authority`. -/
def updateAuthority (a : AuthorityManage) (oldHeight : UInt64) (authList : List Node) :
    AuthorityManage where
  authorities := authList
  addressSet := (authList.map Node.address).toFinset
  authoritiesOld := a.authorities
  addressSetOld := a.addressSet
  authorityHOld := oldHeight

/-- `AuthorityManage::is_above_threshold`: both branches of the source count the old list. -/
def isAboveThreshold (a : AuthorityManage) (len : ℕ) (isOld : Bool) : Bool :=
  if isOld then
    if len * 3 > a.authoritiesOld.length * 2 then true else false
  else if len * 3 > a.authoritiesOld.length * 2 then true
  else false

/-- `AuthorityManage::contains_sender`: both branches of the source look at the old set, and one
member is enough. -/
def containsSender (a : AuthorityManage) (sender : Finset Address) (isOld : Bool) : Bool :=
  if isOld then decide (∃ addr ∈ sender, addr ∈ a.addressSetOld)
  else decide (∃ addr ∈ sender, addr ∈ a.addressSetOld)

end AuthorityManage

/-! ### Statuses, feeds, commits and the messages of the engine -/

/-- A rich status: the height of the last block and the authorities of the next one. -/
structure Status where
  height : UInt64
  interval : Option UInt64
  authorityList : List Node
deriving DecidableEq, Repr

/-- `Status::to_bft_status`. -/
def Status.toBftStatus (s : Status) : BftStatus where
  height := s.height
  interval := s.interval
  authorityList := s.authorityList.map Node.address

/-- Verify response. -/
structure VerifyResp where
  isPass : Bool
  proposal : Hash
deriving DecidableEq, Repr

/-- `VerifyResp::to_bft_resp`. -/
def VerifyResp.toBftResp (r : VerifyResp) : BftVerifyResp := ⟨r.isPass, r.proposal⟩

/-- A feed: a block proposed for a height. -/
structure Feed (F : Type) where
  height : UInt64
  content : F

/-- A commit, as it is handed to the application. -/
structure Commit (F : Type) where
  height : UInt64
  result : F
  proof : Proof
  address : Address

/-- Messages from outside. -/
inductive ConsensusInput where
  | signedProposal (bytes : Bytes)
  | signedVote (bytes : Bytes)
  | status (s : Status)
deriving DecidableEq, Repr

/-- Messages the engine sends to itself from the threads it spawns. -/
inductive AsyncMsg (F : Type) where
  | verifyResp (r : VerifyResp)
  | feed (f : Feed F)

/-- Messages to other nodes. -/
inductive ConsensusOutput (F : Type) where
  | signedProposal (bytes : Bytes)
  | signedVote (bytes : Bytes)
  | commit (c : Commit F)

end ConsensusBft

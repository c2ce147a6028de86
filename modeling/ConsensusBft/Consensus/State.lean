import ConsensusBft.Collection.Basic
import ConsensusBft.Util.Basic
import ConsensusBft.Wal.Basic

/-!
# The engine and its surroundings

* `Content F`, `Support F` : the two traits that the application implements.  Hashing and
  verifying a signature are functions of their arguments; every other call of the application may
  answer differently each time, so it also receives the number of calls made before.
* `Env F` : everything that is fixed for a run: the application, the serializers, the outcomes of
  sends and file operations, and the build flags.
* `Consensus F` : the fields of the engine.
* `State F` : the engine, its async queue, the disk, and the calls made to the outside so far.

Every call is recorded together with the engine and the disk as they were at that moment (`Call`),
so that a property of what is sent can refer to the height, the authorities and the log at the time
of sending.
-/

namespace ConsensusBft

/-- The content of a proposal. -/
class Content (F : Type) where
  encode : F → Except String Bytes
  decode : Bytes → Except String F
  hash : F → Hash

/-- What the application provides.  An error is given by its debug text. -/
structure Support (F : Type) where
  getContent : ℕ → UInt64 → Except String F
  transmit : ℕ → ConsensusOutput F → Except String Unit
  checkProposal : ℕ → Hash → F → Bytes → Bool → Bool → Except String Unit
  commit : ℕ → Commit F → Except String Status
  sign : ℕ → Hash → Except String Signature
  verifySignature : Signature → Hash → Except String Address
  hash : Bytes → Hash

/-- The JSON serializer of one type. -/
structure Json (α : Type) where
  toString : α → Option Bytes
  fromSlice : Bytes → Option α

/-- The JSON serializers of the types that are logged. -/
structure Serde (F : Type) where
  verifyResp : Json VerifyResp
  feed : Json (Feed F)
  signedProposal : Json SignedProposal
  signedVote : Json SignedVote
  status : Json Status
  bftProposal : Json BftProposal
  bftVote : Json BftVote
  bftCommit : Json BftCommit

/-- `from_slice` inverts `to_string`. -/
def Json.Inverts {α : Type} (json : Json α) : Prop :=
  ∀ a text, json.toString a = some text → json.fromSlice text = some a

/-- What is assumed of the serializer. -/
structure Serde.Inverts (serde : Serde F) : Prop where
  verifyResp : serde.verifyResp.Inverts
  feed : serde.feed.Inverts
  signedVote : serde.signedVote.Inverts
  status : serde.status.Inverts
  bftProposal : serde.bftProposal.Inverts
  bftVote : serde.bftVote.Inverts
  bftCommit : serde.bftCommit.Inverts
  /-- The text of a signed proposal starts with the name of its first field: `\x7b"proposal"`. -/
  signedProposal : ∀ sp text, serde.signedProposal.toString sp = some text →
    [123, 34, 112, 114, 111, 112, 111, 115, 97] <+: text

/-- What is fixed for a run of the engine. -/
structure Env (F : Type) where
  support : Support F
  serde : Serde F
  rlp : Rlp.Reader
  /-- Whether the call with this number, if it is a send to the BFT core, is delivered. -/
  delivers : ℕ → Bool
  /-- The outcome of the file operation with this number. -/
  io : ℕ → IoOutcome
  /-- The feature `wal_on`. -/
  walOn : Bool
  /-- Whether the build checks arithmetic for overflow. -/
  overflowChecks : Bool

/-- The initial height. -/
def INIT_HEIGHT : UInt64 := 0

/-- The fields of the engine. -/
structure Consensus (F : Type) where
  height : UInt64
  block : Option Bytes
  verifiedBlock : HashMap Hash Bool
  address : Address
  authority : AuthorityManage
  votes : VoteCollector
  proposals : ProposalCollector
  proof : Option Proof
  walLog : Wal
  blockOriginCache : HashMap Hash F
  proposalCache : HashMap UInt64 (List (SignedProposal × F × Bytes))
  voteCache : HashMap UInt64 (List SignedVote)
  consensusPower : Bool

/-- A call to the outside and how it ended. -/
inductive Event (F : Type) where
  | bft (msg : CoreInput) (delivered : Bool)
  | transmit (msg : ConsensusOutput F) (res : Except String Unit)
  | commit (c : Commit F) (res : Except String Status)
  | checkProposal (hash : Hash) (block : F) (signedProposalHash : Bytes) (isLock isBySelf : Bool)
      (res : Except String Unit)
  | getContent (height : UInt64) (res : Except String F)
  | sign (hash : Hash) (res : Except String Signature)

/-- A call, with the engine and the disk at the time of the call. -/
structure Call (F : Type) where
  eng : Consensus F
  disk : Disk
  event : Event F

/-- The engine and its surroundings. -/
structure State (F : Type) where
  eng : Consensus F
  asyncQueue : List (AsyncMsg F)
  disk : Disk
  calls : List (Call F)

/-- The computations of the engine. -/
abbrev EngineM (F : Type) := Exec ConsensusError (State F)

namespace State

variable {F : Type}

/-- Record a call. -/
def record (s : State F) (e : Event F) : State F :=
  { s with calls := s.calls ++ [⟨s.eng, s.disk, e⟩] }

/-- The log and the disk as seen by `Wal`. -/
def walState (s : State F) : WalState := ⟨s.eng.walLog, s.disk⟩

/-- The state after an operation of the log. -/
def setWal (w : WalState) (s : State F) : State F :=
  { s with eng.walLog := w.wal, disk := w.disk }

end State

end ConsensusBft

import ConsensusBft.Consensus.Life

/-!
# A reference application

An application with which runs can be computed: a block is its own encoding and its own hash, a
signature is the address of its signer, and everything it is asked for succeeds.  The log is off,
all sends are delivered and all file operations succeed.

* `Block`, `Reference.support`, `Reference.env` : the application and its surroundings.
* `Reference.signedVote`, `Reference.signedProposal` : signed messages of a given node.
* `Reference.voteBytes`, `Reference.proposalBytes` : what travels on the wire.
* `Reference.run` : the run on given inputs, computed; `Reference.readyRun` is what most start with,
  `Reference.precommitRun` leads up to `Reference.firstCommit`.
-/

namespace ConsensusBft

/-- A block of the reference application. -/
structure Block where
  bytes : Bytes
deriving DecidableEq, Repr

instance : Content Block where
  encode b := .ok b.bytes
  decode b := .ok ⟨b⟩
  hash b := b.bytes

/-- A block is decoded as it was. -/
theorem decode_of_encode (c : Block) (b : Bytes) (h : Content.encode c = .ok b) :
    (Content.decode b : Except String Block) = .ok c := by
  obtain rfl : c.bytes = b := Except.ok.inj h
  rfl

namespace Reference

/-- The application of the node `address`, which is the only authority it knows. -/
def support (address : Address) : Support Block where
  getContent _ height := .ok ⟨[height.toUInt8]⟩
  transmit _ _ := .ok ()
  checkProposal _ _ _ _ _ _ := .ok ()
  commit _ c := .ok ⟨c.height, none, [Node.new address]⟩
  sign _ _ := .ok address
  verifySignature sig _ := if sig = [] then .error "empty signature" else .ok sig
  hash b := b

/-- No message is logged, so no serializer is needed. -/
def json (α : Type) : Json α := ⟨fun _ => none, fun _ => none⟩

/-- The surroundings of the node `address`, in a build with overflow checks. -/
def env (address : Address) : Env Block where
  support := support address
  serde := ⟨json _, json _, json _, json _, json _, json _, json _, json _⟩
  rlp := Rlp.reader
  delivers _ := true
  io _ := .ok
  walOn := false
  overflowChecks := true

/-- An empty directory. -/
def disk : Disk := ⟨true, none, ∅, 0⟩

/-- A vote of `voter`, signed by it. -/
def signedVote (voteType : VoteType) (height round : UInt64) (proposal : Hash)
    (voter : Address) : SignedVote :=
  ⟨⟨voteType, height, round, proposal, voter⟩, voter⟩

/-- The bytes of a signed vote. -/
def voteBytes (voteType : VoteType) (height round : UInt64) (proposal : Hash)
    (voter : Address) : Bytes :=
  (signedVote voteType height round proposal voter).rlpBytes

/-- A proposal of `proposer`, signed by it, with an empty proof of the height before. -/
def signedProposal (height round : UInt64) (hash : Hash) (lockRound : Option UInt64)
    (lockVotes : List SignedVote) (proposer : Address) : SignedProposal where
  proposal :=
    { height, round, hash, lockRound, lockVotes, proposer
      proof := ⟨hash, 0, 0, ∅⟩ }
  signature := proposer

/-- The bytes of a signed proposal together with a block and the hash declared for it. -/
def proposalBytes (sp : SignedProposal) (block : Bytes) (declared : Hash) : Bytes :=
  combine sp.rlpBytes (encodeBlock sp.proposal.height block declared)

/-- The engine of the only authority enters height `1`. -/
def readyRun (address : Address) : List Input :=
  [.external (.status ⟨0, none, [Node.new address]⟩)]

/-- The node `[7]` makes a block for height `1` and precommits it. -/
def precommitRun : List Input :=
  readyRun [7] ++ [.core (.getProposalRequest 1), .async,
    .core (.vote ⟨.precommit, 1, 0, [1], [7]⟩)]

/-- The commit of that block, which the application answers with the status of height `1`. -/
def firstCommit : BftCommit := ⟨1, 0, [1], [⟨.precommit, 1, 0, [1], [7]⟩], [7]⟩

/-- The run on `is` of the node `address`, started on an empty directory. -/
def run (E : Env Block) (address : Address) (is : List Input) : Option (Process Block) :=
  (boot E address disk).bind fun p => Machine.runFrom (next E) p is

/-- What a computed run shows holds of a run of the engine. -/
theorem exists_life (E : Env Block) (address : Address) (is : List Input)
    (f : Process Block → Bool) (h : (run E address is).any f = true) :
    ∃ p, Life E address disk is p ∧ f p = true := by
  obtain ⟨p, hp, hf⟩ := (Option.any_eq_true _ _).1 h
  obtain ⟨p₀, hb, hr⟩ := Option.bind_eq_some_iff.1 hp
  exact ⟨p, ⟨p₀, hb, hr⟩, hf⟩

/-- The same for a run and its last turn. -/
theorem exists_turn (E : Env Block) (address : Address) (is : List Input) (i : Input)
    (f g : Process Block → Bool) (hf : (run E address is).any f = true)
    (hg : (run E address (is ++ [i])).any g = true) :
    ∃ p p', Life E address disk is p ∧ Life E address disk (is ++ [i]) p' ∧
      next E i p = some p' ∧ f p = true ∧ g p' = true := by
  obtain ⟨p, hl, hfp⟩ := exists_life E address is f hf
  obtain ⟨p', hl', hgp⟩ := exists_life E address (is ++ [i]) g hg
  obtain ⟨p₁, p₂, hl₁, hn, hl₂⟩ := hl'.split
  obtain rfl := hl₁.unique hl
  obtain rfl := hl₂.unique hl'
  exact ⟨p₁, p₂, hl, hl', hn, hfp, hgp⟩

end Reference

end ConsensusBft

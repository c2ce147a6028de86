import ConsensusBft.Consensus.Run

/-!
# The atomic updates of the engine

Whatever the engine does is a sequence of atomic updates of its state.  `Update E K` lists them,
each with the guard under which the code makes it; an invariant of the engine is proved by one
case analysis over this list (`Update.invariant`).

* `Supply F` : what the inputs bring into the engine.  Guards refer to it instead of to the
  inputs, so that an invariant can be stated relative to what was received.
* `VoteAdmitted`, `ProposalAdmitted`, `ProposalReady`, `CommitReady` : the guards of the calls to
  the outside.
* `Filed` : the guards of the three ways a vote enters the collector.
* `Level E K`, `Quiet E K` : the updates that do not move the height, and those that change neither
  the height, nor the authorities, nor the cached blocks.
* `Cached E K` : cached messages were received, and each is cached under its own height.
-/

namespace ConsensusBft

variable {F : Type}

/-- What the inputs bring into the engine. -/
structure Supply (F : Type) where
  /-- Signed votes. -/
  vote : SignedVote → Prop
  /-- Signed proposals. -/
  proposal : SignedProposal → Prop
  /-- Blocks under a declared hash. -/
  block : Hash → F → Prop
  /-- Messages of the BFT core. -/
  core : CoreOutput → Prop

/-- The signature of a vote verifies to its voter. -/
def SignedVote.Genuine (E : Env F) (sv : SignedVote) : Prop :=
  E.support.verifySignature sv.signature (E.support.hash sv.vote.rlpBytes) = .ok sv.vote.voter

/-- The signature of a proposal verifies to its proposer. -/
def SignedProposal.Genuine (E : Env F) (sp : SignedProposal) : Prop :=
  E.support.verifySignature sp.signature (E.support.hash sp.proposal.rlpBytes) =
    .ok sp.proposal.proposer

/-- `address` is the proposer of a height and round among the authorities that are selected for
the height. -/
def AuthorityManage.Proposes (a : AuthorityManage) (height round : UInt64)
    (address : Address) : Prop :=
  (intoAddrSet (a.listAt height))[(height + round).toNat % (a.listAt height).length]? = some address

/-- A vote that may be handed to the BFT core. -/
def VoteAdmitted (E : Env F) (K : Supply F) (eng : Consensus F) (v : BftVote) : Prop :=
  ∃ sv, K.vote sv ∧ v = sv.vote.toBftVote ∧ sv.Genuine E ∧
    (v.height = eng.height ∨ v.height = eng.height - 1) ∧ eng.height ≠ 0 ∧
    v.voter ∈ eng.authority.setAt v.height

/-- A proposal that may be handed to the BFT core. -/
def ProposalAdmitted (E : Env F) (K : Supply F) (eng : Consensus F) (p : BftProposal) : Prop :=
  ∃ sp, K.proposal sp ∧ p = sp.proposal.toBftProposal sp.proposal.hash ∧ sp.Genuine E ∧
    (p.height = eng.height ∨ p.height = eng.height - 1) ∧
    (E.overflowChecks = true → eng.height ≠ 0) ∧
    eng.authority.Proposes p.height p.round p.proposer ∧
    (E.overflowChecks = true → p.height.toNat + p.round.toNat < 2 ^ 64)

/-- A signed proposal that may be transmitted: it comes with the block that is cached under its
hash. -/
def ProposalReady [Content F] (eng : Consensus F) (bytes : Bytes) : Prop :=
  ∃ (sp : SignedProposal) (block : F) (encoded : Bytes),
    bytes = combine sp.rlpBytes (encodeBlock eng.height encoded sp.proposal.hash) ∧
    eng.blockOriginCache.lookup sp.proposal.hash = some block ∧
    Content.encode block = .ok encoded ∧ sp.proposal.height = eng.height

/-- A commit that may be handed to the application. -/
def CommitReady (eng : Consensus F) (c : Commit F) : Prop :=
  eng.blockOriginCache.lookup c.proof.blockHash = some c.result ∧ eng.proof = some c.proof ∧
    c.proof.height = c.height ∧ eng.height ≤ c.height

/-- The guard of a call. -/
def Permitted [Content F] (E : Env F) (K : Supply F) (s : State F) : Event F → Prop
  | .bft msg delivered =>
    delivered = E.delivers s.calls.length ∧
      match msg with
      | .vote v => VoteAdmitted E K s.eng v
      | .proposal p => ProposalAdmitted E K s.eng p
      | _ => True
  | .transmit msg res =>
    res = E.support.transmit s.calls.length msg ∧
      match msg with
      | .signedProposal bytes => ProposalReady s.eng bytes
      | _ => True
  | .commit c res => res = E.support.commit s.calls.length c ∧ CommitReady s.eng c
  | .checkProposal .. => False
  | _ => True

/-- The guards under which a vote enters the collector. -/
inductive Filed (E : Env F) (K : Supply F) (eng : Consensus F) :
    UInt64 → UInt64 → VoteType → BftVote → SignedVote → Prop
  /-- A vote from outside, under its own coordinates. -/
  | network {sv : SignedVote} (received : K.vote sv) (genuine : sv.Genuine E)
      (height_le : sv.vote.height ≤ eng.height) :
      Filed E K eng sv.vote.height sv.vote.round sv.vote.voteType sv.vote.toBftVote sv
  /-- A lock vote, under the height and lock round of its proposal. -/
  | lock {sp : SignedProposal} {round : UInt64} {sv : SignedVote} (received : K.proposal sp)
      (proposed : sp.Genuine E) (lock : sp.proposal.lockRound = some round)
      (mem : sv ∈ sp.proposal.lockVotes) (genuine : sv.Genuine E) :
      Filed E K eng sp.proposal.height round .prevote sv.vote.toBftVote sv
  /-- A vote of the own BFT core. -/
  | own {v : BftVote} {n : ℕ} {signature : Signature} (received : K.core (.vote v))
      (signed : E.support.sign n
        (E.support.hash (Vote.fromBftVote v v.voteType.toVoteType).rlpBytes) = .ok signature) :
      Filed E K eng v.height v.round v.voteType.toVoteType v
        ⟨Vote.fromBftVote v v.voteType.toVoteType, signature⟩

/-- The guards under which the collector is read. -/
inductive Consulted (K : Supply F) : UInt64 → UInt64 → VoteType → Prop
  | proposal {p : BftProposal} (received : K.core (.proposal p)) (locked : p.lockRound.isSome) :
      Consulted K p.height p.round .prevote
  | commit {c : BftCommit} (received : K.core (.commit c)) :
      Consulted K c.height c.round .precommit

section

variable [Content F] (E : Env F) (K : Supply F)

/-- The atomic updates of the engine. -/
inductive Update : State F → State F → Prop
  /-- The log and the disk. -/
  | log (s : State F) (w : WalState) : Update s (s.setWal w)
  /-- A call to the outside. -/
  | call (s : State F) (e : Event F) (permitted : Permitted E K s e) : Update s (s.record e)
  /-- The application checks a cached block, and its verdict is queued. -/
  | check (s : State F) (hash : Hash) (block : F) (bytes : Bytes) (isLock isBySelf : Bool)
      (res : Except String Unit)
      (cached : s.eng.blockOriginCache.lookup hash = some block)
      (answer : res =
        E.support.checkProposal s.calls.length hash block bytes isLock isBySelf) :
      Update s { s.record (.checkProposal hash block bytes isLock isBySelf res) with
        asyncQueue := s.asyncQueue ++ [.verifyResp ⟨res.isOk, hash⟩] }
  /-- A block that was asked for is queued. -/
  | enqueueFeed (s : State F) (n : ℕ) (f : Feed F)
      (provided : E.support.getContent n f.height = .ok f.content) :
      Update s { s with asyncQueue := s.asyncQueue ++ [.feed f] }
  /-- The head of the queue is taken. -/
  | dequeue (s : State F) (m : AsyncMsg F) (queue : List (AsyncMsg F))
      (head : s.asyncQueue = m :: queue) : Update s { s with asyncQueue := queue }
  /-- A block is cached under a hash that has none. -/
  | cacheBlock (s : State F) (hash : Hash) (block : F)
      (missing : s.eng.blockOriginCache.lookup hash = none)
      (source : K.block hash block ∨ hash = Content.hash block) :
      Update s { s with eng.blockOriginCache := s.eng.blockOriginCache.orInsert hash block }
  /-- A verdict is kept. -/
  | keepVerdict (s : State F) (hash : Hash) (isPass : Bool) :
      Update s { s with eng.verifiedBlock := s.eng.verifiedBlock.orInsert hash isPass }
  /-- The blocks and verdicts of the old height are dropped. -/
  | clear (s : State F) : Update s { s with
      eng.verifiedBlock := ∅
      eng.blockOriginCache := ∅
      eng.block := none }
  /-- The height moves. -/
  | setHeight (s : State F) (height : UInt64) (cleared : s.eng.blockOriginCache = ∅)
      (cleared' : s.eng.verifiedBlock = ∅) : Update s { s with eng.height := height }
  /-- The authorities of a new height. -/
  | setAuthority (s : State F) (list : List Node) : Update s { s with
      eng.authority := s.eng.authority.updateAuthority s.eng.height list }
  /-- Consensus is switched on or off. -/
  | power (s : State F) (on : Bool) : Update s { s with eng.consensusPower := on }
  /-- A vote is stored. -/
  | addVote (s : State F) (height round : UInt64) (voteType : VoteType) (v : BftVote)
      (sv : SignedVote) (filed : Filed E K s.eng height round voteType v sv) :
      Update s { s with eng.votes := (s.eng.votes.add height round voteType v sv).2 }
  /-- A vote set is read. -/
  | readVotes (s : State F) (height round : UInt64) (voteType : VoteType)
      (consulted : Consulted K height round voteType) :
      Update s { s with eng.votes := (s.eng.votes.getVoteSet height round voteType).2 }
  /-- A proposal is stored. -/
  | addProposal (s : State F) (height round : UInt64) (sp : SignedProposal) :
      Update s { s with eng.proposals := (s.eng.proposals.add height round sp).2 }
  /-- A proof is kept. -/
  | setProof (s : State F) (proof : Proof) : Update s { s with eng.proof := some proof }
  /-- A future proposal is cached. -/
  | cacheProposal (s : State F) (sp : SignedProposal) (block : F) (bytes : Bytes)
      (received : K.proposal sp) (window : inWindow sp.proposal.height s.eng.height = true) :
      Update s { s with eng.proposalCache :=
        s.eng.proposalCache.pushEntry sp.proposal.height (sp, block, bytes) }
  /-- A future vote is cached. -/
  | cacheVote (s : State F) (sv : SignedVote) (received : K.vote sv) (genuine : sv.Genuine E)
      (future : s.eng.height < sv.vote.height) :
      Update s { s with eng.voteCache := s.eng.voteCache.pushEntry sv.vote.height sv }
  /-- The cached proposals of a height are taken. -/
  | takeProposals (s : State F) (height : UInt64) :
      Update s { s with eng.proposalCache := s.eng.proposalCache.erase height }
  /-- The cached votes of a height are taken. -/
  | takeVotes (s : State F) (height : UInt64) :
      Update s { s with eng.voteCache := s.eng.voteCache.erase height }

/-- An update that changes neither the height, nor the authorities, nor the cached blocks. -/
structure Quiet (s s' : State F) : Prop where
  update : Update E K s s'
  height_eq : s'.eng.height = s.eng.height
  authority_eq : s'.eng.authority = s.eng.authority
  blocks_eq : s'.eng.blockOriginCache = s.eng.blockOriginCache

/-- An update that does not move the height. -/
structure Level (s s' : State F) : Prop where
  update : Update E K s s'
  height_eq : s'.eng.height = s.eng.height

/-- Several updates. -/
abbrev Updates : State F → State F → Prop := Relation.ReflTransGen (Update E K)

/-- Several quiet updates. -/
abbrev Quiets : State F → State F → Prop := Relation.ReflTransGen (Quiet E K)

end

variable [Content F] {E : Env F} {K : Supply F} {s s' : State F}

/-- **Invariants of the engine**: what every atomic update preserves. -/
theorem Updates.invariant {I : State F → Prop} (hI : ∀ s s', Update E K s s' → I s → I s')
    (h : Updates E K s s') (hs : I s) : I s' :=
  Exec.invariant_of_moves hI h hs

/-- Quiet updates leave the view of the engine as it is. -/
theorem Quiets.frame (h : Quiets E K s s') :
    s'.eng.height = s.eng.height ∧ s'.eng.authority = s.eng.authority ∧
      s'.eng.blockOriginCache = s.eng.blockOriginCache := by
  induction h with
  | refl => exact ⟨rfl, rfl, rfl⟩
  | tail _ hq ih =>
    exact ⟨hq.height_eq.trans ih.1, hq.authority_eq.trans ih.2.1, hq.blocks_eq.trans ih.2.2⟩

theorem Quiets.blocks_eq (h : Quiets E K s s') :
    s'.eng.blockOriginCache = s.eng.blockOriginCache := h.frame.2.2

/-! ### Stored votes -/

/-- **What is shown of every vote that enters the collector holds of every vote stored in it.** -/
theorem Update.storedVotes {P : UInt64 → UInt64 → VoteType → BftVote → SignedVote → Prop}
    (hP : ∀ eng h r t bv sv, Filed E K eng h r t bv sv → P h r t bv sv) (h : Update E K s s')
    (hs : ∀ h r t bv sv, s.eng.votes.stored h r t bv = some sv → P h r t bv sv) :
    ∀ h r t bv sv, s'.eng.votes.stored h r t bv = some sv → P h r t bv sv := by
  cases h with
  | addVote height round voteType v sv filed =>
    intro h' r' t' bv' sv' hst
    rcases VoteCollector.stored_add_cases hst with hst | ⟨rfl, rfl, rfl, rfl, rfl⟩
    · exact hs h' r' t' bv' sv' hst
    · exact hP s.eng _ _ _ _ _ filed
  | readVotes height round voteType consulted =>
    intro h' r' t' bv' sv' hst
    rw [VoteCollector.stored_getVoteSet] at hst
    exact hs h' r' t' bv' sv' hst
  | _ => exact hs

/-! ### Cached messages -/

/-- Cached messages were received, and each is cached under its own height.  Cached votes are
genuine, and none is for height `0`. -/
structure Cached (E : Env F) (K : Supply F) (eng : Consensus F) : Prop where
  proposal : ∀ k l e, eng.proposalCache.lookup k = some l → e ∈ l →
    K.proposal e.1 ∧ e.1.proposal.height = k
  vote : ∀ k l sv, eng.voteCache.lookup k = some l → sv ∈ l →
    K.vote sv ∧ sv.Genuine E ∧ sv.vote.height = k ∧ k ≠ 0

/-- **Every update keeps the cached messages in order.** -/
theorem Update.cached (h : Update E K s s') (hc : Cached E K s.eng) : Cached E K s'.eng := by
  cases h with
  | cacheProposal sp block bytes received window =>
    refine ⟨fun k l e hl he => ?_, hc.vote⟩
    rcases HashMap.mem_of_pushEntry hl he with ⟨l', hl', he'⟩ | ⟨rfl, rfl⟩
    · exact hc.proposal k l' e hl' he'
    · exact ⟨received, rfl⟩
  | cacheVote sv received genuine future =>
    refine ⟨hc.proposal, ?_⟩
    intro k l e hl he
    rcases HashMap.mem_of_pushEntry hl he with ⟨l', hl', he'⟩ | ⟨rfl, rfl⟩
    · exact hc.vote k l' e hl' he'
    · exact ⟨received, genuine, rfl, by grind⟩
  | takeProposals height =>
    exact ⟨fun k l e hl he => hc.proposal k l e (HashMap.lookup_of_erase hl) he, hc.vote⟩
  | takeVotes height =>
    exact ⟨hc.proposal, fun k l e hl he => hc.vote k l e (HashMap.lookup_of_erase hl) he⟩
  | _ => exact ⟨hc.proposal, hc.vote⟩

theorem Updates.cached (h : Updates E K s s') (hc : Cached E K s.eng) : Cached E K s'.eng :=
  Updates.invariant (I := fun s => Cached E K s.eng) (fun _ _ => Update.cached) h hc

end ConsensusBft

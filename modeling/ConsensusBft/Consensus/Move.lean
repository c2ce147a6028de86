import ConsensusBft.Consensus.Update

/-!
# Updates and where they come from

A `Move` is an atomic update together with what brought it about: which message a record of the
log holds, where a verdict or a proof was taken from.  A status is one move as a whole, so that
the height and the authorities change together.

* `Source F` : what a turn brings into the engine, statuses and verdicts included.
* `LogMessage F` : what the records of the log stand for, with their tags.
* `Move E S` : the moves that touch neither the height nor the authorities; `Still E S` : those
  that leave the cached blocks and verdicts alone as well.
* `Advance E S` : a move, or a status.
* `Move.update`, `Still.quiet` : moves are atomic updates.
-/

namespace ConsensusBft

variable {F : Type}

/-- What a turn brings into the engine. -/
structure Source (F : Type) extends Supply F where
  /-- Statuses. -/
  status : Status → Prop
  /-- Verdicts of the application. -/
  verdict : VerifyResp → Prop

/-- A supply, with any statuses and verdicts. -/
def Supply.source (K : Supply F) : Source F := { K with status _ := True, verdict _ := True }

/-! ### Records of the log -/

/-- What a record of the log stands for.  A signed proposal is logged in two forms: as the bytes
that were received, with its block, and as the proposal alone. -/
inductive LogMessage (F : Type) where
  | signedProposal (sp : SignedProposal) (block : F) (hash : Hash)
  | bareProposal (sp : SignedProposal)
  | signedVote (sv : SignedVote)
  | status (rs : Status)
  | feed (f : Feed F)
  | verifyResp (vr : VerifyResp)
  | bftProposal (p : BftProposal)
  | bftVote (v : BftVote)
  | bftCommit (c : BftCommit)

namespace LogMessage

/-- The tag under which a message is logged. -/
def tag : LogMessage F → UInt8
  | .signedProposal .. | .bareProposal _ => LOG_TYPE_SIGNED_PROPOSAL
  | .signedVote _ => LOG_TYPE_RAW_BYTES
  | .status _ => LOG_TYPE_RICH_STATUS
  | .feed _ => LOG_TYPE_BLOCK_TXS
  | .verifyResp _ => LOG_TYPE_VERIFY_BLOCK_PESP
  | .bftProposal _ => LOG_TYPE_PROPOSAL
  | .bftVote _ => LOG_TYPE_VOTE
  | .bftCommit _ => LOG_TYPE_COMMIT

/-- The bytes that are logged for a message: its JSON text, but for a signed proposal with its
block the bytes in which it was received. -/
def Text [Content F] (E : Env F) (bytes : Bytes) : LogMessage F → Prop
  | .signedProposal sp block hash =>
    decodeProposal E bytes = .ok (sp, block, hash) ∧ isUtf8 bytes = true
  | .bareProposal sp => E.serde.signedProposal.toString sp = some bytes
  | .signedVote sv => E.serde.signedVote.toString sv = some bytes
  | .status rs => E.serde.status.toString rs = some bytes
  | .feed f => E.serde.feed.toString f = some bytes
  | .verifyResp vr => E.serde.verifyResp.toString vr = some bytes
  | .bftProposal p => E.serde.bftProposal.toString p = some bytes
  | .bftVote v => E.serde.bftVote.toString v = some bytes
  | .bftCommit c => E.serde.bftCommit.toString c = some bytes

/-- The height under which a message is logged: its own height, and for a feed or a verdict the
height of the engine. -/
def height (eng : Consensus F) : LogMessage F → UInt64
  | .signedProposal sp _ _ | .bareProposal sp => sp.proposal.height
  | .signedVote sv => sv.vote.height
  | .status rs => rs.height
  | .feed _ | .verifyResp _ => eng.height
  | .bftProposal p => p.height
  | .bftVote v => v.height
  | .bftCommit c => c.height

/-- A message that is logged was brought into the engine. -/
def Given (S : Source F) : LogMessage F → Prop
  | .signedProposal sp _ _ | .bareProposal sp => S.proposal sp
  | .signedVote sv => S.vote sv
  | .status rs => S.status rs
  | .feed _ => True
  | .verifyResp vr => S.verdict vr
  | .bftProposal p => S.core (.proposal p)
  | .bftVote v => S.core (.vote v)
  | .bftCommit c => S.core (.commit c)

end LogMessage

/-! ### Guards -/

/-- The last call handed the BFT core a proposal of the previous height for the block `hash`. -/
def JustProposed (s : State F) (hash : Hash) : Prop :=
  ∃ eng files p, s.calls.getLast? = some ⟨eng, files, .bft (.proposal p) true⟩ ∧
    p.content = hash ∧ p.height = s.eng.height - 1

/-- Where a verdict that is sent to the BFT core comes from: it was brought by the turn, it is
kept, or it is the one that every proposal of the previous height gets. -/
inductive Judged (S : Source F) (s : State F) : BftVerifyResp → Prop
  | brought {vr : VerifyResp} (given : S.verdict vr) : Judged S s vr.toBftResp
  | kept {r : BftVerifyResp} (lookup : s.eng.verifiedBlock.lookup r.proposal = some r.isPass) :
      Judged S s r
  | previous {hash : Hash} (proposed : JustProposed s hash) : Judged S s ⟨true, hash⟩

/-- What is behind a call. -/
def Founded (S : Source F) (s : State F) : Event F → Prop
  | .bft (.verifyResp r) _ => Judged S s r
  | .commit c _ => ∃ bc, S.core (.commit bc) ∧ c.height = bc.height ∧ c.address = bc.address
  | _ => True

/-- Where a proof that is kept comes from: it was adopted from a proposal of the current height, in
place of one that is not for the height before, or it was built for a commit. -/
inductive Proven (E : Env F) (S : Source F) (eng : Consensus F) (proof : Proof) : Prop
  | adopted (positive : E.overflowChecks = true → eng.height ≠ 0)
      (verified : verifyProof E proof (eng.height - 1)
        (if eng.authority.authorityHOld = eng.height - 1 then eng.authority.authoritiesOld
          else eng.authority.authorities) = true)
      (stale : eng.proof.map Proof.height ≠ some (eng.height - 1))
  | committed (c : BftCommit) (received : S.core (.commit c)) (height_le : eng.height ≤ c.height)
      (height_eq : proof.height = c.height)

section

variable [Content F] (E : Env F) (S : Source F)

/-- The updates that touch neither the height nor the authorities. -/
inductive Move : State F → State F → Prop
  /-- A record is appended to the log. -/
  | save (s : State F) (m : LogMessage F) (bytes : Bytes) (on : E.walOn = true)
      (given : m.Given S) (text : m.Text E bytes) : Move s (s.setWal (Exec.result
        (Wal.save E.io E.overflowChecks (m.height s.eng) m.tag bytes) s.walState).2)
  /-- A call to the outside. -/
  | call (s : State F) (e : Event F) (permitted : Permitted E S.toSupply s e)
      (founded : Founded S s e) : Move s (s.record e)
  /-- The application checks a cached block, and its verdict is queued. -/
  | check (s : State F) (hash : Hash) (block : F) (bytes : Bytes) (isLock isBySelf : Bool)
      (cached : s.eng.blockOriginCache.lookup hash = some block) :
      Move s { s.record (.checkProposal hash block bytes isLock isBySelf
          (E.support.checkProposal s.calls.length hash block bytes isLock isBySelf)) with
        asyncQueue := s.asyncQueue ++ [.verifyResp
          ⟨(E.support.checkProposal s.calls.length hash block bytes isLock isBySelf).isOk, hash⟩] }
  /-- A block that was asked for is queued. -/
  | enqueueFeed (s : State F) (n : ℕ) (f : Feed F)
      (provided : E.support.getContent n f.height = .ok f.content) :
      Move s { s with asyncQueue := s.asyncQueue ++ [.feed f] }
  /-- The head of the queue is taken. -/
  | dequeue (s : State F) (m : AsyncMsg F) (queue : List (AsyncMsg F))
      (head : s.asyncQueue = m :: queue) : Move s { s with asyncQueue := queue }
  /-- A block is cached under a hash that has none. -/
  | cacheBlock (s : State F) (hash : Hash) (block : F)
      (missing : s.eng.blockOriginCache.lookup hash = none)
      (source : S.block hash block ∨ hash = Content.hash block) :
      Move s { s with eng.blockOriginCache := s.eng.blockOriginCache.orInsert hash block }
  /-- A verdict is kept. -/
  | keepVerdict (s : State F) (vr : VerifyResp) (given : S.verdict vr) :
      Move s { s with eng.verifiedBlock := s.eng.verifiedBlock.orInsert vr.proposal vr.isPass }
  /-- Consensus is switched on or off. -/
  | power (s : State F) (on : Bool) : Move s { s with eng.consensusPower := on }
  /-- A vote is stored. -/
  | addVote (s : State F) (height round : UInt64) (voteType : VoteType) (v : BftVote)
      (sv : SignedVote) (filed : Filed E S.toSupply s.eng height round voteType v sv) :
      Move s { s with eng.votes := (s.eng.votes.add height round voteType v sv).2 }
  /-- A vote set is read. -/
  | readVotes (s : State F) (height round : UInt64) (voteType : VoteType)
      (consulted : Consulted S.toSupply height round voteType) :
      Move s { s with eng.votes := (s.eng.votes.getVoteSet height round voteType).2 }
  /-- A proposal is stored. -/
  | addProposal (s : State F) (height round : UInt64) (sp : SignedProposal) :
      Move s { s with eng.proposals := (s.eng.proposals.add height round sp).2 }
  /-- A proof is kept. -/
  | setProof (s : State F) (proof : Proof) (proven : Proven E S s.eng proof) :
      Move s { s with eng.proof := some proof }
  /-- A future proposal is cached. -/
  | cacheProposal (s : State F) (sp : SignedProposal) (block : F) (bytes : Bytes)
      (received : S.proposal sp) (window : inWindow sp.proposal.height s.eng.height = true) :
      Move s { s with eng.proposalCache :=
        s.eng.proposalCache.pushEntry sp.proposal.height (sp, block, bytes) }
  /-- A future vote is cached. -/
  | cacheVote (s : State F) (sv : SignedVote) (received : S.vote sv) (genuine : sv.Genuine E)
      (future : s.eng.height < sv.vote.height) :
      Move s { s with eng.voteCache := s.eng.voteCache.pushEntry sv.vote.height sv }
  /-- The cached proposals of a height are taken. -/
  | takeProposals (s : State F) (height : UInt64) :
      Move s { s with eng.proposalCache := s.eng.proposalCache.erase height }
  /-- The cached votes of a height are taken. -/
  | takeVotes (s : State F) (height : UInt64) :
      Move s { s with eng.voteCache := s.eng.voteCache.erase height }

/-- A move that leaves the cached blocks and verdicts alone. -/
structure Still (s s' : State F) : Prop where
  move : Move E S s s'
  blocks_eq : s'.eng.blockOriginCache = s.eng.blockOriginCache
  verdicts_eq : s'.eng.verifiedBlock = s.eng.verifiedBlock

/-- A move, or a status as a whole. -/
inductive Advance (s : State F) : State F → Prop
  | move {s' : State F} (move : Move E S s s') : Advance s s'
  | status (rs : Status) (needWal : Bool) (given : S.status rs) :
      Advance s (Exec.result (handleRichStatus E rs needWal) s).2

/-- Several moves. -/
abbrev Moves : State F → State F → Prop := Relation.ReflTransGen (Move E S)

/-- Several moves that leave the cached blocks and verdicts alone. -/
abbrev Stills : State F → State F → Prop := Relation.ReflTransGen (Still E S)

/-- Several moves and statuses. -/
abbrev Advances : State F → State F → Prop := Relation.ReflTransGen (Advance E S)

end

variable [Content F] {E : Env F} {S : Source F} {s s' : State F}

/-- **A move is an atomic update.** -/
theorem Move.update (h : Move E S s s') : Update E S.toSupply s s' := by
  cases h with
  | save m bytes _ _ _ => exact .log s _
  | call e permitted _ => exact .call s e permitted
  | check hash block bytes isLock isBySelf cached =>
    exact .check s hash block bytes isLock isBySelf _ cached rfl
  | enqueueFeed n f provided => exact .enqueueFeed s n f provided
  | dequeue m queue head => exact .dequeue s m queue head
  | cacheBlock hash block missing source => exact .cacheBlock s hash block missing source
  | keepVerdict vr _ => exact .keepVerdict s _ _
  | power on => exact .power s on
  | addVote height round voteType v sv filed => exact .addVote s height round voteType v sv filed
  | readVotes height round voteType consulted =>
    exact .readVotes s height round voteType consulted
  | addProposal height round sp => exact .addProposal s height round sp
  | setProof proof _ => exact .setProof s proof
  | cacheProposal sp block bytes received window =>
    exact .cacheProposal s sp block bytes received window
  | cacheVote sv received genuine future => exact .cacheVote s sv received genuine future
  | takeProposals height => exact .takeProposals s height
  | takeVotes height => exact .takeVotes s height

theorem Move.height_eq (h : Move E S s s') : s'.eng.height = s.eng.height := by
  cases h <;> rfl

theorem Move.authority_eq (h : Move E S s s') : s'.eng.authority = s.eng.authority := by
  cases h <;> rfl

theorem Move.level (h : Move E S s s') : Level E S.toSupply s s' := ⟨h.update, h.height_eq⟩

theorem Still.quiet (h : Still E S s s') : Quiet E S.toSupply s s' :=
  ⟨h.move.update, h.move.height_eq, h.move.authority_eq, h.blocks_eq⟩

theorem Moves.height_eq (h : Moves E S s s') : s'.eng.height = s.eng.height := by
  induction h with
  | refl => rfl
  | tail _ hm ih => exact hm.height_eq.trans ih

theorem Moves.authority_eq (h : Moves E S s s') : s'.eng.authority = s.eng.authority := by
  induction h with
  | refl => rfl
  | tail _ hm ih => exact hm.authority_eq.trans ih

theorem Stills.moves (h : Stills E S s s') : Moves E S s s' :=
  Relation.ReflTransGen.mono (fun _ _ => Still.move) _ _ h

theorem Stills.quiets (h : Stills E S s s') : Quiets E S.toSupply s s' :=
  Relation.ReflTransGen.mono (fun _ _ => Still.quiet) _ _ h

theorem Stills.height_eq (h : Stills E S s s') : s'.eng.height = s.eng.height := h.moves.height_eq

theorem Stills.authority_eq (h : Stills E S s s') : s'.eng.authority = s.eng.authority :=
  h.moves.authority_eq

theorem Stills.blocks_eq (h : Stills E S s s') :
    s'.eng.blockOriginCache = s.eng.blockOriginCache := h.quiets.blocks_eq

theorem Stills.verdicts_eq (h : Stills E S s s') :
    s'.eng.verifiedBlock = s.eng.verifiedBlock := by
  induction h with
  | refl => rfl
  | tail _ hm ih => exact hm.verdicts_eq.trans ih

end ConsensusBft

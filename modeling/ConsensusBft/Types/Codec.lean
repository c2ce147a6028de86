import ConsensusBft.Logic.Exec
import ConsensusBft.Types.Basic
import Mathlib.Data.List.Sort

/-!
# RLP encoding of the messages

The `Encodable` and `Decodable` implementations of `types.rs`.  Encoding is a function into
`Rlp.Item`; decoding reads a buffer through the accessors of an `Rlp.Reader` and stops at the
first accessor that fails.  A vote type other than `0` and `1` is a panic of `VoteType::from`.
-/

namespace ConsensusBft

open Rlp (Item Reader DecoderError)

/-! ### Encoding -/

/-- The item of a vote. -/
def Vote.toItem (v : Vote) : Item :=
  .list [.int v.voteType.toU8.toUInt64, .int v.height, .int v.round, .str v.proposal, .str v.voter]

/-- The item of a signed vote. -/
def SignedVote.toItem (v : SignedVote) : Item := .list [v.vote.toItem, .str v.signature]

/-- The order of byte strings (`Ord for Vec<u8>`). -/
def bytesLe : Bytes → Bytes → Bool
  | [], _ => true
  | _ :: _, [] => false
  | a :: as, b :: bs => if a = b then bytesLe as bs else decide (a < b)

/-- The order of pairs of byte strings. -/
def pairLe (a b : Sigma fun _ : Address => Signature) : Bool :=
  if a.1 = b.1 then bytesLe a.2 b.2 else bytesLe a.1 b.1

/-- The entries of the vote map, sorted, so that the encoding does not depend on the iteration
order of the map. -/
def Proof.keyValues (p : Proof) : List (Sigma fun _ : Address => Signature) :=
  p.precommitVotes.entries.insertionSort fun a b => pairLe a b = true

/-- The item of a proof. -/
def Proof.toItem (p : Proof) : Item :=
  .list [.int p.height, .int p.round, .str p.blockHash,
    .list (p.keyValues.map fun kv => .str kv.1), .list (p.keyValues.map fun kv => .str kv.2)]

/-- The item of an optional integer. -/
def optionItem : Option UInt64 → Item
  | none => .list []
  | some n => .list [.int n]

/-- The item of a proposal. -/
def Proposal.toItem (p : Proposal) : Item :=
  .list [.int p.height, .int p.round, .str p.hash, p.proof.toItem, optionItem p.lockRound,
    .list (p.lockVotes.map SignedVote.toItem), .str p.proposer]

/-- The item of a signed proposal. -/
def SignedProposal.toItem (p : SignedProposal) : Item :=
  .list [p.proposal.toItem, .str p.signature]

/-- `rlp_bytes` of a vote: what is hashed and signed. -/
def Vote.rlpBytes (v : Vote) : Bytes := v.toItem.encode

/-- `rlp_bytes` of a signed vote. -/
def SignedVote.rlpBytes (v : SignedVote) : Bytes := v.toItem.encode

/-- `rlp_bytes` of a proof. -/
def Proof.rlpBytes (p : Proof) : Bytes := p.toItem.encode

/-- `rlp_bytes` of a proposal: what is hashed and signed. -/
def Proposal.rlpBytes (p : Proposal) : Bytes := p.toItem.encode

/-- `rlp_bytes` of a signed proposal. -/
def SignedProposal.rlpBytes (p : SignedProposal) : Bytes := p.toItem.encode

/-! ### Decoding -/

/-- An accessor that may fail, but does not panic. -/
def ofReader {α : Type} : Except DecoderError α → Outcome DecoderError α
  | .ok a => .ok a
  | .error e => .error (.err e)

@[simp] theorem ofReader_eq_ok {α : Type} {x : Except DecoderError α} {a : α} :
    ofReader x = .ok a ↔ x = .ok a := by
  cases x <;> simp [ofReader]

/-- `VoteType::from`: any byte but `0` and `1` panics. -/
def VoteType.fromU8 (b : UInt8) : Outcome DecoderError VoteType :=
  if b = 0 then .ok .prevote
  else if b = 1 then .ok .precommit
  else .error .panicked

section

variable (R : Reader)

/-- `val_at` for a byte string. -/
def valBytes (r : Bytes) (i : ℕ) : Outcome DecoderError Bytes := do
  ofReader (R.asBytes (← ofReader (R.itemAt r i)))

/-- `val_at` for a `u64`. -/
def valU64 (r : Bytes) (i : ℕ) : Outcome DecoderError UInt64 := do
  ofReader (R.asU64 (← ofReader (R.itemAt r i)))

/-- `val_at` for an optional `u64`: a list of at most one item. -/
def valOption (r : Bytes) (i : ℕ) : Outcome DecoderError (Option UInt64) := do
  let item ← ofReader (R.itemAt r i)
  match ← ofReader (R.itemCount item) with
  | 0 => return none
  | 1 => return some (← valU64 R item 0)
  | _ => throw (.err .rlpIncorrectListLen)

/-- `list_at` for byte strings. -/
def listBytes (r : Bytes) (i : ℕ) : Outcome DecoderError (List Bytes) := do
  (R.iter (← ofReader (R.itemAt r i))).mapM fun item => ofReader (R.asBytes item)

/-- Decode a vote. -/
def Vote.decode (r : Bytes) : Outcome DecoderError Vote := do
  match ← ofReader (R.prototype r) with
  | .list 5 =>
    let voteType ← ofReader (R.asU8 (← ofReader (R.itemAt r 0)))
    let voteType ← VoteType.fromU8 voteType
    let height ← valU64 R r 1
    let round ← valU64 R r 2
    let proposal ← valBytes R r 3
    let voter ← valBytes R r 4
    return { voteType, height, round, proposal, voter }
  | _ => throw (.err .rlpInconsistentLengthAndData)

/-- Decode a signed vote. -/
def SignedVote.decode (r : Bytes) : Outcome DecoderError SignedVote := do
  match ← ofReader (R.prototype r) with
  | .list 2 =>
    let vote ← Vote.decode R (← ofReader (R.itemAt r 0))
    let signature ← valBytes R r 1
    return { vote, signature }
  | _ => throw (.err .rlpInconsistentLengthAndData)

/-- Decode a proof.  A repeated voter keeps the last signature (`HashMap::from_iter`). -/
def Proof.decode (r : Bytes) : Outcome DecoderError Proof := do
  match ← ofReader (R.prototype r) with
  | .list 5 =>
    let height ← valU64 R r 0
    let round ← valU64 R r 1
    let blockHash ← valBytes R r 2
    let keyList ← listBytes R r 3
    let valueList ← listBytes R r 4
    if keyList.length ≠ valueList.length then throw (.err .rlpIncorrectListLen)
    let precommitVotes : HashMap Address Signature :=
      (keyList.zip valueList).foldl (fun m kv => m.insert kv.1 kv.2) ∅
    return { height, round, blockHash, precommitVotes }
  | _ => throw (.err .rlpInconsistentLengthAndData)

/-- Decode a proposal. -/
def Proposal.decode (r : Bytes) : Outcome DecoderError Proposal := do
  match ← ofReader (R.prototype r) with
  | .list 7 =>
    let height ← valU64 R r 0
    let round ← valU64 R r 1
    let hash ← valBytes R r 2
    let proof ← Proof.decode R (← ofReader (R.itemAt r 3))
    let lockRound ← valOption R r 4
    let lockVotes ← (R.iter (← ofReader (R.itemAt r 5))).mapM (SignedVote.decode R)
    let proposer ← valBytes R r 6
    return { height, round, hash, proof, lockRound, lockVotes, proposer }
  | _ => throw (.err .rlpInconsistentLengthAndData)

/-- Decode a signed proposal. -/
def SignedProposal.decode (r : Bytes) : Outcome DecoderError SignedProposal := do
  match ← ofReader (R.prototype r) with
  | .list 2 =>
    let proposal ← Proposal.decode R (← ofReader (R.itemAt r 0))
    let signature ← valBytes R r 1
    return { proposal, signature }
  | _ => throw (.err .rlpInconsistentLengthAndData)

end

/-- Only a list of two items is decoded as a signed proposal. -/
theorem SignedProposal.prototype_of_decode {R : Reader} {r : Bytes} {sp : SignedProposal}
    (h : SignedProposal.decode R r = .ok sp) : R.prototype r = .ok (.list 2) := by
  unfold SignedProposal.decode at h
  obtain ⟨proto, hproto, h⟩ := Outcome.bind_eq_ok.1 h
  rw [ofReader_eq_ok] at hproto
  split at h
  · exact hproto
  · exact nomatch h

end ConsensusBft

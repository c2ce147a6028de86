import ConsensusBft.Data.U64
import ConsensusBft.Types.Codec

/-!
# Framing and proof checking

The functions of `util.rs`.

* `combine`, `extract` : two byte strings in one, the first with its length in front.
* `encodeBlock`, `decodeBlock` : a block with its height and its declared hash.
* `checkProof` : the independent check of a proof, weighted by `voteWeight`.

`checks` tells whether the build checks arithmetic for overflow; `usize` has 64 bits.
-/

namespace ConsensusBft

open Rlp (toBeBytes fromBeBytes)

/-! ### Framing -/

/-- `slice::split_at`, which panics beyond the end. -/
def splitAt {ε : Type} (l : Bytes) (n : ℕ) : Outcome ε (Bytes × Bytes) :=
  if n ≤ l.length then .ok (l.take n, l.drop n) else .error .panicked

/-- `combine`. -/
def combine (first second : Bytes) : Bytes :=
  toBeBytes (UInt64.ofNat first.length) ++ first ++ second

/-- `encode_block`. -/
def encodeBlock (height : UInt64) (block blockHash : Bytes) : Bytes :=
  toBeBytes height ++ combine blockHash block

/-- `extract`. -/
def extract (checks : Bool) (encode : Bytes) : Outcome ConsensusError (Bytes × Bytes) := do
  if encode.length < 8 then throw (.err (.decodeErr "Bytes is too short"))
  let firstLen := fromBeBytes (encode.take 8)
  let mid ← add64 checks firstLen 8
  if encode.length < mid.toNat then throw (.err (.decodeErr "Bytes is too short"))
  let (combine, two) ← splitAt encode mid.toNat
  let (_, one) ← splitAt combine 8
  return (one, two)

/-- `decode_block`: height, block and declared hash. -/
def decodeBlock (checks : Bool) (encode : Bytes) :
    Outcome ConsensusError (UInt64 × Bytes × Hash) := do
  let (h, combine) ← splitAt encode 8
  let (blockHash, block) ← extract checks combine
  return (fromBeBytes h, block, blockHash)

theorem splitAt_ok {ε : Type} {l : Bytes} {n : ℕ} {x : Bytes × Bytes}
    (h : splitAt (ε := ε) l n = .ok x) : n ≤ l.length ∧ x = (l.take n, l.drop n) := by
  unfold splitAt at h
  split_ifs at h with hn
  exact ⟨hn, (Except.ok.inj h).symm⟩

/-- What `extract` returns. -/
theorem extract_ok {checks : Bool} {b one two : Bytes} (h : extract checks b = .ok (one, two)) :
    ∃ mid, mid = fromBeBytes (b.take 8) + 8 ∧ 8 ≤ mid.toNat ∧ mid.toNat ≤ b.length ∧
      one = (b.take mid.toNat).drop 8 ∧ two = b.drop mid.toNat := by
  unfold extract at h
  split_ifs at h with h8
  · exact nomatch h
  obtain ⟨mid, hmid, h⟩ := Outcome.bind_eq_ok.1 h
  split_ifs at h with hlen
  · exact nomatch h
  obtain ⟨x, hx, h⟩ := Outcome.bind_eq_ok.1 h
  obtain ⟨-, rfl⟩ := splitAt_ok hx
  obtain ⟨y, hy, h⟩ := Outcome.bind_eq_ok.1 h
  obtain ⟨hle, rfl⟩ := splitAt_ok hy
  obtain ⟨rfl, rfl⟩ := Prod.mk.inj (Except.ok.inj h)
  rw [List.length_take] at hle
  exact ⟨mid, add64_ok hmid, by omega, by omega, rfl, rfl⟩

/-! ### Weights -/

/-- `get_total_weight`. -/
def getTotalWeight (checks : Bool) (authorities : List Node) : Outcome ConsensusError UInt64 :=
  sum64 checks (authorities.map fun node => node.voteWeight.toUInt64)

/-- `get_votes_weight`: the weights of the nodes whose address is listed. -/
def getVotesWeight (checks : Bool) (authorities : List Node) (voteAddresses : List Address) :
    Outcome ConsensusError UInt64 :=
  sum64 checks ((authorities.filter fun node => decide (node.address ∈ voteAddresses)).map
    fun node => node.voteWeight.toUInt64)

/-! ### Proofs -/

/-- The precommit vote that an entry of a proof stands for. -/
def Proof.voteOf (proof : Proof) (sender : Address) : Vote where
  voteType := .precommit
  height := proof.height
  round := proof.round
  proposal := proof.blockHash
  voter := sender

/-- The addresses that sign in a proof. -/
def Proof.voters (proof : Proof) : List Address := proof.precommitVotes.entries.map Sigma.fst

/-- `check_proof`: an independent function to check a proof. -/
def checkProof (checks : Bool) (proof : Proof) (height : UInt64) (authority : List Node)
    (cryptHash : Bytes → Bytes) (verifySignature : Bytes → Bytes → Option Address) :
    Outcome ConsensusError Bool := do
  if height = 0 then return true
  let next ← add64 checks proof.height 1
  if height ≠ next then return false
  let votes ← getVotesWeight checks authority proof.voters
  let votes3 ← mul64 checks votes 3
  let total ← getTotalWeight checks authority
  let total2 ← mul64 checks total 2
  if votes3 ≤ total2 then return false
  let addrSet := intoAddrSet authority
  return proof.precommitVotes.entries.all fun entry =>
    if entry.1 ∈ addrSet then
      some entry.1 = verifySignature entry.2 (cryptHash (proof.voteOf entry.1).rlpBytes)
    else false

end ConsensusBft

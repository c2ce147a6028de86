import ConsensusBft.Data.RlpReads
import ConsensusBft.Types.Codec

/-!
# Decoding what was encoded

For a reader that reads what was encoded:

* `Vote.decode_rlpBytes`, `SignedVote.decode_rlpBytes` : a vote is decoded as it was.
* `Proof.sorted` : the proof with the entries of its map in the order in which they are decoded;
  it has the same bytes.
* `SignedProposal.decode_rlpBytes` : **a signed proposal is decoded as it was, but for the order of
  the entries of the proof, and the decoded one has the same bytes.**
* `RoundTrips equal encode decode` : what is encoded is decoded as something equal.
* `codec_roundTrips` : **the five types do**, and no vote and proposal have the same bytes.
-/

namespace ConsensusBft

open Rlp (Item Reader DecoderError)

variable {R : Reader} {items : List Item} {i : ℕ}

/-! ### Accessors -/

namespace Rlp.Reader.Reads

theorem itemAt' (hR : R.Reads) (hfit : (Item.list items).Fits) {item : Item}
    (hi : items[i]? = some item) : ofReader (R.itemAt (Item.list items).encode i) =
      (.ok item.encode : Outcome DecoderError Bytes) := by
  rw [hR.itemAt items i item hfit hi]
  rfl

theorem valBytes (hR : R.Reads) (hfit : (Item.list items).Fits) {b : Bytes}
    (hi : items[i]? = some (.str b)) : valBytes R (Item.list items).encode i = .ok b := by
  unfold ConsensusBft.valBytes
  rw [hR.itemAt' hfit hi]
  change ofReader (R.asBytes (Item.str b).encode) = _
  rw [hR.asBytes b (hfit.of_mem (List.mem_of_getElem? hi))]
  rfl

theorem valU64 (hR : R.Reads) (hfit : (Item.list items).Fits) {n : UInt64}
    (hi : items[i]? = some (.int n)) : valU64 R (Item.list items).encode i = .ok n := by
  unfold ConsensusBft.valU64
  rw [hR.itemAt' hfit hi]
  change ofReader (R.asU64 (Item.int n).encode) = _
  rw [hR.asU64]
  rfl

theorem valOption (hR : R.Reads) (hfit : (Item.list items).Fits) {o : Option UInt64}
    (hi : items[i]? = some (optionItem o)) : valOption R (Item.list items).encode i = .ok o := by
  have hmem := hfit.of_mem (List.mem_of_getElem? hi)
  unfold ConsensusBft.valOption
  rw [hR.itemAt' hfit hi]
  cases o with
  | none =>
    change (ofReader (R.itemCount (Item.list []).encode) >>= _) = _
    rw [hR.itemCount [] hmem]
    rfl
  | some n =>
    change (ofReader (R.itemCount (Item.list [.int n]).encode) >>= _) = _
    rw [hR.itemCount [.int n] hmem]
    change (ConsensusBft.valU64 R (Item.list [.int n]).encode 0 >>= _) = _
    rw [hR.valU64 hmem rfl]
    rfl

end Rlp.Reader.Reads

/-- A loop that succeeds on every element. -/
theorem mapM_map_ok {α β γ ε : Type} {f : β → Outcome ε γ} {g : α → β} {k : α → γ} {l : List α}
    (h : ∀ a ∈ l, f (g a) = .ok (k a)) : (l.map g).mapM f = .ok (l.map k) := by
  induction l with
  | nil => rfl
  | cons a l ih =>
    rw [List.map_cons, List.mapM_cons, h a List.mem_cons_self,
      ih fun b hb => h b (List.mem_cons_of_mem a hb)]
    rfl

theorem Rlp.Reader.Reads.listBytes (hR : R.Reads) (hfit : (Item.list items).Fits) {l : List Bytes}
    (hi : items[i]? = some (.list (l.map .str))) :
    listBytes R (Item.list items).encode i = .ok l := by
  have hmem := hfit.of_mem (List.mem_of_getElem? hi)
  unfold ConsensusBft.listBytes
  rw [hR.itemAt' hfit hi]
  change (R.iter (Item.list (l.map .str)).encode).mapM _ = _
  rw [hR.iter _ hmem, List.map_map]
  refine (mapM_map_ok (k := id) fun b hb => ?_).trans (by rw [List.map_id])
  change ofReader (R.asBytes (Item.str b).encode) = _
  rw [hR.asBytes b (hmem.of_mem (List.mem_map_of_mem hb))]
  rfl

/-! ### Votes -/

theorem VoteType.fromU8_toU8 (t : VoteType) : VoteType.fromU8 t.toU8 = .ok t := by
  cases t <;> rfl

/-- **A vote is decoded as it was.** -/
theorem Vote.decode_rlpBytes (hR : R.Reads) {v : Vote} (hfit : v.toItem.Fits) :
    Vote.decode R v.rlpBytes = .ok v := by
  unfold Vote.decode Vote.rlpBytes
  unfold Vote.toItem at hfit ⊢
  rw [hR.prototype _ hfit]
  change (do
    let voteType ← ofReader (R.asU8 (← ofReader (R.itemAt _ 0)))
    let voteType ← VoteType.fromU8 voteType
    let height ← ConsensusBft.valU64 R _ 1
    let round ← ConsensusBft.valU64 R _ 2
    let proposal ← ConsensusBft.valBytes R _ 3
    let voter ← ConsensusBft.valBytes R _ 4
    return ({ voteType, height, round, proposal, voter } : Vote)) = _
  rw [hR.itemAt' hfit rfl, hR.valU64 hfit rfl, hR.valU64 hfit rfl, hR.valBytes hfit rfl,
    hR.valBytes hfit rfl]
  change (ofReader (R.asU8 (Item.int v.voteType.toU8.toUInt64).encode) >>= _) = _
  rw [hR.asU8]
  change (VoteType.fromU8 v.voteType.toU8 >>= _) = _
  rw [VoteType.fromU8_toU8]
  rfl

/-- **A signed vote is decoded as it was.** -/
theorem SignedVote.decode_rlpBytes (hR : R.Reads) {sv : SignedVote} (hfit : sv.toItem.Fits) :
    SignedVote.decode R sv.rlpBytes = .ok sv := by
  unfold SignedVote.decode SignedVote.rlpBytes
  unfold SignedVote.toItem at hfit ⊢
  rw [hR.prototype _ hfit]
  change (do
    let vote ← Vote.decode R (← ofReader (R.itemAt _ 0))
    let signature ← ConsensusBft.valBytes R _ 1
    return ({ vote, signature } : SignedVote)) = _
  rw [hR.itemAt' hfit rfl, hR.valBytes hfit rfl]
  change (Vote.decode R sv.vote.rlpBytes >>= _) = _
  rw [Vote.decode_rlpBytes hR (hfit.of_mem (by simp))]
  rfl

/-! ### The order of the entries of a proof -/

theorem bytesLe_total (a b : Bytes) : bytesLe a b = true ∨ bytesLe b a = true := by
  induction a generalizing b with
  | nil => exact .inl rfl
  | cons x a ih =>
    cases b with
    | nil => exact .inr rfl
    | cons y b =>
      by_cases hxy : x = y
      · subst hxy
        simpa [bytesLe] using ih b
      · have hyx : ¬ y = x := fun h => hxy h.symm
        simp only [bytesLe, hxy, hyx, if_false, decide_eq_true_eq]
        grind

theorem bytesLe_antisymm {a b : Bytes} (h : bytesLe a b = true) (h' : bytesLe b a = true) :
    a = b := by
  induction a generalizing b with
  | nil =>
    cases b with
    | nil => rfl
    | cons y b => simp [bytesLe] at h'
  | cons x a ih =>
    cases b with
    | nil => simp [bytesLe] at h
    | cons y b =>
      by_cases hxy : x = y
      · subst hxy
        simp only [bytesLe, if_true] at h h'
        rw [ih h h']
      · have hyx : ¬ y = x := fun h => hxy h.symm
        simp only [bytesLe, hxy, hyx, if_false, decide_eq_true_eq] at h h'
        exact absurd h (UInt8.not_lt.2 (UInt8.le_of_lt h'))

theorem bytesLe_trans {a b c : Bytes} (h : bytesLe a b = true) (h' : bytesLe b c = true) :
    bytesLe a c = true := by
  induction a generalizing b c with
  | nil => rfl
  | cons x a ih =>
    cases b with
    | nil => simp [bytesLe] at h
    | cons y b =>
      cases c with
      | nil => simp [bytesLe] at h'
      | cons z c =>
        by_cases hxy : x = y
        · subst hxy
          simp only [bytesLe, if_true] at h h' ⊢
          by_cases hxz : x = z
          · subst hxz
            simp only [if_true] at h' ⊢
            exact ih h h'
          · simpa only [hxz, if_false] using h'
        · simp only [bytesLe, hxy, if_false, decide_eq_true_eq] at h
          have hlt : x < z := by
            by_cases hyz : y = z
            · rwa [← hyz]
            · simp only [bytesLe, hyz, if_false, decide_eq_true_eq] at h'
              exact UInt8.lt_trans h h'
          have hxz : ¬ x = z := fun heq => UInt8.lt_irrefl x (by rwa [← heq] at hlt)
          simp [bytesLe, hxz, hlt]

/-- The order in which the entries of a proof are encoded. -/
abbrev entryLe (a b : Sigma fun _ : Address => Signature) : Prop := pairLe a b = true

instance : Std.Total entryLe where
  total a b := by
    unfold entryLe pairLe
    by_cases hk : a.1 = b.1
    · rw [if_pos hk, if_pos hk.symm]
      exact bytesLe_total a.2 b.2
    · rw [if_neg hk, if_neg fun h => hk h.symm]
      exact bytesLe_total a.1 b.1

instance : IsTrans _ entryLe where
  trans a b c hab hbc := by
    unfold entryLe pairLe at *
    by_cases h₁ : a.1 = b.1
    · by_cases h₂ : b.1 = c.1
      · rw [if_pos h₁] at hab
        rw [if_pos h₂] at hbc
        rw [if_pos (h₁.trans h₂)]
        exact bytesLe_trans hab hbc
      · rw [if_neg h₂] at hbc
        rw [if_neg fun h => h₂ (h₁.symm.trans h), h₁]
        exact hbc
    · rw [if_neg h₁] at hab
      by_cases h₂ : b.1 = c.1
      · rw [if_neg fun h => h₁ (h.trans h₂.symm), ← h₂]
        exact hab
      · rw [if_neg h₂] at hbc
        have hac := bytesLe_trans hab hbc
        by_cases h₃ : a.1 = c.1
        · rw [← h₃] at hbc
          exact absurd (bytesLe_antisymm hab hbc) h₁
        · rwa [if_neg h₃]

instance : Std.Antisymm entryLe where
  antisymm a b hab hba := by
    unfold entryLe pairLe at *
    by_cases hk : a.1 = b.1
    · rw [if_pos hk] at hab
      rw [if_pos hk.symm] at hba
      obtain ⟨k, v⟩ := a
      obtain ⟨k', v'⟩ := b
      obtain rfl : k = k' := hk
      obtain rfl : v = v' := bytesLe_antisymm hab hba
      rfl
    · rw [if_neg hk] at hab
      rw [if_neg fun h => hk h.symm] at hba
      exact absurd (bytesLe_antisymm hab hba) hk

theorem keyValues_perm (p : Proof) : p.keyValues.Perm p.precommitVotes.entries :=
  List.perm_insertionSort entryLe _

theorem keyValues_pairwise (p : Proof) : p.keyValues.Pairwise entryLe :=
  List.pairwise_insertionSort entryLe _

/-- Proofs with the same entries are encoded in the same order. -/
theorem keyValues_eq_of_perm {p p' : Proof}
    (h : p'.precommitVotes.entries.Perm p.precommitVotes.entries) : p'.keyValues = p.keyValues :=
  ((keyValues_perm p').trans (h.trans (keyValues_perm p).symm)).eq_of_pairwise'
    (keyValues_pairwise p') (keyValues_pairwise p)

/-! ### Proofs and proposals -/

/-- The proof with the entries of its map in the order in which they are decoded. -/
def Proof.sorted (p : Proof) : Proof :=
  { p with precommitVotes := p.keyValues.foldl (fun m kv => m.insert kv.1 kv.2) ∅ }

theorem Proof.sorted_perm (p : Proof) :
    p.sorted.precommitVotes.entries.Perm p.precommitVotes.entries := by
  have hkeys : (p.keyValues.map Sigma.fst).Nodup :=
    ((keyValues_perm p).map Sigma.fst).nodup_iff.2 p.precommitVotes.nodupKeys
  have hentries : p.sorted.precommitVotes.entries = p.keyValues.reverse ++ [] :=
    HashMap.entries_foldl_insert hkeys fun kv _ => AList.notMem_empty kv.1
  rw [hentries, List.append_nil]
  exact (List.reverse_perm _).trans (keyValues_perm p)

/-- The order of the entries does not show in the bytes. -/
theorem Proof.toItem_sorted (p : Proof) : p.sorted.toItem = p.toItem := by
  unfold Proof.toItem
  rw [keyValues_eq_of_perm p.sorted_perm]
  rfl

/-- **A proof is decoded as it was**, but for the order of its entries. -/
theorem Proof.decode_rlpBytes (hR : R.Reads) {p : Proof} (hfit : p.toItem.Fits) :
    Proof.decode R p.rlpBytes = .ok p.sorted := by
  have hkeys : p.keyValues.map (fun kv => Item.str kv.1) = (p.keyValues.map Sigma.fst).map .str :=
    by rw [List.map_map]; rfl
  have hvalues : p.keyValues.map (fun kv => Item.str kv.2) =
      (p.keyValues.map Sigma.snd).map .str := by rw [List.map_map]; rfl
  unfold Proof.decode Proof.rlpBytes
  unfold Proof.toItem at hfit ⊢
  rw [hkeys, hvalues] at hfit ⊢
  rw [hR.prototype _ hfit]
  change (do
    let height ← ConsensusBft.valU64 R _ 0
    let round ← ConsensusBft.valU64 R _ 1
    let blockHash ← ConsensusBft.valBytes R _ 2
    let keyList ← ConsensusBft.listBytes R _ 3
    let valueList ← ConsensusBft.listBytes R _ 4
    if keyList.length ≠ valueList.length then throw (.err .rlpIncorrectListLen)
    let precommitVotes : HashMap Address Signature :=
      (keyList.zip valueList).foldl (fun m kv => m.insert kv.1 kv.2) ∅
    return { height, round, blockHash, precommitVotes } : Outcome DecoderError Proof) = _
  rw [hR.valU64 hfit rfl, hR.valU64 hfit rfl, hR.valBytes hfit rfl, hR.listBytes hfit rfl,
    hR.listBytes hfit rfl]
  change (if (p.keyValues.map Sigma.fst).length ≠ (p.keyValues.map Sigma.snd).length then _
    else _) = _
  rw [if_neg (by simp), List.zip_map', List.foldl_map]
  rfl

/-- The proposal with the entries of its proof in the order in which they are decoded. -/
def Proposal.sorted (p : Proposal) : Proposal := { p with proof := p.proof.sorted }

theorem Proposal.toItem_sorted (p : Proposal) : p.sorted.toItem = p.toItem := by
  unfold Proposal.toItem Proposal.sorted
  rw [Proof.toItem_sorted]

/-- **A proposal is decoded as it was**, but for the order of the entries of its proof. -/
theorem Proposal.decode_rlpBytes (hR : R.Reads) {p : Proposal} (hfit : p.toItem.Fits) :
    Proposal.decode R p.rlpBytes = .ok p.sorted := by
  unfold Proposal.decode Proposal.rlpBytes
  unfold Proposal.toItem at hfit ⊢
  have hvotes : (Item.list (p.lockVotes.map SignedVote.toItem)).Fits := hfit.of_mem (by simp)
  rw [hR.prototype _ hfit]
  change (do
    let height ← ConsensusBft.valU64 R _ 0
    let round ← ConsensusBft.valU64 R _ 1
    let hash ← ConsensusBft.valBytes R _ 2
    let proof ← Proof.decode R (← ofReader (R.itemAt _ 3))
    let lockRound ← ConsensusBft.valOption R _ 4
    let lockVotes ← (R.iter (← ofReader (R.itemAt _ 5))).mapM (SignedVote.decode R)
    let proposer ← ConsensusBft.valBytes R _ 6
    return ({ height, round, hash, proof, lockRound, lockVotes, proposer } : Proposal)) = _
  rw [hR.valU64 hfit rfl, hR.valU64 hfit rfl, hR.valBytes hfit rfl, hR.itemAt' hfit rfl,
    hR.valOption hfit rfl, hR.itemAt' hfit rfl, hR.valBytes hfit rfl]
  change (Proof.decode R p.proof.rlpBytes >>= _) = _
  rw [Proof.decode_rlpBytes hR (hfit.of_mem (by simp))]
  change ((R.iter (Item.list (p.lockVotes.map SignedVote.toItem)).encode).mapM
    (SignedVote.decode R) >>= _) = _
  have hdecoded : (R.iter (Item.list (p.lockVotes.map SignedVote.toItem)).encode).mapM
      (SignedVote.decode R) = .ok (p.lockVotes.map id) := by
    rw [hR.iter _ hvotes, List.map_map]
    exact mapM_map_ok fun sv hsv =>
      SignedVote.decode_rlpBytes hR (hvotes.of_mem (List.mem_map_of_mem hsv))
  rw [hdecoded, List.map_id]
  rfl

/-- The signed proposal with the entries of its proof in the order in which they are decoded. -/
def SignedProposal.sorted (sp : SignedProposal) : SignedProposal :=
  { sp with proposal := sp.proposal.sorted }

/-- What was hashed and signed is computed again. -/
theorem SignedProposal.rlpBytes_sorted (sp : SignedProposal) :
    sp.sorted.proposal.rlpBytes = sp.proposal.rlpBytes :=
  congrArg Item.encode sp.proposal.toItem_sorted

/-- **A signed proposal is decoded as it was**, but for the order of the entries of its proof. -/
theorem SignedProposal.decode_rlpBytes (hR : R.Reads) {sp : SignedProposal}
    (hfit : sp.toItem.Fits) : SignedProposal.decode R sp.rlpBytes = .ok sp.sorted := by
  unfold SignedProposal.decode SignedProposal.rlpBytes
  unfold SignedProposal.toItem at hfit ⊢
  rw [hR.prototype _ hfit]
  change (do
    let proposal ← Proposal.decode R (← ofReader (R.itemAt _ 0))
    let signature ← ConsensusBft.valBytes R _ 1
    return ({ proposal, signature } : SignedProposal)) = _
  rw [hR.itemAt' hfit rfl, hR.valBytes hfit rfl]
  change (Proposal.decode R sp.proposal.rlpBytes >>= _) = _
  rw [Proposal.decode_rlpBytes hR (hfit.of_mem (by simp))]
  rfl

/-! ### Round trips -/

/-- Equality of proofs. -/
structure Proof.Equal (p q : Proof) : Prop where
  blockHash : p.blockHash = q.blockHash
  height : p.height = q.height
  round : p.round = q.round
  precommitVotes : p.precommitVotes.Equal q.precommitVotes

/-- Equality of proposals. -/
structure Proposal.Equal (p q : Proposal) : Prop where
  height : p.height = q.height
  round : p.round = q.round
  hash : p.hash = q.hash
  proof : p.proof.Equal q.proof
  lockRound : p.lockRound = q.lockRound
  lockVotes : p.lockVotes = q.lockVotes
  proposer : p.proposer = q.proposer

/-- Equality of signed proposals. -/
structure SignedProposal.Equal (p q : SignedProposal) : Prop where
  proposal : p.proposal.Equal q.proposal
  signature : p.signature = q.signature

theorem Proof.equal_sorted (p : Proof) : p.Equal p.sorted :=
  ⟨rfl, rfl, rfl, HashMap.equal_iff_perm.2 p.sorted_perm.symm⟩

/-- Equal proofs have the same item. -/
theorem Proof.Equal.toItem_eq {p q : Proof} (h : p.Equal q) : q.toItem = p.toItem := by
  unfold Proof.toItem
  rw [keyValues_eq_of_perm (HashMap.equal_iff_perm.1 h.precommitVotes).symm, h.height, h.round,
    h.blockHash]

theorem Proposal.Equal.toItem_eq {p q : Proposal} (h : p.Equal q) : q.toItem = p.toItem := by
  unfold Proposal.toItem
  rw [h.proof.toItem_eq, h.height, h.round, h.hash, h.lockRound, h.lockVotes, h.proposer]

theorem SignedProposal.Equal.toItem_eq {p q : SignedProposal} (h : p.Equal q) :
    q.toItem = p.toItem := by
  unfold SignedProposal.toItem
  rw [h.proposal.toItem_eq, h.signature]

/-- What is encoded, if it fits a byte vector, is decoded as something equal, and equal values have
the same encoding. -/
structure RoundTrips {α : Type} (equal : α → α → Prop) (encode : α → Bytes)
    (decode : Bytes → Outcome DecoderError α) : Prop where
  decode_encode : ∀ a, (encode a).length < 2 ^ 63 → ∃ b, decode (encode a) = .ok b ∧ equal a b
  encode_eq : ∀ a b, equal a b → encode b = encode a

/-- Lists with the same encoding have the same number of items. -/
theorem Rlp.Item.length_eq_of_encode_eq {items' : List Item} (hfit : (Item.list items).Fits)
    (h : (Item.list items).encode = (Item.list items').encode) : items.length = items'.length := by
  have hfit' : (Item.list items').Fits := by
    unfold Item.Fits at hfit ⊢
    rwa [← h]
  have hproto := Rlp.reader_reads.prototype items hfit
  rw [h, Rlp.reader_reads.prototype items' hfit'] at hproto
  exact (Rlp.Prototype.list.inj (Except.ok.inj hproto)).symm

/-- **No vote and proposal have the same bytes**: a vote is a list of five, a proposal of seven. -/
theorem Vote.rlpBytes_ne (v : Vote) (p : Proposal) (hfit : v.rlpBytes.length < 2 ^ 63) :
    v.rlpBytes ≠ p.rlpBytes := by
  intro heq
  have hlen := Rlp.Item.length_eq_of_encode_eq hfit heq
  exact absurd hlen (by simp)

/-- Votes with the same bytes are the same. -/
theorem Vote.eq_of_rlpBytes {v v' : Vote} (hfit : v.rlpBytes.length < 2 ^ 63)
    (h : v.rlpBytes = v'.rlpBytes) : v = v' := by
  have hfit' : v'.rlpBytes.length < 2 ^ 63 := h ▸ hfit
  have hv := Vote.decode_rlpBytes Rlp.reader_reads (v := v) hfit
  rw [h, Vote.decode_rlpBytes Rlp.reader_reads hfit'] at hv
  exact (Except.ok.inj hv).symm

/-- Proposals with the same bytes are the same, but for the order of the entries of the proof. -/
theorem Proposal.sorted_eq_of_rlpBytes {p p' : Proposal} (hfit : p.rlpBytes.length < 2 ^ 63)
    (h : p.rlpBytes = p'.rlpBytes) : p.sorted = p'.sorted := by
  have hfit' : p'.rlpBytes.length < 2 ^ 63 := h ▸ hfit
  have hp := Proposal.decode_rlpBytes Rlp.reader_reads (p := p) hfit
  rw [h, Proposal.decode_rlpBytes Rlp.reader_reads hfit'] at hp
  exact (Except.ok.inj hp).symm

/-- **Every signed message is decoded as it was**, whatever the order of the entries of a proof, and
**the signature of a vote is none of a proposal.** -/
theorem codec_roundTrips (hR : R.Reads) :
    RoundTrips Eq Vote.rlpBytes (Vote.decode R) ∧
      RoundTrips Eq SignedVote.rlpBytes (SignedVote.decode R) ∧
      RoundTrips Proof.Equal Proof.rlpBytes (Proof.decode R) ∧
      RoundTrips Proposal.Equal Proposal.rlpBytes (Proposal.decode R) ∧
      RoundTrips SignedProposal.Equal SignedProposal.rlpBytes (SignedProposal.decode R) ∧
      ∀ (v : Vote) (p : Proposal), v.rlpBytes.length < 2 ^ 63 → v.rlpBytes ≠ p.rlpBytes := by
  have hproposal : ∀ p : Proposal, p.Equal p.sorted := fun p =>
    ⟨rfl, rfl, rfl, p.proof.equal_sorted, rfl, rfl, rfl⟩
  refine ⟨⟨fun v hfit => ?_, fun _ _ h => h ▸ rfl⟩, ⟨fun sv hfit => ?_, fun _ _ h => h ▸ rfl⟩,
    ⟨fun p hfit => ?_, fun _ _ h => congrArg Item.encode h.toItem_eq⟩,
    ⟨fun p hfit => ?_, fun _ _ h => congrArg Item.encode h.toItem_eq⟩,
    ⟨fun sp hfit => ?_, fun _ _ h => congrArg Item.encode h.toItem_eq⟩, Vote.rlpBytes_ne⟩
  · exact ⟨v, Vote.decode_rlpBytes hR hfit, rfl⟩
  · exact ⟨sv, SignedVote.decode_rlpBytes hR hfit, rfl⟩
  · exact ⟨p.sorted, Proof.decode_rlpBytes hR hfit, p.equal_sorted⟩
  · exact ⟨p.sorted, Proposal.decode_rlpBytes hR hfit, hproposal p⟩
  · exact ⟨sp.sorted, SignedProposal.decode_rlpBytes hR hfit, hproposal sp.proposal, rfl⟩

/-- A proof with two voters, in either order of its map. -/
theorem codec_roundTrips_twoVoters :
    let map (l : List (Sigma fun _ : Address => Signature)) : HashMap Address Signature :=
      l.foldl (fun m kv => m.insert kv.1 kv.2) ∅
    let p : Proof := ⟨[1], 5, 0, map [⟨[7], [1, 2]⟩, ⟨[8], []⟩]⟩
    let q : Proof := ⟨[1], 5, 0, map [⟨[8], []⟩, ⟨[7], [1, 2]⟩]⟩
    q.rlpBytes = p.rlpBytes ∧ ∃ r, Proof.decode Rlp.reader p.rlpBytes = .ok r ∧ p.Equal r := by
  have h := (codec_roundTrips Rlp.reader_reads).2.2.1
  refine ⟨h.encode_eq _ _ ⟨rfl, rfl, rfl, ?_⟩, h.decode_encode _ (by decide)⟩
  exact HashMap.equal_iff_perm.2 (by decide)

end ConsensusBft

import ConsensusBft.Types.Codec

/-!
# Where decoding panics

The accessors of a reader fail with an error; the only panic of the five decoders is that of
`VoteType::from`.  `AnyVote`, `AnySignedVote`, … say which buffers decode; `ForeignVote`, … say
which buffers reach a vote type other than `0` and `1`.

* `decode_returns_iff` : the five decoders return exactly where they reach no such vote.
-/

namespace ConsensusBft

open Rlp (Reader DecoderError Prototype)

variable (R : Reader)

/-! ### Items -/

/-- The first item of a list reads as the byte `b`. -/
def TypeByte (r : Bytes) (b : UInt8) : Prop :=
  ∃ item, R.itemAt r 0 = .ok item ∧ R.asU8 item = .ok b

/-- The `i`-th item of a list reads as a byte string. -/
def BytesAt (r : Bytes) (i : ℕ) : Prop := ∃ item b, R.itemAt r i = .ok item ∧ R.asBytes item = .ok b

/-- The `i`-th item of a list reads as a `u64`. -/
def U64At (r : Bytes) (i : ℕ) : Prop := ∃ item n, R.itemAt r i = .ok item ∧ R.asU64 item = .ok n

/-- The `i`-th item of a list is a list of at most one `u64`. -/
def OptionAt (r : Bytes) (i : ℕ) : Prop :=
  ∃ item, R.itemAt r i = .ok item ∧
    (R.itemCount item = .ok 0 ∨ R.itemCount item = .ok 1 ∧ U64At R item 0)

/-- The `i`-th item of a list is the list of the buffers `items`. -/
def ItemsAt (r : Bytes) (i : ℕ) (items : List Bytes) : Prop :=
  ∃ item, R.itemAt r i = .ok item ∧ R.iter item = items

/-- The `i`-th item of a list is a list of `n` byte strings. -/
def StringsAt (r : Bytes) (i n : ℕ) : Prop :=
  ∃ items, ItemsAt R r i items ∧ items.length = n ∧ ∀ item ∈ items, ∃ b, R.asBytes item = .ok b

/-! ### Buffers that decode -/

/-- A vote: its type is `0` or `1`. -/
structure AnyVote (r : Bytes) : Prop where
  list : R.prototype r = .ok (.list 5)
  voteType : TypeByte R r 0 ∨ TypeByte R r 1
  height : U64At R r 1
  round : U64At R r 2
  proposal : BytesAt R r 3
  voter : BytesAt R r 4

/-- A signed vote. -/
structure AnySignedVote (r : Bytes) : Prop where
  list : R.prototype r = .ok (.list 2)
  vote : ∃ item, R.itemAt r 0 = .ok item ∧ AnyVote R item
  signature : BytesAt R r 1

/-- A proof: as many voters as signatures. -/
structure AnyProof (r : Bytes) : Prop where
  list : R.prototype r = .ok (.list 5)
  height : U64At R r 0
  round : U64At R r 1
  blockHash : BytesAt R r 2
  precommitVotes : ∃ n, StringsAt R r 3 n ∧ StringsAt R r 4 n

/-! ### Buffers with a vote of another type -/

/-- A list of five items whose first is a byte from `2` to `255`. -/
def ForeignVote (r : Bytes) : Prop :=
  R.prototype r = .ok (.list 5) ∧ ∃ b, TypeByte R r b ∧ 2 ≤ b

/-- A list of two items whose first is such a vote. -/
def ForeignSignedVote (r : Bytes) : Prop :=
  R.prototype r = .ok (.list 2) ∧ ∃ item, R.itemAt r 0 = .ok item ∧ ForeignVote R item

/-- A list of seven items of which the first five are those of a proposal and the sixth is a list
with such a signed vote behind signed votes that decode. -/
structure ForeignProposal (r : Bytes) : Prop where
  list : R.prototype r = .ok (.list 7)
  height : U64At R r 0
  round : U64At R r 1
  hash : BytesAt R r 2
  proof : ∃ item, R.itemAt r 3 = .ok item ∧ AnyProof R item
  lockRound : OptionAt R r 4
  lockVotes : ∃ before vote after, ItemsAt R r 5 (before ++ vote :: after) ∧
    (∀ v ∈ before, AnySignedVote R v) ∧ ForeignSignedVote R vote

/-- A list of two items whose first is such a proposal. -/
def ForeignSignedProposal (r : Bytes) : Prop :=
  R.prototype r = .ok (.list 2) ∧ ∃ item, R.itemAt r 0 = .ok item ∧ ForeignProposal R item

variable {R} {r : Bytes} {i : ℕ}

/-! ### Accessors -/

theorem ofReader_ne_panicked {α : Type} {x : Except DecoderError α} :
    ofReader x ≠ .error .panicked := by
  cases x <;> simp [ofReader]

theorem pure_ne_panicked {α : Type} {a : α} :
    (pure a : Outcome DecoderError α) ≠ .error .panicked := nofun

theorem valBytes_ne_panicked : valBytes R r i ≠ .error .panicked := by
  unfold valBytes
  simp [Outcome.bind_eq_panicked, ofReader_ne_panicked]

theorem valBytes_returns : (∃ b, valBytes R r i = .ok b) ↔ BytesAt R r i := by
  unfold valBytes BytesAt
  simp only [Outcome.bind_eq_ok, ofReader_eq_ok]
  exact exists_comm

theorem valU64_ne_panicked : valU64 R r i ≠ .error .panicked := by
  unfold valU64
  simp [Outcome.bind_eq_panicked, ofReader_ne_panicked]

theorem valU64_returns : (∃ n, valU64 R r i = .ok n) ↔ U64At R r i := by
  unfold valU64 U64At
  simp only [Outcome.bind_eq_ok, ofReader_eq_ok]
  exact exists_comm

theorem valOption_ne_panicked : valOption R r i ≠ .error .panicked := by
  unfold valOption
  simp only [ne_eq, Outcome.bind_eq_panicked, ofReader_ne_panicked, ofReader_eq_ok, false_or,
    not_exists, not_and]
  intro item _ count _ h
  split at h
  · cases h
  · obtain h | ⟨n, -, h⟩ := Outcome.bind_eq_panicked.1 h
    · exact valU64_ne_panicked h
    · cases h
  · cases h

theorem valOption_returns : (∃ o, valOption R r i = .ok o) ↔ OptionAt R r i := by
  unfold valOption OptionAt
  simp only [Outcome.bind_eq_ok, ofReader_eq_ok]
  constructor
  · rintro ⟨o, item, hitem, count, hcount, h⟩
    refine ⟨item, hitem, ?_⟩
    split at h
    · exact .inl hcount
    · obtain ⟨n, hn, -⟩ := Outcome.bind_eq_ok.1 h
      exact .inr ⟨hcount, valU64_returns.1 ⟨n, hn⟩⟩
    · cases h
  · rintro ⟨item, hitem, hcount | ⟨hcount, hn⟩⟩
    · exact ⟨none, item, hitem, 0, hcount, rfl⟩
    · obtain ⟨n, hn⟩ := valU64_returns.2 hn
      exact ⟨some n, item, hitem, 1, hcount, Outcome.bind_eq_ok.2 ⟨n, hn, rfl⟩⟩

theorem listBytes_ne_panicked : listBytes R r i ≠ .error .panicked := by
  unfold listBytes
  simp [Outcome.bind_eq_panicked, Outcome.mapM_eq_panicked, ofReader_ne_panicked]

theorem length_of_mapM {ε α β : Type} {f : α → Outcome ε β} {l : List α} {bs : List β}
    (h : l.mapM f = .ok bs) : bs.length = l.length := by
  induction l generalizing bs with
  | nil =>
    obtain rfl := Except.ok.inj h
    rfl
  | cons a l ih =>
    rw [List.mapM_cons] at h
    obtain ⟨b, -, h⟩ := Outcome.bind_eq_ok.1 h
    obtain ⟨bs', hbs, h⟩ := Outcome.bind_eq_ok.1 h
    obtain rfl := Except.ok.inj h
    rw [List.length_cons, List.length_cons, ih hbs]

theorem listBytes_returns {n : ℕ} :
    (∃ l, listBytes R r i = .ok l ∧ l.length = n) ↔ StringsAt R r i n := by
  unfold listBytes StringsAt ItemsAt
  constructor
  · rintro ⟨l, h, rfl⟩
    obtain ⟨item, hitem, h⟩ := Outcome.bind_eq_ok.1 h
    refine ⟨_, ⟨item, ofReader_eq_ok.1 hitem, rfl⟩, (length_of_mapM h).symm, ?_⟩
    simpa only [ofReader_eq_ok] using Outcome.mapM_returns.1 ⟨l, h⟩
  · rintro ⟨items, ⟨item, hitem, rfl⟩, rfl, h⟩
    obtain ⟨l, hl⟩ := Outcome.mapM_returns (f := fun item => ofReader (R.asBytes item)).2
      (by simpa only [ofReader_eq_ok] using h)
    exact ⟨l, Outcome.bind_eq_ok.2 ⟨item, ofReader_eq_ok.2 hitem, hl⟩, length_of_mapM hl⟩

/-! ### Lists -/

section

variable {α : Type} {f : Prototype → Outcome DecoderError α} {n : ℕ}

/-- A decoder that takes lists of `n` items only panics on none but these. -/
theorem ofList_eq_panicked
    (hf : ∀ proto, proto ≠ .list n → f proto = .error (.err .rlpInconsistentLengthAndData)) :
    ofReader (R.prototype r) >>= f = .error .panicked ↔
      R.prototype r = .ok (.list n) ∧ f (.list n) = .error .panicked := by
  simp only [Outcome.bind_eq_panicked, ofReader_ne_panicked, ofReader_eq_ok, false_or]
  constructor
  · rintro ⟨proto, hproto, h⟩
    by_cases hn : proto = .list n
    · exact ⟨hn ▸ hproto, hn ▸ h⟩
    · cases (hf proto hn).symm.trans h
  · rintro ⟨hproto, h⟩
    exact ⟨_, hproto, h⟩

/-- A decoder that takes lists of `n` items only returns on none but these. -/
theorem ofList_returns
    (hf : ∀ proto, proto ≠ .list n → f proto = .error (.err .rlpInconsistentLengthAndData)) :
    (∃ a, ofReader (R.prototype r) >>= f = .ok a) ↔
      R.prototype r = .ok (.list n) ∧ ∃ a, f (.list n) = .ok a := by
  simp only [Outcome.bind_eq_ok, ofReader_eq_ok]
  constructor
  · rintro ⟨a, proto, hproto, h⟩
    by_cases hn : proto = .list n
    · exact ⟨hn ▸ hproto, a, hn ▸ h⟩
    · cases (hf proto hn).symm.trans h
  · rintro ⟨hproto, a, h⟩
    exact ⟨a, _, hproto, h⟩

end

/-! ### Votes -/

theorem VoteType.fromU8_eq_panicked {b : UInt8} :
    VoteType.fromU8 b = .error .panicked ↔ 2 ≤ b := by
  unfold VoteType.fromU8
  split_ifs with h0 h1
  · subst h0
    decide
  · subst h1
    decide
  · simp only [true_iff, UInt8.le_iff_toNat_le]
    rw [← UInt8.toNat_inj] at h0 h1
    change b.toNat ≠ 0 at h0
    change b.toNat ≠ 1 at h1
    change 2 ≤ b.toNat
    omega

theorem VoteType.fromU8_returns {b : UInt8} : (∃ t, VoteType.fromU8 b = .ok t) ↔ b = 0 ∨ b = 1 := by
  unfold VoteType.fromU8
  split_ifs <;> simp [*]

/-- **A vote panics exactly on a foreign type.** -/
theorem Vote.decode_eq_panicked : Vote.decode R r = .error .panicked ↔ ForeignVote R r := by
  unfold Vote.decode ForeignVote TypeByte
  rw [ofList_eq_panicked (n := 5) fun proto hproto => ?hf]
  case hf => split; exacts [absurd rfl hproto, rfl]
  refine and_congr_right fun _ => ?_
  simp only [Outcome.bind_eq_panicked, ofReader_eq_ok, ofReader_ne_panicked, valU64_ne_panicked,
    valBytes_ne_panicked, pure_ne_panicked, VoteType.fromU8_eq_panicked, false_or, and_false,
    exists_false, or_false]
  constructor
  · rintro ⟨item, hitem, b, hb, hforeign⟩
    exact ⟨b, ⟨item, hitem, hb⟩, hforeign⟩
  · rintro ⟨b, ⟨item, hitem, hb⟩, hforeign⟩
    exact ⟨item, hitem, b, hb, hforeign⟩

theorem Vote.decode_returns : (∃ v, Vote.decode R r = .ok v) ↔ AnyVote R r := by
  unfold Vote.decode
  rw [ofList_returns (n := 5) fun proto hproto => ?hf]
  case hf => split; exacts [absurd rfl hproto, rfl]
  constructor
  · rintro ⟨hlist, v, h⟩
    obtain ⟨item, hitem, h⟩ := Outcome.bind_eq_ok.1 h
    obtain ⟨b, hb, h⟩ := Outcome.bind_eq_ok.1 h
    obtain ⟨t, ht, h⟩ := Outcome.bind_eq_ok.1 h
    obtain ⟨height, hheight, h⟩ := Outcome.bind_eq_ok.1 h
    obtain ⟨round, hround, h⟩ := Outcome.bind_eq_ok.1 h
    obtain ⟨proposal, hproposal, h⟩ := Outcome.bind_eq_ok.1 h
    obtain ⟨voter, hvoter, -⟩ := Outcome.bind_eq_ok.1 h
    rw [ofReader_eq_ok] at hitem hb
    refine ⟨hlist, ?_, valU64_returns.1 ⟨_, hheight⟩, valU64_returns.1 ⟨_, hround⟩,
      valBytes_returns.1 ⟨_, hproposal⟩, valBytes_returns.1 ⟨_, hvoter⟩⟩
    obtain rfl | rfl := VoteType.fromU8_returns.1 ⟨t, ht⟩
    · exact .inl ⟨item, hitem, hb⟩
    · exact .inr ⟨item, hitem, hb⟩
  · rintro ⟨hlist, htype, hheight, hround, hproposal, hvoter⟩
    obtain ⟨b, ⟨item, hitem, hb⟩, hb01⟩ : ∃ b, TypeByte R r b ∧ (b = 0 ∨ b = 1) := by
      obtain h | h := htype
      exacts [⟨0, h, .inl rfl⟩, ⟨1, h, .inr rfl⟩]
    obtain ⟨t, ht⟩ := VoteType.fromU8_returns.2 hb01
    obtain ⟨height, hheight⟩ := valU64_returns.2 hheight
    obtain ⟨round, hround⟩ := valU64_returns.2 hround
    obtain ⟨proposal, hproposal⟩ := valBytes_returns.2 hproposal
    obtain ⟨voter, hvoter⟩ := valBytes_returns.2 hvoter
    exact ⟨hlist, _, Outcome.bind_eq_ok.2 ⟨item, ofReader_eq_ok.2 hitem,
      Outcome.bind_eq_ok.2 ⟨b, ofReader_eq_ok.2 hb, Outcome.bind_eq_ok.2 ⟨t, ht,
      Outcome.bind_eq_ok.2 ⟨height, hheight, Outcome.bind_eq_ok.2 ⟨round, hround,
      Outcome.bind_eq_ok.2 ⟨proposal, hproposal, Outcome.bind_eq_ok.2 ⟨voter, hvoter, rfl⟩⟩⟩⟩⟩⟩⟩⟩

/-- **A signed vote panics exactly where its vote does.** -/
theorem SignedVote.decode_eq_panicked :
    SignedVote.decode R r = .error .panicked ↔ ForeignSignedVote R r := by
  unfold SignedVote.decode ForeignSignedVote
  rw [ofList_eq_panicked (n := 2) fun proto hproto => ?hf]
  case hf => split; exacts [absurd rfl hproto, rfl]
  refine and_congr_right fun _ => ?_
  simp only [Outcome.bind_eq_panicked, ofReader_eq_ok, ofReader_ne_panicked,
    valBytes_ne_panicked, pure_ne_panicked, Vote.decode_eq_panicked, false_or, and_false,
    exists_false, or_false]

theorem SignedVote.decode_returns : (∃ v, SignedVote.decode R r = .ok v) ↔ AnySignedVote R r := by
  unfold SignedVote.decode
  rw [ofList_returns (n := 2) fun proto hproto => ?hf]
  case hf => split; exacts [absurd rfl hproto, rfl]
  constructor
  · rintro ⟨hlist, v, h⟩
    obtain ⟨item, hitem, h⟩ := Outcome.bind_eq_ok.1 h
    obtain ⟨vote, hvote, h⟩ := Outcome.bind_eq_ok.1 h
    obtain ⟨signature, hsignature, -⟩ := Outcome.bind_eq_ok.1 h
    exact ⟨hlist, ⟨item, ofReader_eq_ok.1 hitem, Vote.decode_returns.1 ⟨vote, hvote⟩⟩,
      valBytes_returns.1 ⟨_, hsignature⟩⟩
  · rintro ⟨hlist, ⟨item, hitem, hvote⟩, hsignature⟩
    obtain ⟨vote, hvote⟩ := Vote.decode_returns.2 hvote
    obtain ⟨signature, hsignature⟩ := valBytes_returns.2 hsignature
    exact ⟨hlist, _, Outcome.bind_eq_ok.2 ⟨item, ofReader_eq_ok.2 hitem,
      Outcome.bind_eq_ok.2 ⟨vote, hvote, Outcome.bind_eq_ok.2 ⟨signature, hsignature, rfl⟩⟩⟩⟩

/-! ### Proofs -/

theorem Proof.decode_ne_panicked : Proof.decode R r ≠ .error .panicked := by
  unfold Proof.decode
  rw [ne_eq, ofList_eq_panicked (n := 5) fun proto hproto => ?hf]
  case hf => split; exacts [absurd rfl hproto, rfl]
  simp only [Outcome.bind_eq_panicked, valU64_ne_panicked, valBytes_ne_panicked,
    listBytes_ne_panicked, false_or, not_and, not_exists]
  intro _ height _ round _ blockHash _ keyList _ valueList _ h
  split_ifs at h
  · exact nomatch h
  · exact nomatch h

theorem Proof.decode_returns : (∃ p, Proof.decode R r = .ok p) ↔ AnyProof R r := by
  unfold Proof.decode
  rw [ofList_returns (n := 5) fun proto hproto => ?hf]
  case hf => split; exacts [absurd rfl hproto, rfl]
  constructor
  · rintro ⟨hlist, p, h⟩
    obtain ⟨height, hheight, h⟩ := Outcome.bind_eq_ok.1 h
    obtain ⟨round, hround, h⟩ := Outcome.bind_eq_ok.1 h
    obtain ⟨blockHash, hblockHash, h⟩ := Outcome.bind_eq_ok.1 h
    obtain ⟨keyList, hkeys, h⟩ := Outcome.bind_eq_ok.1 h
    obtain ⟨valueList, hvalues, h⟩ := Outcome.bind_eq_ok.1 h
    split_ifs at h with hlen
    · exact nomatch h
    · exact ⟨hlist, valU64_returns.1 ⟨_, hheight⟩, valU64_returns.1 ⟨_, hround⟩,
        valBytes_returns.1 ⟨_, hblockHash⟩, keyList.length,
        listBytes_returns.1 ⟨_, hkeys, rfl⟩,
        listBytes_returns.1 ⟨_, hvalues, (not_not.1 hlen).symm⟩⟩
  · rintro ⟨hlist, hheight, hround, hblockHash, n, hkeys, hvalues⟩
    obtain ⟨height, hheight⟩ := valU64_returns.2 hheight
    obtain ⟨round, hround⟩ := valU64_returns.2 hround
    obtain ⟨blockHash, hblockHash⟩ := valBytes_returns.2 hblockHash
    obtain ⟨keyList, hkeys, hkeysLen⟩ := listBytes_returns.2 hkeys
    obtain ⟨valueList, hvalues, hvaluesLen⟩ := listBytes_returns.2 hvalues
    refine ⟨hlist, .mk blockHash height round
        ((keyList.zip valueList).foldl (fun m kv => m.insert kv.1 kv.2) ∅),
      Outcome.bind_eq_ok.2 ⟨height, hheight, Outcome.bind_eq_ok.2 ⟨round, hround,
      Outcome.bind_eq_ok.2 ⟨blockHash, hblockHash, Outcome.bind_eq_ok.2 ⟨keyList, hkeys,
      Outcome.bind_eq_ok.2 ⟨valueList, hvalues, ?_⟩⟩⟩⟩⟩⟩
    rw [if_neg (not_not.2 (hkeysLen.trans hvaluesLen.symm))]
    rfl

/-! ### Proposals -/

/-- **A proposal panics exactly on a foreign lock vote.** -/
theorem Proposal.decode_eq_panicked :
    Proposal.decode R r = .error .panicked ↔ ForeignProposal R r := by
  unfold Proposal.decode
  rw [ofList_eq_panicked (n := 7) fun proto hproto => ?hf]
  case hf => split; exacts [absurd rfl hproto, rfl]
  simp only [Outcome.bind_eq_panicked, ofReader_eq_ok, ofReader_ne_panicked, valU64_ne_panicked,
    valBytes_ne_panicked, valOption_ne_panicked, pure_ne_panicked, Proof.decode_ne_panicked,
    Outcome.mapM_eq_panicked, SignedVote.decode_eq_panicked, SignedVote.decode_returns, false_or,
    and_false, exists_false, or_false]
  constructor
  · rintro ⟨hlist, height, hheight, round, hround, hash, hhash, item, hitem, proof, hproof,
      lockRound, hlockRound, votes, hvotes, before, vote, after, hsplit, hbefore, hvote⟩
    exact ⟨hlist, valU64_returns.1 ⟨_, hheight⟩, valU64_returns.1 ⟨_, hround⟩,
      valBytes_returns.1 ⟨_, hhash⟩, ⟨item, hitem, Proof.decode_returns.1 ⟨_, hproof⟩⟩,
      valOption_returns.1 ⟨_, hlockRound⟩,
      ⟨before, vote, after, ⟨votes, hvotes, hsplit⟩, hbefore, hvote⟩⟩
  · rintro ⟨hlist, hheight, hround, hhash, ⟨item, hitem, hproof⟩, hlockRound,
      ⟨before, vote, after, ⟨votes, hvotes, hsplit⟩, hbefore, hvote⟩⟩
    obtain ⟨height, hheight⟩ := valU64_returns.2 hheight
    obtain ⟨round, hround⟩ := valU64_returns.2 hround
    obtain ⟨hash, hhash⟩ := valBytes_returns.2 hhash
    obtain ⟨proof, hproof⟩ := Proof.decode_returns.2 hproof
    obtain ⟨lockRound, hlockRound⟩ := valOption_returns.2 hlockRound
    exact ⟨hlist, height, hheight, round, hround, hash, hhash, item, hitem, proof, hproof,
      lockRound, hlockRound, votes, hvotes, before, vote, after, hsplit, hbefore, hvote⟩

/-- **A signed proposal panics exactly where its proposal does.** -/
theorem SignedProposal.decode_eq_panicked :
    SignedProposal.decode R r = .error .panicked ↔ ForeignSignedProposal R r := by
  unfold SignedProposal.decode ForeignSignedProposal
  rw [ofList_eq_panicked (n := 2) fun proto hproto => ?hf]
  case hf => split; exacts [absurd rfl hproto, rfl]
  refine and_congr_right fun _ => ?_
  simp only [Outcome.bind_eq_panicked, ofReader_eq_ok, ofReader_ne_panicked,
    valBytes_ne_panicked, pure_ne_panicked, Proposal.decode_eq_panicked, false_or, and_false,
    exists_false, or_false]

/-- **The decoders return exactly where no vote type but `0` and `1` is reached**: a vote and a
signed vote look at one type, a proof at none, a proposal at those of its lock votes up to the
first signed vote that does not decode. -/
theorem decode_returns_iff (R : Reader) (r : Bytes) :
    (Vote.decode R r ≠ .error .panicked ↔ ¬ ForeignVote R r) ∧
      (SignedVote.decode R r ≠ .error .panicked ↔ ¬ ForeignSignedVote R r) ∧
      Proof.decode R r ≠ .error .panicked ∧
      (Proposal.decode R r ≠ .error .panicked ↔ ¬ ForeignProposal R r) ∧
      (SignedProposal.decode R r ≠ .error .panicked ↔ ¬ ForeignSignedProposal R r) :=
  ⟨not_congr Vote.decode_eq_panicked, not_congr SignedVote.decode_eq_panicked,
    Proof.decode_ne_panicked, not_congr Proposal.decode_eq_panicked,
    not_congr SignedProposal.decode_eq_panicked⟩

/-- A signed vote with empty fields, of type `t`. -/
def emptySignedVote (t : UInt8) : Bytes := [0xc7, 0xc5, t, 0x80, 0x80, 0x80, 0x80, 0x80]

/-- A signed proposal with empty fields and two lock votes, of types `1` and `t`. -/
def emptySignedProposal (t : UInt8) : Bytes :=
  [0xde, 0xdc, 0x80, 0x80, 0x80, 0xc5, 0x80, 0x80, 0x80, 0xc0, 0xc0, 0xc0, 0xd0] ++
    emptySignedVote 1 ++ emptySignedVote t ++ [0x80, 0x80]

/-- A vote of type `2` is a panic on the wire and behind a valid lock vote of a proposal. -/
theorem foreign_vote_panics :
    SignedVote.decode Rlp.reader (emptySignedVote 2) = .error .panicked ∧
      SignedProposal.decode Rlp.reader (emptySignedProposal 2) = .error .panicked :=
  ⟨rfl, rfl⟩

example : (SignedProposal.decode Rlp.reader (emptySignedProposal 1)).isOk = true := rfl

end ConsensusBft

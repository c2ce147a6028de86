import ConsensusBft.Consensus.Reference
import ConsensusBft.Logic.NoPanic
import ConsensusBft.Types.DecodePanic
import ConsensusBft.Util.Framing

/-!
# Decoding a signed proposal

`external_process` takes the frame of a signed proposal apart, decodes its first part, and takes
its second part, the block, apart.

* `LethalBytes` : the bytes at which it panics; `decodeProposal_eq_panicked`,
  `decodeLogged_eq_panicked` : **from the network and from the log, it panics at no others.**
* `ReachesBlock E e block` : it comes to the block, with the bytes `block`.
* `FramesReturn E e` : neither frame is a panic.
* `framing_returns_iff` : **the bytes that are taken apart, or rejected, without a panic.**
-/

namespace ConsensusBft

variable {F : Type} {E : Env F}

/-! ### Panics -/

/-- The bytes of a signed proposal at which decoding panics: the mark of the frame is overlong, a
lock vote has a foreign type, or the block is too short or has an overlong mark. -/
inductive LethalBytes (E : Env F) (bytes : Bytes) : Prop
  | frame (overlong : Overlong bytes)
  | lockVote {sp block : Bytes} (framed : extract E.overflowChecks bytes = .ok (sp, block))
      (foreign : ForeignSignedProposal E.rlp sp)
  | block {sp block : Bytes} {msg : SignedProposal}
      (framed : extract E.overflowChecks bytes = .ok (sp, block))
      (decodes : SignedProposal.decode E.rlp sp = .ok msg)
      (short : block.length < 8 ∨ Overlong (block.drop 8))

theorem lethalBytes_iff {bytes : Bytes} : LethalBytes E bytes ↔
    extract E.overflowChecks bytes = .error .panicked ∨
      ∃ parts, extract E.overflowChecks bytes = .ok parts ∧
        (SignedProposal.decode E.rlp parts.1 = .error .panicked ∨
          ∃ msg, SignedProposal.decode E.rlp parts.1 = .ok msg ∧
            decodeBlock E.overflowChecks parts.2 = .error .panicked) := by
  simp only [extract_eq_panicked, SignedProposal.decode_eq_panicked, decodeBlock_eq_panicked]
  constructor
  · intro h
    cases h with
    | frame overlong => exact .inl overlong
    | lockVote framed foreign => exact .inr ⟨_, framed, .inl foreign⟩
    | block framed decodes short => exact .inr ⟨_, framed, .inr ⟨_, decodes, short⟩⟩
  · rintro (h | ⟨⟨sp, block⟩, hf, h | ⟨msg, hm, h⟩⟩)
    · exact .frame h
    · exact .lockVote hf h
    · exact .block hf hm h

variable [Content F]

theorem decodeProposal_eq_panicked {bytes : Bytes} :
    decodeProposal E bytes = .error .panicked ↔ LethalBytes E bytes := by
  rw [lethalBytes_iff]
  unfold decodeProposal
  simp only [Outcome.bind_eq_panicked, Exec.mapErr_eq_panicked, Exec.mapErr_eq_ok]
  refine or_congr_right (exists_congr fun parts => and_congr_right fun _ => or_congr_right
    (exists_congr fun msg => and_congr_right fun _ => or_iff_left ?_))
  rintro ⟨x, -, h⟩
  cases hc : (Content.decode x.2.1 : Except String F) <;> simp [hc] at h

theorem decodeLogged_eq_panicked {bytes : Bytes} :
    decodeLogged E bytes = .error .panicked ↔ LethalBytes E bytes := by
  rw [lethalBytes_iff]
  unfold decodeLogged
  simp only [Outcome.bind_eq_panicked, Exec.mapErr_eq_panicked, Exec.mapErr_eq_ok]
  refine or_congr_right (exists_congr fun parts => and_congr_right fun _ => or_congr_right
    (exists_congr fun msg => and_congr_right fun _ => or_iff_left ?_))
  rintro ⟨x, -, h⟩
  cases hc : (Content.decode x.2.1 : Except String F) <;> simp [hc] at h

/-! ### Frames -/

/-- Decoding comes to the block: the frame is taken apart, and its first part is a signed
proposal. -/
def ReachesBlock (E : Env F) (e block : Bytes) : Prop :=
  ∃ sp msg, extract E.overflowChecks e = .ok (sp, block) ∧ SignedProposal.decode E.rlp sp = .ok msg

/-- Neither the frame is a panic nor, if decoding comes to it, the frame of the block. -/
def FramesReturn (E : Env F) (e : Bytes) : Prop :=
  extract E.overflowChecks e ≠ .error .panicked ∧
    ∀ block, ReachesBlock E e block → decodeBlock E.overflowChecks block ≠ .error .panicked

omit [Content F] in
theorem decodeBlock_ne_panicked {checks : Bool} {e : Bytes} :
    decodeBlock checks e ≠ .error .panicked ↔ 8 ≤ e.length ∧ ¬ Overlong (e.drop 8) := by
  rw [ne_eq, decodeBlock_eq_panicked, not_or, Nat.not_lt]

omit [Content F] in
/-- **Both frames are taken apart or rejected exactly where the mark is not overlong and a block
that is reached has the eight bytes of its height and no overlong mark behind them.** -/
theorem framesReturn_iff {e : Bytes} : FramesReturn E e ↔ ¬ Overlong e ∧
    (Framed e → ∀ msg, SignedProposal.decode E.rlp (inFrame e) = .ok msg →
      8 ≤ (behindFrame e).length ∧ ¬ Overlong ((behindFrame e).drop 8)) := by
  unfold FramesReturn
  rw [ne_eq, extract_eq_panicked]
  refine and_congr_right fun hover => ?_
  constructor
  · exact fun h hframed msg hmsg => decodeBlock_ne_panicked.1
      (h _ ⟨_, msg, extract_eq_ok.2 ⟨hover, hframed, rfl, rfl⟩, hmsg⟩)
  · rintro h block ⟨sp, msg, hok, hmsg⟩
    obtain ⟨-, hframed, rfl, rfl⟩ := extract_eq_ok.1 hok
    exact decodeBlock_ne_panicked.2 (h hframed msg hmsg)

/-- A panic that is not one of the frames is one of a lock vote. -/
theorem decodeProposal_returns_iff {e : Bytes} : decodeProposal E e ≠ .error .panicked ↔
    FramesReturn E e ∧ ∀ sp block, extract E.overflowChecks e = .ok (sp, block) →
      ¬ ForeignSignedProposal E.rlp sp := by
  rw [ne_eq, decodeProposal_eq_panicked]
  unfold FramesReturn
  constructor
  · intro h
    refine ⟨⟨fun hpanic => h (.frame (extract_eq_panicked.1 hpanic)), ?_⟩, ?_⟩
    · rintro block ⟨sp, msg, hok, hmsg⟩ hpanic
      exact h (.block hok hmsg (decodeBlock_eq_panicked.1 hpanic))
    · exact fun sp block hok hforeign => h (.lockVote hok hforeign)
  · rintro ⟨⟨hframe, hblock⟩, hforeign⟩ h
    cases h with
    | frame overlong => exact hframe (extract_eq_panicked.2 overlong)
    | lockVote framed foreign => exact hforeign _ _ framed foreign
    | block framed decodes short =>
      exact hblock _ ⟨_, _, framed, decodes⟩ (decodeBlock_eq_panicked.2 short)

/-- **Taking frames apart returns exactly where no mark is overlong and a block has the eight
bytes of its height**: for `extract`, for `decode_block`, and for the two in `external_process`,
which comes to the block only behind a signed proposal that decodes.  Between them a lock vote of a
foreign type is the only panic. -/
theorem framing_returns_iff (E : Env F) (e : Bytes) :
    (extract E.overflowChecks e ≠ .error .panicked ↔ ¬ Overlong e) ∧
      (decodeBlock E.overflowChecks e ≠ .error .panicked ↔ 8 ≤ e.length ∧ ¬ Overlong (e.drop 8)) ∧
      (FramesReturn E e ↔ ¬ Overlong e ∧
        (Framed e → ∀ msg, SignedProposal.decode E.rlp (inFrame e) = .ok msg →
          8 ≤ (behindFrame e).length ∧ ¬ Overlong ((behindFrame e).drop 8))) ∧
      (decodeProposal E e ≠ .error .panicked ↔ FramesReturn E e ∧
        ∀ sp block, extract E.overflowChecks e = .ok (sp, block) →
          ¬ ForeignSignedProposal E.rlp sp) :=
  ⟨not_congr extract_eq_panicked, decodeBlock_ne_panicked, framesReturn_iff,
    decodeProposal_returns_iff⟩

/-- A frame of a signed proposal with nothing behind it. -/
def proposalAlone : Bytes :=
  combine (Reference.signedProposal 1 0 [1] none [] [7]).rlpBytes []

/-- A declared length of `2 ^ 64 - 1`, and a signed proposal without a block, are panics. -/
theorem framing_panics :
    extract true (List.replicate 8 255) = .error .panicked ∧
      extract false (List.replicate 8 255) = .error .panicked ∧
      decodeBlock true [] = .error .panicked ∧
      decodeProposal (Reference.env [7]) (List.replicate 8 255) = .error .panicked ∧
      decodeProposal (Reference.env [7]) proposalAlone = .error .panicked ∧
      ¬ FramesReturn (Reference.env [7]) proposalAlone := by
  refine ⟨rfl, rfl, rfl, rfl, rfl, fun h => ?_⟩
  exact h.2 [] ⟨_, Reference.signedProposal 1 0 [1] none [] [7], rfl, rfl⟩ rfl

/-- An empty frame is rejected before its block is reached. -/
example : FramesReturn (Reference.env [7]) (List.replicate 8 0) :=
  framesReturn_iff.2 ⟨fun h => absurd h.2 (by decide), fun _ _ h => nomatch h⟩

end ConsensusBft

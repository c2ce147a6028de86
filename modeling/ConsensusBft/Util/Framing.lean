import ConsensusBft.Data.RlpReads
import ConsensusBft.Util.Basic

/-!
# What was framed is taken apart again

* `extract_combine` : the two byte strings of a frame are found again, in either build.
* `decodeBlock_encodeBlock` : the height, the block and the declared hash are found again.
* `Canonical encode decode fits` : decoding finds what was encoded, and accepts nothing else;
  `framing_canonical` : **both frames are canonical.**
* `extract_eq_panicked`, `decodeBlock_eq_panicked` : the bytes at which taking a frame apart panics.
-/

namespace ConsensusBft

open Rlp (toBeBytes fromBeBytes)

variable {ε : Type} {checks : Bool}

@[simp] theorem length_toBeBytes (n : UInt64) : (toBeBytes n).length = 8 := rfl

theorem splitAt_append (a b : Bytes) {n : ℕ} (hn : a.length = n) :
    splitAt (ε := ε) (a ++ b) n = .ok (a, b) := by
  subst hn
  unfold splitAt
  rw [if_pos (by simp), List.take_left, List.drop_left]

/-- **Both parts of a frame are found again.** -/
theorem extract_combine {first second : Bytes} (hlen : first.length < 2 ^ 63) :
    extract checks (combine first second) = .ok (first, second) := by
  have hfirst : (UInt64.ofNat first.length).toNat = first.length := by
    rw [UInt64.toNat_ofNat', Nat.mod_eq_of_lt (by omega)]
  have hmark : fromBeBytes ((combine first second).take 8) = UInt64.ofNat first.length := by
    rw [combine, List.append_assoc, List.take_left' (by simp)]
    exact Rlp.fromBeBytes_toBeBytes _
  have hadd : add64 (ε := ConsensusError) checks (UInt64.ofNat first.length) 8 =
      .ok (UInt64.ofNat first.length + 8) := by
    refine add64_of_lt ?_
    change (UInt64.ofNat first.length).toNat + 8 < 2 ^ 64
    omega
  have hmid : (UInt64.ofNat first.length + 8).toNat = first.length + 8 := by
    rw [UInt64.toNat_add, hfirst]
    change (first.length + 8) % 2 ^ 64 = first.length + 8
    omega
  have hall : (combine first second).length = 8 + first.length + second.length := by
    simp [combine, Nat.add_assoc]
  have hsplit : splitAt (ε := ConsensusError) (combine first second) (first.length + 8) =
      .ok (toBeBytes (UInt64.ofNat first.length) ++ first, second) :=
    splitAt_append _ second (by simp; omega)
  unfold extract
  rw [if_neg (by omega), hmark]
  refine Outcome.bind_eq_ok.2 ⟨_, hadd, ?_⟩
  rw [hmid, if_neg (by omega)]
  exact Outcome.bind_eq_ok.2 ⟨_, hsplit,
    Outcome.bind_eq_ok.2 ⟨_, splitAt_append _ first (by simp), rfl⟩⟩

/-- **The height, the block and the declared hash are found again.** -/
theorem decodeBlock_encodeBlock {height : UInt64} {block blockHash : Bytes}
    (hlen : blockHash.length < 2 ^ 63) :
    decodeBlock checks (encodeBlock height block blockHash) = .ok (height, block, blockHash) := by
  unfold decodeBlock encodeBlock
  rw [splitAt_append _ _ (length_toBeBytes height)]
  change (extract checks (combine blockHash block) >>= _) = _
  rw [extract_combine hlen]
  change (.ok (fromBeBytes (toBeBytes height), block, blockHash) : Outcome _ _) = _
  rw [Rlp.fromBeBytes_toBeBytes]

/-! ### Panics -/

/-- The length that the first eight bytes declare. -/
def mark (e : Bytes) : UInt64 := fromBeBytes (e.take 8)

/-- A whole mark that, increased by the eight bytes of the mark itself, leaves the range of a
`u64`. -/
def Overlong (e : Bytes) : Prop := 8 ≤ e.length ∧ 2 ^ 64 ≤ (mark e).toNat + 8

theorem splitAt_eq_panicked {l : Bytes} {n : ℕ} :
    splitAt (ε := ε) l n = .error .panicked ↔ l.length < n := by
  unfold splitAt
  split_ifs with h
  · exact iff_of_false nofun (by omega)
  · exact iff_of_true rfl (by omega)

/-- **`extract` panics exactly on an overlong mark**: where the addition is checked, at the
addition; where it wraps, at the second `split_at`. -/
theorem extract_eq_panicked {e : Bytes} : extract checks e = .error .panicked ↔ Overlong e := by
  unfold extract Overlong
  split_ifs with h8
  · exact iff_of_false nofun (by omega)
  change (add64 checks (mark e) 8 >>= _) = _ ↔ _
  have hmark := (mark e).toNat_lt
  have h64 : (8 : UInt64).toNat = 8 := rfl
  by_cases hover : 2 ^ 64 ≤ (mark e).toNat + 8
  · refine iff_of_true ?_ ⟨by omega, hover⟩
    cases checks with
    | true => exact Outcome.bind_eq_panicked.2 (.inl (add64_eq_panicked.2 ⟨rfl, by omega⟩))
    | false =>
      -- the sum wraps to less than eight
      have hmid : (mark e + 8).toNat < 8 := by
        rw [UInt64.toNat_add, h64]
        omega
      refine Outcome.bind_eq_panicked.2 (.inr ⟨mark e + 8, rfl, ?_⟩)
      rw [if_neg (by omega)]
      refine Outcome.bind_eq_panicked.2 (.inr ⟨_, if_pos (by omega), ?_⟩)
      refine Outcome.bind_eq_panicked.2 (.inl (splitAt_eq_panicked.2 ?_))
      rw [List.length_take]
      omega
  · refine iff_of_false (fun h => ?_) (by omega)
    have hmid : (mark e + 8).toNat = (mark e).toNat + 8 := by
      rw [UInt64.toNat_add, h64]
      omega
    rw [add64_of_lt (by omega)] at h
    obtain h | ⟨_, hok, h⟩ := Outcome.bind_eq_panicked.1 h
    · exact nomatch h
    obtain rfl := Except.ok.inj hok
    split_ifs at h with hlen
    · exact nomatch h
    obtain h | ⟨x, hx, h⟩ := Outcome.bind_eq_panicked.1 h
    · exact absurd (splitAt_eq_panicked.1 h) hlen
    obtain ⟨-, rfl⟩ := splitAt_ok hx
    obtain h | ⟨_, -, h⟩ := Outcome.bind_eq_panicked.1 h
    · have hshort := splitAt_eq_panicked.1 h
      rw [List.length_take] at hshort
      omega
    · exact nomatch h

/-- **`decode_block` panics exactly on less than a height, and on an overlong mark behind it.** -/
theorem decodeBlock_eq_panicked {e : Bytes} :
    decodeBlock checks e = .error .panicked ↔ e.length < 8 ∨ Overlong (e.drop 8) := by
  unfold decodeBlock
  by_cases h8 : e.length < 8
  · exact iff_of_true (Outcome.bind_eq_panicked.2 (.inl (splitAt_eq_panicked.2 h8))) (.inl h8)
  · have hsplit : splitAt (ε := ConsensusError) e 8 = .ok (e.take 8, e.drop 8) :=
      if_pos (by omega)
    have hbehind : extract checks (e.drop 8) = .error .panicked ↔ Overlong (e.drop 8) :=
      extract_eq_panicked
    rw [hsplit, ← hbehind, or_iff_right h8]
    change (extract checks (e.drop 8) >>= _) = _ ↔ _
    constructor
    · intro h
      obtain h | ⟨_, -, h⟩ := Outcome.bind_eq_panicked.1 h
      · exact h
      · exact nomatch h
    · exact fun h => Outcome.bind_eq_panicked.2 (.inl h)

/-- As many bytes as the mark declares. -/
def Framed (e : Bytes) : Prop := (mark e).toNat + 8 ≤ e.length

/-- The bytes that a frame declares. -/
def inFrame (e : Bytes) : Bytes := (e.drop 8).take (mark e).toNat

/-- The bytes that a frame leaves. -/
def behindFrame (e : Bytes) : Bytes := e.drop ((mark e).toNat + 8)

theorem extract_eq_ok {e one two : Bytes} : extract checks e = .ok (one, two) ↔
    ¬ Overlong e ∧ Framed e ∧ one = inFrame e ∧ two = behindFrame e := by
  unfold inFrame behindFrame
  have h64 : (8 : UInt64).toNat = 8 := rfl
  have hmark := (mark e).toNat_lt
  constructor
  · intro h
    obtain ⟨mid, hmid, hle, hlen, rfl, rfl⟩ := extract_ok h
    change mid = mark e + 8 at hmid
    have hover : ¬ Overlong e := fun hover => nomatch h.symm.trans (extract_eq_panicked.2 hover)
    have hnat : mid.toNat = (mark e).toNat + 8 := by
      unfold Overlong at hover
      rw [hmid, UInt64.toNat_add, h64]
      omega
    rw [hnat] at hlen ⊢
    exact ⟨hover, hlen, by rw [List.drop_take, Nat.add_sub_cancel], rfl⟩
  · rintro ⟨hover, hlen, rfl, rfl⟩
    unfold Overlong at hover
    unfold Framed at hlen
    have hmid : (mark e + 8).toNat = (mark e).toNat + 8 := by
      rw [UInt64.toNat_add, h64]
      omega
    have hfirst : splitAt (ε := ConsensusError) e ((mark e).toNat + 8) =
        .ok (e.take ((mark e).toNat + 8), e.drop ((mark e).toNat + 8)) := if_pos hlen
    have hsecond : splitAt (ε := ConsensusError) (e.take ((mark e).toNat + 8)) 8 =
        .ok ((e.take ((mark e).toNat + 8)).take 8, (e.take ((mark e).toNat + 8)).drop 8) :=
      if_pos (by rw [List.length_take]; omega)
    have hadd : add64 (ε := ConsensusError) checks (mark e) 8 = .ok (mark e + 8) :=
      add64_of_lt (by omega)
    unfold extract
    rw [if_neg (by omega)]
    refine Outcome.bind_eq_ok.2 ⟨mark e + 8, hadd, ?_⟩
    rw [hmid, if_neg (by omega)]
    refine Outcome.bind_eq_ok.2 ⟨_, hfirst, Outcome.bind_eq_ok.2 ⟨_, hsecond, ?_⟩⟩
    rw [List.drop_take, Nat.add_sub_cancel]
    rfl

/-! ### One frame for each message -/

/-- Decoding finds what was encoded, and nothing but an encoding is decoded. -/
structure Canonical {α ε : Type} (encode : α → Bytes) (decode : Bytes → Outcome ε α)
    (fits : α → Prop) : Prop where
  decode_encode : ∀ a, fits a → decode (encode a) = .ok a
  encode_decode : ∀ e a, decode e = .ok a → encode a = e

/-- Then no two byte strings are decoded as the same. -/
theorem Canonical.decode_injective {α ε : Type} {encode : α → Bytes}
    {decode : Bytes → Outcome ε α} {fits : α → Prop} (h : Canonical encode decode fits)
    {e e' : Bytes} {a : α} (he : decode e = .ok a) (he' : decode e' = .ok a) : e = e' :=
  (h.encode_decode e a he).symm.trans (h.encode_decode e' a he')

/-- **What `extract` takes apart is what `combine` puts together.** -/
theorem combine_of_extract {e one two : Bytes} (h : extract checks e = .ok (one, two)) :
    combine one two = e := by
  obtain ⟨-, hframed, rfl, rfl⟩ := extract_eq_ok.1 h
  unfold Framed at hframed
  unfold inFrame behindFrame
  have hlen : ((e.drop 8).take (mark e).toNat).length = (mark e).toNat := by
    rw [List.length_take, List.length_drop]
    omega
  have hmark : toBeBytes (mark e) = e.take 8 :=
    Rlp.toBeBytes_fromBeBytes (by rw [List.length_take]; omega)
  have hbehind : e.drop ((mark e).toNat + 8) = (e.drop 8).drop (mark e).toNat := by
    rw [List.drop_drop, Nat.add_comm]
  rw [combine, hlen, UInt64.ofNat_toNat, hmark, hbehind, List.append_assoc, List.take_append_drop,
    List.take_append_drop]

theorem encodeBlock_of_decodeBlock {e block blockHash : Bytes} {height : UInt64}
    (h : decodeBlock checks e = .ok (height, block, blockHash)) :
    encodeBlock height block blockHash = e := by
  unfold decodeBlock at h
  obtain ⟨parts, hsplit, h⟩ := Outcome.bind_eq_ok.1 h
  obtain ⟨hlen, rfl⟩ := splitAt_ok hsplit
  obtain ⟨⟨declared, content⟩, hframe, h⟩ := Outcome.bind_eq_ok.1 h
  obtain ⟨rfl, hparts⟩ := Prod.mk.inj (Except.ok.inj h)
  obtain ⟨rfl, rfl⟩ := Prod.mk.inj hparts
  have hmark : toBeBytes (fromBeBytes (e.take 8)) = e.take 8 :=
    Rlp.toBeBytes_fromBeBytes (by rw [List.length_take]; omega)
  unfold encodeBlock
  rw [combine_of_extract hframe, hmark, List.take_append_drop]

/-- **Framing is a bijection on its image**, for both frames: each is found again, nothing else is
taken apart, and no two byte strings are taken apart to the same parts. -/
theorem framing_canonical (checks : Bool) :
    Canonical (fun m => combine m.1 m.2) (extract checks) (fun m => m.1.length < 2 ^ 63) ∧
      Canonical (fun m => encodeBlock m.1 m.2.1 m.2.2) (decodeBlock checks)
        (fun m => m.2.2.length < 2 ^ 63) ∧
      (∀ e e' m, extract checks e = .ok m → extract checks e' = .ok m → e = e') ∧
      ∀ e e' m, decodeBlock checks e = .ok m → decodeBlock checks e' = .ok m → e = e' := by
  have hframe : Canonical (fun m => combine m.1 m.2) (extract checks)
      (fun m => m.1.length < 2 ^ 63) :=
    ⟨fun _ => extract_combine, fun _ _ => combine_of_extract⟩
  have hblock : Canonical (fun m => encodeBlock m.1 m.2.1 m.2.2) (decodeBlock checks)
      (fun m => m.2.2.length < 2 ^ 63) :=
    ⟨fun _ => decodeBlock_encodeBlock, fun _ _ => encodeBlock_of_decodeBlock⟩
  exact ⟨hframe, hblock, fun _ _ _ => hframe.decode_injective,
    fun _ _ _ => hblock.decode_injective⟩

end ConsensusBft

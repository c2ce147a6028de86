import ConsensusBft.Wal.Failing
import ConsensusBft.Wal.Working

/-!
# A crash while the index is rewritten

`Wal::set_height` resizes the index to the new number of digits and overwrites it in place.

* `IndexCrash b content b'` : a crash leaves `b'` of the index `b` that is rewritten with `content`;
  `Wal.indexCrash_iff` : these are the indices that `Wal.setHeight` leaves when an operation fails.
* `Wal.index_survives_iff` : **whatever a crash leaves of the index of `h` is read as `h` or as the
  new height `h'` if and only if one digit of `h` is replaced.**
-/

namespace ConsensusBft

/-! ### Digits -/

/-- All bytes are decimal digits. -/
def Digits (b : Bytes) : Prop := ∀ d ∈ b, 48 ≤ d ∧ d ≤ 57

theorem digits_decimal (h : UInt64) : Digits (decimal h) := by
  intro d hd
  obtain ⟨c, hc, rfl⟩ := List.mem_map.1 hd
  exact digitByte_range (isDigit_of_mem_digits hc)

theorem Digits.append {b b' : Bytes} (hb : Digits b) (hb' : Digits b') : Digits (b ++ b') := by
  intro d hd
  rcases List.mem_append.1 hd with hd | hd
  · exact hb d hd
  · exact hb' d hd

/-- What is read as a number consists of digits. -/
theorem digits_of_parseDigits {b : Bytes} {n m : ℕ} (h : parseDigits b n = some m) : Digits b := by
  induction b generalizing n with
  | nil => exact fun _ hd => nomatch hd
  | cons d b ih =>
    rw [parseDigits] at h
    split_ifs at h with hd
    intro d' hd'
    rcases List.mem_cons.1 hd' with rfl | hd'
    · exact hd
    · exact ih h d' hd'

/-- **Digit strings of one length that are read as the same number are the same.** -/
theorem parseDigits_inj {b b' : Bytes} {n n' m : ℕ} (hlen : b.length = b'.length)
    (h : parseDigits b n = some m) (h' : parseDigits b' n' = some m) : n = n' ∧ b = b' := by
  induction b generalizing b' n n' with
  | nil =>
    obtain rfl := List.length_eq_zero_iff.1 hlen.symm
    exact ⟨Option.some.inj (h.trans h'.symm), rfl⟩
  | cons d b ih =>
    cases b' with
    | nil => exact nomatch hlen
    | cons d' b' =>
      rw [parseDigits] at h h'
      split_ifs at h h' with hd hd'
      obtain ⟨heq, rfl⟩ := ih (Nat.succ.inj hlen) h h'
      rw [UInt8.toNat_sub_of_le _ _ hd.1, UInt8.toNat_sub_of_le _ _ hd'.1] at heq
      simp only [UInt8.le_iff_toNat_le, UInt8.reduceToNat] at hd hd' heq
      have hdd : d.toNat = d'.toNat := by omega
      exact ⟨by omega, congrArg (· :: b) (UInt8.toNat.inj hdd)⟩

/-- A number is read without a sign. -/
theorem parseU64_digits {b : Bytes} {h : UInt64} (hb : Digits b) (hp : parseU64 b = some h) :
    parseDigits b 0 = some h.toNat := by
  have hsign : b.head? ≠ some 43 := by
    intro hhead
    exact absurd (hb 43 (List.mem_of_head? hhead)).1 (by decide)
  unfold parseU64 at hp
  simp only [hsign, if_false] at hp
  split_ifs at hp
  obtain ⟨n, hn, hlt⟩ := Option.bind_eq_some_iff.1 hp
  split_ifs at hlt with hbound
  obtain rfl := Option.some.inj hlt
  rw [hn, UInt64.toNat_ofNat_of_lt' hbound]

theorem parseU64_inj {b b' : Bytes} {h : UInt64} (hb : Digits b) (hb' : Digits b')
    (hlen : b.length = b'.length) (hp : parseU64 b = some h) (hp' : parseU64 b' = some h) :
    b = b' :=
  (parseDigits_inj hlen (parseU64_digits hb hp) (parseU64_digits hb' hp')).2

/-- A zero byte is no part of a number. -/
theorem parseU64_of_zero {b : Bytes} (hzero : 0 ∈ b) : parseU64 b = none := by
  by_contra hne
  obtain ⟨h, hp⟩ := Option.ne_none_iff_exists'.1 hne
  unfold parseU64 at hp
  simp only at hp
  split_ifs at hp with hsign hnil hnil
  · obtain ⟨n, hn, -⟩ := Option.bind_eq_some_iff.1 hp
    obtain ⟨rest, rfl⟩ := List.head?_eq_some_iff.1 hsign
    have hmem : (0 : UInt8) ∈ rest := (List.mem_cons.1 hzero).resolve_left (by decide)
    exact absurd (digits_of_parseDigits hn 0 hmem).1 (by decide)
  · obtain ⟨n, hn, -⟩ := Option.bind_eq_some_iff.1 hp
    exact absurd (digits_of_parseDigits hn 0 hzero).1 (by decide)

/-- A larger height has no fewer digits. -/
theorem length_decimal_le {h h' : UInt64} (hlt : h < h') :
    (decimal h).length ≤ (decimal h').length := by
  rw [decimal, decimal, List.length_map, List.length_map,
    Nat.length_toDigits_le_iff (by omega) Nat.length_toDigits_pos]
  have hpow := (Nat.length_toDigits_le_iff (b := 10) (n := h'.toNat) (by omega)
    Nat.length_toDigits_pos).1 (Nat.le_refl _)
  exact Nat.lt_trans (UInt64.lt_iff_toNat_lt.1 hlt) hpow

/-! ### Crashes -/

/-- What a crash leaves of the index `b` while it is rewritten with `content`: it may not be touched
yet, or it is resized and the first `k` bytes have reached it. -/
inductive IndexCrash (b content : Bytes) : Bytes → Prop
  | before : IndexCrash b content b
  | during (k : ℕ) :
      IndexCrash b content (Disk.overwrite (Disk.resize b content.length) (content.take k))

/-- `content` is `b` with one byte replaced. -/
def OneDigit (b content : Bytes) : Prop := ∃ i d, i < b.length ∧ content = b.set i d

variable {b content : Bytes}

/-- If the length does not change, the first bytes are the new ones. -/
theorem overwrite_resize_take (hlen : b.length = content.length) (k : ℕ) :
    Disk.overwrite (Disk.resize b content.length) (content.take k) =
      content.take k ++ b.drop k := by
  have hresize : Disk.resize b content.length = b := by
    rw [Disk.resize, ← hlen, List.take_length, Nat.sub_self, List.replicate_zero, List.append_nil]
  rw [Disk.overwrite, hresize, List.length_take]
  by_cases hk : k ≤ content.length
  · rw [Nat.min_eq_left hk]
  · rw [Nat.min_eq_right (by omega), List.drop_of_length_le (by omega),
      List.drop_of_length_le (by omega)]

/-- Bytes that are replaced one after the other, so that every stage is one of two, differ in one
place. -/
theorem oneDigit_of_stages (hlen : b.length = content.length) (hne : b ≠ content)
    (hstages : ∀ k, content.take k ++ b.drop k = b ∨ content.take k ++ b.drop k = content) :
    OneDigit b content := by
  -- the first stage at which the index is the new one
  obtain ⟨i, hi, hold, hstep⟩ : ∃ i, i < content.length ∧ content.take i ++ b.drop i = b ∧
      content.take (i + 1) ++ b.drop (i + 1) = content := by
    by_contra hnone
    have hall : ∀ k, k ≤ content.length → content.take k ++ b.drop k = b := by
      intro k
      induction k with
      | zero => exact fun _ => rfl
      | succ k ih =>
        intro hk
        have hprev := ih (by omega)
        exact (hstages (k + 1)).resolve_right fun hnew => hnone ⟨k, by omega, hprev, hnew⟩
    have hlast := hall content.length (Nat.le_refl _)
    rw [List.take_length, ← hlen, List.drop_length, List.append_nil] at hlast
    exact hne hlast.symm
  have htake : b.take i = content.take i := by
    conv_lhs => rw [← hold]
    exact List.take_left' (by rw [List.length_take, Nat.min_eq_left (by omega)])
  refine ⟨i, content[i], by omega, ?_⟩
  rw [List.set_eq_take_append_cons_drop, if_pos (by omega), htake]
  conv_lhs => rw [← hstep, List.take_succ_eq_append_getElem hi, List.append_assoc]
  rfl

/-- If one byte is replaced, every stage is one of two. -/
theorem OneDigit.stages (h : OneDigit b content) (k : ℕ) :
    content.take k ++ b.drop k = b ∨ content.take k ++ b.drop k = content := by
  obtain ⟨i, d, -, rfl⟩ := h
  by_cases hk : i < k
  · right
    rw [← List.drop_set_of_lt hk, List.take_append_drop]
  · left
    rw [List.take_set_of_le (by omega), List.take_append_drop]

/-- The index of a height: its digits, or nothing in a new directory. -/
def IndexOf (h : UInt64) (b : Bytes) : Prop := b = decimal h ∨ (h = 0 ∧ b = [])

/-- The height that is read of an index. -/
def readIndex (b : Bytes) : Option UInt64 := if b = [] then some 0 else parseU64 b

theorem indexHeight_eq (d : Disk) : Wal.indexHeight { d with index := some b } = readIndex b := rfl

variable {h h' : UInt64}

/-- What is left before any byte is written: a longer height leaves zero bytes at the end. -/
theorem zero_mem_resize (hlt : b.length < content.length) :
    0 ∈ Disk.overwrite (Disk.resize b content.length) (content.take 0) := by
  have hzero : (0 : UInt8) ∈ List.replicate (content.length - b.length) 0 :=
    List.mem_replicate.2 ⟨by omega, rfl⟩
  rw [List.take_zero, Disk.overwrite, List.nil_append, List.length_nil, List.drop_zero]
  exact List.mem_append_right _ hzero

/-- An index that is resized to more bytes is not read as a height. -/
theorem readIndex_of_zero (hzero : 0 ∈ b) : readIndex b = none := by
  rw [readIndex, if_neg (List.ne_nil_of_mem hzero), parseU64_of_zero hzero]

theorem readIndex_decimal (h : UInt64) : readIndex (decimal h) = some h := by
  rw [readIndex, if_neg (decimal_ne_nil h), parseU64_decimal]

theorem decimal_ne (hlt : h < h') : decimal h ≠ decimal h' := by
  intro heq
  have hread : readIndex (decimal h) = some h' := heq ▸ readIndex_decimal h'
  obtain rfl := Option.some.inj ((readIndex_decimal h).symm.trans hread)
  exact UInt64.lt_irrefl _ hlt

/-- A digit string as long as a decimal height is that height if it is read as it. -/
theorem eq_decimal_of_readIndex (hb : Digits b) (hlen : b.length = (decimal h).length)
    (hread : readIndex b = some h) : b = decimal h := by
  have hne : b ≠ [] := by
    rintro rfl
    exact decimal_ne_nil h (List.length_eq_zero_iff.1 hlen.symm)
  rw [readIndex, if_neg hne] at hread
  exact parseU64_inj hb (digits_decimal h) hlen hread (parseU64_decimal h)

/-- **Every crash leaves the old or the new height if and only if one digit is replaced.** -/
theorem crash_reads_iff (hb : IndexOf h b) (hlt : h < h') :
    (∀ b', IndexCrash b (decimal h') b' → readIndex b' = some h ∨ readIndex b' = some h') ↔
      OneDigit b (decimal h') := by
  constructor
  · intro hcrash
    have hzero := hcrash _ (.during 0)
    by_cases hshort : b.length < (decimal h').length
    · -- there are zero bytes
      have hnone := readIndex_of_zero (zero_mem_resize hshort)
      rcases hzero with hzero | hzero
      · exact nomatch hnone.symm.trans hzero
      · exact nomatch hnone.symm.trans hzero
    rcases hb with rfl | ⟨-, rfl⟩
    swap
    · exact absurd (List.length_pos_of_ne_nil (decimal_ne_nil h')) hshort
    have hlen : (decimal h).length = (decimal h').length :=
      Nat.le_antisymm (length_decimal_le hlt) (Nat.not_lt.1 hshort)
    refine oneDigit_of_stages hlen (decimal_ne hlt) fun k => ?_
    have hread := hcrash _ (.during k)
    rw [overwrite_resize_take hlen] at hread
    -- every stage has digits only
    have hdigits : Digits ((decimal h').take k ++ (decimal h).drop k) :=
      .append (fun d hd => digits_decimal h' d (List.mem_of_mem_take hd))
        fun d hd => digits_decimal h d (List.mem_of_mem_drop hd)
    have hstage : ((decimal h').take k ++ (decimal h).drop k).length = (decimal h').length := by
      rw [List.length_append, List.length_take, List.length_drop]
      omega
    rcases hread with hread | hread
    · exact .inl (eq_decimal_of_readIndex hdigits (hstage.trans hlen.symm) hread)
    · exact .inr (eq_decimal_of_readIndex hdigits hstage hread)
  · intro hone b' hcrash
    obtain ⟨i, d, hi, hset⟩ := hone
    have hb : b = decimal h := by
      refine hb.resolve_right fun hnil => ?_
      rw [hnil.2] at hi
      exact Nat.not_lt_zero i hi
    subst hb
    have hlen : (decimal h).length = (decimal h').length := by rw [hset, List.length_set]
    cases hcrash with
    | before => exact .inl (readIndex_decimal h)
    | during k =>
      rw [overwrite_resize_take hlen]
      rcases OneDigit.stages ⟨i, d, hi, hset⟩ k with hstage | hstage
      · exact .inl ((congrArg readIndex hstage).trans (readIndex_decimal h))
      · exact .inr ((congrArg readIndex hstage).trans (readIndex_decimal h'))

namespace Wal

variable {io : ℕ → IoOutcome} {d : Disk}

/-- **A crash leaves what `Wal::set_height` leaves when one of its operations fails.** -/
theorem indexCrash_iff {w : WalState} (hindex : w.disk.index = some b) {b' : Bytes} :
    IndexCrash b (decimal h) b' ↔ ∃ io, (io (w.disk.ops + 1)).failed = false ∧
      (Exec.result (setHeight io h) w).2.disk.index = some b' := by
  have hleft : ∀ io, (Exec.result (setHeight io h) w).2.disk.index =
      some (indexLeft io w.disk.ops b (decimal h)) := by
    intro io
    have hresult : (Exec.result (setHeight io h) w).2.disk.index =
        w.disk.index.map (indexLeft io w.disk.ops · (decimal h)) :=
      Exec.result_of_wp (P := fun (_ : Outcome IoError PUnit) (w' : WalState) =>
          w'.disk.index = w.disk.index.map (indexLeft io w.disk.ops · (decimal h)))
        ((setHeight_wp io h w).mono (fun _ _ hw => hw.2) fun _ _ hw => hw.2.2)
    rw [hresult, hindex]
    rfl
  constructor
  · intro hcrash
    cases hcrash with
    | before =>
      refine ⟨fun n => if n = w.disk.ops then .fail 0 else .ok, ?_, ?_⟩
      · simp [IoOutcome.failed]
      · rw [hleft]
        simp [indexLeft, IoOutcome.failed]
    | during k =>
      refine ⟨fun n => if n = w.disk.ops + 2 then .fail k else .ok, ?_, ?_⟩
      · simp [IoOutcome.failed]
      · rw [hleft]
        simp [indexLeft, resized, IoOutcome.failed]
  · rintro ⟨io, hlen, hb'⟩
    obtain rfl := Option.some.inj ((hleft io).symm.trans hb')
    have hresized : resized io w.disk.ops b (decimal h) = Disk.resize b (decimal h).length := by
      rw [resized, hlen, if_neg Bool.false_ne_true]
    by_cases hseek : (io w.disk.ops).failed = true
    · rw [indexLeft, if_pos hseek]
      exact .before
    rw [Bool.not_eq_true] at hseek
    cases hwrite : io (w.disk.ops + 2) with
    | fail n =>
      rw [indexLeft_of_fail hseek hwrite, hresized]
      exact .during n
    | _ =>
      rw [indexLeft_of_not_failed hseek (by rw [hwrite]; rfl), hresized]
      have hall : IndexCrash b (decimal h) (Disk.overwrite (Disk.resize b (decimal h).length)
          ((decimal h).take (decimal h).length)) := .during _
      rwa [List.take_length] at hall

/-- A directory is opened at a height exactly if the height is read of its index. -/
theorem new_at_iff (hio : ∀ n, io n = .ok) : (∃ wal d', Exec.result (new io) d = (.ok wal, d') ∧
    (wal.currentHeight = h ∨ wal.currentHeight = h')) ↔
      indexHeight d = some h ∨ indexHeight d = some h' := by
  have hnew := new_wp hio d
  constructor
  · rintro ⟨wal, d', hr, hat⟩
    obtain ⟨k, hk, rfl, -⟩ := hnew.ok hr
    rw [hk]
    exact hat.imp (congrArg some) (congrArg some)
  · intro hread
    cases hr : Exec.result (new io) d with
    | mk r d' =>
      cases r with
      | error e =>
        rw [hnew.error hr] at hread
        rcases hread with hread | hread
        · exact nomatch hread
        · exact nomatch hread
      | ok wal =>
        obtain ⟨k, hk, rfl, -⟩ := hnew.ok hr
        rw [hk] at hread
        exact ⟨_, d', rfl, hread.imp Option.some.inj Option.some.inj⟩

/-- **The index survives every crash while it moves from `h` to `h'` if and only if one digit is
replaced**: the directory is opened again at `h` or at `h'`. -/
theorem index_survives_iff (hio : ∀ n, io n = .ok) (hb : IndexOf h b) (hlt : h < h') :
    (∀ b', IndexCrash b (decimal h') b' →
      ∃ wal d', Exec.result (new io) { d with index := some b' } = (.ok wal, d') ∧
        (wal.currentHeight = h ∨ wal.currentHeight = h')) ↔ OneDigit b (decimal h') := by
  rw [← crash_reads_iff hb hlt]
  refine forall₂_congr fun b' _ => (new_at_iff hio).trans ?_
  rw [indexHeight_eq]

/-- From `18` to `19` one digit is replaced. -/
theorem index_survives_iff_digit : (∀ b', IndexCrash (decimal 18) (decimal 19) b' →
    ∃ wal d', Exec.result (new fun _ => .ok) ⟨true, some b', ∅, 0⟩ = (.ok wal, d') ∧
      (wal.currentHeight = 18 ∨ wal.currentHeight = 19)) ↔ OneDigit (decimal 18) (decimal 19) :=
  index_survives_iff (d := ⟨true, none, ∅, 0⟩) (fun _ => rfl) (.inl rfl) (by decide)

/-- **A crash can destroy the index**: from `9` to `10` it may leave `9` and a zero byte, with which
the directory cannot be opened; from `19` to `20` it may leave `29`. -/
theorem index_destroyed :
    (IndexCrash (decimal 9) (decimal 10) [57, 0] ∧
      (Exec.result (new fun _ => .ok) ⟨true, some [57, 0], ∅, 0⟩).1 =
        .error (.err (.invalidData "index file data wrong"))) ∧
    IndexCrash (decimal 19) (decimal 20) (decimal 29) ∧
      (Exec.result (new fun _ => .ok) ⟨true, some (decimal 29), ∅, 0⟩).1 = .ok ⟨[29], 29⟩ :=
  ⟨⟨.during 0, by decide +kernel⟩, .during 1, by decide +kernel⟩

end Wal

end ConsensusBft

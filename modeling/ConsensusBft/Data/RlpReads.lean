import ConsensusBft.Data.Rlp
import Mathlib.Algebra.GroupWithZero.Nat
import Mathlib.Tactic.SplitIfs

/-!
# Reading what was encoded

* `Rlp.Reader.Reads` : a reader finds in the encoding of an item what was encoded.
* `Rlp.payloadInfo_encode` : the header of an encoded item tells its size, whatever follows it.
* `Rlp.reader_reads` : **the reference reader reads what was encoded.**

An encoding is a byte vector, which has fewer than `2 ^ 63` bytes.
-/

namespace ConsensusBft

namespace Rlp

/-! ### Integers -/

theorem fromBeBytes_zero_cons (b : Bytes) : fromBeBytes (0 :: b) = fromBeBytes b := by
  simp [fromBeBytes]

/-- Leading zeros do not count. -/
theorem fromBeBytes_dropWhile (b : Bytes) : fromBeBytes (b.dropWhile (· == 0)) = fromBeBytes b := by
  induction b with
  | nil => rfl
  | cons x b ih =>
    by_cases hx : x = 0
    · subst hx
      rw [List.dropWhile_cons_of_pos (by simp), fromBeBytes_zero_cons, ih]
    · rw [List.dropWhile_cons_of_neg (by simpa using hx)]

/-- A byte is added behind the bytes above it. -/
theorem push_byte {high n : UInt64} (h : high.toNat = n.toNat / 256) :
    high * 256 + n.toUInt8.toUInt64 = n := by
  apply UInt64.toNat_inj.1
  have hn := n.toNat_lt
  rw [UInt64.toNat_add, UInt64.toNat_mul, UInt8.toNat_toUInt64, UInt64.toNat_toUInt8, h]
  change (n.toNat / 256 * 256 % 2 ^ 64 + n.toNat % 256) % 2 ^ 64 = n.toNat
  omega

theorem push_shift (n k k' : UInt64) (hk : k'.toNat = k.toNat + 8) (hlt : k'.toNat < 64) :
    (n >>> k') * 256 + (n >>> k).toUInt8.toUInt64 = n >>> k := by
  apply push_byte
  rw [UInt64.toNat_shiftRight, UInt64.toNat_shiftRight, Nat.mod_eq_of_lt hlt,
    Nat.mod_eq_of_lt (by omega), hk, Nat.shiftRight_add, Nat.shiftRight_eq_div_pow _ 8]

theorem fromBeBytes_toBeBytes (n : UInt64) : fromBeBytes (toBeBytes n) = n := by
  have hfirst : 0 = (n >>> 56).toNat / 256 := by
    have hn := n.toNat_lt
    rw [UInt64.toNat_shiftRight, Nat.shiftRight_eq_div_pow]
    change 0 = n.toNat / 2 ^ 56 / 256
    omega
  have hlast : (n >>> 8).toNat = n.toNat / 256 := by
    rw [UInt64.toNat_shiftRight, Nat.shiftRight_eq_div_pow]
    rfl
  -- from the first byte to the last
  simp only [fromBeBytes, toBeBytes, List.foldl_cons, List.foldl_nil]
  rw [@push_byte 0 (n >>> 56) hfirst, push_shift n 48 56 rfl (by decide),
    push_shift n 40 48 rfl (by decide), push_shift n 32 40 rfl (by decide),
    push_shift n 24 32 rfl (by decide), push_shift n 16 24 rfl (by decide),
    push_shift n 8 16 rfl (by decide), push_byte hlast]

/-- Eight bytes are the bytes of their value. -/
theorem toBeBytes_fromBeBytes {b : Bytes} (h : b.length = 8) : toBeBytes (fromBeBytes b) = b := by
  simp only [List.length_eq_succ_iff, List.length_eq_zero_iff] at h
  obtain ⟨b₀, _, rfl, b₁, _, rfl, b₂, _, rfl, b₃, _, rfl, b₄, _, rfl, b₅, _, rfl, b₆, _, rfl, b₇, _,
    rfl, rfl⟩ := h
  have h₀ : b₀.toNat < 256 := b₀.toNat_lt
  have h₁ : b₁.toNat < 256 := b₁.toNat_lt
  have h₂ : b₂.toNat < 256 := b₂.toNat_lt
  have h₃ : b₃.toNat < 256 := b₃.toNat_lt
  have h₄ : b₄.toNat < 256 := b₄.toNat_lt
  have h₅ : b₅.toNat < 256 := b₅.toNat_lt
  have h₆ : b₆.toNat < 256 := b₆.toNat_lt
  have h₇ : b₇.toNat < 256 := b₇.toNat_lt
  -- the bytes are the digits in base `256`
  have hn : (fromBeBytes [b₀, b₁, b₂, b₃, b₄, b₅, b₆, b₇]).toNat =
      ((((((b₀.toNat * 256 + b₁.toNat) * 256 + b₂.toNat) * 256 + b₃.toNat) * 256 +
        b₄.toNat) * 256 + b₅.toNat) * 256 + b₆.toNat) * 256 + b₇.toNat := by
    simp only [fromBeBytes, List.foldl_cons, List.foldl_nil, UInt64.toNat_add, UInt64.toNat_mul,
      UInt8.toNat_toUInt64, UInt64.reduceToNat, Nat.reducePow]
    omega
  simp only [toBeBytes, List.cons.injEq, and_true, ← UInt8.toNat_inj, UInt64.toNat_toUInt8,
    UInt64.toNat_shiftRight, Nat.shiftRight_eq_div_pow, hn, UInt64.reduceToNat, Nat.reduceMod,
    Nat.reducePow]
  omega

theorem fromBeBytes_digits (n : UInt64) : fromBeBytes (digits n) = n := by
  rw [digits, fromBeBytes_dropWhile, fromBeBytes_toBeBytes]

theorem length_digits_le (n : UInt64) : (digits n).length ≤ 8 :=
  (List.dropWhile_sublist _).length_le

theorem head_digits_ne (n : UInt64) : (digits n).head? ≠ some 0 := by
  intro h
  have hnot := List.head?_dropWhile_not (· == 0) (toBeBytes n)
  unfold digits at h
  rw [h] at hnot
  simp at hnot

theorem digits_ne_nil {n : UInt64} (hn : n ≠ 0) : digits n ≠ [] := by
  intro h
  have hzero := fromBeBytes_digits n
  rw [h] at hzero
  exact hn hzero.symm

/-! ### Headers -/

theorem length_header (offset : UInt8) (len : ℕ) : 1 ≤ (header offset len).length := by
  unfold header
  split_ifs <;> simp

/-- The first byte of a short payload. -/
theorem toNat_offset_add {offset : UInt8} {k : ℕ} (h : offset.toNat + k < 256) :
    (offset + UInt8.ofNat k).toNat = offset.toNat + k := by
  rw [UInt8.toNat_add, UInt8.toNat_ofNat']
  omega

/-- What the first byte of a list or of a string is made of. -/
def offset (isList : Bool) : UInt8 := if isList then 0xc0 else 0x80

theorem toNat_offset (isList : Bool) :
    (offset isList).toNat = if isList then 192 else 128 := by
  cases isList <;> rfl

/-- Which bytes start a short payload. -/
theorem payloadInfo_short {isList : Bool} {len : ℕ} {bs : Bytes} (hlen : len ≤ 55)
    (hbs : len ≤ bs.length) :
    payloadInfo ((offset isList + UInt8.ofNat len) :: bs) = .ok (1, len, isList) := by
  have hfirst : (offset isList + UInt8.ofNat len).toNat = (offset isList).toNat + len :=
    toNat_offset_add (by rw [toNat_offset]; split_ifs <;> omega)
  have hsub : (offset isList + UInt8.ofNat len - offset isList).toNat = len := by
    rw [UInt8.add_comm, UInt8.add_sub_cancel, UInt8.toNat_ofNat']
    omega
  rw [toNat_offset] at hfirst
  unfold payloadInfo
  cases isList with
  | false =>
    change (offset false + UInt8.ofNat len - 0x80).toNat = len at hsub
    simp only [UInt8.lt_iff_toNat_lt, UInt8.le_iff_toNat_le, hfirst, UInt8.reduceToNat, hsub,
      Bool.false_eq_true, if_false]
    rw [if_neg (by omega), if_pos (by omega)]
    exact if_neg (by omega)
  | true =>
    change (offset true + UInt8.ofNat len - 0xc0).toNat = len at hsub
    simp only [UInt8.lt_iff_toNat_lt, UInt8.le_iff_toNat_le, hfirst, UInt8.reduceToNat, hsub,
      if_true]
    rw [if_neg (by omega), if_neg (by omega), if_neg (by omega), if_pos (by omega)]
    exact if_neg (by omega)

/-- A long payload starts with its length, whose own length is in the first byte. -/
theorem payloadInfo_long {isList : Bool} {n : UInt64} {bs : Bytes} (hn : 55 < n.toNat)
    (hbs : n.toNat ≤ bs.length) :
    payloadInfo ((offset isList + 55 + UInt8.ofNat (digits n).length) :: (digits n ++ bs)) =
      .ok (1 + (digits n).length, n.toNat, isList) := by
  have hpos : 0 < (digits n).length := List.length_pos_of_ne_nil (digits_ne_nil (by
    rintro rfl
    simp at hn))
  have hle := length_digits_le n
  have hfirst : (offset isList + 55 + UInt8.ofNat (digits n).length).toNat =
      (if isList then 247 else 183) + (digits n).length := by
    rw [toNat_offset_add] <;> cases isList <;> simp [offset] <;> omega
  have hsub : (offset isList + 55 + UInt8.ofNat (digits n).length - (offset isList + 55)).toNat =
      (digits n).length := by
    rw [UInt8.add_comm, UInt8.add_sub_cancel, UInt8.toNat_ofNat']
    omega
  have htake : (digits n ++ bs).take (digits n).length = digits n := List.take_left' rfl
  unfold payloadInfo
  cases isList with
  | false =>
    change (offset false + 55 + UInt8.ofNat (digits n).length - 0xb7).toNat = _ at hsub
    simp only [UInt8.lt_iff_toNat_lt, UInt8.le_iff_toNat_le, hfirst, UInt8.reduceToNat, hsub, htake,
      head_digits_ne, fromBeBytes_digits, Bool.false_eq_true, if_false, Nat.lt_irrefl]
    rw [if_neg (by omega), if_neg (by omega), if_pos (by omega), if_neg (by omega)]
    exact if_neg (by rw [List.length_append]; omega)
  | true =>
    change (offset true + 55 + UInt8.ofNat (digits n).length - 0xf7).toNat = _ at hsub
    simp only [UInt8.lt_iff_toNat_lt, UInt8.le_iff_toNat_le, hfirst, UInt8.reduceToNat, hsub, htake,
      head_digits_ne, fromBeBytes_digits, if_true, if_false, Nat.lt_irrefl]
    rw [if_neg (by omega), if_neg (by omega), if_neg (by omega), if_neg (by omega),
      if_neg (by omega)]
    exact if_neg (by rw [List.length_append]; omega)

/-- **The header of a payload tells its length**, whatever follows it. -/
theorem payloadInfo_header (isList : Bool) (payload rest : Bytes) (hlen : payload.length < 2 ^ 64) :
    payloadInfo (header (offset isList) payload.length ++ (payload ++ rest)) =
      .ok ((header (offset isList) payload.length).length, payload.length, isList) := by
  unfold header
  split_ifs with hshort
  · exact payloadInfo_short hshort (by simp)
  · have hn : (UInt64.ofNat payload.length).toNat = payload.length := UInt64.toNat_ofNat_of_lt' hlen
    have h := @payloadInfo_long isList (UInt64.ofNat payload.length) (payload ++ rest) (by omega)
      (by simp [hn])
    rw [hn, Nat.add_comm 1] at h
    exact h

/-! ### Items -/

/-- An encoding fits into a byte vector. -/
def Item.Fits (item : Item) : Prop := item.encode.length < 2 ^ 63

theorem encodeAll_eq (items : List Item) : encodeAll items = (items.map Item.encode).flatten := by
  induction items with
  | nil => simp [encodeAll]
  | cons item items ih => simp [encodeAll, ih]

/-- The items of a list fit if the list does. -/
theorem Item.Fits.of_mem {items : List Item} {item : Item} (h : (Item.list items).Fits)
    (hmem : item ∈ items) : item.Fits := by
  have hle : item.encode.length ≤ (encodeAll items).length := by
    rw [encodeAll_eq]
    exact (List.sublist_flatten_of_mem (List.mem_map_of_mem hmem)).length_le
  unfold Item.Fits at h ⊢
  simp only [Item.encode, List.length_append] at h
  omega

/-- A string is a byte below `0x80`, or has a header. -/
theorem encodeStr_cases (b : Bytes) : (∃ x, b = [x] ∧ x < 0x80 ∧ encodeStr b = [x]) ∨
    (¬ (b.length = 1 ∧ b.all (· < 0x80)) ∧ encodeStr b = header (offset false) b.length ++ b) := by
  cases b with
  | nil => exact .inr ⟨by simp, rfl⟩
  | cons x b =>
    cases b with
    | nil =>
      by_cases hx : x < 0x80
      · exact .inl ⟨x, rfl, hx, if_pos hx⟩
      · exact .inr ⟨by simpa using hx, if_neg hx⟩
    | cons y b => exact .inr ⟨by simp, rfl⟩

/-- What the header of an encoded string tells. -/
theorem payloadInfo_str {b : Bytes} (rest : Bytes) (h : (Item.str b).Fits) :
    ∃ k, payloadInfo ((Item.str b).encode ++ rest) = .ok (k, b.length, false) ∧
      (Item.str b).encode.length = k + b.length ∧
      (((Item.str b).encode ++ rest).drop k).take b.length = b ∧
      ¬ (k = 1 ∧ b.length = 1 ∧ b.all (· < 0x80)) := by
  unfold Item.Fits at h
  simp only [Item.encode] at h ⊢
  rcases encodeStr_cases b with ⟨x, rfl, hx, henc⟩ | ⟨hb, henc⟩
  · rw [henc]
    refine ⟨0, ?_, rfl, rfl, by simp⟩
    simp [payloadInfo, hx]
  · rw [henc, List.length_append] at h
    rw [henc]
    refine ⟨(header (offset false) b.length).length, ?_, List.length_append, ?_,
      fun hc => hb hc.2⟩
    · rw [List.append_assoc]
      exact payloadInfo_header false b rest (by omega)
    · rw [List.append_assoc, List.drop_left, List.take_left]

/-- What the header of an encoded list tells. -/
theorem payloadInfo_list {items : List Item} (rest : Bytes) (h : (Item.list items).Fits) :
    ∃ k, payloadInfo ((Item.list items).encode ++ rest) = .ok (k, (encodeAll items).length, true) ∧
      (Item.list items).encode.length = k + (encodeAll items).length ∧
      (((Item.list items).encode ++ rest).drop k).take (encodeAll items).length =
        encodeAll items := by
  unfold Item.Fits at h
  simp only [Item.encode, List.length_append] at h ⊢
  refine ⟨(header 0xc0 (encodeAll items).length).length, ?_, rfl, ?_⟩
  · rw [List.append_assoc]
    exact payloadInfo_header true (encodeAll items) rest (by omega)
  · rw [List.append_assoc, List.drop_left, List.take_left]

/-- **The header of an encoded item tells its size**, whatever follows it. -/
theorem payloadInfo_encode {item : Item} (rest : Bytes) (h : item.Fits) :
    ∃ k n isList, payloadInfo (item.encode ++ rest) = .ok (k, n, isList) ∧
      item.encode.length = k + n := by
  cases item with
  | str b =>
    obtain ⟨k, hinfo, hlen, -⟩ := payloadInfo_str rest h
    exact ⟨k, _, _, hinfo, hlen⟩
  | list items =>
    obtain ⟨k, hinfo, hlen, -⟩ := payloadInfo_list rest h
    exact ⟨k, _, _, hinfo, hlen⟩

theorem encode_ne_nil (item : Item) : item.encode ≠ [] := by
  have hheader : ∀ offset len, header offset len ≠ [] := fun offset len h => by
    have := length_header offset len
    rw [h] at this
    simp at this
  cases item with
  | str b =>
    rcases encodeStr_cases b with ⟨x, -, -, henc⟩ | ⟨-, henc⟩
    · simp [Item.encode, henc]
    · simp [Item.encode, henc, hheader]
  | list items => simp [Item.encode, hheader]

theorem length_le_encodeAll (items : List Item) : items.length ≤ (encodeAll items).length := by
  induction items with
  | nil => simp
  | cons item items ih =>
    have hpos := List.length_pos_of_ne_nil (encode_ne_nil item)
    rw [encodeAll, List.length_append, List.length_cons]
    omega

/-- Integers are short. -/
theorem fits_int (n : UInt64) : (Item.int n).Fits := by
  have hle := length_digits_le n
  unfold Item.Fits Item.int
  rw [Item.encode]
  rcases encodeStr_cases (digits n) with ⟨x, -, -, henc⟩ | ⟨-, henc⟩
  · rw [henc]
    simp
  · rw [henc, header, if_pos (by omega)]
    simp only [List.length_append, List.length_singleton]
    omega

/-! ### The reference reader -/

/-- The items of a payload are found one after the other. -/
theorem splitItems_encodeAll {items : List Item} {fuel : ℕ} (hfit : ∀ item ∈ items, item.Fits)
    (hfuel : items.length ≤ fuel) :
    splitItems fuel (encodeAll items) = .ok (items.map Item.encode) := by
  induction items generalizing fuel with
  | nil => cases fuel <;> simp [encodeAll, splitItems]
  | cons item items ih =>
    cases fuel with
    | zero => simp at hfuel
    | succ fuel =>
      obtain ⟨k, n, isList, hinfo, hlen⟩ :=
        payloadInfo_encode (encodeAll items) (hfit item List.mem_cons_self)
      have hrest := ih (fun item hmem => hfit item (List.mem_cons_of_mem _ hmem))
        (Nat.le_of_succ_le_succ hfuel)
      cases henc : item.encode with
      | nil => exact absurd henc (encode_ne_nil item)
      | cons x bs =>
        have hsplit : encodeAll (item :: items) = x :: (bs ++ encodeAll items) := by
          simp [encodeAll, henc]
        have hwhole : x :: (bs ++ encodeAll items) = item.encode ++ encodeAll items := by
          simp [henc]
        rw [hsplit, splitItems, hwhole, hinfo]
        · dsimp only
          rw [← hlen, List.drop_left, List.take_left, hrest, List.map_cons]
        · simp

theorem listItems_encode {items : List Item} (h : (Item.list items).Fits) :
    listItems (Item.list items).encode = .ok (items.map Item.encode) := by
  obtain ⟨k, hinfo, -, hpayload⟩ := payloadInfo_list [] h
  rw [List.append_nil] at hinfo hpayload
  unfold listItems
  rw [hinfo]
  dsimp only
  rw [hpayload]
  exact splitItems_encodeAll (fun item hmem => h.of_mem hmem) (length_le_encodeAll items)

theorem strBytes_encode {b : Bytes} (h : (Item.str b).Fits) :
    strBytes (Item.str b).encode = .ok b := by
  obtain ⟨k, hinfo, -, hpayload, hcanonical⟩ := payloadInfo_str [] h
  rw [List.append_nil] at hinfo hpayload
  unfold strBytes
  rw [hinfo]
  dsimp only
  rw [hpayload, if_neg hcanonical]

theorem uint_encode {size : ℕ} {n : UInt64} (hsize : (digits n).length ≤ size) :
    uint size (Item.int n).encode = .ok n := by
  unfold uint
  rw [Item.int, strBytes_encode (fits_int n)]
  dsimp only
  rw [if_neg (by omega), if_neg (head_digits_ne n), fromBeBytes_digits]

theorem length_digits_u8 (b : UInt8) : (digits b.toUInt64).length ≤ 1 := by
  have hall : ∀ n : Fin 256, (digits (UInt8.ofNat n).toUInt64).length ≤ 1 := by decide +kernel
  have h := hall ⟨b.toNat, b.toNat_lt⟩
  rwa [UInt8.ofNat_toNat] at h

/-! ### Readers -/

/-- The reader finds in an encoding what was encoded. -/
structure Reader.Reads (R : Reader) : Prop where
  prototype : ∀ items, (Item.list items).Fits →
    R.prototype (Item.list items).encode = .ok (.list items.length)
  itemAt : ∀ items i item, (Item.list items).Fits → items[i]? = some item →
    R.itemAt (Item.list items).encode i = .ok item.encode
  itemCount : ∀ items, (Item.list items).Fits →
    R.itemCount (Item.list items).encode = .ok items.length
  iter : ∀ items, (Item.list items).Fits →
    R.iter (Item.list items).encode = items.map Item.encode
  asBytes : ∀ b, (Item.str b).Fits → R.asBytes (Item.str b).encode = .ok b
  asU64 : ∀ n, R.asU64 (Item.int n).encode = .ok n
  asU8 : ∀ b : UInt8, R.asU8 (Item.int b.toUInt64).encode = .ok b

/-- **The reference reader reads what was encoded.** -/
theorem reader_reads : reader.Reads where
  prototype items h := by
    obtain ⟨k, hinfo, -⟩ := payloadInfo_list [] h
    rw [List.append_nil] at hinfo
    simp only [reader, encode_ne_nil, if_false, hinfo, listItems_encode h, Except.map,
      Except.toOption, Option.getD_some, List.length_map]
  itemAt items i item h hi := by
    simp [reader, listItems_encode h, Except.bind, hi]
  itemCount items h := by
    simp [reader, listItems_encode h, Except.map]
  iter items h := by
    simp [reader, listItems_encode h, Except.toOption]
  asBytes _ h := strBytes_encode h
  asU64 n := uint_encode (length_digits_le n)
  asU8 b := by
    simp [reader, uint_encode (length_digits_u8 b), Except.map]

end Rlp

end ConsensusBft

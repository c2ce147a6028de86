import ConsensusBft.Wal.Basic

/-!
# Records in a file

* `encodeRecord`, `encodeRecords` : what `Wal::save` appends to a file, and a list of it.
* `parseRecords_encodeRecords` : **the records of a file are read back**, whatever follows them,
  as long as none has `2 ^ 32` bytes or more.
* `Disk.Holds P d` : every file of the directory is a list of saved records, and `P` holds of each
  under the height of its file.
* `Disk.Short d` : no file holds a record of `2 ^ 32` bytes or more.
-/

namespace ConsensusBft

/-- What is appended to a file for a record: its length modulo `2 ^ 32`, its type and its bytes. -/
def encodeRecord (r : UInt8 × Bytes) : Bytes :=
  toLeBytes (UInt32.ofNat r.2.length) ++ r.1 :: r.2

/-- A list of records in a file. -/
def encodeRecords (recs : List (UInt8 × Bytes)) : Bytes := recs.flatMap encodeRecord

@[simp] theorem encodeRecords_nil : encodeRecords [] = [] := rfl

@[simp] theorem encodeRecords_cons (r : UInt8 × Bytes) (recs : List (UInt8 × Bytes)) :
    encodeRecords (r :: recs) = encodeRecord r ++ encodeRecords recs := rfl

@[simp] theorem encodeRecords_append (recs recs' : List (UInt8 × Bytes)) :
    encodeRecords (recs ++ recs') = encodeRecords recs ++ encodeRecords recs' :=
  List.flatMap_append

@[simp] theorem length_encodeRecord (r : UInt8 × Bytes) :
    (encodeRecord r).length = r.2.length + 5 := by
  simp [encodeRecord, toLeBytes]

/-- A record is not longer than its file. -/
theorem length_le_encodeRecords {r : UInt8 × Bytes} {recs : List (UInt8 × Bytes)} (h : r ∈ recs) :
    r.2.length ≤ (encodeRecords recs).length := by
  induction recs with
  | nil => simp at h
  | cons r' recs ih =>
    rw [encodeRecords_cons, List.length_append, length_encodeRecord]
    rcases List.mem_cons.1 h with rfl | h
    · omega
    · have hle := ih h
      omega

/-- A file with a record that is not empty has more than five bytes. -/
theorem five_lt_length_encodeRecords {recs : List (UInt8 × Bytes)} (hne : recs ≠ [])
    (hrecs : ∀ r ∈ recs, r.2 ≠ []) : 5 < (encodeRecords recs).length := by
  obtain ⟨r, recs, rfl⟩ := List.exists_cons_of_ne_nil hne
  have hpos := List.length_pos_of_ne_nil (hrecs r List.mem_cons_self)
  rw [encodeRecords_cons, List.length_append, length_encodeRecord]
  omega

theorem fromLeBytes_toLeBytes (n : UInt32) : fromLeBytes n.toUInt8 (n >>> 8).toUInt8
    (n >>> 16).toUInt8 (n >>> 24).toUInt8 = n := by
  have hn : n.toNat < 4294967296 := n.toNat_lt
  rw [← UInt32.toNat_inj]
  -- the four bytes are the digits in base `256`
  simp only [fromLeBytes, UInt32.toNat_add, UInt32.toNat_mul, UInt8.toNat_toUInt32,
    UInt32.toNat_toUInt8, UInt32.toNat_shiftRight, Nat.shiftRight_eq_div_pow, UInt32.reduceToNat,
    Nat.reduceMod, Nat.reducePow]
  omega

/-! ### Reading -/

/-- The first record of the bytes that are left is read. -/
theorem parseRecords_encodeRecord {r : UInt8 × Bytes} (hr : r.2.length < 2 ^ 32) (fuel : ℕ)
    (rest : Bytes) :
    parseRecords (fuel + 1) (encodeRecord r ++ rest) = r :: parseRecords fuel rest := by
  obtain ⟨mtype, msg⟩ := r
  have hlen : (UInt32.ofNat msg.length).toNat = msg.length := by
    rw [UInt32.toNat_ofNat', Nat.mod_eq_of_lt hr]
  simp only [encodeRecord, toLeBytes, List.cons_append, List.nil_append, parseRecords,
    fromLeBytes_toLeBytes, hlen]
  rw [if_neg (by simp), List.take_left, List.drop_left]

/-- Every turn of the loop takes bytes away, so that more fuel than bytes changes nothing. -/
theorem parseRecords_of_le {fuel fuel' : ℕ} {b : Bytes} (h : b.length ≤ fuel)
    (h' : b.length ≤ fuel') : parseRecords fuel b = parseRecords fuel' b := by
  induction fuel generalizing fuel' b with
  | zero =>
    obtain rfl := List.length_eq_zero_iff.1 (Nat.le_zero.1 h)
    cases fuel' <;> rfl
  | succ fuel ih =>
    cases fuel' with
    | zero =>
      obtain rfl := List.length_eq_zero_iff.1 (Nat.le_zero.1 h')
      rfl
    | succ fuel' =>
      rcases b with - | ⟨b₀, - | ⟨b₁, - | ⟨b₂, - | ⟨b₃, - | ⟨mtype, rest⟩⟩⟩⟩⟩
      all_goals try rfl
      simp only [parseRecords]
      simp only [List.length_cons] at h h'
      rw [@ih fuel' (rest.drop (fromLeBytes b₀ b₁ b₂ b₃).toNat) (by rw [List.length_drop]; omega)
        (by rw [List.length_drop]; omega)]

/-- **The records of a file are read back**, before what follows them. -/
theorem parseRecords_encodeRecords {recs : List (UInt8 × Bytes)} {fuel : ℕ} {tail : Bytes}
    (hshort : ∀ r ∈ recs, r.2.length < 2 ^ 32)
    (hfuel : (encodeRecords recs ++ tail).length ≤ fuel) :
    parseRecords fuel (encodeRecords recs ++ tail) = recs ++ parseRecords tail.length tail := by
  induction recs generalizing fuel with
  | nil => exact parseRecords_of_le hfuel (Nat.le_refl _)
  | cons r recs ih =>
    rw [encodeRecords_cons, List.append_assoc] at hfuel ⊢
    rw [List.length_append, length_encodeRecord] at hfuel
    obtain ⟨fuel, rfl⟩ : ∃ k, fuel = k + 1 := ⟨fuel - 1, by omega⟩
    rw [parseRecords_encodeRecord (hshort r List.mem_cons_self),
      ih (fun r hmem => hshort r (List.mem_cons_of_mem _ hmem)) (by omega), List.cons_append]

/-! ### What is read -/

theorem toLeBytes_fromLeBytes (b₀ b₁ b₂ b₃ : UInt8) :
    toLeBytes (fromLeBytes b₀ b₁ b₂ b₃) = [b₀, b₁, b₂, b₃] := by
  have h₀ : b₀.toNat < 256 := b₀.toNat_lt
  have h₁ : b₁.toNat < 256 := b₁.toNat_lt
  have h₂ : b₂.toNat < 256 := b₂.toNat_lt
  have h₃ : b₃.toNat < 256 := b₃.toNat_lt
  have hn : (fromLeBytes b₀ b₁ b₂ b₃).toNat =
      b₀.toNat + b₁.toNat * 256 + b₂.toNat * 65536 + b₃.toNat * 16777216 := by
    simp only [fromLeBytes, UInt32.toNat_add, UInt32.toNat_mul, UInt8.toNat_toUInt32,
      UInt32.reduceToNat, Nat.reducePow]
    omega
  simp only [toLeBytes, List.cons.injEq, and_true, ← UInt8.toNat_inj, UInt32.toNat_toUInt8,
    UInt32.toNat_shiftRight, Nat.shiftRight_eq_div_pow, hn, UInt32.reduceToNat, Nat.reduceMod,
    Nat.reducePow]
  omega

/-- A body as long as its header says is a record. -/
theorem encodeRecord_of_header {b₀ b₁ b₂ b₃ : UInt8} (mtype : UInt8) {body : Bytes}
    (h : body.length = (fromLeBytes b₀ b₁ b₂ b₃).toNat) :
    encodeRecord (mtype, body) = b₀ :: b₁ :: b₂ :: b₃ :: mtype :: body := by
  have hlen : UInt32.ofNat body.length = fromLeBytes b₀ b₁ b₂ b₃ := by
    rw [h, UInt32.ofNat_toNat]
  simp only [encodeRecord, hlen, toLeBytes_fromLeBytes, List.cons_append, List.nil_append]

/-- No record is complete at the start of the bytes. -/
def Incomplete (b : Bytes) : Prop :=
  ∀ r : UInt8 × Bytes, r.2.length < 2 ^ 32 → ¬ encodeRecord r <+: b

theorem parseRecords_of_lt {fuel : ℕ} {b : Bytes} (h : b.length < 5) :
    parseRecords fuel b = [] := by
  unfold parseRecords
  split
  · simp only [List.length_cons] at h
    omega
  · rfl

/-- **The loop takes one complete record, or there is none.** -/
theorem parseRecords_cases (b : Bytes) :
    (Incomplete b ∧ parseRecords b.length b = []) ∨
      ∃ r rest, r.2.length < 2 ^ 32 ∧ b = encodeRecord r ++ rest ∧
        parseRecords b.length b = r :: parseRecords rest.length rest := by
  by_cases hshort : b.length < 5
  · refine .inl ⟨fun r _ hprefix => ?_, parseRecords_of_lt hshort⟩
    have hle := hprefix.length_le
    rw [length_encodeRecord] at hle
    omega
  obtain ⟨b₀, b₁, b₂, b₃, mtype, body, rfl⟩ :
      ∃ b₀ b₁ b₂ b₃ mtype body, b = b₀ :: b₁ :: b₂ :: b₃ :: mtype :: body := by
    rcases b with - | ⟨b₀, - | ⟨b₁, - | ⟨b₂, - | ⟨b₃, - | ⟨mtype, body⟩⟩⟩⟩⟩
    case cons.cons.cons.cons.cons => exact ⟨b₀, b₁, b₂, b₃, mtype, body, rfl⟩
    all_goals exact absurd (by simp) hshort
  obtain ⟨n, hn⟩ : ∃ n, (fromLeBytes b₀ b₁ b₂ b₃).toNat = n := ⟨_, rfl⟩
  have hlt : n < 2 ^ 32 := by
    rw [← hn]
    exact UInt32.toNat_lt _
  have hparse : parseRecords (b₀ :: b₁ :: b₂ :: b₃ :: mtype :: body).length
      (b₀ :: b₁ :: b₂ :: b₃ :: mtype :: body) = if body.length < n then []
        else (mtype, body.take n) :: parseRecords (body.length + 4) (body.drop n) := by
    simp only [List.length_cons, parseRecords, hn]
  rw [hparse]
  by_cases hlen : body.length < n
  · refine .inl ⟨?_, if_pos hlen⟩
    rintro ⟨mtype', msg⟩ hr ⟨rest, heq⟩
    -- the header tells the length of the body
    simp only [encodeRecord, toLeBytes, List.cons_append, List.nil_append, List.cons.injEq] at heq
    obtain ⟨h₀, h₁, h₂, h₃, -, hbody⟩ := heq
    dsimp only at hr
    rw [← h₀, ← h₁, ← h₂, ← h₃, fromLeBytes_toLeBytes, UInt32.toNat_ofNat',
      Nat.mod_eq_of_lt hr] at hn
    rw [← hbody, List.length_append] at hlen
    omega
  · have htake : (body.take n).length = n := by
      rw [List.length_take]
      omega
    refine .inr ⟨(mtype, body.take n), body.drop n, by rw [htake]; exact hlt, ?_, ?_⟩
    · rw [encodeRecord_of_header mtype (htake.trans hn.symm)]
      simp only [List.cons_append, List.take_append_drop]
    · rw [if_neg hlen, parseRecords_of_le (by rw [List.length_drop]; omega) (Nat.le_refl _)]

/-- **What is read are the records at the start of the bytes**, up to where none is complete. -/
theorem parseRecords_eq_iff {b : Bytes} {recs : List (UInt8 × Bytes)} :
    parseRecords b.length b = recs ↔ (∀ r ∈ recs, r.2.length < 2 ^ 32) ∧
      ∃ rest, b = encodeRecords recs ++ rest ∧ Incomplete rest := by
  constructor
  · intro h
    induction recs generalizing b with
    | nil =>
      rcases parseRecords_cases b with ⟨hb, -⟩ | ⟨r, rest, -, -, hparse⟩
      · exact ⟨List.forall_mem_nil _, b, rfl, hb⟩
      · exact nomatch h.symm.trans hparse
    | cons r recs ih =>
      rcases parseRecords_cases b with ⟨-, hparse⟩ | ⟨r', rest, hr, rfl, hparse⟩
      · exact nomatch h.symm.trans hparse
      · obtain ⟨rfl, hrecs⟩ := List.cons.inj (h.symm.trans hparse)
        obtain ⟨hshort, rest', rfl, hrest⟩ := ih hrecs.symm
        refine ⟨List.forall_mem_cons.2 ⟨hr, hshort⟩, rest', ?_, hrest⟩
        rw [encodeRecords_cons, List.append_assoc]
  · rintro ⟨hshort, rest, rfl, hrest⟩
    rw [parseRecords_encodeRecords hshort (Nat.le_refl _)]
    rcases parseRecords_cases rest with ⟨-, hnil⟩ | ⟨r, rest', hr, rfl, -⟩
    · rw [hnil, List.append_nil]
    · exact absurd (List.prefix_append _ _) (hrest r hr)

/-- The records of a file, as they are read, are those that were written. -/
theorem encodeRecords_prefix_iff {recs recs' : List (UInt8 × Bytes)}
    (h : ∀ r ∈ recs, r.2.length < 2 ^ 32) (h' : ∀ r ∈ recs', r.2.length < 2 ^ 32) :
    encodeRecords recs <+: encodeRecords recs' ↔ recs <+: recs' := by
  constructor
  · rintro ⟨rest, heq⟩
    -- both files are the same bytes, so that the same records are read
    have hread : parseRecords _ (encodeRecords recs ++ rest) = _ :=
      parseRecords_encodeRecords h (Nat.le_refl _)
    have hread' : parseRecords _ (encodeRecords recs' ++ []) = _ :=
      parseRecords_encodeRecords h' (Nat.le_refl _)
    rw [List.append_nil, ← heq, hread] at hread'
    exact ⟨_, hread'.trans (List.append_nil recs')⟩
  · rintro ⟨rest, rfl⟩
    rw [encodeRecords_append]
    exact List.prefix_append _ _

/-! ### Directories -/

namespace Disk

/-- Every file is a list of saved records, and `P` holds of each under the height of its file. -/
def Holds (P : UInt64 → UInt8 × Bytes → Prop) (d : Disk) : Prop :=
  ∀ h b, d.logs.lookup h = some b → ∃ recs, b = encodeRecords recs ∧ ∀ r ∈ recs, P h r

/-- No file holds a record of `2 ^ 32` bytes or more. -/
def Short (d : Disk) : Prop :=
  ∀ h recs, d.logs.lookup h = some (encodeRecords recs) → ∀ r ∈ recs, r.2.length < 2 ^ 32

variable {P : UInt64 → UInt8 × Bytes → Prop} {d d' : Disk} {h : UInt64}

/-- A directory whose files have fewer than `2 ^ 32` bytes. -/
theorem Short.of_length (hd : ∀ h b, d.logs.lookup h = some b → b.length < 2 ^ 32) : d.Short :=
  fun h _ hl _ hr => Nat.lt_of_le_of_lt (length_le_encodeRecords hr) (hd h _ hl)

/-- A new file holds no record. -/
theorem Short.orInsert (hd : d.Short) (hlogs : d'.logs = d.logs.orInsert h []) : d'.Short := by
  intro h' recs hl
  rw [hlogs] at hl
  rcases HashMap.lookup_orInsert_cases hl with hl | ⟨rfl, hempty, -⟩
  · exact hd h' recs hl
  · cases recs with
    | nil => exact nofun
    | cons r recs => simp [encodeRecord, toLeBytes] at hempty

theorem Holds.of_logs_eq (hd : d.Holds P) (hlogs : d'.logs = d.logs) : d'.Holds P := by
  intro h b hl
  rw [hlogs] at hl
  exact hd h b hl

/-- An empty directory. -/
theorem Holds.empty (hd : d.logs = ∅) : d.Holds P := by
  intro h b hl
  rw [hd] at hl
  exact nomatch hl

/-- A new file holds no record. -/
theorem Holds.orInsert (hd : d.Holds P) (hlogs : d'.logs = d.logs.orInsert h []) :
    d'.Holds P := by
  intro h' b hl
  rw [hlogs] at hl
  rcases HashMap.lookup_orInsert_cases hl with hl | ⟨rfl, rfl, -⟩
  · exact hd h' b hl
  · exact ⟨[], rfl, nofun⟩

theorem Holds.erase (hd : d.Holds P) (hlogs : d'.logs = d.logs.erase h) : d'.Holds P := by
  intro h' b hl
  rw [hlogs] at hl
  exact hd h' b (HashMap.lookup_of_erase hl)

/-- A record is appended to a file. -/
theorem Holds.append {r : UInt8 × Bytes} (hd : d.Holds P) (hr : P h r)
    (hlogs : d'.logs = d.logs.insert h ((d.logs.lookup h).getD [] ++ encodeRecord r)) :
    d'.Holds P := by
  intro h' b hl
  rw [hlogs] at hl
  by_cases hh : h' = h
  · subst hh
    rw [AList.lookup_insert] at hl
    obtain rfl := Option.some.inj hl
    cases hold : d.logs.lookup h' with
    | none => exact ⟨[r], by simp [encodeRecords], by simpa using hr⟩
    | some b =>
      obtain ⟨recs, rfl, hrecs⟩ := hd h' b hold
      refine ⟨recs ++ [r], by simp [encodeRecords], fun r' hmem => ?_⟩
      rcases List.mem_append.1 hmem with hmem | hmem
      · exact hrecs r' hmem
      · rwa [List.mem_singleton.1 hmem]
  · rw [AList.lookup_insert_ne hh] at hl
    exact hd h' b hl

end Disk

end ConsensusBft

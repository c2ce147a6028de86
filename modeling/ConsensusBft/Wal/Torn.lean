import ConsensusBft.Wal.Working

/-!
# Records behind a torn one

A crash cuts the file of a height at some byte.  The log that is opened next does not cut the
incomplete record off; what is saved then is appended behind it.

* `whole recs n`, `torn recs n` : the records that lie within the first `n` bytes, and what is left
  of the next one.
* `Wal.reload` : the log is opened, records are saved, and the log is opened again and loaded.
* `Wal.Recovers` : `reload` returns the records before the cut and the ones saved after it.
* `Wal.recovers_iff` : **when it does**; `Wal.torn_tail_swallows` : a record that is lost.
-/

namespace ConsensusBft

variable {recs later : List (UInt8 × Bytes)} {n : ℕ}

/-! ### A file that is cut -/

/-- The records that lie within the first bytes of a file. -/
def whole : List (UInt8 × Bytes) → ℕ → List (UInt8 × Bytes)
  | [], _ => []
  | r :: recs, n =>
    if (encodeRecord r).length ≤ n then r :: whole recs (n - (encodeRecord r).length) else []

/-- What is left of the record behind them. -/
def torn : List (UInt8 × Bytes) → ℕ → Bytes
  | [], _ => []
  | r :: recs, n =>
    if (encodeRecord r).length ≤ n then torn recs (n - (encodeRecord r).length)
    else (encodeRecord r).take n

/-- **A file that is cut holds the whole records and what is left of the next one.** -/
theorem take_encodeRecords (recs : List (UInt8 × Bytes)) (n : ℕ) :
    (encodeRecords recs).take n = encodeRecords (whole recs n) ++ torn recs n := by
  induction recs generalizing n with
  | nil => simp [whole, torn]
  | cons r recs ih =>
    rw [encodeRecords_cons, List.take_append, whole, torn]
    by_cases hle : (encodeRecord r).length ≤ n
    · rw [if_pos hle, if_pos hle, List.take_of_length_le hle, ih, encodeRecords_cons,
        List.append_assoc]
    · rw [if_neg hle, if_neg hle, Nat.sub_eq_zero_of_le (by omega), List.take_zero,
        List.append_nil, encodeRecords_nil, List.nil_append]

theorem whole_subset {r : UInt8 × Bytes} (h : r ∈ whole recs n) : r ∈ recs := by
  induction recs generalizing n with
  | nil => exact h
  | cons r' recs ih =>
    rw [whole] at h
    split_ifs at h
    · rcases List.mem_cons.1 h with rfl | h
      · exact List.mem_cons_self
      · exact List.mem_cons_of_mem r' (ih h)
    · exact nomatch h

/-! ### Saving behind it -/

namespace Wal

variable {io : ℕ → IoOutcome} {checks : Bool} {h : UInt64}

/-- Save records at a height. -/
def saveAll (io : ℕ → IoOutcome) (checks : Bool) (h : UInt64) (recs : List (UInt8 × Bytes)) :
    Exec IoError WalState PUnit :=
  recs.forM fun r => do
    let _ ← save io checks h r.1 r.2

/-- The log is opened, records are saved, and the log is opened again and loaded. -/
def reload (io : ℕ → IoOutcome) (checks : Bool) (h : UInt64) (later : List (UInt8 × Bytes)) :
    Exec IoError WalState (List (UInt8 × Bytes)) := do
  reopen io
  saveAll io checks h later
  reopen io
  load io

/-- The records before the cut and the ones saved after it are returned. -/
def Recovers (io : ℕ → IoOutcome) (checks : Bool) (h : UInt64) (recs : List (UInt8 × Bytes))
    (n : ℕ) (later : List (UInt8 × Bytes)) (w : WalState) : Prop :=
  (Exec.result (reload io checks h later) w).1 = .ok (whole recs n ++ later)

/-- **Saved records are appended** to an open file. -/
theorem saveAll_result (hio : ∀ n, io n = .ok) {w : WalState} {b : Bytes}
    (hmem : h ∈ w.wal.heightFs) (hfile : w.disk.logs.lookup h = some b)
    (hlater : ∀ r ∈ later, r.2 ≠ []) : ∃ w', Exec.result (saveAll io checks h later) w =
      (.ok ⟨⟩, w') ∧ w'.disk.index = w.disk.index ∧
        w'.disk.logs.lookup h = some (b ++ encodeRecords later) := by
  induction later generalizing w b with
  | nil => exact ⟨w, rfl, rfl, by rw [encodeRecords_nil, List.append_nil, hfile]⟩
  | cons r later ih =>
    obtain ⟨k, hk⟩ := save_result hio checks h r w fun hfull => hfull.2.1 hmem
    rw [saved_of_open (hlater r List.mem_cons_self) hmem] at hk
    have hwritten : (written w h r).disk.logs.lookup h = some (b ++ encodeRecord r) := by
      rw [written, AList.lookup_insert, hfile, Option.getD_some]
    obtain ⟨w', hw', hindex, hlogs⟩ := ih (w := written w h r) hmem hwritten
      fun r' hr' => hlater r' (List.mem_cons_of_mem r hr')
    refine ⟨w', ?_, hindex, by rw [hlogs, encodeRecords_cons, List.append_assoc]⟩
    have hstep : Exec.result (do let _ ← save io checks h r.1 r.2 : Exec IoError WalState PUnit) w =
        (.ok ⟨⟩, written w h r) := Exec.result_bind_ok hk
    exact (Exec.result_bind_ok hstep).trans hw'

/-- **What is saved is appended to what the crash left**, and both are read together. -/
theorem reload_result (hio : ∀ n, io n = .ok) {w : WalState} {b : Bytes}
    (hindex : indexHeight w.disk = some h) (hfile : w.disk.logs.lookup h = some b)
    (hlater : ∀ r ∈ later, r.2 ≠ []) :
    ∃ d : Disk, d.logs.lookup h = some (b ++ encodeRecords later) ∧
      (Exec.result (reload io checks h later) w).1 = .ok (loaded d h) := by
  obtain ⟨d₁, hr₁, hindex₁, hlogs₁⟩ := reopen_result hio hindex
  have hfile₁ : d₁.logs.lookup h = some b := by
    rw [hlogs₁, HashMap.orInsert_of_some hfile, hfile]
  obtain ⟨w₂, hr₂, hindex₂, hlogs₂⟩ : ∃ w₂,
      Exec.result (saveAll io checks h later) ⟨⟨[h], h⟩, d₁⟩ = (.ok ⟨⟩, w₂) ∧
        w₂.disk.index = d₁.index ∧
        w₂.disk.logs.lookup h = some (b ++ encodeRecords later) :=
    saveAll_result hio List.mem_cons_self hfile₁ hlater
  have hindex₂' : indexHeight w₂.disk = some h := by
    rw [← hindex₁]
    unfold indexHeight
    rw [hindex₂]
  obtain ⟨d₃, hr₃, -, hlogs₃⟩ := reopen_result hio hindex₂'
  have hfile₃ : d₃.logs.lookup h = some (b ++ encodeRecords later) := by
    rw [hlogs₃, HashMap.orInsert_of_some hlogs₂, hlogs₂]
  obtain ⟨ops, hr₄⟩ := load_result hio h d₃
  refine ⟨d₃, hfile₃, ?_⟩
  unfold reload
  rw [Exec.result_bind_ok hr₁, Exec.result_bind_ok hr₂, Exec.result_bind_ok hr₃, hr₄]

/-- What is left of the cut record, followed by the records saved later, starts with these again,
and no record is complete behind them; or there are no records at all and few bytes. -/
def Recoverable (h : UInt64) (recs : List (UInt8 × Bytes)) (n : ℕ)
    (later : List (UInt8 × Bytes)) : Prop :=
  (h ≠ 0 ∧ (∀ r ∈ whole recs n, r.2.length < 2 ^ 32) ∧
    ∃ rest, torn recs n ++ encodeRecords later = encodeRecords later ++ rest ∧ Incomplete rest) ∨
  whole recs n = [] ∧ later = [] ∧ (h = 0 ∨ (torn recs n).length ≤ 5)

/-- **When the records before and behind a torn one are recovered.** -/
theorem recovers_iff (hio : ∀ n, io n = .ok) {w : WalState}
    (hindex : indexHeight w.disk = some h)
    (hfile : w.disk.logs.lookup h = some ((encodeRecords recs).take n))
    (hrecs : ∀ r ∈ recs, r.2 ≠ [])
    (hlater : ∀ r ∈ later, r.2 ≠ [] ∧ r.2.length < 2 ^ 32) :
    Recovers io checks h recs n later w ↔ Recoverable h recs n later := by
  have hwhole : ∀ r ∈ whole recs n, r.2 ≠ [] := fun r hr => hrecs r (whole_subset hr)
  obtain ⟨d, hd, hresult⟩ : ∃ d : Disk, _ ∧ (Exec.result (reload io checks h later) w).1 = _ :=
    reload_result hio hindex hfile fun r hr => (hlater r hr).1
  unfold Recovers Recoverable
  rw [hresult, Except.ok.injEq, loaded, hd, Option.getD_some, take_encodeRecords]
  generalize whole recs n = before at hwhole
  generalize torn recs n = rest
  by_cases hshort : h = 0 ∨ (encodeRecords before ++ rest ++ encodeRecords later).length ≤ 5
  · -- nothing is read
    rw [if_pos hshort, eq_comm, List.append_eq_nil_iff]
    rw [List.length_append, List.length_append] at hshort
    constructor
    · rintro ⟨rfl, rfl⟩
      refine .inr ⟨rfl, rfl, hshort.imp_right fun hlen => ?_⟩
      rw [encodeRecords_nil, List.length_nil] at hlen
      omega
    · rintro (⟨hh, -, -⟩ | ⟨hbefore, hlater, -⟩)
      · have hlen := hshort.resolve_left hh
        constructor
        · by_contra hne
          have := five_lt_length_encodeRecords hne hwhole
          omega
        · by_contra hne
          have := five_lt_length_encodeRecords hne fun r hr => (hlater r hr).1
          omega
      · exact ⟨hbefore, hlater⟩
  · rw [if_neg hshort, parseRecords_eq_iff]
    rw [not_or] at hshort
    obtain ⟨hh, hlen⟩ := hshort
    constructor
    · rintro ⟨hall, tail, heq, htail⟩
      refine .inl ⟨hh, fun r hr => hall r (List.mem_append_left _ hr), tail, ?_, htail⟩
      rw [encodeRecords_append, List.append_assoc, List.append_assoc] at heq
      exact List.append_cancel_left heq
    · rintro (⟨-, hall, tail, heq, htail⟩ | ⟨rfl, rfl, hrest⟩)
      · refine ⟨fun r hr => ?_, tail, ?_, htail⟩
        · rcases List.mem_append.1 hr with hr | hr
          · exact hall r hr
          · exact (hlater r hr).2
        · rw [encodeRecords_append, List.append_assoc, List.append_assoc, heq]
      · rw [encodeRecords_nil, List.nil_append, List.append_nil] at hlen
        exact absurd hrest (not_or.2 ⟨hh, hlen⟩)

/-- The records before a cut between two records, and those saved after it, are recovered. -/
theorem recoverable_of_boundary (hh : h ≠ 0) (hboundary : torn recs n = [])
    (hshort : ∀ r ∈ whole recs n, r.2.length < 2 ^ 32) : Recoverable h recs n later := by
  refine .inl ⟨hh, hshort, [], by rw [hboundary, List.nil_append, List.append_nil], ?_⟩
  rintro r - ⟨rest, hr⟩
  have hlen := congrArg List.length hr
  simp at hlen

/-! ### A record that is lost -/

/-- A directory with one file, for height `1`. -/
def directory (b : Bytes) : WalState :=
  ⟨⟨[], 0⟩, ⟨true, some (decimal 1), AList.insert 1 b ∅, 0⟩⟩

/-- The file of height `1`, in which a record of two bytes is cut before its last byte. -/
theorem recovers_iff_cut :
    Recovers (fun _ => .ok) true 1 [(3, [1, 2])] 6 [(3, [9])]
        (directory ((encodeRecords [(3, [1, 2])]).take 6)) ↔
      Recoverable 1 [(3, [1, 2])] 6 [(3, [9])] :=
  recovers_iff (fun _ => rfl) (indexHeight_decimal rfl) (AList.lookup_insert _) (by simp) (by simp)

/-- **The record saved next is swallowed**: its length byte is read as the missing byte of the
record that was cut. -/
theorem torn_tail_swallows :
    (Exec.result (reload (fun _ => .ok) true 1 [(3, [9])])
      (directory ((encodeRecords [(3, [1, 2])]).take 6))).1 = .ok [(3, [1, 1])] ∧
    ¬ Recovers (fun _ => .ok) true 1 [(3, [1, 2])] 6 [(3, [9])]
      (directory ((encodeRecords [(3, [1, 2])]).take 6)) := by
  obtain ⟨d, hd, hresult⟩ : ∃ d : Disk,
      d.logs.lookup 1 = some ((encodeRecords [(3, [1, 2])]).take 6 ++ encodeRecords [(3, [9])]) ∧
      (Exec.result (reload (fun _ => .ok) true 1 [(3, [9])])
        (directory ((encodeRecords [(3, [1, 2])]).take 6))).1 = .ok (loaded d 1) :=
    reload_result (fun _ => rfl) (indexHeight_decimal rfl) (AList.lookup_insert _) (by simp)
  have hread : loaded d 1 = [(3, [1, 1])] := by
    rw [loaded, hd]
    decide
  rw [hread] at hresult
  refine ⟨hresult, fun h => ?_⟩
  have heq := Except.ok.inj (hresult.symm.trans h)
  revert heq
  decide

end Wal

end ConsensusBft

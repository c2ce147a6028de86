import ConsensusBft.Wal.Records
import ConsensusBft.Wal.Save

/-!
# The log when its file operations succeed

* `parseU64_decimal` : the index of a height is read back as that height.
* `Wal.saved`, `Wal.moved` : the log and the disk after `Wal::save` and `Wal::set_height`;
  `Wal.save_result`, `Wal.setHeight_result`.
* `Wal.new_wp`, `Wal.reopen_result`, `Wal.load_result` : opening a directory, and reading the one
  file that is open then.
-/

namespace ConsensusBft

/-! ### The index -/

/-- The character of a digit is one byte. -/
theorem toNat_digitByte {c : Char} (hc : c.isDigit = true) : c.toNat.toUInt8.toNat = c.toNat :=
  Nat.mod_eq_of_lt (Nat.lt_of_le_of_lt (Char.isDigit_iff_toNat.1 hc).2 (by decide))

theorem digitByte_range {c : Char} (hc : c.isDigit = true) :
    48 ≤ c.toNat.toUInt8 ∧ c.toNat.toUInt8 ≤ 57 := by
  rw [UInt8.le_iff_toNat_le, UInt8.le_iff_toNat_le, toNat_digitByte hc]
  exact Char.isDigit_iff_toNat.1 hc

theorem parseDigits_map {l : List Char} {n : ℕ} (hl : ∀ c ∈ l, c.isDigit = true) :
    parseDigits (l.map fun c => c.toNat.toUInt8) n = some (Nat.ofDigitChars 10 l n) := by
  induction l generalizing n with
  | nil => rfl
  | cons c l ih =>
    have hc := hl c List.mem_cons_self
    have hrange := digitByte_range hc
    have hdigit : (c.toNat.toUInt8 - 48).toNat = c.toNat - 48 := by
      rw [UInt8.toNat_sub_of_le _ _ hrange.1, toNat_digitByte hc]
      rfl
    rw [List.map_cons, parseDigits, if_pos hrange, hdigit,
      ih fun c hmem => hl c (List.mem_cons_of_mem _ hmem), Nat.ofDigitChars_cons]
    rfl

theorem isDigit_of_mem_digits {n : ℕ} {c : Char} (h : c ∈ Nat.toDigits 10 n) :
    c.isDigit = true :=
  Nat.isDigit_of_mem_toDigits (by omega) (by omega) h

theorem decimal_ne_nil (h : UInt64) : decimal h ≠ [] :=
  fun heq => Nat.toDigits_ne_nil (List.map_eq_nil_iff.1 heq)

/-- **The index of a height is read back as that height.** -/
theorem parseU64_decimal (h : UInt64) : parseU64 (decimal h) = some h := by
  -- a digit is no sign
  have hsign : (decimal h).head? ≠ some 43 := by
    intro hhead
    obtain ⟨c, hc, heq⟩ := List.mem_map.1 (List.mem_of_head? hhead)
    have hrange := digitByte_range (isDigit_of_mem_digits hc)
    rw [heq] at hrange
    exact absurd hrange.1 (by decide)
  unfold parseU64
  simp only [hsign, if_false, decimal_ne_nil]
  rw [decimal, parseDigits_map fun c => isDigit_of_mem_digits, Nat.ofDigitChars_ten_toDigits,
    Option.bind_some, if_pos h.toNat_lt, UInt64.ofNat_toNat]

/-! ### File operations -/

variable {io : ℕ → IoOutcome} (hio : ∀ n, io n = .ok)

namespace Disk

include hio

theorem result_next (d : Disk) :
    Exec.result (Disk.next io) d = (.ok .ok, { d with ops := d.ops + 1 }) := by
  unfold Disk.next
  rw [Exec.result_bind_get, Exec.result_bind_modify, hio]
  rfl

theorem result_attempt (d : Disk) :
    Exec.result (attempt io) d = (.ok ⟨⟩, { d with ops := d.ops + 1 }) := by
  unfold attempt
  rw [Exec.result_bind_ok (result_next hio d)]
  rfl

theorem result_openLog (h : UInt64) (d : Disk) : Exec.result (openLog io h) d =
    (.ok ⟨⟩, { d with logs := d.logs.orInsert h [], ops := d.ops + 1 }) := by
  unfold openLog
  rw [Exec.result_bind_ok (result_attempt hio d)]
  rfl

theorem result_writeAll (h : UInt64) (b : Bytes) (d : Disk) : Exec.result (writeAll io h b) d =
    (.ok ⟨⟩, append h b { d with ops := d.ops + 1 }) := by
  unfold writeAll
  rw [Exec.result_bind_ok (result_next hio d)]
  rfl

theorem result_write (h : UInt64) (b : Bytes) (d : Disk) : Exec.result (write io h b) d =
    (.ok b.length, append h b { d with ops := d.ops + 1 }) := by
  unfold write
  rw [Exec.result_bind_ok (result_next hio d)]
  rfl

theorem result_setIndexLen (n : ℕ) (d : Disk) : Exec.result (setIndexLen io n) d =
    (.ok ⟨⟩, { d with index := d.index.map (resize · n), ops := d.ops + 1 }) := by
  unfold setIndexLen
  rw [Exec.result_bind_ok (result_next hio d)]
  rfl

theorem result_writeIndex (b : Bytes) (d : Disk) : Exec.result (writeIndex io b) d =
    (.ok ⟨⟩, { d with index := d.index.map (overwrite · b), ops := d.ops + 1 }) := by
  unfold writeIndex
  rw [Exec.result_bind_ok (result_next hio d)]
  rfl

theorem result_removeLog (h : UInt64) (d : Disk) : Exec.result (removeLog io h) d =
    (.ok ⟨⟩, { d with logs := d.logs.erase h, ops := d.ops + 1 }) := by
  unfold removeLog
  rw [Exec.result_bind_ok (result_next hio d)]
  rfl

omit hio in
/-- The index is cut to the new length first, so that nothing of the old one is left. -/
theorem overwrite_resize (b new : Bytes) : overwrite (resize b new.length) new = new := by
  simp [overwrite, resize]
  omega

end Disk

namespace Wal

theorem result_onDisk {α : Type} (m : Exec IoError Disk α) (w : WalState) :
    Exec.result (onDisk m) w =
      ((Exec.result m w.disk).1, { w with disk := (Exec.result m w.disk).2 }) :=
  Exec.result_zoom _ _ m w

theorem result_bind_onDisk {α β : Type} {m : Exec IoError Disk α} {a : α} {d : Disk}
    {w : WalState} (hm : Exec.result m w.disk = (.ok a, d)) (f : α → Exec IoError WalState β) :
    Exec.result (onDisk m >>= f) w = Exec.result (f a) { w with disk := d } :=
  Exec.result_bind_ok (by rw [result_onDisk, hm])

/-! ### Saving -/

/-- The log once the file of a height is open. -/
def opened (w : WalState) (h : UInt64) : WalState where
  wal := { w.wal with heightFs := openHandle h w.wal.heightFs }
  disk := { w.disk with logs := w.disk.logs.orInsert h [], ops := w.disk.ops + 1 }

/-- The log once a record is written to the file of a height. -/
def written (w : WalState) (h : UInt64) (r : UInt8 × Bytes) : WalState :=
  { w with disk := { w.disk with
    logs := w.disk.logs.insert h ((w.disk.logs.lookup h).getD [] ++ encodeRecord r)
    ops := w.disk.ops + 5 } }

/-- The log after a record is saved.  A record more than one height ahead, or below the current
height and without an open file, is dropped, and so is an empty one. -/
def saved (w : WalState) (h : UInt64) (r : UInt8 × Bytes) : WalState :=
  let w := if Opens w.wal h then opened w h else w
  if r.2 ≠ [] ∧ h ∈ w.wal.heightFs then written w h r else w

/-- The record is written: it is not empty, and the file of its height is open, or is opened. -/
def Accepts (w : WalState) (h : UInt64) (r : UInt8 × Bytes) : Prop :=
  r.2 ≠ [] ∧ (h ∈ w.wal.heightFs ∨ Opens w.wal h)

instance (w : WalState) (h : UInt64) (r : UInt8 × Bytes) : Decidable (Accepts w h r) :=
  inferInstanceAs (Decidable (_ ∧ _))

include hio

theorem writeRecord_result (w : WalState) (h : UInt64) (r : UInt8 × Bytes) :
    Exec.result (writeRecord io h r.1 r.2) w = (.ok r.2.length, written w h r) := by
  unfold writeRecord
  rw [result_bind_onDisk (Disk.result_attempt hio _),
    result_bind_onDisk (Disk.result_writeAll hio _ _ _),
    result_bind_onDisk (Disk.result_writeAll hio _ _ _),
    result_bind_onDisk (Disk.result_write hio _ _ _),
    result_bind_onDisk (Disk.result_attempt hio _)]
  -- three writes are one
  simp [written, Disk.append, AList.insert_insert, encodeRecord]

theorem saveRecord_result (w : WalState) (h : UInt64) (r : UInt8 × Bytes) :
    Exec.result (saveRecord io h r.1 r.2) w =
      if r.2 ≠ [] ∧ h ∈ w.wal.heightFs then (.ok r.2.length, written w h r) else (.ok 0, w) := by
  unfold saveRecord
  by_cases hmsg : r.2 = []
  · simp [hmsg]
  · rw [if_neg hmsg, Exec.result_bind_get]
    by_cases hmem : h ∈ w.wal.heightFs
    · rw [if_pos hmem, if_pos ⟨hmsg, hmem⟩]
      exact writeRecord_result hio w h r
    · have hno : ¬ (r.2 ≠ [] ∧ h ∈ w.wal.heightFs) := fun h => hmem h.2
      rw [if_neg hmem, if_neg hno]
      rfl

/-- **Saving a record succeeds**, unless the log is full in a build that checks, and returns the
length of the record if it is accepted. -/
theorem save_returns (checks : Bool) (h : UInt64) (r : UInt8 × Bytes) (w : WalState)
    (hfull : ¬ (checks = true ∧ Full w.wal h)) :
    Exec.result (save io checks h r.1 r.2) w =
      (.ok (if Accepts w h r then r.2.length else 0), saved w h r) := by
  rw [result_save, if_neg hfull]
  unfold saved
  by_cases hopens : Opens w.wal h
  · have hmem : h ∈ (opened w h).wal.heightFs := mem_openHandle.2 (.inl rfl)
    have haccepts : Accepts w h r ↔ r.2 ≠ [] ∧ h ∈ (opened w h).wal.heightFs :=
      and_congr_right fun _ => iff_of_true (.inr hopens) hmem
    rw [if_pos hopens, if_pos hopens]
    unfold openAndSave
    rw [result_bind_onDisk (Disk.result_openLog hio _ _), Exec.result_bind_modify]
    refine (saveRecord_result hio (opened w h) h r).trans ?_
    simp only [haccepts]
    split_ifs <;> rfl
  · have haccepts : Accepts w h r ↔ r.2 ≠ [] ∧ h ∈ w.wal.heightFs :=
      and_congr_right fun _ => or_iff_left hopens
    rw [if_neg hopens, if_neg hopens, saveRecord_result hio w h r]
    simp only [haccepts]
    split_ifs <;> rfl

theorem save_result (checks : Bool) (h : UInt64) (r : UInt8 × Bytes) (w : WalState)
    (hfull : ¬ (checks = true ∧ Full w.wal h)) :
    ∃ n, Exec.result (save io checks h r.1 r.2) w = (.ok n, saved w h r) :=
  ⟨_, save_returns hio checks h r w hfull⟩

/-- Where the log is full, a build that checks panics and leaves the log as it is. -/
theorem save_cases (checks : Bool) (h : UInt64) (r : UInt8 × Bytes) (w : WalState) :
    Exec.result (save io checks h r.1 r.2) w = (.error .panicked, w) ∨
      ∃ n, Exec.result (save io checks h r.1 r.2) w = (.ok n, saved w h r) := by
  by_cases hfull : checks = true ∧ Full w.wal h
  · exact .inl (by rw [result_save, if_pos hfull])
  · exact .inr (save_result hio checks h r w hfull)

omit hio

/-- **Saving keeps what opening a file and writing to it keep.** -/
theorem saved_keeps {I : WalState → Prop} {w : WalState} {h : UInt64} {r : UInt8 × Bytes}
    (hopen : ∀ w, I w → I (opened w h)) (hwrite : ∀ w, I w → I (written w h r)) (hw : I w) :
    I (saved w h r) := by
  have key : ∀ w, I w → I (if r.2 ≠ [] ∧ h ∈ w.wal.heightFs then written w h r else w) := by
    intro w hw
    split_ifs
    · exact hwrite w hw
    · exact hw
  unfold saved
  by_cases hopens : Opens w.wal h
  · rw [if_pos hopens]
    exact key _ (hopen w hw)
  · rw [if_neg hopens]
    exact key w hw

@[simp] theorem saved_index (w : WalState) (h : UInt64) (r : UInt8 × Bytes) :
    (saved w h r).disk.index = w.disk.index :=
  saved_keeps (I := fun w' => w'.disk.index = w.disk.index) (fun _ h => h) (fun _ h => h) rfl

@[simp] theorem saved_currentHeight (w : WalState) (h : UInt64) (r : UInt8 × Bytes) :
    (saved w h r).wal.currentHeight = w.wal.currentHeight :=
  saved_keeps (I := fun w' => w'.wal.currentHeight = w.wal.currentHeight) (fun _ h => h)
    (fun _ h => h) rfl

/-- Saving a record keeps what holds of the records of all files, if it holds of this one. -/
theorem saved_holds {P : UInt64 → UInt8 × Bytes → Prop} {w : WalState} {h : UInt64}
    {r : UInt8 × Bytes} (hw : w.disk.Holds P) (hr : P h r) : (saved w h r).disk.Holds P :=
  saved_keeps (I := fun w => w.disk.Holds P) (fun _ hw => hw.orInsert rfl)
    (fun _ hw => hw.append hr rfl) hw

/-- Saving a record appends to the files. -/
theorem saved_extends {w : WalState} {k : UInt64} {b : Bytes}
    (hb : w.disk.logs.lookup k = some b) (h : UInt64) (r : UInt8 × Bytes) :
    ∃ recs, (saved w h r).disk.logs.lookup k = some (b ++ encodeRecords recs) := by
  refine saved_keeps (I := fun w => ∃ recs, w.disk.logs.lookup k = some (b ++ encodeRecords recs))
    ?_ ?_ ⟨[], by simpa using hb⟩
  · rintro w ⟨recs, hrecs⟩
    refine ⟨recs, ?_⟩
    change (w.disk.logs.orInsert h []).lookup k = _
    rw [HashMap.lookup_orInsert]
    split_ifs with hk
    · rw [← hk, hrecs]
      rfl
    · exact hrecs
  · rintro w ⟨recs, hrecs⟩
    by_cases hk : k = h
    · subst hk
      refine ⟨recs ++ [r], ?_⟩
      change AList.lookup k (AList.insert k _ _) = _
      rw [AList.lookup_insert, hrecs]
      simp
    · refine ⟨recs, ?_⟩
      change AList.lookup k (AList.insert h _ _) = _
      rw [AList.lookup_insert_ne hk, hrecs]

/-- A record that is not empty is saved to an open file. -/
theorem saved_of_open {w : WalState} {h : UInt64} {r : UInt8 × Bytes} (hr : r.2 ≠ [])
    (hopen : h ∈ w.wal.heightFs) : saved w h r = written w h r := by
  have hno : ¬ Opens w.wal h := fun h => h.1 hopen
  unfold saved
  rw [if_neg hno, if_pos ⟨hr, hopen⟩]

/-! ### Moving to another height -/

/-- The open files that are removed when the log moves to a height. -/
def expired (h : UInt64) (heightFs : List UInt64) : List UInt64 :=
  if DELETE_FILE_INTERVAL < h then heightFs.filter (· < h - DELETE_FILE_INTERVAL) else []

/-- The open files that stay. -/
def kept (h : UInt64) (heightFs : List UInt64) : List UInt64 :=
  if DELETE_FILE_INTERVAL < h then heightFs.filter (h - DELETE_FILE_INTERVAL ≤ ·) else heightFs

/-- The log after it moved to a height. -/
def moved (w : WalState) (h : UInt64) : WalState where
  wal := { heightFs := kept h (openHandle h w.wal.heightFs), currentHeight := h }
  disk := { w.disk with
    index := w.disk.index.map fun _ => decimal h
    logs := (expired h (openHandle h w.wal.heightFs)).foldl (fun m k => m.erase k)
      (w.disk.logs.orInsert h [])
    ops := w.disk.ops + 5 + (expired h (openHandle h w.wal.heightFs)).length }

/-- Moving to a height keeps what holds of the records of all files. -/
theorem moved_holds {P : UInt64 → UInt8 × Bytes → Prop} {w : WalState} (hw : w.disk.Holds P)
    (h : UInt64) : (moved w h).disk.Holds P := by
  have hfold : ∀ (hs : List UInt64) (d : Disk), d.Holds P →
      ({ d with logs := hs.foldl (fun m k => m.erase k) d.logs } : Disk).Holds P := by
    intro hs
    induction hs with
    | nil => exact fun _ hd => hd
    | cons k hs ih =>
      intro d hd
      exact ih { d with logs := d.logs.erase k } (hd.erase rfl)
  have hopen : ({ w.disk with logs := w.disk.logs.orInsert h [] } : Disk).Holds P :=
    hw.orInsert rfl
  exact (hfold _ _ hopen).of_logs_eq rfl

theorem mem_kept {fs : List UInt64} {h k : UInt64} :
    k ∈ kept h fs ↔ k ∈ fs ∧ (DELETE_FILE_INTERVAL < h → h - DELETE_FILE_INTERVAL ≤ k) := by
  unfold kept
  split_ifs with hlt
  · rw [List.mem_filter, decide_eq_true_eq]
    exact and_congr_right fun _ => ⟨fun hle _ => hle, fun hle => hle hlt⟩
  · exact ⟨fun hk => ⟨hk, fun hlt' => absurd hlt' hlt⟩, And.left⟩

theorem sub_interval_le {h : UInt64} (hlt : DELETE_FILE_INTERVAL < h) :
    h - DELETE_FILE_INTERVAL ≤ h := by
  unfold DELETE_FILE_INTERVAL at *
  grind

/-- The files that are kept stay as they are; the one of the new height is created if it is
missing. -/
theorem lookup_moved_of_near {w : WalState} {h k : UInt64}
    (hk : DELETE_FILE_INTERVAL < h → h - DELETE_FILE_INTERVAL ≤ k) :
    (moved w h).disk.logs.lookup k = (w.disk.logs.orInsert h []).lookup k := by
  refine (HashMap.lookup_foldl_erase _ _ k).trans (if_neg fun hmem => ?_)
  unfold expired at hmem
  split_ifs at hmem with hlt
  · rw [List.mem_filter, decide_eq_true_eq] at hmem
    exact absurd hmem.2 (UInt64.not_lt.2 (hk hlt))
  · exact nomatch hmem

/-- The files of the new height and above stay. -/
theorem lookup_moved {w : WalState} {h k : UInt64} (hle : h ≤ k) :
    (moved w h).disk.logs.lookup k = (w.disk.logs.orInsert h []).lookup k :=
  lookup_moved_of_near fun hlt => UInt64.le_trans (sub_interval_le hlt) hle

include hio

theorem removeLogs_result (hs : List UInt64) (w : WalState) :
    Exec.result (hs.forM fun h => onDisk (Disk.removeLog io h)) w = (.ok ⟨⟩, { w with disk :=
      { w.disk with logs := hs.foldl (fun m k => m.erase k) w.disk.logs
                    ops := w.disk.ops + hs.length } }) := by
  induction hs generalizing w with
  | nil => rfl
  | cons h hs ih =>
    have hstep : Exec.result (onDisk (Disk.removeLog io h)) w = (.ok ⟨⟩, { w with disk :=
        { w.disk with logs := w.disk.logs.erase h, ops := w.disk.ops + 1 } }) := by
      rw [result_onDisk, Disk.result_removeLog hio]
    change Exec.result (onDisk (Disk.removeLog io h) >>= fun _ =>
      hs.forM fun h => onDisk (Disk.removeLog io h)) w = _
    rw [Exec.result_bind_ok hstep, ih]
    simp [Nat.add_assoc, Nat.add_comm 1]

/-- **Moving to a height succeeds.** -/
theorem setHeight_result (h : UInt64) (w : WalState) :
    Exec.result (setHeight io h) w = (.ok ⟨⟩, moved w h) := by
  unfold setHeight
  rw [Exec.result_bind_modify, result_bind_onDisk (Disk.result_attempt hio _),
    result_bind_onDisk (Disk.result_setIndexLen hio _ _),
    result_bind_onDisk (Disk.result_writeIndex hio _ _),
    result_bind_onDisk (Disk.result_attempt hio _),
    result_bind_onDisk (Disk.result_openLog hio _ _),
    Exec.result_bind_modify]
  have hindex : (w.disk.index.map (Disk.resize · (decimal h).length)).map
      (Disk.overwrite · (decimal h)) = w.disk.index.map fun _ => decimal h := by
    rw [Option.map_map]
    exact congrArg (Option.map · w.disk.index) (funext fun b => Disk.overwrite_resize b _)
  by_cases hlimit : DELETE_FILE_INTERVAL < h
  · rw [Exec.result_doIf_of hlimit, Exec.result_bind_get]
    rw [Exec.result_bind_ok (removeLogs_result hio _ _), Exec.result_modify]
    simp only [moved, expired, kept, if_pos hlimit, hindex]
  · rw [Exec.result_doIf_of_not hlimit]
    simp only [moved, expired, kept, if_neg hlimit, hindex]
    rfl

/-! ### Opening -/

omit hio in
/-- The height that an index stands for. -/
def indexHeight (d : Disk) : Option UInt64 :=
  if d.index.getD [] = [] then some 0 else parseU64 (d.index.getD [])

omit hio in
theorem indexHeight_decimal {d : Disk} {h : UInt64} (hd : d.index = some (decimal h)) :
    indexHeight d = some h := by
  unfold indexHeight
  rw [hd, Option.getD_some, if_neg (decimal_ne_nil h), parseU64_decimal]

/-- **Opening a directory succeeds exactly if its index can be read**: only the file of the height
of the index is open then. -/
theorem new_wp (d : Disk) : Exec.wp (new io)
    (fun wal d' => ∃ h, indexHeight d = some h ∧ wal = ⟨[h], h⟩ ∧
      d'.index = some (d.index.getD []) ∧ d'.logs = d.logs.orInsert h [])
    (fun _ _ => indexHeight d = none) d := by
  unfold new
  refine Exec.wp_bind.2 (Exec.wp_get.2 ((Exec.wp_bind_ok (Disk.result_next hio d)).2 ?_))
  -- creating the directory touches no file
  refine Exec.wp_bind.2 (Exec.wp.mono (E := fun _ _ => False)
    (Q := fun _ d₁ => d₁.index = d.index ∧ d₁.logs = d.logs) ?_ ?_ fun _ _ h => h.elim)
  · exact Exec.wp_doIf.2 ⟨fun _ => (Exec.wp_bind_ok (Disk.result_next hio _)).2 ⟨rfl, rfl⟩,
      fun _ => ⟨rfl, rfl⟩⟩
  rintro _ d₁ ⟨hindex, hlogs⟩
  refine (Exec.wp_bind_ok (Disk.result_attempt hio d₁)).2 (Exec.wp_bind.2 ((Exec.wp_modify _).2 ?_))
  refine (Exec.wp_bind_ok (Disk.result_next hio _)).2 ?_
  refine (Exec.wp_bind_ok (Disk.result_attempt hio _)).2 (Exec.wp_bind.2 (Exec.wp_get.2 ?_))
  simp only [hindex, Option.getD_some]
  unfold indexHeight
  by_cases hbuf : d.index.getD [] = []
  · simp only [hbuf, if_true, pure_bind]
    refine (Exec.wp_bind_ok (Disk.result_openLog hio 0 _)).2 ?_
    exact ⟨0, rfl, rfl, rfl, by rw [hlogs]⟩
  · simp only [hbuf, if_false]
    cases hparse : parseU64 (d.index.getD []) with
    | none => exact Exec.wp_bind.2 rfl
    | some h =>
      simp only [pure_bind]
      refine (Exec.wp_bind_ok (Disk.result_openLog hio h _)).2 ?_
      exact ⟨h, rfl, rfl, rfl, by rw [hlogs]⟩

omit hio in
/-- The log is opened again: what the process before knew of it is lost. -/
def reopen (io : ℕ → IoOutcome) : Exec IoError WalState PUnit := do
  let wal ← onDisk (new io)
  modify fun s => { s with wal }

/-- A log is reopened exactly if its index can be read. -/
theorem reopen_wp (w : WalState) : Exec.wp (reopen io)
    (fun _ w' => ∃ h, indexHeight w.disk = some h ∧ w'.wal = ⟨[h], h⟩ ∧
      w'.disk.index = some (w.disk.index.getD []) ∧ w'.disk.logs = w.disk.logs.orInsert h [])
    (fun _ _ => indexHeight w.disk = none) w := by
  unfold reopen
  refine Exec.wp_bind.2 (Exec.wp_zoom.2 ((new_wp hio w.disk).mono ?_ fun _ _ h => h))
  rintro wal d ⟨h, hh, rfl, hindex, hlogs⟩
  exact ⟨h, hh, rfl, hindex, hlogs⟩

/-- **A reopened log is at the height of the index**, and only the file of this height is open. -/
theorem reopen_result {w : WalState} {h : UInt64} (hindex : indexHeight w.disk = some h) :
    ∃ d, Exec.result (reopen io) w = (.ok ⟨⟩, ⟨⟨[h], h⟩, d⟩) ∧ indexHeight d = some h ∧
      d.logs = w.disk.logs.orInsert h [] := by
  have hreopen := reopen_wp hio w
  cases hr : Exec.result (reopen io) w with
  | mk r w' =>
    cases r with
    | error e => exact nomatch hindex.symm.trans (hreopen.error hr)
    | ok u =>
      obtain ⟨h', hh', hwal, hd, hlogs⟩ := hreopen.ok hr
      obtain rfl := Option.some.inj (hindex.symm.trans hh')
      obtain ⟨wal, d⟩ := w'
      obtain rfl : wal = ⟨[h], h⟩ := hwal
      refine ⟨d, rfl, ?_, hlogs⟩
      rw [← hindex]
      unfold indexHeight
      rw [show d.index = _ from hd, Option.getD_some]

omit hio in
/-- What is read of files, the next one with `buf` in the buffer. -/
def readFiles (logs : HashMap UInt64 Bytes) :
    List UInt64 → Bytes → List (UInt8 × Bytes) → List (UInt8 × Bytes)
  | [], _, out => out
  | h :: hs, buf, out =>
    let content := (logs.lookup h).getD []
    if content.length ≤ 5 then out
    else readFiles logs hs (buf ++ content)
      (out ++ parseRecords content.length ((buf ++ content).take content.length))

/-- **Loading reads the open files of the current height and above**, and changes no file. -/
theorem loadFiles_result (cur : UInt64) (hs : List UInt64) (buf : Bytes)
    (out : List (UInt8 × Bytes)) (w : WalState) :
    ∃ ops, Exec.result (loadFiles io cur hs buf out) w =
      (.ok (readFiles w.disk.logs (hs.filter (cur ≤ ·)) buf out),
        { w with disk := { w.disk with ops } }) := by
  induction hs generalizing buf out w with
  | nil => exact ⟨w.disk.ops, rfl⟩
  | cons h hs ih =>
    unfold loadFiles
    by_cases hlt : h < cur
    · rw [if_pos hlt, List.filter_cons_of_neg (by simpa using hlt)]
      exact ih buf out w
    · rw [if_neg hlt, List.filter_cons_of_pos (by simpa using hlt),
        result_bind_onDisk (Disk.result_next hio _)]
      dsimp only
      rw [result_bind_onDisk (Disk.result_next hio _)]
      dsimp only
      rw [Exec.result_bind_get]
      by_cases hlen : ((w.disk.logs.lookup h).getD []).length ≤ 5
      · refine ⟨w.disk.ops + 2, ?_⟩
        simp only [readFiles, hlen, if_true]
        rfl
      · obtain ⟨ops, hrest⟩ := ih (buf ++ (w.disk.logs.lookup h).getD [])
          (out ++ parseRecords ((w.disk.logs.lookup h).getD []).length
            ((buf ++ (w.disk.logs.lookup h).getD []).take
              ((w.disk.logs.lookup h).getD []).length))
          { w with disk := { w.disk with ops := w.disk.ops + 1 + 1 } }
        refine ⟨ops, ?_⟩
        simp only [readFiles, hlen, if_false]
        exact hrest

theorem load_files {w : WalState} (hopen : w.wal.heightFs ≠ [])
    (hcurrent : w.wal.currentHeight ≠ 0) : ∃ ops, Exec.result (load io) w =
      (.ok (readFiles w.disk.logs (w.wal.heightFs.filter (w.wal.currentHeight ≤ ·)) [] []),
        { w with disk := { w.disk with ops } }) := by
  obtain ⟨ops, hr⟩ := loadFiles_result hio w.wal.currentHeight w.wal.heightFs [] [] w
  refine ⟨ops, ?_⟩
  unfold load
  rw [Exec.result_bind_get, if_neg (not_or.2 ⟨hopen, hcurrent⟩), hr]

omit hio in
/-- The records that are read when only the file of the current height is open. -/
def loaded (d : Disk) (h : UInt64) : List (UInt8 × Bytes) :=
  if h = 0 ∨ ((d.logs.lookup h).getD []).length ≤ 5 then []
  else parseRecords ((d.logs.lookup h).getD []).length ((d.logs.lookup h).getD [])

theorem load_result (h : UInt64) (d : Disk) : ∃ ops, Exec.result (load io) ⟨⟨[h], h⟩, d⟩ =
    (.ok (loaded d h), ⟨⟨[h], h⟩, { d with ops }⟩) := by
  by_cases hzero : h = 0
  · unfold load
    rw [Exec.result_bind_get, if_pos (Or.inr hzero), loaded, if_pos (Or.inl hzero)]
    exact ⟨d.ops, rfl⟩
  · obtain ⟨ops, hr⟩ := load_files hio (w := ⟨⟨[h], h⟩, d⟩) (by simp) hzero
    refine ⟨ops, hr.trans ?_⟩
    have hfilter : [h].filter (h ≤ ·) = [h] := List.filter_cons_of_pos (by simp)
    simp only [hfilter, readFiles, loaded, hzero, false_or, List.nil_append, List.take_length]

omit hio in
/-- The records that are read are records of the file. -/
theorem mem_of_loaded {d : Disk} {h : UInt64} {P : UInt64 → UInt8 × Bytes → Prop}
    (hd : d.Holds P) (hshort : d.Short) {r : UInt8 × Bytes} (hr : r ∈ loaded d h) : P h r := by
  unfold loaded at hr
  split_ifs at hr with hempty
  · simp at hr
  · cases hl : d.logs.lookup h with
    | none => simp [hl, parseRecords] at hr
    | some b =>
      obtain ⟨recs, rfl, hrecs⟩ := hd h b hl
      have hparse : parseRecords (encodeRecords recs ++ []).length (encodeRecords recs ++ []) =
          recs ++ parseRecords 0 [] := parseRecords_encodeRecords (hshort h recs hl) (Nat.le_refl _)
      rw [List.append_nil] at hparse
      rw [hl, Option.getD_some, hparse] at hr
      exact hrecs r (by simpa [parseRecords] using hr)

end Wal

end ConsensusBft

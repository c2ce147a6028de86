import ConsensusBft.Wal.Working

/-!
# Records of the next height

Records are accepted for the current height and for the next one, each in a file of its own.

* `Wal.Calls` : calls of `Wal::set_height` and `Wal::save`, and the records they accepted.
* `Wal.Kept l w` : the files hold the records `l` that were accepted; `Wal.Calls.kept` : **they do
  after any calls.**
* `Wal.load_iff`, `Wal.reopen_load_iff` : when `Wal::load` returns all records of the current
  height and of the next one, in the same process and in the next one.
* `Wal.loads_iff` : **both**; `Wal.next_height_lost` : a record that neither returns.
-/

namespace ConsensusBft

namespace Wal

variable {io : ℕ → IoOutcome} {checks : Bool} {w w' w₀ : WalState} {h k : UInt64}
variable {l : List (UInt64 × (UInt8 × Bytes))} {r : UInt8 × Bytes}

/-! ### Accepted records -/

/-- The log after calls of `Wal::set_height`, with increasing heights, and of `Wal::save`, and the
records that were accepted, each with the height it was saved at. -/
inductive Calls (io : ℕ → IoOutcome) (checks : Bool) (w₀ : WalState) :
    List (UInt64 × (UInt8 × Bytes)) → WalState → Prop
  | start : Calls io checks w₀ [] w₀
  | setHeight {l : List (UInt64 × (UInt8 × Bytes))} {w w' : WalState} {h : UInt64}
      (calls : Calls io checks w₀ l w) (higher : w.wal.currentHeight < h)
      (result : Exec.result (setHeight io h) w = (.ok ⟨⟩, w')) : Calls io checks w₀ l w'
  | save {l : List (UInt64 × (UInt8 × Bytes))} {w w' : WalState} {h : UInt64}
      {r : UInt8 × Bytes} {n : ℕ} (calls : Calls io checks w₀ l w)
      (result : Exec.result (save io checks h r.1 r.2) w = (.ok n, w')) :
      Calls io checks w₀ (if n = 0 then l else l ++ [(h, r)]) w'

/-- The records that were accepted at a height. -/
def recordsAt (l : List (UInt64 × (UInt8 × Bytes))) (h : UInt64) : List (UInt8 × Bytes) :=
  (l.filter fun e => e.1 = h).map Prod.snd

theorem recordsAt_append_self : recordsAt (l ++ [(h, r)]) h = recordsAt l h ++ [r] := by
  simp [recordsAt]

theorem recordsAt_append_ne (hne : k ≠ h) : recordsAt (l ++ [(h, r)]) k = recordsAt l k := by
  simp [recordsAt, hne.symm]

/-- The files of the current height and above hold the accepted records, and only the next height
may be open above the current one. -/
structure Kept (l : List (UInt64 × (UInt8 × Bytes))) (w : WalState) : Prop where
  sorted : w.wal.heightFs.Pairwise (· < ·)
  current : w.wal.currentHeight ∈ w.wal.heightFs
  le_next : ∀ k ∈ w.wal.heightFs, k.toNat ≤ w.wal.currentHeight.toNat + 1
  file : ∀ k ∈ w.wal.heightFs, w.wal.currentHeight ≤ k →
    w.disk.logs.lookup k = some (encodeRecords (recordsAt l k))
  closed : ∀ k ∉ w.wal.heightFs, w.wal.currentHeight < k →
    w.disk.logs.lookup k = none ∧ recordsAt l k = []
  nonempty : ∀ e ∈ l, e.2.2 ≠ []
  indexed : w.disk.index.isSome
  index : indexHeight w.disk = some w.wal.currentHeight

theorem pairwise_openHandle {fs : List UInt64} (hs : fs.Pairwise (· < ·)) (h : UInt64) :
    (openHandle h fs).Pairwise (· < ·) := by
  unfold openHandle
  split_ifs with hmem
  · exact hs
  induction fs with
  | nil => exact List.pairwise_singleton _ _
  | cons k fs ih =>
    obtain ⟨hk, hs⟩ := List.pairwise_cons.1 hs
    rw [List.mem_cons, not_or] at hmem
    rw [List.orderedInsert_cons]
    split_ifs with hle
    · have hlt : h < k := UInt64.lt_of_le_of_ne hle hmem.1
      refine List.pairwise_cons.2 ⟨fun x hx => ?_, List.pairwise_cons.2 ⟨hk, hs⟩⟩
      rcases List.mem_cons.1 hx with rfl | hx
      · exact hlt
      · exact UInt64.lt_trans hlt (hk x hx)
    · refine List.pairwise_cons.2 ⟨fun x hx => ?_, ih hs hmem.2⟩
      rcases (List.mem_orderedInsert _).1 hx with rfl | hx
      · exact UInt64.not_le.1 hle
      · exact hk x hx

/-! ### What every call keeps -/

namespace Kept

/-- Moving to a higher height keeps the records. -/
theorem moved (hw : Kept l w) (higher : w.wal.currentHeight < h) : Kept l (moved w h) := by
  have htoNat := UInt64.lt_iff_toNat_lt.1 higher
  refine ⟨?_, ?_, ?_, ?_, ?_, hw.nonempty, ?_, ?_⟩
  · have hopen := pairwise_openHandle hw.sorted h
    change (kept h _).Pairwise _
    unfold kept
    split_ifs
    · exact hopen.filter _
    · exact hopen
  · exact mem_kept.2 ⟨mem_openHandle.2 (.inl rfl), sub_interval_le⟩
  · intro k hk
    change k.toNat ≤ h.toNat + 1
    rcases mem_openHandle.1 (mem_kept.1 hk).1 with rfl | hk
    · omega
    · have hle := hw.le_next k hk
      omega
  · intro k hk (hle : h ≤ k)
    rw [lookup_moved hle, HashMap.lookup_orInsert]
    by_cases heq : k = h
    · subst heq
      rw [if_pos rfl]
      -- the file of the new height was open already, or it is empty
      by_cases hmem : k ∈ w.wal.heightFs
      · rw [hw.file k hmem (UInt64.le_of_lt higher), Option.getD_some]
      · obtain ⟨hnone, hnil⟩ := hw.closed k hmem higher
        rw [hnone, hnil]
        rfl
    · rw [if_neg heq]
      have hmem := (mem_openHandle.1 (mem_kept.1 hk).1).resolve_left heq
      exact hw.file k hmem (UInt64.le_trans (UInt64.le_of_lt higher) hle)
  · intro k hk (hlt : h < k)
    have hnot : k ∉ openHandle h w.wal.heightFs := fun hmem => hk (mem_kept.2 ⟨hmem, fun h' =>
      UInt64.le_trans (sub_interval_le h') (UInt64.le_of_lt hlt)⟩)
    rw [mem_openHandle, not_or] at hnot
    obtain ⟨hnone, hnil⟩ := hw.closed k hnot.2 (UInt64.lt_trans higher hlt)
    refine ⟨?_, hnil⟩
    rw [lookup_moved (UInt64.le_of_lt hlt), HashMap.lookup_orInsert, if_neg hnot.1, hnone]
  · obtain ⟨b, hb⟩ := Option.isSome_iff_exists.1 hw.indexed
    change (w.disk.index.map _).isSome
    rw [hb]
    rfl
  · obtain ⟨b, hb⟩ := Option.isSome_iff_exists.1 hw.indexed
    refine indexHeight_decimal ?_
    change w.disk.index.map _ = _
    rw [hb]
    rfl

/-- So does opening the file of the next height. -/
theorem opened (hw : Kept l w) (hopens : Opens w.wal h) : Kept l (opened w h) := by
  obtain ⟨hnot, rfl⟩ := hopens
  have hne : w.wal.currentHeight ≠ w.wal.currentHeight + 1 := by grind
  refine ⟨pairwise_openHandle hw.sorted _, mem_openHandle.2 (.inr hw.current), ?_, ?_, ?_,
    hw.nonempty, hw.indexed, hw.index⟩
  · intro k hk
    change k.toNat ≤ w.wal.currentHeight.toNat + 1
    rcases mem_openHandle.1 hk with rfl | hk
    · rw [UInt64.toNat_add]
      exact Nat.mod_le _ _
    · exact hw.le_next k hk
  · intro k hk (hle : w.wal.currentHeight ≤ k)
    change (w.disk.logs.orInsert _ []).lookup k = _
    rw [HashMap.lookup_orInsert]
    by_cases heq : k = w.wal.currentHeight + 1
    · subst heq
      obtain ⟨hnone, hnil⟩ := hw.closed _ hnot (UInt64.lt_of_le_of_ne hle hne)
      rw [if_pos rfl, hnone, hnil]
      rfl
    · rw [if_neg heq]
      exact hw.file k ((mem_openHandle.1 hk).resolve_left heq) hle
  · intro k hk (hlt : w.wal.currentHeight < k)
    rw [show (Wal.opened w (w.wal.currentHeight + 1)).wal.heightFs = openHandle _ _ from rfl,
      mem_openHandle, not_or] at hk
    obtain ⟨hnone, hnil⟩ := hw.closed k hk.2 hlt
    refine ⟨?_, hnil⟩
    change (w.disk.logs.orInsert _ []).lookup k = _
    rw [HashMap.lookup_orInsert, if_neg hk.1, hnone]

/-- A record that is written is added. -/
theorem written (hw : Kept l w) (hmem : h ∈ w.wal.heightFs) (hr : r.2 ≠ []) :
    Kept (l ++ [(h, r)]) (written w h r) := by
  refine ⟨hw.sorted, hw.current, hw.le_next, ?_, ?_, ?_, hw.indexed, hw.index⟩
  · intro k hk (hle : w.wal.currentHeight ≤ k)
    change (w.disk.logs.insert h _).lookup k = _
    by_cases heq : k = h
    · subst heq
      rw [AList.lookup_insert, hw.file k hmem hle, recordsAt_append_self, encodeRecords_append]
      simp
    · rw [AList.lookup_insert_ne heq, hw.file k hk hle, recordsAt_append_ne heq]
  · intro k hk (hlt : w.wal.currentHeight < k)
    have hne : k ≠ h := by
      rintro rfl
      exact hk hmem
    obtain ⟨hnone, hnil⟩ := hw.closed k hk hlt
    rw [recordsAt_append_ne hne]
    refine ⟨?_, hnil⟩
    change (w.disk.logs.insert h _).lookup k = _
    rw [AList.lookup_insert_ne hne, hnone]
  · intro e he
    rcases List.mem_append.1 he with he | he
    · exact hw.nonempty e he
    · obtain rfl := List.mem_singleton.1 he
      exact hr

/-- So is one that is accepted; otherwise nothing is. -/
theorem saved (hw : Kept l w) (h : UInt64) (r : UInt8 × Bytes) :
    Kept (if Accepts w h r then l ++ [(h, r)] else l) (saved w h r) := by
  have key : ∀ w : WalState, Kept l w →
      Kept (if r.2 ≠ [] ∧ h ∈ w.wal.heightFs then l ++ [(h, r)] else l)
        (if r.2 ≠ [] ∧ h ∈ w.wal.heightFs then Wal.written w h r else w) := by
    intro w hw
    split_ifs with ha
    · exact hw.written ha.2 ha.1
    · exact hw
  unfold Wal.saved
  by_cases hopens : Opens w.wal h
  · have haccepts : Accepts w h r ↔ r.2 ≠ [] ∧ h ∈ (Wal.opened w h).wal.heightFs :=
      and_congr_right fun _ => iff_of_true (.inr hopens) (mem_openHandle.2 (.inl rfl))
    rw [if_pos hopens]
    simp only [haccepts]
    exact key _ (hw.opened hopens)
  · have haccepts : Accepts w h r ↔ r.2 ≠ [] ∧ h ∈ w.wal.heightFs :=
      and_congr_right fun _ => or_iff_left hopens
    rw [if_neg hopens]
    simp only [haccepts]
    exact key w hw

end Kept

/-- **The files hold the accepted records**, after any calls. -/
theorem Calls.kept (hio : ∀ n, io n = .ok) (h : Calls io checks w₀ l w) (h₀ : Kept [] w₀) :
    Kept l w := by
  induction h with
  | start => exact h₀
  | setHeight _ higher result ih =>
    rw [setHeight_result hio] at result
    obtain ⟨-, rfl⟩ := Prod.mk.inj result
    exact ih.moved higher
  | @save l w w' h r n _ result ih =>
    by_cases hfull : checks = true ∧ Full w.wal h
    · rw [result_save, if_pos hfull] at result
      exact nomatch (Prod.mk.inj result).1
    · rw [save_returns hio checks h r w hfull] at result
      obtain ⟨hn, rfl⟩ := Prod.mk.inj result
      obtain rfl := Except.ok.inj hn
      -- an accepted record has a length
      have hzero : (if Accepts w h r then r.2.length else 0) = 0 ↔ ¬ Accepts w h r := by
        split_ifs with ha
        · exact iff_of_false (fun hlen => ha.1 (List.length_eq_zero_iff.1 hlen)) (not_not.2 ha)
        · exact iff_of_true rfl ha
      have hsaved := ih.saved h r
      simp only [hzero, ite_not]
      exact hsaved

/-! ### What is loaded -/

/-- The files of the current height and above that are open. -/
theorem Kept.open_files (hw : Kept l w) (hnext : w.wal.currentHeight.toNat + 1 < 2 ^ 64) :
    w.wal.heightFs.filter (w.wal.currentHeight ≤ ·) =
      w.wal.currentHeight :: if w.wal.currentHeight + 1 ∈ w.wal.heightFs
        then [w.wal.currentHeight + 1] else [] := by
  have hlt : w.wal.currentHeight < w.wal.currentHeight + 1 := by
    rw [UInt64.lt_iff_toNat_lt, UInt64.toNat_add]
    simp only [UInt64.reduceToNat]
    omega
  -- two increasing lists with the same elements
  refine @List.Perm.eq_of_pairwise _ (· < ·) _ _ (fun a b _ _ hab hba => ?_)
    (hw.sorted.filter _) ?_ ((List.perm_ext_iff_of_nodup ?_ ?_).2 fun k => ?_)
  · exact absurd hab (UInt64.lt_asymm hba)
  · split_ifs <;> simp [hlt]
  · exact (hw.sorted.filter _).imp fun hab => UInt64.ne_of_lt hab
  · split_ifs <;> simp [UInt64.ne_of_lt hlt]
  · have hk : k ∈ w.wal.heightFs → w.wal.currentHeight ≤ k →
        k = w.wal.currentHeight ∨ k = w.wal.currentHeight + 1 := by
      intro hmem hle
      have hub := hw.le_next k hmem
      rw [UInt64.le_iff_toNat_le] at hle
      rw [← UInt64.toNat_inj, ← UInt64.toNat_inj, UInt64.toNat_add]
      simp only [UInt64.reduceToNat]
      omega
    rw [List.mem_filter, decide_eq_true_eq, List.mem_cons]
    constructor
    · rintro ⟨hmem, hle⟩
      rcases hk hmem hle with rfl | rfl
      · exact .inl rfl
      · exact .inr (by rw [if_pos hmem]; exact List.mem_singleton_self _)
    · rintro (rfl | hmem)
      · exact ⟨hw.current, UInt64.le_refl _⟩
      · split_ifs at hmem with hopen
        · obtain rfl := List.mem_singleton.1 hmem
          exact ⟨hopen, UInt64.le_of_lt hlt⟩
        · exact nomatch hmem

/-- What is read of the files with the records `A` and `B`: the bytes of the second file are taken
from the start of the buffer, which still holds the first one. -/
def readBoth (A B : List (UInt8 × Bytes)) : List (UInt8 × Bytes) :=
  if A = [] then []
  else parseRecords (encodeRecords A).length (encodeRecords A) ++
    if B = [] then []
    else parseRecords (encodeRecords B).length
      ((encodeRecords A ++ encodeRecords B).take (encodeRecords B).length)

theorem Kept.length_le_iff (hw : Kept l w) (k : UInt64) :
    (encodeRecords (recordsAt l k)).length ≤ 5 ↔ recordsAt l k = [] := by
  constructor
  · intro hlen
    by_contra hne
    have hlt := five_lt_length_encodeRecords hne fun r hr => by
      obtain ⟨e, he, rfl⟩ := List.mem_map.1 hr
      exact hw.nonempty e (List.mem_of_mem_filter he)
    omega
  · intro hnil
    rw [hnil]
    exact Nat.zero_le 5

/-- **What is loaded in the same process.** -/
theorem Kept.load_result (hio : ∀ n, io n = .ok) (hw : Kept l w) (hzero : w.wal.currentHeight ≠ 0)
    (hnext : w.wal.currentHeight.toNat + 1 < 2 ^ 64) : (Exec.result (load io) w).1 =
      .ok (readBoth (recordsAt l w.wal.currentHeight) (recordsAt l (w.wal.currentHeight + 1))) := by
  have hopen : w.wal.heightFs ≠ [] := List.ne_nil_of_mem hw.current
  obtain ⟨ops, hr⟩ := load_files hio hopen hzero
  have hfile := hw.file _ hw.current (UInt64.le_refl _)
  have hlen := hw.length_le_iff w.wal.currentHeight
  have hlen' := hw.length_le_iff (w.wal.currentHeight + 1)
  rw [hr, hw.open_files hnext]
  refine congrArg Except.ok ?_
  have hlt : w.wal.currentHeight < w.wal.currentHeight + 1 := by
    rw [UInt64.lt_iff_toNat_lt, UInt64.toNat_add]
    simp only [UInt64.reduceToNat]
    omega
  by_cases hmem : w.wal.currentHeight + 1 ∈ w.wal.heightFs
  · have hfile' := hw.file _ hmem (UInt64.le_of_lt hlt)
    simp only [hmem, if_true, readFiles, hfile, hfile', Option.getD_some, hlen, hlen', readBoth,
      List.nil_append, List.take_length]
    split_ifs <;> simp
  · have hnil := (hw.closed _ hmem hlt).2
    simp only [hmem, if_false, readFiles, hfile, Option.getD_some, hlen, readBoth, hnil, if_true,
      List.nil_append, List.take_length, List.append_nil]

variable {A B : List (UInt8 × Bytes)}

/-- A file is read in full if and only if no record has `2 ^ 32` bytes or more. -/
theorem parse_file_iff : parseRecords (encodeRecords A).length (encodeRecords A) = A ↔
    ∀ r ∈ A, r.2.length < 2 ^ 32 := by
  rw [parseRecords_eq_iff]
  refine and_iff_left ⟨[], (List.append_nil _).symm, ?_⟩
  rintro r - ⟨rest, hr⟩
  exact absurd (congrArg List.length hr) (by simp)

/-- What is read of a file, followed by other records, is the file's own records only if these are
read back. -/
theorem parse_file_append_iff {C D : List (UInt8 × Bytes)} (hC : ∀ r ∈ C, r.2.length < 2 ^ 32) :
    parseRecords (encodeRecords A).length (encodeRecords A) ++ C = A ++ D ↔
      (∀ r ∈ A, r.2.length < 2 ^ 32) ∧ C = D := by
  constructor
  · intro heq
    obtain ⟨hread, rest, hrest, hincomplete⟩ := parseRecords_eq_iff.1
      (rfl : parseRecords (encodeRecords A).length (encodeRecords A) = _)
    generalize hP : parseRecords (encodeRecords A).length (encodeRecords A) = P at *
    have hshort : ∀ r ∈ A, r.2.length < 2 ^ 32 := by
      rcases List.append_eq_append_iff.1 heq with ⟨A', rfl, rfl⟩ | ⟨C', rfl, rfl⟩
      · -- a record that is not read would be complete where the reading stops
        cases A' with
        | nil => rwa [List.append_nil]
        | cons r A' =>
          rw [encodeRecords_append] at hrest
          obtain rfl := List.append_cancel_left hrest
          exact absurd (List.prefix_append _ _) (hincomplete r (hC r List.mem_cons_self))
      · exact fun r hr => hread r (List.mem_append_left _ hr)
    obtain rfl : P = A := hP.symm.trans (parse_file_iff.2 hshort)
    exact ⟨hshort, List.append_cancel_left heq⟩
  · rintro ⟨hshort, rfl⟩
    rw [parse_file_iff.2 hshort]

/-- What the second file is read as: a list of the length of the file. -/
theorem length_take_both (A B : List (UInt8 × Bytes)) :
    ((encodeRecords A ++ encodeRecords B).take (encodeRecords B).length).length =
      (encodeRecords B).length := by
  rw [List.length_take, List.length_append]
  omega

/-- The bytes at the start of the first file are read as the second one if and only if the records
`B` are the first ones of `A ++ B`. -/
theorem parse_second_iff (hA : ∀ r ∈ A, r.2.length < 2 ^ 32) :
    parseRecords (encodeRecords B).length
        ((encodeRecords A ++ encodeRecords B).take (encodeRecords B).length) = B ↔
      (∀ r ∈ B, r.2.length < 2 ^ 32) ∧ B <+: A ++ B := by
  have hall : (∀ r ∈ B, r.2.length < 2 ^ 32) → ∀ r ∈ A ++ B, r.2.length < 2 ^ 32 :=
    fun hB r hr => (List.mem_append.1 hr).elim (hA r) (hB r)
  have hlen := length_take_both A B
  have hprefix : (encodeRecords A ++ encodeRecords B).take (encodeRecords B).length <+: _ :=
    List.take_prefix _ (encodeRecords A ++ encodeRecords B)
  constructor
  · intro h
    generalize (encodeRecords A ++ encodeRecords B).take (encodeRecords B).length = b at *
    rw [← hlen, parseRecords_eq_iff] at h
    obtain ⟨hB, rest, rfl, -⟩ := h
    refine ⟨hB, ?_⟩
    rw [← encodeRecords_prefix_iff hB (hall hB), encodeRecords_append]
    exact (List.prefix_append _ _).trans hprefix
  · rintro ⟨hB, hprefix⟩
    rw [← encodeRecords_prefix_iff hB (hall hB), encodeRecords_append] at hprefix
    rw [← List.prefix_iff_eq_take.1 hprefix]
    exact parse_file_iff.2 hB

theorem readBoth_eq_iff : readBoth A B = A ++ B ↔
    (∀ r ∈ A, r.2.length < 2 ^ 32) ∧
      (B = [] ∨ A ≠ [] ∧ (∀ r ∈ B, r.2.length < 2 ^ 32) ∧ B <+: A ++ B) := by
  unfold readBoth
  by_cases hA : A = []
  · subst hA
    simp [eq_comm]
  rw [if_neg hA]
  by_cases hB : B = []
  · subst hB
    rw [if_pos rfl, parse_file_append_iff (List.forall_mem_nil _)]
    exact and_congr_right fun _ => iff_of_true rfl (.inl rfl)
  · rw [if_neg hB, parse_file_append_iff]
    · refine and_congr_right fun hshort => ?_
      rw [parse_second_iff hshort, or_iff_right hB, and_iff_right hA]
    · -- whatever is read is short
      have hlen := length_take_both A B
      generalize (encodeRecords A ++ encodeRecords B).take (encodeRecords B).length = b at *
      rw [← hlen]
      exact (parseRecords_eq_iff.1 rfl).1

/-! ### The law -/

/-- **When the same process loads all records** of the current height and of the next one. -/
theorem load_iff (hio : ∀ n, io n = .ok) (hw : Kept l w) (hzero : w.wal.currentHeight ≠ 0)
    (hnext : w.wal.currentHeight.toNat + 1 < 2 ^ 64)
    (hA : recordsAt l w.wal.currentHeight = A) (hB : recordsAt l (w.wal.currentHeight + 1) = B) :
    (Exec.result (load io) w).1 = .ok (A ++ B) ↔ (∀ r ∈ A, r.2.length < 2 ^ 32) ∧
      (B = [] ∨ A ≠ [] ∧ (∀ r ∈ B, r.2.length < 2 ^ 32) ∧ B <+: A ++ B) := by
  rw [hw.load_result hio hzero hnext, hA, hB, Except.ok.injEq, readBoth_eq_iff]

/-- **When the next process does**: if there are none of the next height. -/
theorem reopen_load_iff (hio : ∀ n, io n = .ok) (hw : Kept l w) (hzero : w.wal.currentHeight ≠ 0)
    (hA : recordsAt l w.wal.currentHeight = A) :
    (Exec.result (reopen io >>= fun _ => load io) w).1 = .ok (A ++ B) ↔
      (∀ r ∈ A, r.2.length < 2 ^ 32) ∧ B = [] := by
  obtain ⟨d, hr, -, hlogs⟩ := reopen_result hio hw.index
  obtain ⟨ops, hload⟩ := Wal.load_result hio w.wal.currentHeight d
  have hfile := hw.file _ hw.current (UInt64.le_refl _)
  have hlen := hw.length_le_iff w.wal.currentHeight
  rw [hA] at hfile hlen
  rw [Exec.result_bind_ok hr, hload, Except.ok.injEq, loaded, hlogs,
    HashMap.orInsert_of_some hfile, hfile, Option.getD_some]
  simp only [hzero, hlen, false_or]
  by_cases hnil : A = []
  · subst hnil
    simp [eq_comm]
  · rw [if_neg hnil]
    have hread := parse_file_append_iff (A := A) (D := B) (List.forall_mem_nil _)
    rw [List.append_nil] at hread
    rw [hread, eq_comm (b := B)]

/-- The log was just opened, on a directory without files. -/
def Fresh (io : ℕ → IoOutcome) (w₀ : WalState) : Prop :=
  ∃ d : Disk, d.logs = ∅ ∧ Exec.result (new io) d = (.ok w₀.wal, w₀.disk)

theorem Fresh.kept (hio : ∀ n, io n = .ok) (h : Fresh io w₀) : Kept [] w₀ := by
  obtain ⟨d, hempty, hr⟩ := h
  obtain ⟨h, hh, hwal, hindex, hlogs⟩ := (new_wp hio d).ok hr
  have hindexed : indexHeight w₀.disk = some h := by
    rw [← hh]
    unfold indexHeight
    rw [hindex, Option.getD_some]
  have hfile : ∀ k, w₀.disk.logs.lookup k = if k = h then some [] else none := by
    intro k
    rw [hlogs, hempty, HashMap.lookup_orInsert]
    rfl
  refine ⟨?_, ?_, ?_, ?_, ?_, List.forall_mem_nil _, by rw [hindex]; rfl, by rw [hindexed, hwal]⟩
  all_goals rw [hwal]
  · exact List.pairwise_singleton _ _
  · exact List.mem_singleton_self h
  · intro k hk
    obtain rfl := List.mem_singleton.1 hk
    exact Nat.le_succ _
  · intro k hk _
    rw [hfile, if_pos (List.mem_singleton.1 hk)]
    rfl
  · intro k hk _
    rw [hfile, if_neg fun heq => hk (List.mem_singleton.2 heq)]
    exact ⟨rfl, rfl⟩

/-- **When nothing that was logged for the current height `A` and for the next one `B` is lost**:
in the same process, if there is nothing for the next height or the bytes of its file are, by
chance, the first ones of both files together; in the next process, if there is nothing for the next
height. -/
theorem loads_iff (hio : ∀ n, io n = .ok) (h₀ : Fresh io w₀) (hcalls : Calls io checks w₀ l w)
    (hzero : w.wal.currentHeight ≠ 0) (hnext : w.wal.currentHeight.toNat + 1 < 2 ^ 64)
    (hA : recordsAt l w.wal.currentHeight = A) (hB : recordsAt l (w.wal.currentHeight + 1) = B) :
    ((Exec.result (load io) w).1 = .ok (A ++ B) ↔ (∀ r ∈ A, r.2.length < 2 ^ 32) ∧
      (B = [] ∨ A ≠ [] ∧ (∀ r ∈ B, r.2.length < 2 ^ 32) ∧ B <+: A ++ B)) ∧
    ((Exec.result (reopen io >>= fun _ => load io) w).1 = .ok (A ++ B) ↔
      (∀ r ∈ A, r.2.length < 2 ^ 32) ∧ B = []) := by
  have hw := hcalls.kept hio (h₀.kept hio)
  exact ⟨load_iff hio hw hzero hnext hA hB, reopen_load_iff hio hw hzero hA⟩

/-! ### A record that is lost -/

/-- A record is saved at height `1`, and one at height `2`. -/
theorem exists_calls : ∃ w₀ w, Fresh (fun _ => .ok) w₀ ∧
    Calls (fun _ => .ok) true w₀ [(1, (1, [1])), (2, (2, [2]))] w ∧ w.wal.currentHeight = 1 := by
  let w₀ : WalState := ⟨⟨[0], 0⟩, ⟨true, some [], AList.insert 0 [] ∅, 5⟩⟩
  let w₁ := moved w₀ 1
  let w₂ := saved w₁ 1 (1, [1])
  have hmove : Calls (fun _ => .ok) true w₀ [] w₁ :=
    .setHeight .start (by decide) (setHeight_result (fun _ => rfl) 1 w₀)
  have hfirst : Calls (fun _ => .ok) true w₀ [(1, (1, [1]))] w₂ :=
    .save hmove (save_returns (fun _ => rfl) true 1 (1, [1]) w₁ (by decide))
  have hsecond : Calls (fun _ => .ok) true w₀ [(1, (1, [1])), (2, (2, [2]))]
      (saved w₂ 2 (2, [2])) :=
    .save hfirst (save_returns (fun _ => rfl) true 2 (2, [2]) w₂ (by decide))
  exact ⟨w₀, _, ⟨⟨true, none, ∅, 0⟩, rfl, rfl⟩, hsecond, rfl⟩

theorem loads_iff_first : ∃ (w : WalState) (A B : List (UInt8 × Bytes)),
    A = [(1, [1])] ∧ B = [(2, [2])] ∧ w.wal.currentHeight = 1 ∧
    ((Exec.result (load fun _ => .ok) w).1 = .ok (A ++ B) ↔
      (∀ r ∈ A, r.2.length < 2 ^ 32) ∧
        (B = [] ∨ A ≠ [] ∧ (∀ r ∈ B, r.2.length < 2 ^ 32) ∧ B <+: A ++ B)) := by
  obtain ⟨w₀, w, hfresh, hcalls, hcurrent⟩ := exists_calls
  have hboth := loads_iff (fun _ => rfl) hfresh hcalls (A := [(1, [1])]) (B := [(2, [2])])
    (by rw [hcurrent]; decide) (by rw [hcurrent]; decide) (by rw [hcurrent]; rfl)
    (by rw [hcurrent]; rfl)
  exact ⟨w, [(1, [1])], [(2, [2])], rfl, rfl, hcurrent, hboth.1⟩

/-- **The record of height `2` is lost**: in the same process the record of height `1` is loaded
twice, in the next process only once. -/
theorem next_height_lost : ∃ w₀ l w, Fresh (fun _ => .ok) w₀ ∧
    Calls (fun _ => .ok) true w₀ l w ∧ w.wal.currentHeight = 1 ∧
    recordsAt l 1 = [(1, [1])] ∧ recordsAt l 2 = [(2, [2])] ∧
    (Exec.result (load fun _ => .ok) w).1 = .ok [(1, [1]), (1, [1])] ∧
    (Exec.result (reopen (fun _ => .ok) >>= fun _ => load fun _ => .ok) w).1 = .ok [(1, [1])] := by
  obtain ⟨w₀, w, hfresh, hcalls, hcurrent⟩ := exists_calls
  have hw := hcalls.kept (fun _ => rfl) (hfresh.kept fun _ => rfl)
  have hload := hw.load_result (fun _ => rfl) (by rw [hcurrent]; decide)
    (by rw [hcurrent]; decide)
  rw [hcurrent] at hload
  have hreopen := (reopen_load_iff (fun _ => rfl) hw (A := [(1, [1])]) (B := [])
    (by rw [hcurrent]; decide) (by rw [hcurrent]; rfl)).2 ⟨by decide, rfl⟩
  exact ⟨w₀, _, w, hfresh, hcalls, hcurrent, rfl, rfl, hload.trans (by decide +kernel), hreopen⟩

end Wal

end ConsensusBft

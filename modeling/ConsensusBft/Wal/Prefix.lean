import ConsensusBft.Wal.NextHeight
import ConsensusBft.Wal.Torn

/-!
# A log that is cut

* `recordLoop` : the loop of `Wal::load` over the buffer, with the indices of the source; reading
  beyond the buffer is a panic.  `recordLoop_eq` : **it never does, and it reads what
  `parseRecords` reads.**
* `LongestWhole recs n out` : `out` are the records that lie within the first `n` bytes of the file
  of `recs`, and no longer list does.
* `Wal.torn_log_reads` : **they are what is loaded of a file that is cut after `n` bytes.**
-/

namespace ConsensusBft

variable {recs out : List (UInt8 × Bytes)} {n : ℕ}

/-! ### The loop of the source -/

/-- `buf[i]`. -/
def byteAt (buf : Bytes) (i : ℕ) : Outcome IoError UInt8 :=
  match buf[i]? with
  | some b => .ok b
  | none => .error .panicked

theorem byteAt_of_some {buf : Bytes} {i : ℕ} {b : UInt8} (h : buf[i]? = some b) :
    byteAt buf i = .ok b := by
  rw [byteAt, h]

/-- `buf[i..j]`. -/
def byteRange (buf : Bytes) (i j : ℕ) : Outcome IoError Bytes :=
  if i ≤ j ∧ j ≤ buf.length then .ok ((buf.drop i).take (j - i)) else .error .panicked

/-- The length that is stored from `buf[i]` on. -/
def bodylenAt (buf : Bytes) (i : ℕ) : Outcome IoError ℕ := do
  let b₀ ← byteAt buf i
  let b₁ ← byteAt buf (i + 1)
  let b₂ ← byteAt buf (i + 2)
  let b₃ ← byteAt buf (i + 3)
  return (fromLeBytes b₀ b₁ b₂ b₃).toNat

theorem bodylenAt_of_some {buf : Bytes} {i : ℕ} {b₀ b₁ b₂ b₃ : UInt8} (h₀ : buf[i]? = some b₀)
    (h₁ : buf[i + 1]? = some b₁) (h₂ : buf[i + 2]? = some b₂) (h₃ : buf[i + 3]? = some b₃) :
    bodylenAt buf i = .ok (fromLeBytes b₀ b₁ b₂ b₃).toNat := by
  rw [bodylenAt, byteAt_of_some h₀, byteAt_of_some h₁, byteAt_of_some h₂, byteAt_of_some h₃]
  rfl

/-- The loop of `load` over the first `fsize` bytes of the buffer, from `index` on.  Every turn
consumes five bytes or more. -/
def recordLoop (buf : Bytes) (fsize : ℕ) : ℕ → ℕ → Outcome IoError (List (UInt8 × Bytes))
  | 0, _ => .ok []
  | fuel + 1, index =>
    if fsize < index + 5 then .ok []
    else do
      let bodylen ← bodylenAt buf index
      let mtype ← byteAt buf (index + 4)
      if fsize < index + 5 + bodylen then return []
      let body ← byteRange buf (index + 5) (index + 5 + bodylen)
      let out ← recordLoop buf fsize fuel (index + 5 + bodylen)
      return (mtype, body) :: out

/-- **The loop never reads beyond the buffer**, and it reads the records of the bytes that are
left. -/
theorem recordLoop_eq {buf : Bytes} {fsize fuel index : ℕ} (hsize : fsize ≤ buf.length)
    (hfuel : fsize ≤ index + fuel) : recordLoop buf fsize fuel index =
      .ok (parseRecords fuel ((buf.take fsize).drop index)) := by
  induction fuel generalizing index with
  | zero => rfl
  | succ fuel ih =>
    have hlen : ((buf.take fsize).drop index).length = fsize - index := by
      rw [List.length_drop, List.length_take]
      omega
    unfold recordLoop
    by_cases hshort : fsize < index + 5
    · rw [if_pos hshort, parseRecords_of_lt (by omega)]
    rw [if_neg hshort]
    have hbyte : ∀ k, k < 5 → ((buf.take fsize).drop index)[k]? = buf[index + k]? := by
      intro k hk
      rw [List.getElem?_drop, List.getElem?_take_of_lt (by omega)]
    have hbehind : (buf.take fsize).drop (index + 5) = ((buf.take fsize).drop index).drop 5 := by
      rw [List.drop_drop]
    obtain ⟨b₀, b₁, b₂, b₃, mtype, body, hrest⟩ : ∃ b₀ b₁ b₂ b₃ mtype body,
        (buf.take fsize).drop index = b₀ :: b₁ :: b₂ :: b₃ :: mtype :: body := by
      rcases hb : (buf.take fsize).drop index with
        - | ⟨b₀, - | ⟨b₁, - | ⟨b₂, - | ⟨b₃, - | ⟨mtype, body⟩⟩⟩⟩⟩
      case cons.cons.cons.cons.cons => exact ⟨b₀, b₁, b₂, b₃, mtype, body, rfl⟩
      all_goals
        rw [hb] at hlen
        simp only [List.length_cons, List.length_nil] at hlen
        omega
    rw [hrest] at hbyte hbehind hlen ⊢
    simp only [List.length_cons] at hlen
    have hbodylen : bodylenAt buf index = .ok (fromLeBytes b₀ b₁ b₂ b₃).toNat :=
      bodylenAt_of_some (hbyte 0 (by omega)).symm (hbyte 1 (by omega)).symm
        (hbyte 2 (by omega)).symm (hbyte 3 (by omega)).symm
    have hmtype : byteAt buf (index + 4) = .ok mtype := byteAt_of_some (hbyte 4 (by omega)).symm
    generalize hn : (fromLeBytes b₀ b₁ b₂ b₃).toNat = bodylen at hbodylen
    have hparse : parseRecords (fuel + 1) (b₀ :: b₁ :: b₂ :: b₃ :: mtype :: body) =
        if body.length < bodylen then []
        else (mtype, body.take bodylen) :: parseRecords fuel (body.drop bodylen) := by
      simp only [parseRecords, hn]
    rw [hbodylen, hmtype, hparse, Outcome.ok_bind, Outcome.ok_bind]
    by_cases hbody : fsize < index + 5 + bodylen
    · rw [if_pos hbody, if_pos (by omega)]
      rfl
    rw [if_neg hbody, if_neg (by omega)]
    have hrange : byteRange buf (index + 5) (index + 5 + bodylen) = .ok (body.take bodylen) := by
      rw [byteRange, if_pos (by omega), Nat.add_sub_cancel_left]
      change (buf.take fsize).drop (index + 5) = body at hbehind
      rw [← hbehind, List.drop_take, List.take_take, Nat.min_eq_left (by omega)]
    have hnext : (buf.take fsize).drop (index + 5 + bodylen) = body.drop bodylen := by
      rw [← List.drop_drop, hbehind]
      rfl
    rw [hrange, ih (by omega), hnext, Outcome.ok_bind, Outcome.ok_bind]
    rfl

/-! ### The whole records -/

/-- `out` are the records whose bytes all lie within the first `n` bytes of the file of `recs`. -/
structure LongestWhole (recs : List (UInt8 × Bytes)) (n : ℕ) (out : List (UInt8 × Bytes)) :
    Prop where
  isPre : out <+: recs
  length_le : (encodeRecords out).length ≤ n
  longest : ∀ out', out' <+: recs → (encodeRecords out').length ≤ n → out' <+: out

/-- There is one such list. -/
theorem LongestWhole.unique {out' : List (UInt8 × Bytes)} (h : LongestWhole recs n out)
    (h' : LongestWhole recs n out') : out = out' :=
  (h'.longest out h.isPre h.length_le).eq_of_length_le
    (h.longest out' h'.isPre h'.length_le).length_le

theorem longestWhole_whole (recs : List (UInt8 × Bytes)) (n : ℕ) :
    LongestWhole recs n (whole recs n) := by
  induction recs generalizing n with
  | nil => exact ⟨List.prefix_rfl, Nat.zero_le n, fun _ h _ => h⟩
  | cons r recs ih =>
    rw [whole]
    by_cases hle : (encodeRecord r).length ≤ n
    · obtain ⟨hpre, hlen, hlongest⟩ := ih (n - (encodeRecord r).length)
      rw [if_pos hle]
      refine ⟨List.cons_prefix_cons.2 ⟨rfl, hpre⟩, ?_, fun out' hout hfit => ?_⟩
      · rw [encodeRecords_cons, List.length_append]
        omega
      · cases out' with
        | nil => exact List.nil_prefix
        | cons r' out' =>
          obtain ⟨rfl, hout'⟩ := List.cons_prefix_cons.1 hout
          rw [encodeRecords_cons, List.length_append] at hfit
          exact List.cons_prefix_cons.2 ⟨rfl, hlongest out' hout' (by omega)⟩
    · rw [if_neg hle]
      refine ⟨List.nil_prefix, Nat.zero_le n, fun out' hout hfit => ?_⟩
      cases out' with
      | nil => exact List.nil_prefix
      | cons r' out' =>
        obtain ⟨rfl, -⟩ := List.cons_prefix_cons.1 hout
        rw [encodeRecords_cons, List.length_append] at hfit
        omega

/-- Of two records with the same header neither is cut. -/
theorem incomplete_take {r : UInt8 × Bytes} (hr : r.2.length < 2 ^ 32)
    (hn : n < (encodeRecord r).length) : Incomplete ((encodeRecord r).take n) := by
  intro r' hr' hpre
  obtain ⟨rest, heq⟩ := hpre.trans (List.take_prefix n _)
  -- the longer record starts with the shorter one, so that both are the same
  have hread := parseRecords_encodeRecord hr' rest.length rest
  have hread' := parseRecords_encodeRecord hr rest.length []
  rw [heq] at hread
  rw [List.append_nil, hread] at hread'
  obtain ⟨rfl, -⟩ := List.cons.inj hread'
  have hle := hpre.length_le
  rw [List.length_take] at hle
  omega

/-- What is left of a record is no record. -/
theorem incomplete_torn (hshort : ∀ r ∈ recs, r.2.length < 2 ^ 32) : Incomplete (torn recs n) := by
  induction recs generalizing n with
  | nil =>
    rintro r - hpre
    exact absurd hpre.length_le (by simp [torn])
  | cons r recs ih =>
    rw [torn]
    split_ifs with hle
    · exact ih fun r' hr' => hshort r' (List.mem_cons_of_mem r hr')
    · exact incomplete_take (hshort r List.mem_cons_self) (by omega)

/-- **What is read of a file that is cut.** -/
theorem parseRecords_take (hshort : ∀ r ∈ recs, r.2.length < 2 ^ 32) :
    parseRecords ((encodeRecords recs).take n).length ((encodeRecords recs).take n) =
      whole recs n :=
  parseRecords_eq_iff.2 ⟨fun r hr => hshort r (whole_subset hr), torn recs n,
    take_encodeRecords recs n, incomplete_torn hshort⟩

/-! ### Loading -/

namespace Wal

variable {io : ℕ → IoOutcome} {checks : Bool} {w₀ : WalState} {h : UInt64}

/-- A crash leaves the first `n` bytes of the file of a height. -/
def cut (h : UInt64) (n : ℕ) (w : WalState) : WalState :=
  { w with disk := { w.disk with
    logs := w.disk.logs.insert h (((w.disk.logs.lookup h).getD []).take n) } }

/-- The file of a height holds the records that are saved in a fresh log. -/
theorem saveAll_fresh (hio : ∀ n, io n = .ok) (h₀ : Fresh io w₀)
    (hrecs : ∀ r ∈ recs, r.2 ≠ []) :
    ∃ w, Exec.result (setHeight io h >>= fun _ => saveAll io checks h recs) w₀ = (.ok ⟨⟩, w) ∧
      indexHeight w.disk = some h ∧ w.disk.logs.lookup h = some (encodeRecords recs) := by
  obtain ⟨d, hempty, hnew⟩ := h₀
  obtain ⟨c, -, hwal, hindex, hlogs⟩ := (new_wp hio d).ok hnew
  have hmem : h ∈ (moved w₀ h).wal.heightFs :=
    mem_kept.2 ⟨mem_openHandle.2 (.inl rfl), sub_interval_le⟩
  have hfile : (moved w₀ h).disk.logs.lookup h = some [] := by
    rw [lookup_moved (UInt64.le_refl h), hlogs, hempty, HashMap.lookup_orInsert, if_pos rfl,
      HashMap.lookup_orInsert]
    split_ifs <;> rfl
  obtain ⟨w, hw, hindex', hsaved⟩ : ∃ w, Exec.result (saveAll io checks h recs) (moved w₀ h) =
      (.ok ⟨⟩, w) ∧ w.disk.index = (moved w₀ h).disk.index ∧
        w.disk.logs.lookup h = some ([] ++ encodeRecords recs) :=
    saveAll_result hio hmem hfile hrecs
  refine ⟨w, (Exec.result_bind_ok (setHeight_result hio h w₀)).trans hw,
    indexHeight_decimal ?_, hsaved⟩
  rw [hindex']
  change w₀.disk.index.map _ = _
  rw [hindex]
  rfl

/-- **A log that is cut yields exactly its whole records**: records are saved at a height above `0`
in a fresh log, the file is cut after `n` bytes, and the log is opened again and loaded.  The loop
over the file reads no byte beyond it. -/
theorem torn_log_reads (hio : ∀ n, io n = .ok) (h₀ : Fresh io w₀) (hzero : h ≠ 0)
    (hrecs : ∀ r ∈ recs, r.2 ≠ [] ∧ r.2.length < 2 ^ 32) (n : ℕ) :
    ∃ w out, Exec.result (setHeight io h >>= fun _ => saveAll io checks h recs) w₀ =
        (.ok ⟨⟩, w) ∧ w.disk.logs.lookup h = some (encodeRecords recs) ∧
      LongestWhole recs n out ∧
      (Exec.result (reopen io >>= fun _ => load io) (cut h n w)).1 = .ok out ∧
      recordLoop ((encodeRecords recs).take n) ((encodeRecords recs).take n).length
        ((encodeRecords recs).take n).length 0 = .ok out := by
  obtain ⟨w, hw, hindex, hfile⟩ : ∃ w, Exec.result (setHeight io h >>= fun _ =>
      saveAll io checks h recs) w₀ = (.ok ⟨⟩, w) ∧ _ ∧ _ :=
    saveAll_fresh hio h₀ fun r hr => (hrecs r hr).1
  have hread := parseRecords_take (n := n) fun r hr => (hrecs r hr).2
  have hlongest := longestWhole_whole recs n
  refine ⟨w, whole recs n, hw, hfile, hlongest, ?_, ?_⟩
  · have hindex' : indexHeight (cut h n w).disk = some h := hindex
    have hcut : (cut h n w).disk.logs.lookup h = some ((encodeRecords recs).take n) := by
      change (w.disk.logs.insert h _).lookup h = _
      rw [AList.lookup_insert, hfile, Option.getD_some]
    obtain ⟨d, hr, -, hlogs⟩ := reopen_result hio hindex'
    obtain ⟨ops, hload⟩ := load_result hio h d
    rw [Exec.result_bind_ok hr, hload, loaded, hlogs, HashMap.orInsert_of_some hcut, hcut,
      Option.getD_some, hread]
    refine congrArg Except.ok ?_
    split_ifs with hempty
    · -- too few bytes for a record
      have hlen := hempty.resolve_left hzero
      by_contra hne
      have hfive := five_lt_length_encodeRecords (Ne.symm hne) fun r hr =>
        (hrecs r (whole_subset hr)).1
      have hle := hlongest.length_le
      rw [take_encodeRecords, List.length_append] at hlen
      omega
    · rfl
  · rw [recordLoop_eq (Nat.le_refl _) (Nat.le_add_left _ _), List.take_length, List.drop_zero,
      hread]

/-- Two records take six and seven bytes; of ten bytes the first record is loaded. -/
theorem torn_log_reads_first : ∃ w₀ w, Fresh (fun _ => .ok) w₀ ∧
    Exec.result (setHeight (fun _ => .ok) 1 >>= fun _ =>
      saveAll (fun _ => .ok) true 1 [(1, [1]), (2, [2, 2])]) w₀ = (.ok ⟨⟩, w) ∧
    (Exec.result (reopen (fun _ => .ok) >>= fun _ => load fun _ => .ok) (cut 1 10 w)).1 =
      .ok [(1, [1])] := by
  have h₀ : Fresh (fun _ => .ok) ⟨⟨[0], 0⟩, ⟨true, some [], AList.insert 0 [] ∅, 5⟩⟩ :=
    ⟨⟨true, none, ∅, 0⟩, rfl, rfl⟩
  obtain ⟨w, out, hw, -, hlongest, hload, -⟩ := @torn_log_reads [(1, [1]), (2, [2, 2])]
    (fun _ => .ok) true _ 1 (fun _ => rfl) h₀ (by decide) (by decide) 10
  have hout : out = [(1, [1])] := hlongest.unique (longestWhole_whole _ 10)
  exact ⟨_, w, h₀, hw, hload.trans (congrArg Except.ok hout)⟩

end Wal

end ConsensusBft

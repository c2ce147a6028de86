import ConsensusBft.Wal.NextHeight

/-!
# Old files and restarts

`Wal::set_height` removes the files of old heights that are open, and after a restart only the file
of the current height is.

* `Wal.Sessions` : calls of `Wal::set_height` and `Wal::save`, and restarts.
* `Wal.Recorded l w` : the files that are not too old hold the records `l` that were accepted;
  `Wal.Sessions.recorded` : **they do after any calls and restarts.**
* `Wal.removes_iff` : **after `Wal::set_height` only the files of the last heights are left if and
  only if every older file was open.**
* `Wal.Calls.allOpen` : without a restart it is.
-/

namespace ConsensusBft

namespace Wal

variable {io : ℕ → IoOutcome} {checks : Bool} {w w' w₀ : WalState} {h k : UInt64}
variable {l : List (UInt64 × (UInt8 × Bytes))} {r : UInt8 × Bytes}

/-- The log after calls of `Wal::set_height`, with increasing heights, of `Wal::save`, and after
restarts, and the records that were accepted, each with the height it was saved at. -/
inductive Sessions (io : ℕ → IoOutcome) (checks : Bool) (w₀ : WalState) :
    List (UInt64 × (UInt8 × Bytes)) → WalState → Prop
  | start : Sessions io checks w₀ [] w₀
  | setHeight {l : List (UInt64 × (UInt8 × Bytes))} {w w' : WalState} {h : UInt64}
      (calls : Sessions io checks w₀ l w) (higher : w.wal.currentHeight < h)
      (result : Exec.result (setHeight io h) w = (.ok ⟨⟩, w')) : Sessions io checks w₀ l w'
  | save {l : List (UInt64 × (UInt8 × Bytes))} {w w' : WalState} {h : UInt64}
      {r : UInt8 × Bytes} {n : ℕ} (calls : Sessions io checks w₀ l w)
      (result : Exec.result (save io checks h r.1 r.2) w = (.ok n, w')) :
      Sessions io checks w₀ (if n = 0 then l else l ++ [(h, r)]) w'
  | restart {l : List (UInt64 × (UInt8 × Bytes))} {w w' : WalState}
      (calls : Sessions io checks w₀ l w) (result : Exec.result (reopen io) w = (.ok ⟨⟩, w')) :
      Sessions io checks w₀ l w'

/-- The height `k` is not too old at the height `h`. -/
def Near (h k : UInt64) : Prop := DELETE_FILE_INTERVAL < h → h - DELETE_FILE_INTERVAL ≤ k

instance (h k : UInt64) : Decidable (Near h k) := inferInstanceAs (Decidable (_ → _))

/-- What is not too old at a height is not at a lower one. -/
theorem Near.lower {h' : UInt64} (hk : Near h k) (hlt : h' < h) : Near h' k := by
  intro hold
  have hnew : DELETE_FILE_INTERVAL < h := UInt64.lt_trans hold hlt
  refine UInt64.le_trans ?_ (hk hnew)
  rw [UInt64.le_iff_toNat_le, UInt64.toNat_sub_of_le _ _ (UInt64.le_of_lt hold),
    UInt64.toNat_sub_of_le _ _ (UInt64.le_of_lt hnew)]
  exact Nat.sub_le_sub_right (UInt64.le_iff_toNat_le.1 (UInt64.le_of_lt hlt)) _

/-- The files that are not too old hold the accepted records, and above the current height only the
next one may be open. -/
structure Recorded (l : List (UInt64 × (UInt8 × Bytes))) (w : WalState) : Prop where
  current : w.wal.currentHeight ∈ w.wal.heightFs
  le_next : ∀ k ∈ w.wal.heightFs, k.toNat ≤ w.wal.currentHeight.toNat + 1
  file : ∀ k, Near w.wal.currentHeight k →
    (w.disk.logs.lookup k).getD [] = encodeRecords (recordsAt l k)
  indexed : w.disk.index.isSome
  index : indexHeight w.disk = some w.wal.currentHeight

/-- A file that is created if it is missing reads as before. -/
theorem getD_orInsert (m : HashMap UInt64 Bytes) (h k : UInt64) :
    ((m.orInsert h []).lookup k).getD [] = (m.lookup k).getD [] := by
  rw [HashMap.lookup_orInsert]
  split_ifs with hk
  · rw [hk]
    rfl
  · rfl

namespace Recorded

/-- Moving to a higher height keeps the files. -/
theorem moved (hw : Recorded l w) (higher : w.wal.currentHeight < h) :
    Recorded l (moved w h) := by
  have htoNat := UInt64.lt_iff_toNat_lt.1 higher
  obtain ⟨b, hb⟩ := Option.isSome_iff_exists.1 hw.indexed
  have hindex : (Wal.moved w h).disk.index = some (decimal h) := by
    change w.disk.index.map _ = _
    rw [hb]
    rfl
  refine ⟨mem_kept.2 ⟨mem_openHandle.2 (.inl rfl), sub_interval_le⟩, fun k hk => ?_,
    fun k (hk : Near h k) => ?_, by rw [hindex]; rfl, indexHeight_decimal hindex⟩
  · change k.toNat ≤ h.toNat + 1
    rcases mem_openHandle.1 (mem_kept.1 hk).1 with rfl | hk
    · omega
    · have hle := hw.le_next k hk
      omega
  · rw [lookup_moved_of_near hk, getD_orInsert]
    exact hw.file k (Near.lower hk higher)

/-- So does opening the file of the next height. -/
theorem opened (hw : Recorded l w) (hopens : Opens w.wal h) : Recorded l (opened w h) := by
  obtain ⟨-, rfl⟩ := hopens
  refine ⟨mem_openHandle.2 (.inr hw.current), fun k hk => ?_, fun k hk => ?_, hw.indexed, hw.index⟩
  · change k.toNat ≤ w.wal.currentHeight.toNat + 1
    rcases mem_openHandle.1 hk with rfl | hk
    · rw [UInt64.toNat_add]
      exact Nat.mod_le _ _
    · exact hw.le_next k hk
  · exact (getD_orInsert _ _ k).trans (hw.file k hk)

/-- A record that is written is added. -/
theorem written (hw : Recorded l w) : Recorded (l ++ [(h, r)]) (written w h r) := by
  refine ⟨hw.current, hw.le_next, fun k hk => ?_, hw.indexed, hw.index⟩
  change ((w.disk.logs.insert h _).lookup k).getD [] = _
  by_cases heq : k = h
  · subst heq
    rw [AList.lookup_insert, Option.getD_some, hw.file k hk, recordsAt_append_self,
      encodeRecords_append]
    simp
  · rw [AList.lookup_insert_ne heq, hw.file k hk, recordsAt_append_ne heq]

/-- So is one that is accepted; otherwise nothing is. -/
theorem saved (hw : Recorded l w) (h : UInt64) (r : UInt8 × Bytes) :
    Recorded (if Accepts w h r then l ++ [(h, r)] else l) (saved w h r) := by
  have key : ∀ w : WalState, Recorded l w →
      Recorded (if r.2 ≠ [] ∧ h ∈ w.wal.heightFs then l ++ [(h, r)] else l)
        (if r.2 ≠ [] ∧ h ∈ w.wal.heightFs then Wal.written w h r else w) := by
    intro w hw
    split_ifs
    · exact hw.written
    · exact hw
  unfold Wal.saved
  by_cases hopens : Opens w.wal h
  · have haccepts : Accepts w h r ↔ r.2 ≠ [] ∧ h ∈ (Wal.opened w h).wal.heightFs :=
      and_congr_right fun _ => iff_of_true (.inr hopens) (mem_openHandle.2 (.inl rfl))
    rw [if_pos hopens]
    simp only [haccepts]
    exact key _ (hw.opened hopens)
  · have haccepts : Accepts w h r ↔ r.2 ≠ [] ∧ h ∈ w.wal.heightFs :=
      and_congr_right fun _ => or_iff_left hopens
    rw [if_neg hopens]
    simp only [haccepts]
    exact key w hw

/-- A restart keeps the files too. -/
theorem reopened (hio : ∀ n, io n = .ok) (hw : Recorded l w)
    (hr : Exec.result (reopen io) w = (.ok ⟨⟩, w')) : Recorded l w' := by
  obtain ⟨h, hh, hwal, hindex, hlogs⟩ := (reopen_wp hio w).ok hr
  obtain rfl := Option.some.inj (hw.index.symm.trans hh)
  have hindexed : indexHeight w'.disk = indexHeight w.disk := by
    unfold indexHeight
    rw [hindex, Option.getD_some]
  refine ⟨?_, ?_, ?_, by rw [hindex]; rfl, ?_⟩
  all_goals rw [hwal]
  · exact List.mem_singleton_self _
  · intro k hk
    obtain rfl := List.mem_singleton.1 hk
    exact Nat.le_succ _
  · intro k hk
    rw [hlogs, getD_orInsert]
    exact hw.file k hk
  · rw [hindexed, hw.index]

end Recorded

/-- What is read of a fresh log: no records. -/
theorem Fresh.recorded (hio : ∀ n, io n = .ok) (h₀ : Fresh io w₀) : Recorded [] w₀ := by
  have hkept := h₀.kept hio
  obtain ⟨d, hempty, hnew⟩ := h₀
  obtain ⟨h, -, -, -, hlogs⟩ := (new_wp hio d).ok hnew
  refine ⟨hkept.current, hkept.le_next, fun k _ => ?_, hkept.indexed, hkept.index⟩
  rw [hlogs, getD_orInsert, hempty]
  rfl

/-- **The files hold the accepted records**, after any calls and restarts. -/
theorem Sessions.recorded (hio : ∀ n, io n = .ok) (h : Sessions io checks w₀ l w)
    (h₀ : Fresh io w₀) : Recorded l w := by
  induction h with
  | start => exact h₀.recorded hio
  | setHeight _ higher result ih =>
    rw [setHeight_result hio] at result
    obtain ⟨-, rfl⟩ := Prod.mk.inj result
    exact ih.moved higher
  | @save l w w' h r n _ result ih =>
    by_cases hfull : checks = true ∧ Full w.wal h
    · rw [result_save, if_pos hfull] at result
      exact nomatch (Prod.mk.inj result).1
    · rw [save_returns hio checks h r w hfull] at result
      obtain ⟨hn, rfl⟩ := Prod.mk.inj result
      obtain rfl := Except.ok.inj hn
      -- an accepted record has a length
      have hzero : (if Accepts w h r then r.2.length else 0) = 0 ↔ ¬ Accepts w h r := by
        split_ifs with ha
        · exact iff_of_false (fun hlen => ha.1 (List.length_eq_zero_iff.1 hlen)) (not_not.2 ha)
        · exact iff_of_true rfl ha
      have hsaved := ih.saved h r
      simp only [hzero, ite_not]
      exact hsaved
  | restart _ result ih => exact ih.reopened hio result

/-! ### Which files are left -/

/-- Only the files of the last heights are left, and those that were written hold their records; the
open files are among them. -/
structure Trimmed (l : List (UInt64 × (UInt8 × Bytes))) (h : UInt64) (w : WalState) : Prop where
  removed : ∀ k, k < h - DELETE_FILE_INTERVAL → k ∉ w.disk.logs
  written : ∀ k, h - DELETE_FILE_INTERVAL ≤ k → recordsAt l k ≠ [] →
    w.disk.logs.lookup k = some (encodeRecords (recordsAt l k))
  within : ∀ k ∈ w.wal.heightFs, h - DELETE_FILE_INTERVAL ≤ k ∧ k ≤ h
  current : h ∈ w.wal.heightFs

/-- Every file that is too old at the height `h` is open. -/
def OldOpen (h : UInt64) (w : WalState) : Prop :=
  ∀ k ∈ w.disk.logs, k < h - DELETE_FILE_INTERVAL → k ∈ w.wal.heightFs

theorem mem_expired {fs : List UInt64} (hlt : DELETE_FILE_INTERVAL < h) :
    k ∈ expired h fs ↔ k ∈ fs ∧ k < h - DELETE_FILE_INTERVAL := by
  rw [expired, if_pos hlt, List.mem_filter, decide_eq_true_eq]

/-- Which files there are after the log moved. -/
theorem mem_logs_moved : k ∈ (moved w h).disk.logs ↔
    (k = h ∨ k ∈ w.disk.logs) ∧ k ∉ expired h (openHandle h w.wal.heightFs) := by
  have hlookup : (moved w h).disk.logs.lookup k =
      if k ∈ expired h (openHandle h w.wal.heightFs) then none
      else (w.disk.logs.orInsert h []).lookup k := HashMap.lookup_foldl_erase _ _ k
  rw [← AList.lookup_isSome, ← AList.lookup_isSome, hlookup, HashMap.lookup_orInsert]
  split_ifs with hexpired heq
  · exact iff_of_false Bool.false_ne_true fun h => h.2 hexpired
  · exact iff_of_true rfl ⟨.inl heq, hexpired⟩
  · exact ⟨fun hmem => ⟨.inr hmem, hexpired⟩, fun hmem => hmem.1.resolve_left heq⟩

/-- A file that is too old is left exactly if it is not open. -/
theorem mem_moved_of_old (hlt : DELETE_FILE_INTERVAL < h) (hk : k < h - DELETE_FILE_INTERVAL) :
    k ∈ (moved w h).disk.logs ↔ k ∈ w.disk.logs ∧ k ∉ w.wal.heightFs := by
  have hne : k ≠ h := by
    rintro rfl
    exact UInt64.lt_irrefl _ (UInt64.lt_of_lt_of_le hk (sub_interval_le hlt))
  rw [mem_logs_moved, mem_expired hlt, mem_openHandle, or_iff_right hne, or_iff_right hne,
    and_iff_left hk]

/-- **Old log files are removed exactly if they are open**: after any calls and restarts,
`Wal::set_height` leaves the files of the last heights only if and only if no older file is closed.
The other files and the open ones are always as they should be. -/
theorem removes_iff (hio : ∀ n, io n = .ok) (h₀ : Fresh io w₀) (hrun : Sessions io checks w₀ l w)
    (higher : w.wal.currentHeight < h) (hlt : DELETE_FILE_INTERVAL < h)
    (hset : Exec.result (setHeight io h) w = (.ok ⟨⟩, w')) :
    (Trimmed l h w' ↔ OldOpen h w) ∧
      ((∀ k, h - DELETE_FILE_INTERVAL ≤ k → recordsAt l k ≠ [] →
        w'.disk.logs.lookup k = some (encodeRecords (recordsAt l k))) ∧
      (∀ k ∈ w'.wal.heightFs, h - DELETE_FILE_INTERVAL ≤ k ∧ k ≤ h) ∧ h ∈ w'.wal.heightFs) := by
  have hw := hrun.recorded hio h₀
  have hmoved := hw.moved higher
  rw [setHeight_result hio] at hset
  obtain ⟨-, rfl⟩ := Prod.mk.inj hset
  have hfiles : ∀ k, h - DELETE_FILE_INTERVAL ≤ k → recordsAt l k ≠ [] →
      (moved w h).disk.logs.lookup k = some (encodeRecords (recordsAt l k)) := by
    intro k hk hne
    have hfile := hmoved.file k fun _ => hk
    cases hlookup : (moved w h).disk.logs.lookup k with
    | some b =>
      rw [hlookup, Option.getD_some] at hfile
      rw [hfile]
    | none =>
      -- a record takes bytes
      rw [hlookup, Option.getD_none] at hfile
      obtain ⟨r, recs, hcons⟩ := List.exists_cons_of_ne_nil hne
      rw [hcons, encodeRecords_cons] at hfile
      have hlen := congrArg List.length hfile
      rw [List.length_append, length_encodeRecord, List.length_nil] at hlen
      omega
  have hwithin : ∀ k ∈ (moved w h).wal.heightFs, h - DELETE_FILE_INTERVAL ≤ k ∧ k ≤ h := by
    intro k hk
    obtain ⟨hopen, hnear⟩ := mem_kept.1 hk
    refine ⟨hnear hlt, ?_⟩
    rcases mem_openHandle.1 hopen with rfl | hopen
    · exact UInt64.le_refl _
    · have hle := hw.le_next k hopen
      have htoNat := UInt64.lt_iff_toNat_lt.1 higher
      rw [UInt64.le_iff_toNat_le]
      omega
  refine ⟨⟨fun ht k hk hold => ?_, fun hopen => ⟨fun k hold hk => ?_, hfiles, hwithin,
    hmoved.current⟩⟩, hfiles, hwithin, hmoved.current⟩
  · by_contra hclosed
    exact ht.removed k hold ((mem_moved_of_old hlt hold).2 ⟨hk, hclosed⟩)
  · obtain ⟨hmem, hclosed⟩ := (mem_moved_of_old hlt hold).1 hk
    exact hclosed (hopen k hmem hold)

/-! ### Without a restart -/

/-- Every file of the directory is open. -/
def AllOpen (w : WalState) : Prop := ∀ k ∈ w.disk.logs, k ∈ w.wal.heightFs

theorem AllOpen.moved (hw : AllOpen w) (h : UInt64) : AllOpen (moved w h) := by
  intro k hk
  obtain ⟨hmem, hexpired⟩ := mem_logs_moved.1 hk
  have hopen : k ∈ openHandle h w.wal.heightFs := mem_openHandle.2 (hmem.imp_right (hw k))
  refine mem_kept.2 ⟨hopen, fun hlt => UInt64.not_lt.1 fun hold => ?_⟩
  exact hexpired ((mem_expired hlt).2 ⟨hopen, hold⟩)

theorem AllOpen.opened (hw : AllOpen w) (h : UInt64) : AllOpen (opened w h) := by
  intro k hk
  rw [← AList.lookup_isSome] at hk
  change ((w.disk.logs.orInsert h []).lookup k).isSome at hk
  rw [HashMap.lookup_orInsert] at hk
  split_ifs at hk with heq
  · exact mem_openHandle.2 (.inl heq)
  · exact mem_openHandle.2 (.inr (hw k (AList.lookup_isSome.1 hk)))

theorem AllOpen.saved (hw : AllOpen w) (h : UInt64) (r : UInt8 × Bytes) :
    AllOpen (saved w h r) := by
  -- only an open file is written
  have key : ∀ w : WalState, AllOpen w →
      AllOpen (if r.2 ≠ [] ∧ h ∈ w.wal.heightFs then written w h r else w) := by
    intro w hw
    split_ifs with hwrite
    · intro k hk
      rcases (AList.mem_insert _).1 hk with rfl | hk
      · exact hwrite.2
      · exact hw k hk
    · exact hw
  unfold Wal.saved
  by_cases hopens : Opens w.wal h
  · rw [if_pos hopens]
    exact key _ (hw.opened h)
  · rw [if_neg hopens]
    exact key w hw

/-- **A process that was not restarted has every file open**, so that it removes all old ones. -/
theorem Calls.allOpen (hio : ∀ n, io n = .ok) (h : Calls io checks w₀ l w) (h₀ : Fresh io w₀) :
    AllOpen w := by
  induction h with
  | start =>
    obtain ⟨d, hempty, hnew⟩ := h₀
    obtain ⟨h, -, hwal, -, hlogs⟩ := (new_wp hio d).ok hnew
    intro k hk
    rw [hlogs, hempty, ← AList.lookup_isSome, HashMap.lookup_orInsert] at hk
    rw [hwal]
    split_ifs at hk with heq
    · exact List.mem_singleton.2 heq
    · exact nomatch hk
  | setHeight _ _ result ih =>
    rw [setHeight_result hio] at result
    obtain ⟨-, rfl⟩ := Prod.mk.inj result
    exact ih.moved _
  | @save l w w' h r n _ result ih =>
    rcases save_cases hio checks h r w with hpanic | ⟨n', hsaved⟩
    · exact nomatch (Prod.mk.inj (hpanic.symm.trans result)).1
    · obtain ⟨-, rfl⟩ := Prod.mk.inj (hsaved.symm.trans result)
      exact ih.saved h r

/-! ### A file that stays -/

/-- In a new directory the log moves to height `1`, and it is opened again. -/
theorem exists_restart : ∃ w₀ w, Fresh (fun _ => .ok) w₀ ∧
    Sessions (fun _ => .ok) true w₀ [] w ∧ w.wal = ⟨[1], 1⟩ ∧ w.disk.logs.keys = [1, 0] := by
  have h₀ : Fresh (fun _ => .ok) ⟨⟨[0], 0⟩, ⟨true, some [], AList.insert 0 [] ∅, 5⟩⟩ :=
    ⟨⟨true, none, ∅, 0⟩, rfl, rfl⟩
  have hmove : Sessions (fun _ => .ok) true ⟨⟨[0], 0⟩, ⟨true, some [], AList.insert 0 [] ∅, 5⟩⟩ []
      (moved ⟨⟨[0], 0⟩, ⟨true, some [], AList.insert 0 [] ∅, 5⟩⟩ 1) :=
    .setHeight .start (by decide) (setHeight_result (fun _ => rfl) 1 _)
  exact ⟨_, ⟨⟨[1], 1⟩, ⟨true, some [49], AList.insert 1 [] (AList.insert 0 [] ∅), 15⟩⟩, h₀,
    .restart hmove (by rfl), rfl, rfl⟩

/-- The files of height `0` and `1` are too old at height `5`; only that of height `1` is open. -/
theorem removes_iff_restart : ∃ w w' : WalState,
    Exec.result (setHeight (fun _ => .ok) 5) w = (.ok ⟨⟩, w') ∧
      (Trimmed [] 5 w' ↔ OldOpen 5 w) := by
  obtain ⟨w₀, w, hfresh, hrun, hwal, -⟩ := exists_restart
  exact ⟨w, _, setHeight_result (fun _ => rfl) 5 w, (removes_iff (fun _ => rfl) hfresh hrun
    (by rw [hwal]; decide) (by decide) (setHeight_result (fun _ => rfl) 5 w)).1⟩

/-- **The file of height `0` stays**: after the restart `Wal::set_height` does not know it. -/
theorem old_file_stays : ∃ w₀ w w', Fresh (fun _ => .ok) w₀ ∧
    Sessions (fun _ => .ok) true w₀ [] w ∧ w.wal.currentHeight < 5 ∧
    Exec.result (setHeight (fun _ => .ok) 5) w = (.ok ⟨⟩, w') ∧
    (0 : UInt64) < 5 - DELETE_FILE_INTERVAL ∧ (0 : UInt64) ∈ w'.disk.logs := by
  obtain ⟨w₀, w, hfresh, hrun, hwal, hkeys⟩ := exists_restart
  refine ⟨w₀, w, _, hfresh, hrun, by rw [hwal]; decide, setHeight_result (fun _ => rfl) 5 w,
    by decide, (mem_moved_of_old (by decide) (by decide)).2 ⟨?_, by rw [hwal]; decide⟩⟩
  rw [AList.mem_keys, hkeys]
  decide

end Wal

end ConsensusBft

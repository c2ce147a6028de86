import ConsensusBft.Wal.Failing
import ConsensusBft.Wal.Working

/-!
# When the files stay as they are

* `Disk.SameFiles d d'` : the index and the files are the same.
* `Wal.Adds checks w h msg` : saving adds a record, or a file.
* `Wal.Shifts w h` : moving to a height changes the index, creates a file or removes one.
* `Wal.save_sameFiles`, `Wal.setHeight_sameFiles` : **otherwise nothing on the disk changes**,
  whichever file operations fail; `Wal.saved_sameFiles_iff`, `Wal.moved_sameFiles_iff` : if none
  fails, something does.
* `Wal.Alike w w'` : the same log on the same files.
-/

namespace ConsensusBft

open Exec (wp)

variable {io : ℕ → IoOutcome}

namespace Disk

variable {d d' d'' : Disk}

/-- The index and the files are the same. -/
structure SameFiles (d d' : Disk) : Prop where
  index : d'.index = d.index
  logs : d.logs.Equal d'.logs

namespace SameFiles

theorem refl (d : Disk) : SameFiles d d := ⟨rfl, fun _ => rfl⟩

theorem symm (h : SameFiles d d') : SameFiles d' d :=
  ⟨h.index.symm, fun k => (h.logs k).symm⟩

theorem trans (h : SameFiles d d') (h' : SameFiles d' d'') : SameFiles d d'' :=
  ⟨h'.index.trans h.index, fun k => (h.logs k).trans (h'.logs k)⟩

/-- Opening a file that is there. -/
theorem orInsert {h : UInt64} {ops : ℕ} (hd : SameFiles d d')
    (hfile : d.logs.lookup h ≠ none) :
    SameFiles d { d' with logs := d'.logs.orInsert h [], ops } := by
  obtain ⟨b, hb⟩ := Option.ne_none_iff_exists'.1 (hd.logs h ▸ hfile)
  refine ⟨hd.index, fun k => ?_⟩
  rw [HashMap.orInsert_of_some hb]
  exact hd.logs k

/-- Removing a file that is not there. -/
theorem erase {h : UInt64} {ops : ℕ} (hd : SameFiles d d') (hfile : d.logs.lookup h = none) :
    SameFiles d { d' with logs := d'.logs.erase h, ops } := by
  refine ⟨hd.index, fun k => ?_⟩
  rw [hd.logs k]
  by_cases hk : k = h
  · subst hk
    rw [AList.lookup_erase, ← hd.logs k, hfile]
  · rw [AList.lookup_erase_ne hk]

/-- Rewriting the index with what it holds. -/
theorem mapIndex {f : Bytes → Bytes} {ops : ℕ} (hd : SameFiles d d')
    (hf : ∀ b, d.index = some b → f b = b) :
    SameFiles d { d' with index := d'.index.map f, ops } := by
  refine ⟨?_, hd.logs⟩
  change d'.index.map f = d.index
  rw [hd.index]
  cases hb : d.index with
  | none => rfl
  | some b => exact congrArg some (hf b hb)

end SameFiles

/-- The files stay as they are, however the computation ends. -/
abbrev Untouched {α : Type} (m : Exec IoError Disk α) (d d' : Disk) : Prop :=
  wp m (fun _ d'' => SameFiles d d'') (fun _ d'' => SameFiles d d'') d'

theorem next_untouched (hd : SameFiles d d') : Untouched (next io) d d' := ⟨hd.index, hd.logs⟩

theorem attempt_untouched (hd : SameFiles d d') : Untouched (attempt io) d d' := by
  refine (attempt_wp d').mono ?_ ?_
  · rintro _ _ ⟨-, rfl⟩
    exact ⟨hd.index, hd.logs⟩
  · rintro _ _ ⟨-, -, rfl⟩
    exact ⟨hd.index, hd.logs⟩

theorem openLog_untouched {h : UInt64} (hd : SameFiles d d') (hfile : d.logs.lookup h ≠ none) :
    Untouched (openLog io h) d d' := by
  unfold openLog
  exact Exec.wp_bind.2 ((attempt_untouched hd).mono (fun _ _ hd => hd.orInsert hfile)
    fun _ _ hd => hd)

theorem setIndexLen_untouched {n : ℕ} (hd : SameFiles d d')
    (hindex : ∀ b, d.index = some b → b.length = n) : Untouched (setIndexLen io n) d d' := by
  have hresize : ∀ b, d.index = some b → resize b n = b := by
    intro b hb
    rw [← hindex b hb]
    simp [resize]
  unfold setIndexLen next
  simp only [bind_assoc, Exec.wp_bind, Exec.wp_get, Exec.wp_modify, pure_bind]
  cases io d'.ops with
  | fail n => exact ⟨hd.index, hd.logs⟩
  | _ => exact hd.mapIndex hresize

theorem writeIndex_untouched {new : Bytes} (hd : SameFiles d d')
    (hindex : ∀ b, d.index = some b → b = new) : Untouched (writeIndex io new) d d' := by
  -- a part of the text is written over itself as well
  have hover : ∀ n b, d.index = some b → overwrite b (new.take n) = b := by
    intro n b hb
    obtain rfl := hindex b hb
    rcases Nat.le_total n b.length with hn | hn
    · simp [overwrite, Nat.min_eq_left hn]
    · simp [overwrite, List.take_of_length_le hn]
  unfold writeIndex next
  simp only [bind_assoc, Exec.wp_bind, Exec.wp_get, Exec.wp_modify, pure_bind]
  have hall : ∀ b, d.index = some b → overwrite b new = b := by
    intro b hb
    simpa using hover new.length b hb
  cases io d'.ops with
  | fail n => exact hd.mapIndex (hover n)
  | _ => exact hd.mapIndex hall

theorem removeLog_untouched {h : UInt64} (hd : SameFiles d d') (hfile : d.logs.lookup h = none) :
    Untouched (removeLog io h) d d' := by
  unfold removeLog next
  simp only [bind_assoc, Exec.wp_bind, Exec.wp_get, Exec.wp_modify, pure_bind]
  cases io d'.ops with
  | fail n => exact ⟨hd.index, hd.logs⟩
  | _ => exact hd.erase hfile

end Disk

namespace Wal

open Disk (SameFiles)

variable {w : WalState} {h : UInt64} {tag : UInt8} {msg : Bytes} {checks : Bool}

/-! ### Saving -/

/-- Saving a record writes it, or creates a file for it. -/
structure Adds (checks : Bool) (w : WalState) (h : UInt64) (msg : Bytes) : Prop where
  fits : ¬ (checks = true ∧ Full w.wal h)
  adds : (msg ≠ [] ∧ (h ∈ w.wal.heightFs ∨ Opens w.wal h)) ∨
    (Opens w.wal h ∧ w.disk.logs.lookup h = none)

/-- **Otherwise saving changes no file**, whichever file operations fail. -/
theorem save_sameFiles (hadds : ¬ Adds checks w h msg) :
    SameFiles w.disk (Exec.result (save io checks h tag msg) w).2.disk := by
  rw [result_save]
  split_ifs with hfull hopens
  · exact .refl _
  · -- the file of the next height is there, and there is nothing to write
    have hmsg : msg = [] := not_not.1 fun hne => hadds ⟨hfull, .inl ⟨hne, .inr hopens⟩⟩
    have hfile : w.disk.logs.lookup h ≠ none := fun hf => hadds ⟨hfull, .inr ⟨hopens, hf⟩⟩
    refine Exec.result_of_wp (P := fun _ (w' : WalState) => SameFiles w.disk w'.disk) ?_
    unfold openAndSave
    refine Exec.wp_bind.2 (Exec.wp_zoom.2 ((Disk.openLog_untouched (.refl _) hfile).mono ?_
      fun _ _ hd => hd))
    intro _ d hd
    unfold saveRecord
    rw [hmsg]
    exact hd
  · unfold saveRecord
    by_cases hmsg : msg = []
    · rw [if_pos hmsg]
      exact .refl _
    · have hmem : h ∉ w.wal.heightFs := fun hmem => hadds ⟨hfull, .inl ⟨hmsg, .inl hmem⟩⟩
      rw [if_neg hmsg, Exec.result_bind_get, if_neg hmem]
      exact .refl _

theorem lookup_written (w : WalState) (h : UInt64) (r : UInt8 × Bytes) :
    (written w h r).disk.logs.lookup h =
      some ((w.disk.logs.lookup h).getD [] ++ encodeRecord r) :=
  AList.lookup_insert _

/-- A record that is written is seen in the file. -/
theorem not_sameFiles_written {d : Disk} (r : UInt8 × Bytes)
    (hb : (d.logs.lookup h).getD [] = (w.disk.logs.lookup h).getD []) :
    ¬ SameFiles d (written w h r).disk := by
  intro hsame
  have hlookup := (hsame.logs h).trans (lookup_written w h r)
  rw [hlookup, Option.getD_some] at hb
  have hlen := congrArg List.length hb
  rw [List.length_append, length_encodeRecord] at hlen
  omega

/-- **If no file operation fails, what is added is seen.** -/
theorem saved_sameFiles_iff (hfits : ¬ (checks = true ∧ Full w.wal h)) :
    SameFiles w.disk (saved w h (tag, msg)).disk ↔ ¬ Adds checks w h msg := by
  constructor
  · rintro hsame ⟨-, ⟨hmsg, hmem⟩ | ⟨hopens, hfile⟩⟩
    · unfold saved at hsame
      by_cases hopens : Opens w.wal h
      · rw [if_pos hopens, if_pos ⟨hmsg, mem_openHandle.2 (.inl rfl)⟩] at hsame
        refine not_sameFiles_written _ ?_ hsame
        change _ = ((w.disk.logs.orInsert h []).lookup h).getD []
        rw [HashMap.lookup_orInsert, if_pos rfl, Option.getD_some]
      · rw [if_neg hopens, if_pos ⟨hmsg, hmem.resolve_right hopens⟩] at hsame
        exact not_sameFiles_written _ rfl hsame
    · obtain ⟨b, hb⟩ : ∃ b, (saved w h (tag, msg)).disk.logs.lookup h = some b := by
        have hopened : ∃ b, (opened w h).disk.logs.lookup h = some b :=
          ⟨_, (HashMap.lookup_orInsert _ _ _ _).trans (if_pos rfl)⟩
        unfold saved
        rw [if_pos hopens]
        dsimp only
        split_ifs
        · exact ⟨_, lookup_written _ _ _⟩
        · exact hopened
      exact nomatch (hfile.symm.trans (hsame.logs h)).trans hb
  · intro hadds
    have hsame := @save_sameFiles (fun _ => .ok) w h tag msg checks hadds
    obtain ⟨n, hn⟩ := save_result (fun _ => rfl) checks h (tag, msg) w hfits
    rwa [hn] at hsame

/-! ### Moving to another height -/

/-- Moving to a height rewrites the index with another text, creates the file of the height, or
removes an old file. -/
def Shifts (w : WalState) (h : UInt64) : Prop :=
  (∃ b, w.disk.index = some b ∧ b ≠ decimal h) ∨ w.disk.logs.lookup h = none ∨
    ∃ k ∈ expired h (openHandle h w.wal.heightFs), w.disk.logs.lookup k ≠ none

/-- **Otherwise moving to a height changes no file**, whichever file operations fail. -/
theorem setHeight_sameFiles (hshifts : ¬ Shifts w h) :
    SameFiles w.disk (Exec.result (setHeight io h) w).2.disk := by
  obtain ⟨hindex, hfile, hexpired⟩ : (∀ b, w.disk.index = some b → b = decimal h) ∧
      w.disk.logs.lookup h ≠ none ∧
        ∀ k ∈ expired h (openHandle h w.wal.heightFs), w.disk.logs.lookup k = none := by
    simp only [Shifts, not_or, not_exists, not_and, not_not] at hshifts
    exact hshifts
  refine Exec.result_of_wp (P := fun _ (w' : WalState) => SameFiles w.disk w'.disk) ?_
  unfold setHeight
  refine Exec.wp_bind.2 ((Exec.wp_modify _).2 (Exec.wp_bind.2 (Exec.wp_zoom.2
    ((Disk.attempt_untouched (.refl _)).mono (fun _ d₁ h₁ => ?_) fun _ _ hd => hd))))
  refine Exec.wp_bind.2 (Exec.wp_zoom.2 ((Disk.setIndexLen_untouched h₁ fun b hb =>
    congrArg List.length (hindex b hb)).mono (fun _ d₂ h₂ => ?_) fun _ _ hd => hd))
  refine Exec.wp_bind.2 (Exec.wp_zoom.2 ((Disk.writeIndex_untouched h₂ hindex).mono
    (fun _ d₃ h₃ => ?_) fun _ _ hd => hd))
  refine Exec.wp_bind.2 (Exec.wp_zoom.2 ((Disk.attempt_untouched h₃).mono (fun _ d₄ h₄ => ?_)
    fun _ _ hd => hd))
  refine Exec.wp_bind.2 (Exec.wp_zoom.2 ((Disk.openLog_untouched h₄ hfile).mono
    (fun _ d₅ h₅ => ?_) fun _ _ hd => hd))
  refine Exec.wp_bind.2 ((Exec.wp_modify _).2 (Exec.wp_doIf.2 ⟨fun hlimit => ?_, fun _ => h₅⟩))
  refine Exec.wp_bind.2 (Exec.wp_get.2 (Exec.wp_bind.2 ((Exec.wp_forM
    (I := fun w' : WalState => SameFiles w.disk w'.disk) (fun k hk w' hw' => ?_) h₅).mono
      (fun _ _ hd => hd) fun _ _ hd => hd)))
  refine Exec.wp_zoom.2 (Disk.removeLog_untouched hw' (hexpired k ?_))
  unfold expired
  rw [if_pos hlimit]
  exact hk

/-- **If no file operation fails, a move is seen.** -/
theorem moved_sameFiles_iff : SameFiles w.disk (moved w h).disk ↔ ¬ Shifts w h := by
  constructor
  · rintro hsame (⟨b, hb, hne⟩ | hfile | ⟨k, hk, hfile⟩)
    · have hindex : (moved w h).disk.index = some (decimal h) := congrArg (Option.map _) hb
      exact hne (Option.some.inj ((hb.symm.trans hsame.index.symm).trans hindex))
    · have hlookup := (hsame.logs h).trans (lookup_moved (UInt64.le_refl h))
      rw [HashMap.lookup_orInsert, if_pos rfl, hfile] at hlookup
      exact nomatch hlookup
    · refine hfile ((hsame.logs k).trans ?_)
      exact (HashMap.lookup_foldl_erase _ _ k).trans (if_pos hk)
  · intro hshifts
    have hsame := @setHeight_sameFiles (fun _ => .ok) w h hshifts
    rwa [setHeight_result fun _ => rfl] at hsame

/-! ### Loading -/

theorem loadFiles_untouched {d : Disk} (cur : UInt64) (hs : List UInt64) (buf : Bytes)
    (out : List (UInt8 × Bytes)) (hd : SameFiles d w.disk) :
    wp (loadFiles io cur hs buf out) (fun _ w' => SameFiles d w'.disk)
      (fun _ w' => SameFiles d w'.disk) w := by
  induction hs generalizing buf out w with
  | nil => exact hd
  | cons h hs ih =>
    unfold loadFiles
    refine Exec.wp_ite.2 ⟨fun _ => ih buf out hd, fun _ => ?_⟩
    refine Exec.wp_bind.2 (Exec.wp_zoom.2 ((Disk.next_untouched hd).mono (fun r d₁ h₁ => ?_)
      fun _ _ hd => hd))
    cases r with
    | fail n => exact h₁
    | _ =>
      refine Exec.wp_bind.2 (Exec.wp_zoom.2 ((Disk.next_untouched h₁).mono (fun r d₂ h₂ => ?_)
        fun _ _ hd => hd))
      cases r with
      | fail n => exact h₂
      | _ => exact Exec.wp_bind.2 (Exec.wp_get.2 (Exec.wp_ite.2 ⟨fun _ => h₂, fun _ => ih _ _ h₂⟩))

/-- **Loading changes no file**, whichever file operations fail. -/
theorem load_sameFiles (io : ℕ → IoOutcome) (w : WalState) :
    SameFiles w.disk (Exec.result (load io) w).2.disk := by
  refine Exec.result_of_wp (P := fun _ (w' : WalState) => SameFiles w.disk w'.disk) ?_
  unfold load
  exact Exec.wp_bind.2 (Exec.wp_get.2 (Exec.wp_ite.2 ⟨fun _ => .refl _, fun _ =>
    loadFiles_untouched _ _ _ _ (.refl _)⟩))

/-! ### The same log on the same files -/

/-- The same log on the same files. -/
structure Alike (w w' : WalState) : Prop where
  wal : w'.wal = w.wal
  files : SameFiles w.disk w'.disk

namespace Alike

variable {w' : WalState}

theorem orInsert (hw : Alike w w') (h k : UInt64) :
    (w.disk.logs.orInsert h []).lookup k = (w'.disk.logs.orInsert h []).lookup k := by
  rw [HashMap.lookup_orInsert, HashMap.lookup_orInsert, hw.files.logs, hw.files.logs]

theorem opened (hw : Alike w w') (h : UInt64) : Alike (opened w h) (opened w' h) := by
  refine ⟨?_, hw.files.index, hw.orInsert h⟩
  unfold Wal.opened
  rw [hw.wal]

theorem written (hw : Alike w w') (h : UInt64) (r : UInt8 × Bytes) :
    Alike (written w h r) (written w' h r) := by
  refine ⟨hw.wal, hw.files.index, fun k => ?_⟩
  change (AList.insert h _ w.disk.logs).lookup k = (AList.insert h _ w'.disk.logs).lookup k
  by_cases hk : k = h
  · subst hk
    rw [AList.lookup_insert, AList.lookup_insert, hw.files.logs]
  · rw [AList.lookup_insert_ne hk, AList.lookup_insert_ne hk, hw.files.logs]

/-- **What is saved depends on the log and its files only.** -/
theorem saved (hw : Alike w w') (h : UInt64) (r : UInt8 × Bytes) :
    Alike (saved w h r) (saved w' h r) := by
  have key : ∀ {w w'}, Alike w w' →
      Alike (if r.2 ≠ [] ∧ h ∈ w.wal.heightFs then Wal.written w h r else w)
        (if r.2 ≠ [] ∧ h ∈ w'.wal.heightFs then Wal.written w' h r else w') := by
    intro w w' hw
    rw [hw.wal]
    split_ifs
    · exact hw.written h r
    · exact hw
  unfold Wal.saved
  rw [hw.wal]
  split_ifs with hopens
  · exact key (hw.opened h)
  · exact key hw

theorem moved (hw : Alike w w') (h : UInt64) : Alike (moved w h) (moved w' h) := by
  refine ⟨?_, ?_, fun k => ?_⟩
  · unfold Wal.moved
    rw [hw.wal]
  · exact congrArg (Option.map _) hw.files.index
  · refine (HashMap.lookup_foldl_erase _ _ k).trans (Eq.trans ?_
      (HashMap.lookup_foldl_erase _ _ k).symm)
    rw [hw.wal, hw.orInsert h k]

theorem symm (hw : Alike w w') : Alike w' w := ⟨hw.wal.symm, hw.files.symm⟩

/-- **Saving ends in the same way.** -/
theorem save (hio : ∀ n, io n = .ok) (hw : Alike w w') (checks : Bool) (h : UInt64)
    (r : UInt8 × Bytes) :
    (Exec.result (Wal.save io checks h r.1 r.2) w).1 =
        (Exec.result (Wal.save io checks h r.1 r.2) w').1 ∧
      Alike (Exec.result (Wal.save io checks h r.1 r.2) w).2
        (Exec.result (Wal.save io checks h r.1 r.2) w').2 := by
  by_cases hfull : checks = true ∧ Full w.wal h
  · have hfull' : checks = true ∧ Full w'.wal h := by rwa [hw.wal]
    rw [result_save, result_save, if_pos hfull, if_pos hfull']
    exact ⟨rfl, hw⟩
  · have hfull' : ¬ (checks = true ∧ Full w'.wal h) := by rwa [hw.wal]
    have haccepts : Accepts w' h r ↔ Accepts w h r := by
      unfold Accepts
      rw [hw.wal]
    rw [save_returns hio _ _ _ _ hfull, save_returns hio _ _ _ _ hfull']
    simp only [haccepts, true_and]
    exact hw.saved h r

/-- **Moving to a height ends in the same way.** -/
theorem setHeight (hio : ∀ n, io n = .ok) (hw : Alike w w') (h : UInt64) :
    (Exec.result (Wal.setHeight io h) w).1 = (Exec.result (Wal.setHeight io h) w').1 ∧
      Alike (Exec.result (Wal.setHeight io h) w).2 (Exec.result (Wal.setHeight io h) w').2 := by
  rw [setHeight_result hio, setHeight_result hio]
  exact ⟨rfl, hw.moved h⟩

end Alike

theorem loaded_congr {d d' : Disk} (hd : SameFiles d d') (h : UInt64) :
    loaded d' h = loaded d h := by
  unfold loaded
  rw [hd.logs h]

end Wal

end ConsensusBft

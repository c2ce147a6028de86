import ConsensusBft.Wal.Basic
import ConsensusBft.Logic.Sim

/-!
# When saving succeeds

* `Wal.Full w height` : the log is at the last height and the file of `height` is not open; this
  is where saving overflows.
* `Wal.saveOps w height msg` : the number of file operations that saving makes.
* `Wal.save_ops` : it makes as many, if it returns.
* `Wal.save_panics_iff`, `Wal.save_returns_iff` : **saving panics exactly where it overflows, and
  returns exactly where it does not and none of its file operations fails.**
-/

namespace ConsensusBft

open Exec (Panics wp)

/-- Whether a file operation fails. -/
def IoOutcome.failed : IoOutcome → Bool
  | .fail _ => true
  | _ => false

namespace Wal

variable {io : ℕ → IoOutcome} {α β : Type} {n : ℕ}

/-! ### Computations of a fixed number of operations -/

/-- One file operation, which returns if it does not fail. -/
def OneOp (io : ℕ → IoOutcome) (m : Exec IoError Disk α) : Prop :=
  ∀ d, wp m (fun _ d' => (io d.ops).failed = false ∧ d'.ops = d.ops + 1)
    (fun e _ => (io d.ops).failed = true ∧ e ≠ .panicked) d

/-- The next `n` file operations do not fail. -/
def Works (io : ℕ → IoOutcome) (ops n : ℕ) : Prop := ∀ k < n, (io (ops + k)).failed = false

instance (ops : ℕ) : Decidable (Works io ops n) := inferInstanceAs (Decidable (∀ k < n, _))

theorem works_succ {ops : ℕ} :
    Works io ops (n + 1) ↔ (io ops).failed = false ∧ Works io (ops + 1) n := by
  unfold Works
  constructor
  · intro h
    refine ⟨h 0 (Nat.succ_pos n), fun k hk => ?_⟩
    rw [Nat.add_assoc, Nat.add_comm 1]
    exact h (k + 1) (by omega)
  · rintro ⟨h₀, h⟩ k hk
    cases k with
    | zero => exact h₀
    | succ k =>
      rw [Nat.add_comm k, ← Nat.add_assoc]
      exact h k (by omega)

/-- The computation returns if and only if its `n` file operations do not fail, and it never
panics. -/
def Takes (io : ℕ → IoOutcome) (n : ℕ) (m : Exec IoError WalState α) : Prop :=
  ∀ w, (Returns m w ↔ Works io w.disk.ops n) ∧ ¬ Panics m w

theorem Takes.pure {a : α} : Takes io 0 (pure a) := by
  intro w
  refine ⟨iff_of_true trivial fun k hk => ?_, fun h => Exec.panics_pure.1 h⟩
  omega

/-- After one file operation, the rest has `n` of them to make. -/
theorem OneOp.bind {m : Exec IoError Disk α} {f : α → Exec IoError WalState β} {w : WalState}
    (hm : OneOp io m)
    (hf : ∀ a d, d.ops = w.disk.ops + 1 →
      (Returns (f a) { w with disk := d } ↔ Works io d.ops n) ∧
        ¬ Panics (f a) { w with disk := d }) :
    (Returns (onDisk m >>= f) w ↔ Works io w.disk.ops (n + 1)) ∧
      ¬ Panics (onDisk m >>= f) w := by
  have hspec := hm w.disk
  rw [works_succ]
  unfold Returns Panics wp Wal.onDisk
  rw [Exec.result_bind, Exec.result_zoom]
  cases hr : Exec.result m w.disk with
  | mk r d =>
    cases r with
    | ok a =>
      obtain ⟨hok, hops⟩ := hspec.ok hr
      obtain ⟨hreturns, hpanics⟩ := hf a d hops
      refine ⟨?_, hpanics⟩
      rw [and_iff_right hok, ← hops]
      exact hreturns
    | error e =>
      obtain ⟨hfail, hne⟩ := hspec.error hr
      simp [hfail, hne]

theorem Takes.onDisk {m : Exec IoError Disk α} {f : α → Exec IoError WalState β}
    (hm : OneOp io m) (hf : ∀ a, Takes io n (f a)) : Takes io (n + 1) (onDisk m >>= f) :=
  fun w => hm.bind fun a d _ => hf a { w with disk := d }

theorem oneOp_attempt : OneOp io (Disk.attempt io) := by
  intro d
  unfold Disk.attempt Disk.next
  simp only [bind_assoc, Exec.wp_bind, Exec.wp_get, Exec.wp_modify, pure_bind]
  cases h : io d.ops <;> simp [IoOutcome.failed]

theorem oneOp_openLog (io : ℕ → IoOutcome) (height : UInt64) :
    OneOp io (Disk.openLog io height) := by
  intro d
  unfold Disk.openLog
  exact Exec.wp_bind.2 ((oneOp_attempt d).mono (fun _ _ h => h) fun _ _ h => h)

theorem oneOp_writeAll (height : UInt64) (b : Bytes) : OneOp io (Disk.writeAll io height b) := by
  intro d
  unfold Disk.writeAll Disk.next
  simp only [bind_assoc, Exec.wp_bind, Exec.wp_get, Exec.wp_modify, pure_bind]
  cases h : io d.ops <;> simp [IoOutcome.failed, Disk.append, Exec.wp_bind]

theorem oneOp_write (height : UInt64) (b : Bytes) : OneOp io (Disk.write io height b) := by
  intro d
  unfold Disk.write Disk.next
  simp only [bind_assoc, Exec.wp_bind, Exec.wp_get, Exec.wp_modify, pure_bind]
  cases h : io d.ops with
  | ok => exact ⟨rfl, rfl⟩
  | short n => exact ⟨rfl, rfl⟩
  | fail n => exact ⟨rfl, by simp⟩

/-! ### Saving -/

/-- The log is at the last height, and the file of another one is needed. -/
def Full (w : Wal) (height : UInt64) : Prop := height ∉ w.heightFs ∧ w.currentHeight + 1 = 0

/-- Saving opens the file of the next height. -/
def Opens (w : Wal) (height : UInt64) : Prop :=
  height ∉ w.heightFs ∧ height = w.currentHeight + 1

instance (w : Wal) (height : UInt64) : Decidable (Full w height) :=
  inferInstanceAs (Decidable (_ ∧ _))

instance (w : Wal) (height : UInt64) : Decidable (Opens w height) :=
  inferInstanceAs (Decidable (_ ∧ _))

/-- The number of file operations that saving makes. -/
def saveOps (w : Wal) (height : UInt64) (msg : Bytes) : ℕ :=
  (if Opens w height then 1 else 0) +
    if msg ≠ [] ∧ (height ∈ w.heightFs ∨ Opens w height) then 5 else 0

theorem mem_openHandle {h h' : UInt64} {heightFs : List UInt64} :
    h' ∈ openHandle h heightFs ↔ h' = h ∨ h' ∈ heightFs := by
  unfold openHandle
  split_ifs with hmem
  · constructor
    · exact .inr
    · rintro (rfl | h)
      · exact hmem
      · exact h
  · exact List.mem_orderedInsert _

/-- Write a record to an open file. -/
def writeRecord (io : ℕ → IoOutcome) (height : UInt64) (mtype : UInt8) (msg : Bytes) :
    Exec IoError WalState ℕ := do
  onDisk (Disk.attempt io)
  onDisk (Disk.writeAll io height (toLeBytes (UInt32.ofNat msg.length)))
  onDisk (Disk.writeAll io height [mtype])
  let hlen ← onDisk (Disk.write io height msg)
  onDisk (Disk.attempt io)
  return hlen

/-- What `Wal::save` does once the file of the next height is open. -/
def saveRecord (io : ℕ → IoOutcome) (height : UInt64) (mtype : UInt8) (msg : Bytes) :
    Exec IoError WalState ℕ :=
  if msg = [] then return 0
  else do
    let s ← get
    if height ∈ s.wal.heightFs then writeRecord io height mtype msg
    else return 0

theorem save_eq (checks : Bool) (height : UInt64) (mtype : UInt8) (msg : Bytes) :
    save io checks height mtype msg = openNext io checks height >>= fun far =>
      if far then return 0 else saveRecord io height mtype msg := rfl

theorem takes_writeRecord (io : ℕ → IoOutcome) (height : UInt64) (mtype : UInt8) (msg : Bytes) :
    Takes io 5 (writeRecord io height mtype msg) :=
  .onDisk oneOp_attempt fun _ => .onDisk (oneOp_writeAll _ _) fun _ =>
    .onDisk (oneOp_writeAll _ _) fun _ => .onDisk (oneOp_write _ _) fun _ =>
    .onDisk oneOp_attempt fun _ => .pure

theorem saveRecord_spec (io : ℕ → IoOutcome) (height : UInt64) (mtype : UInt8) (msg : Bytes)
    (w : WalState) :
    (Returns (saveRecord io height mtype msg) w ↔
      Works io w.disk.ops (if msg ≠ [] ∧ height ∈ w.wal.heightFs then 5 else 0)) ∧
    ¬ Panics (saveRecord io height mtype msg) w := by
  have none : Takes io 0 (pure 0 : Exec IoError WalState ℕ) := .pure
  unfold saveRecord
  by_cases hmsg : msg = []
  · simpa [hmsg] using none w
  · rw [if_neg hmsg]
    by_cases hmem : height ∈ w.wal.heightFs
    · have htakes := takes_writeRecord io height mtype msg w
      simpa [hmsg, hmem, Returns, Exec.wp_bind, Exec.panics_bind_get] using htakes
    · simpa [hmsg, hmem, Returns, Exec.wp_bind, Exec.panics_bind_get] using none w

theorem openNext_eq (io : ℕ → IoOutcome) (checks : Bool) (height : UInt64) (w : WalState)
    (hmem : height ∉ w.wal.heightFs) : Exec.result (openNext io checks height) w =
      if checks ∧ w.wal.currentHeight + 1 = 0 then (.error .panicked, w)
      else if w.wal.currentHeight + 1 < height then (.ok true, w)
      else if height = w.wal.currentHeight + 1 then Exec.result (do
        onDisk (Disk.openLog io height)
        modify fun s : WalState => { s with wal.heightFs := openHandle height s.wal.heightFs }
        return false) w
      else (.ok false, w) := by
  unfold openNext
  rw [Exec.result_bind_get, if_neg hmem]
  by_cases hfull : checks = true ∧ w.wal.currentHeight + 1 = 0
  · rw [if_pos hfull]
    exact Exec.result_bind_lift_error (by rw [add64_one, if_pos hfull]) _ _
  · rw [if_neg hfull, Exec.result_bind_lift (by rw [add64_one, if_neg hfull])]
    by_cases hahead : w.wal.currentHeight + 1 < height
    · rw [if_pos hahead, if_pos hahead]
      rfl
    · rw [if_neg hahead, if_neg hahead]
      by_cases hnext : height = w.wal.currentHeight + 1
      · rw [if_pos hnext, Exec.result_bind, Exec.result_doIf_of hnext, ← Exec.result_bind]
        simp only [bind_assoc]
      · rw [if_neg hnext, Exec.result_bind_ok (Exec.result_doIf_of_not hnext _ _)]
        rfl

/-- Open the file of a height and write a record to it. -/
def openAndSave (io : ℕ → IoOutcome) (height : UInt64) (mtype : UInt8) (msg : Bytes) :
    Exec IoError WalState ℕ := do
  onDisk (Disk.openLog io height)
  modify fun s : WalState => { s with wal.heightFs := openHandle height s.wal.heightFs }
  saveRecord io height mtype msg

theorem saveRecord_of_not_mem {height : UInt64} {w : WalState} (hmem : height ∉ w.wal.heightFs)
    (io : ℕ → IoOutcome) (mtype : UInt8) (msg : Bytes) :
    Exec.result (saveRecord io height mtype msg) w = (.ok 0, w) := by
  unfold saveRecord
  by_cases hmsg : msg = []
  · rw [if_pos hmsg]
    rfl
  · rw [if_neg hmsg, Exec.result_bind_get, if_neg hmem]
    rfl

/-- **What saving does**: unless it overflows, it opens the file of the next height if that is the
one it needs, and it writes the record if the file is open. -/
theorem result_save (io : ℕ → IoOutcome) (checks : Bool) (height : UInt64) (mtype : UInt8)
    (msg : Bytes) (w : WalState) : Exec.result (save io checks height mtype msg) w =
      if checks = true ∧ Full w.wal height then (.error .panicked, w)
      else if Opens w.wal height then Exec.result (openAndSave io height mtype msg) w
      else Exec.result (saveRecord io height mtype msg) w := by
  rw [save_eq]
  by_cases hmem : height ∈ w.wal.heightFs
  · -- the file is open
    have hopen : Exec.result (openNext io checks height) w = (.ok false, w) := by
      unfold openNext
      rw [Exec.result_bind_get, if_pos hmem]
      rfl
    have hfull : ¬ (checks = true ∧ Full w.wal height) := fun h => h.2.1 hmem
    have hopens : ¬ Opens w.wal height := fun h => h.1 hmem
    rw [Exec.result_bind_ok hopen, if_neg hfull, if_neg hopens]
    rfl
  have hopen := openNext_eq io checks height w hmem
  by_cases hfull : checks = true ∧ w.wal.currentHeight + 1 = 0
  · -- saving overflows
    rw [if_pos hfull] at hopen
    rw [Exec.result_bind_error hopen, if_pos ⟨hfull.1, hmem, hfull.2⟩]
  rw [if_neg hfull] at hopen
  rw [if_neg fun h => hfull ⟨h.1, h.2.2⟩]
  by_cases hahead : w.wal.currentHeight + 1 < height
  · -- the record is dropped
    have hopens : ¬ Opens w.wal height := by
      rintro ⟨-, rfl⟩
      exact UInt64.lt_irrefl _ hahead
    rw [if_pos hahead] at hopen
    rw [Exec.result_bind_ok hopen, if_neg hopens, saveRecord_of_not_mem hmem]
    rfl
  rw [if_neg hahead] at hopen
  by_cases hnext : height = w.wal.currentHeight + 1
  · -- the file is opened first
    rw [if_pos hnext] at hopen
    have hopens : Opens w.wal height := ⟨hmem, hnext⟩
    rw [if_pos hopens, Exec.result_bind, hopen, ← Exec.result_bind]
    simp only [bind_assoc, pure_bind]
    rfl
  · have hopens : ¬ Opens w.wal height := fun h => hnext h.2
    rw [if_neg hnext] at hopen
    rw [Exec.result_bind_ok hopen, if_neg hopens]
    rfl

/-- **Saving panics exactly where the log is full in a build that checks, and otherwise returns
exactly if none of its file operations fails.** -/
theorem save_spec (io : ℕ → IoOutcome) (checks : Bool) (height : UInt64) (mtype : UInt8)
    (msg : Bytes) (w : WalState) :
    (Panics (save io checks height mtype msg) w ↔ checks = true ∧ Full w.wal height) ∧
      (Returns (save io checks height mtype msg) w ↔ ¬ (checks = true ∧ Full w.wal height) ∧
        Works io w.disk.ops (saveOps w.wal height msg)) := by
  have hsave := result_save io checks height mtype msg w
  by_cases hfull : checks = true ∧ Full w.wal height
  · rw [if_pos hfull] at hsave
    obtain ⟨rfl, hfull⟩ := hfull
    simp [Returns, Exec.wp, Panics, hsave, hfull]
  rw [if_neg hfull] at hsave
  have hno : (checks = true ∧ Full w.wal height) ↔ False := iff_false_intro hfull
  rw [and_iff_right hfull, hno, iff_false]
  -- the same computation, so the same result
  have transfer : ∀ {m : Exec IoError WalState ℕ},
      Exec.result (save io checks height mtype msg) w = Exec.result m w →
      (Returns m w ↔ Works io w.disk.ops (saveOps w.wal height msg)) ∧ ¬ Panics m w →
      ¬ Panics (save io checks height mtype msg) w ∧
        (Returns (save io checks height mtype msg) w ↔
          Works io w.disk.ops (saveOps w.wal height msg)) := by
    intro m hm h
    unfold Returns Panics wp at h ⊢
    rw [hm]
    exact h.symm
  by_cases hopens : Opens w.wal height
  · rw [if_pos hopens] at hsave
    refine transfer hsave ?_
    have hops : saveOps w.wal height msg = (if msg ≠ [] then 5 else 0) + 1 := by
      simp [saveOps, hopens, Nat.add_comm]
    rw [hops]
    refine (oneOp_openLog io height).bind fun _ d _ => ?_
    have hspec := saveRecord_spec io height mtype msg
      ⟨{ w.wal with heightFs := openHandle height w.wal.heightFs }, d⟩
    have hopened : height ∈ openHandle height w.wal.heightFs := mem_openHandle.2 (.inl rfl)
    simpa [hopened, Returns, Exec.wp_bind, Exec.panics_bind_modify] using hspec
  · rw [if_neg hopens] at hsave
    refine transfer hsave ?_
    have hspec := saveRecord_spec io height mtype msg w
    simpa [saveOps, hopens] using hspec

/-! ### How many operations saving makes -/

/-- The computation makes `n` file operations when it returns. -/
def Counts (n : ℕ) (m : Exec IoError WalState α) (w : WalState) : Prop :=
  wp m (fun _ w' => w'.disk.ops = w.disk.ops + n) (fun _ _ => True) w

theorem Counts.onDisk {m : Exec IoError Disk α} {f : α → Exec IoError WalState β} {w : WalState}
    (hm : OneOp io m) (hf : ∀ a d, Counts n (f a) { w with disk := d }) :
    Counts (n + 1) (onDisk m >>= f) w := by
  refine Exec.wp_bind.2 (Exec.wp_zoom.2 ((hm w.disk).mono ?_ fun _ _ _ => trivial))
  rintro a d ⟨-, hops⟩
  refine (hf a d).mono (fun _ w' hw' => ?_) fun _ _ h => h
  simp only at hw'
  omega

theorem counts_writeRecord (height : UInt64) (mtype : UInt8) (msg : Bytes) (w : WalState) :
    Counts 5 (writeRecord io height mtype msg) w :=
  .onDisk oneOp_attempt fun _ _ => .onDisk (oneOp_writeAll _ _) fun _ _ =>
    .onDisk (oneOp_writeAll _ _) fun _ _ => .onDisk (oneOp_write _ _) fun _ _ =>
    .onDisk oneOp_attempt fun _ _ => Exec.wp_pure _ |>.2 rfl

theorem counts_saveRecord (io : ℕ → IoOutcome) (height : UInt64) (mtype : UInt8) (msg : Bytes)
    (w : WalState) :
    Counts (if msg ≠ [] ∧ height ∈ w.wal.heightFs then 5 else 0)
      (saveRecord io height mtype msg) w := by
  unfold saveRecord
  by_cases hmsg : msg = []
  · rw [if_pos hmsg, if_neg fun h => h.1 hmsg]
    exact (Exec.wp_pure _).2 rfl
  · rw [if_neg hmsg]
    refine Exec.wp_bind.2 (Exec.wp_get.2 ?_)
    by_cases hmem : height ∈ w.wal.heightFs
    · rw [if_pos hmem, if_pos ⟨hmsg, hmem⟩]
      exact counts_writeRecord height mtype msg w
    · rw [if_neg hmem, if_neg fun h => hmem h.2]
      exact (Exec.wp_pure _).2 rfl

/-- **Saving makes `saveOps` operations**, if it returns. -/
theorem save_ops (io : ℕ → IoOutcome) (checks : Bool) (height : UInt64) (mtype : UInt8)
    (msg : Bytes) (w : WalState) :
    Counts (saveOps w.wal height msg) (save io checks height mtype msg) w := by
  have hsave := result_save io checks height mtype msg w
  unfold Counts
  by_cases hfull : checks = true ∧ Full w.wal height
  · rw [if_pos hfull] at hsave
    exact Exec.wp_of_result hsave nofun fun _ _ => trivial
  rw [if_neg hfull] at hsave
  by_cases hopens : Opens w.wal height
  · rw [if_pos hopens] at hsave
    have hops : saveOps w.wal height msg = (if msg ≠ [] then 5 else 0) + 1 := by
      simp [saveOps, hopens, Nat.add_comm]
    rw [hops]
    refine (Exec.wp_congr hsave).2 (Counts.onDisk (oneOp_openLog io height) fun _ d => ?_)
    have hcount := counts_saveRecord io height mtype msg
      ⟨{ w.wal with heightFs := openHandle height w.wal.heightFs }, d⟩
    have hopened : height ∈ openHandle height w.wal.heightFs := mem_openHandle.2 (.inl rfl)
    simp only [hopened, and_true] at hcount
    exact Exec.wp_bind.2 ((Exec.wp_modify _).2 hcount)
  · rw [if_neg hopens] at hsave
    have hcount := counts_saveRecord io height mtype msg w
    refine (Exec.wp_congr hsave).2 ?_
    simpa [Counts, saveOps, hopens] using hcount

end Wal

end ConsensusBft

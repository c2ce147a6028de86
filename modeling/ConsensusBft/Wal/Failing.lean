import ConsensusBft.Wal.Save

/-!
# Moving to another height when file operations fail

* `Wal.Moves io ops` : none of the operations that `Wal::set_height` checks fails; a failure of
  resizing the index or of removing a file is ignored.
* `Wal.indexLeft io ops b new` : what is left of the index `b` when it is rewritten with `new`.
* `Wal.setHeight_wp` : **`Wal::set_height` never panics, succeeds exactly if `Moves` holds, and
  leaves `indexLeft` in either case.**
-/

namespace ConsensusBft

open Exec (wp)

variable {io : ℕ → IoOutcome}

namespace Disk

theorem attempt_wp (d : Disk) : wp (attempt io)
    (fun _ d' => (io d.ops).failed = false ∧ d' = { d with ops := d.ops + 1 })
    (fun e d' => e = .err .os ∧ (io d.ops).failed = true ∧ d' = { d with ops := d.ops + 1 }) d := by
  unfold attempt next
  simp only [bind_assoc, Exec.wp_bind, Exec.wp_get, Exec.wp_modify, pure_bind]
  cases h : io d.ops with
  | ok => exact ⟨rfl, rfl⟩
  | short n => exact ⟨rfl, rfl⟩
  | fail n => exact ⟨rfl, rfl, rfl⟩

theorem setIndexLen_wp (n : ℕ) (d : Disk) : wp (setIndexLen io n)
    (fun _ d' => d'.ops = d.ops + 1 ∧
      d'.index = d.index.map fun b => if (io d.ops).failed then b else resize b n)
    (fun _ _ => False) d := by
  unfold setIndexLen next
  simp only [bind_assoc, Exec.wp_bind, Exec.wp_get, Exec.wp_modify, pure_bind]
  cases h : io d.ops with
  | ok => exact ⟨rfl, rfl⟩
  | short n => exact ⟨rfl, rfl⟩
  | fail n => exact ⟨rfl, Option.map_id'.symm⟩

theorem writeIndex_wp (b : Bytes) (d : Disk) : wp (writeIndex io b)
    (fun _ d' => (io d.ops).failed = false ∧ d'.ops = d.ops + 1 ∧
      d'.index = d.index.map (overwrite · b))
    (fun e d' => e = .err .os ∧ ∃ n, io d.ops = .fail n ∧
      d'.index = d.index.map (overwrite · (b.take n))) d := by
  unfold writeIndex next
  simp only [bind_assoc, Exec.wp_bind, Exec.wp_get, Exec.wp_modify, pure_bind]
  cases h : io d.ops with
  | ok => exact ⟨rfl, rfl, rfl⟩
  | short n => exact ⟨rfl, rfl, rfl⟩
  | fail n => exact ⟨rfl, n, rfl, rfl⟩

theorem openLog_wp (h : UInt64) (d : Disk) : wp (openLog io h)
    (fun _ d' => (io d.ops).failed = false ∧ d'.index = d.index)
    (fun e d' => e = .err .os ∧ (io d.ops).failed = true ∧ d'.index = d.index) d := by
  unfold openLog
  refine Exec.wp_bind.2 ((attempt_wp d).mono ?_ ?_)
  · rintro _ _ ⟨hok, rfl⟩
    exact ⟨hok, rfl⟩
  · rintro _ _ ⟨he, hfail, rfl⟩
    exact ⟨he, hfail, rfl⟩

theorem removeLog_wp (h : UInt64) (d : Disk) : wp (removeLog io h)
    (fun _ d' => d'.index = d.index) (fun _ _ => False) d := by
  unfold removeLog next
  simp only [bind_assoc, Exec.wp_bind, Exec.wp_get, Exec.wp_modify, pure_bind]
  cases h : io d.ops <;> rfl

end Disk

namespace Wal

/-- None of the operations that `Wal::set_height` checks fails: seeking, writing and syncing the
index, and opening the file. -/
def Moves (io : ℕ → IoOutcome) (ops : ℕ) : Prop :=
  (io ops).failed = false ∧ (io (ops + 2)).failed = false ∧ (io (ops + 3)).failed = false ∧
    (io (ops + 4)).failed = false

instance (ops : ℕ) : Decidable (Moves io ops) := inferInstanceAs (Decidable (_ ∧ _))

/-- The index `b` after its length was set to that of `new`. -/
def resized (io : ℕ → IoOutcome) (ops : ℕ) (b new : Bytes) : Bytes :=
  if (io (ops + 1)).failed then b else Disk.resize b new.length

/-- What is left of the index `b` when it is rewritten with `new`. -/
def indexLeft (io : ℕ → IoOutcome) (ops : ℕ) (b new : Bytes) : Bytes :=
  if (io ops).failed then b
  else match io (ops + 2) with
    | .fail n => Disk.overwrite (resized io ops b new) (new.take n)
    | _ => Disk.overwrite (resized io ops b new) new

theorem indexLeft_of_fail {ops n : ℕ} {b new : Bytes} (hseek : (io ops).failed = false)
    (hwrite : io (ops + 2) = .fail n) :
    indexLeft io ops b new = Disk.overwrite (resized io ops b new) (new.take n) := by
  unfold indexLeft
  rw [hseek, if_neg Bool.false_ne_true, hwrite]

theorem indexLeft_of_not_failed {ops : ℕ} {b new : Bytes} (hseek : (io ops).failed = false)
    (hwrite : (io (ops + 2)).failed = false) :
    indexLeft io ops b new = Disk.overwrite (resized io ops b new) new := by
  unfold indexLeft
  rw [hseek, if_neg Bool.false_ne_true]
  cases hio : io (ops + 2) with
  | ok => rfl
  | short n => rfl
  | fail n => rw [hio] at hwrite; exact Bool.noConfusion hwrite

/-- Removing files leaves the index, and cannot fail. -/
theorem removeLogs_wp (l : List UInt64) (w : WalState) :
    wp (l.forM fun h => onDisk (Disk.removeLog io h)) (fun _ w' => w'.disk.index = w.disk.index)
      (fun _ _ => False) w := by
  refine Exec.wp_forM (I := fun w' : WalState => w'.disk.index = w.disk.index) ?_ rfl
  intro k _ w' hw'
  refine Exec.wp_zoom.2 ((Disk.removeLog_wp k w'.disk).mono ?_ fun _ _ => False.elim)
  intro _ _ hd
  exact hd.trans hw'

/-- **What moving to a height does to the index**, and when it succeeds. -/
theorem setHeight_wp (io : ℕ → IoOutcome) (h : UInt64) (w : WalState) : wp (setHeight io h)
    (fun _ w' => Moves io w.disk.ops ∧
      w'.disk.index = w.disk.index.map (indexLeft io w.disk.ops · (decimal h)))
    (fun e w' => e = .err .os ∧ ¬ Moves io w.disk.ops ∧
      w'.disk.index = w.disk.index.map (indexLeft io w.disk.ops · (decimal h))) w := by
  unfold setHeight
  refine Exec.wp_bind.2 ((Exec.wp_modify _).2 (Exec.wp_bind.2 (Exec.wp_zoom.2 ?_)))
  refine (Disk.attempt_wp w.disk).mono ?_ ?_
  swap
  · -- seeking fails
    rintro e d ⟨rfl, hseek, rfl⟩
    refine ⟨rfl, fun hmoves => ?_, ?_⟩
    · exact Bool.noConfusion (hmoves.1.symm.trans hseek)
    · simp only [indexLeft, hseek, if_true, Option.map_id']
  rintro _ d ⟨hseek, rfl⟩
  refine Exec.wp_bind.2 (Exec.wp_zoom.2 ((Disk.setIndexLen_wp _ _).mono ?_ fun _ _ => False.elim))
  rintro _ d₁ ⟨hops₁, hindex₁⟩
  simp only at hops₁ hindex₁
  refine Exec.wp_bind.2 (Exec.wp_zoom.2 ((Disk.writeIndex_wp _ d₁).mono ?_ ?_))
  swap
  · -- writing fails
    rintro e d₂ ⟨rfl, n, hwrite, hindex₂⟩
    rw [hops₁] at hwrite
    refine ⟨rfl, fun hmoves => ?_, ?_⟩
    · have hfail : (io (w.disk.ops + 2)).failed = true := by rw [hwrite]; rfl
      exact Bool.noConfusion (hmoves.2.1.symm.trans hfail)
    · rw [hindex₂, hindex₁, Option.map_map]
      exact congrArg (Option.map · w.disk.index)
        (funext fun b => (indexLeft_of_fail hseek hwrite).symm)
  rintro _ d₂ ⟨hwrite, hops₂, hindex₂⟩
  rw [hops₁] at hwrite hops₂
  have hindex : d₂.index = w.disk.index.map (indexLeft io w.disk.ops · (decimal h)) := by
    rw [hindex₂, hindex₁, Option.map_map]
    exact congrArg (Option.map · w.disk.index)
      (funext fun b => (indexLeft_of_not_failed hseek hwrite).symm)
  refine Exec.wp_bind.2 (Exec.wp_zoom.2 ((Disk.attempt_wp d₂).mono ?_ ?_))
  swap
  · -- syncing fails
    rintro e d₃ ⟨rfl, hsync, rfl⟩
    rw [hops₂] at hsync
    exact ⟨rfl, fun hmoves => Bool.noConfusion (hmoves.2.2.1.symm.trans hsync), hindex⟩
  rintro _ d₃ ⟨hsync, rfl⟩
  rw [hops₂] at hsync
  refine Exec.wp_bind.2 (Exec.wp_zoom.2 ((Disk.openLog_wp h _).mono ?_ ?_))
  swap
  · -- the file cannot be opened
    rintro e d₄ ⟨rfl, hopen, hindex₄⟩
    simp only [hops₂] at hopen
    exact ⟨rfl, fun hmoves => Bool.noConfusion (hmoves.2.2.2.symm.trans hopen),
      hindex₄.trans hindex⟩
  rintro _ d₄ ⟨hopen, hindex₄⟩
  simp only [hops₂] at hopen
  have hmoves : Moves io w.disk.ops := ⟨hseek, hwrite, hsync, hopen⟩
  have hleft : d₄.index = w.disk.index.map (indexLeft io w.disk.ops · (decimal h)) :=
    hindex₄.trans hindex
  refine Exec.wp_bind.2 ((Exec.wp_modify _).2 (Exec.wp_doIf.2
    ⟨fun _ => ?_, fun _ => ⟨hmoves, hleft⟩⟩))
  refine Exec.wp_bind.2 (Exec.wp_get.2 (Exec.wp_bind.2 ?_))
  refine (removeLogs_wp _ _).mono (fun _ s hs => ?_) fun _ _ => False.elim
  exact (Exec.wp_modify _).2 ⟨hmoves, hs.trans hleft⟩

/-- **Moving to a height succeeds exactly if the operations it checks do**, and it never panics. -/
theorem setHeight_returns_iff (io : ℕ → IoOutcome) (h : UInt64) (w : WalState) :
    (Returns (setHeight io h) w ↔ Moves io w.disk.ops) ∧ ¬ Exec.Panics (setHeight io h) w := by
  have hspec := setHeight_wp io h w
  unfold Returns Exec.Panics
  cases hr : Exec.result (setHeight io h) w with
  | mk r w' =>
    cases r with
    | ok u =>
      obtain ⟨hmoves, -⟩ := hspec.ok hr
      simp [Exec.wp, hr, hmoves]
    | error e =>
      obtain ⟨rfl, hmoves, -⟩ := hspec.error hr
      simp [Exec.wp, hr, hmoves]

end Wal

end ConsensusBft

import ConsensusBft.Logic.Sim

/-!
# Computations that never panic

* `NoPanic m` : started in any state, `m` returns or fails with an error.
* `NoPanic.bind`, `NoPanic.ifOk`, `NoPanic.forM` : so does what is made of such computations.
* `survive_eq_none` : a computation that does not panic leaves a state.
-/

namespace ConsensusBft

/-- Going through a list panics only where one of its elements does. -/
theorem Outcome.foldlM_ne_panicked {ε α β : Type} {f : α → β → Outcome ε α} {l : List β} {a : α}
    (hf : ∀ a b, f a b ≠ .error .panicked) : l.foldlM f a ≠ .error .panicked := by
  induction l generalizing a with
  | nil => exact nofun
  | cons b l ih =>
    rw [List.foldlM_cons]
    intro h
    rcases Outcome.bind_eq_panicked.1 h with h | ⟨a', -, h⟩
    · exact hf a b h
    · exact ih h

namespace Exec

variable {ε σ α β : Type} {m : Exec ε σ α} {s : σ}

theorem mapErr_eq_panicked {ε' : Type} {f : ε → ε'} {x : Outcome ε α} :
    mapErr f x = .error .panicked ↔ x = .error .panicked := by
  cases x with
  | ok a => simp [mapErr]
  | error e => cases e <;> simp [mapErr]

/-- A computation leaves no state exactly if it panics. -/
theorem survive_eq_none : survive m s = none ↔ Panics m s := by
  unfold survive Panics
  cases result m s with
  | mk r s' =>
    cases r with
    | ok a => simp
    | error e => cases e <;> simp

/-- Started in any state, `m` returns or fails with an error. -/
structure NoPanic (m : Exec ε σ α) : Prop where
  not_panics : ∀ s, ¬ Panics m s

namespace NoPanic

theorem pure (a : α) : NoPanic (pure a : Exec ε σ α) := ⟨fun _ h => panics_pure.1 h⟩

theorem throw (e : ε) : NoPanic (throw (.err e) : Exec ε σ α) := ⟨fun _ h => panics_throw.1 h⟩

theorem get : NoPanic (get : Exec ε σ σ) := ⟨fun _ h => nomatch h⟩

theorem modify (f : σ → σ) : NoPanic (modify f : Exec ε σ PUnit) := ⟨fun _ h => nomatch h⟩

theorem lift {x : Outcome ε α} (h : x ≠ .error .panicked) :
    NoPanic (lift x : Exec ε σ α) := ⟨fun _ hp => h hp⟩

theorem rejectIf (c : Prop) [Decidable c] (e : ε) :
    NoPanic (rejectIf c e : Exec ε σ PUnit) := ⟨fun _ h => panics_rejectIf.1 h⟩

theorem bind {f : α → Exec ε σ β} (hm : NoPanic m) (hf : ∀ a, NoPanic (f a)) :
    NoPanic (m >>= f) := by
  refine ⟨fun s h => ?_⟩
  rcases panics_bind.1 h with h | ⟨a, s', -, h⟩
  · exact hm.not_panics s h
  · exact (hf a).not_panics s' h

theorem doIf {c : Prop} [Decidable c] {m : Exec ε σ PUnit} (hm : c → NoPanic m) :
    NoPanic (doIf c m) :=
  ⟨fun s h => (hm (panics_doIf.1 h).1).not_panics s (panics_doIf.1 h).2⟩

theorem ite {c : Prop} [Decidable c] {a b : Exec ε σ α} (ha : c → NoPanic a)
    (hb : ¬ c → NoPanic b) : NoPanic (if c then a else b) := by
  by_cases h : c
  · rw [if_pos h]
    exact ha h
  · rw [if_neg h]
    exact hb h

theorem zoom {τ : Type} {proj : σ → τ} {set : τ → σ → σ} {m : Exec ε τ α} (hm : NoPanic m) :
    NoPanic (zoom proj set m) := ⟨fun s h => hm.not_panics (proj s) h⟩

theorem zoomTry {ε' τ : Type} {proj : σ → τ} {set : τ → σ → σ} {m : Exec ε' τ α}
    (hm : NoPanic m) : NoPanic (zoomTry proj set m : Exec ε σ _) := by
  refine ⟨fun s h => ?_⟩
  unfold Panics at h
  rw [result_zoomTry] at h
  refine hm.not_panics (proj s) ?_
  unfold Panics
  cases hr : (result m (proj s)).1 with
  | ok a =>
    rw [hr] at h
    exact nomatch h
  | error e =>
    rw [hr] at h
    cases e with
    | err e => exact nomatch h
    | panicked => rfl

theorem okOrNone (hm : NoPanic m) : NoPanic (okOrNone m) := by
  refine ⟨fun s h => ?_⟩
  unfold Panics at h
  rw [result_okOrNone] at h
  cases hr : result m s with
  | mk r s' =>
    rw [hr] at h
    cases r with
    | ok a => exact nomatch h
    | error e =>
      cases e with
      | err e => exact nomatch h
      | panicked => exact hm.not_panics s (congrArg Prod.fst hr)

theorem ifOk {f : α → Exec ε σ PUnit} (hm : NoPanic m) (hf : ∀ a, NoPanic (f a)) :
    NoPanic (ifOk m f) := by
  refine bind hm.okOrNone fun r => ?_
  cases r with
  | some a => exact hf a
  | none => exact pure PUnit.unit

theorem forM {l : List α} {f : α → Exec ε σ PUnit} (hf : ∀ a ∈ l, NoPanic (f a)) :
    NoPanic (l.forM f) := by
  induction l with
  | nil => exact pure PUnit.unit
  | cons a l ih =>
    exact bind (hf a List.mem_cons_self) fun _ => ih fun b hb => hf b (List.mem_cons_of_mem a hb)

theorem foldlM {l : List β} {f : α → β → Exec ε σ α} {a : α}
    (hf : ∀ a, ∀ b ∈ l, NoPanic (f a b)) : NoPanic (l.foldlM f a) := by
  induction l generalizing a with
  | nil => exact pure a
  | cons b l ih =>
    rw [List.foldlM_cons]
    exact bind (hf a b List.mem_cons_self) fun a' =>
      ih fun a b hb => hf a b (List.mem_cons_of_mem _ hb)

end NoPanic

end Exec

end ConsensusBft

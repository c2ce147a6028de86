import ConsensusBft.Logic.Exec

/-!
# Two computations side by side

* `Panics m s` : started in `s`, `m` panics.
* `Tracks x x'` : the outcomes are the same, unless the first one is a panic.
* `Sim p R m m' s t` : started in `s` and `t`, the computations `m` and `m'` have the same outcome
  and end in states related by `R`; where `p` holds, `m` may also panic instead.

The rules follow the control flow of two programs of the same shape, so that only the steps in
which they differ have to be looked at.
-/

namespace ConsensusBft

namespace Exec

universe u

variable {ε σ τ α β : Type u} {s : σ} {t : τ}

/-! ### Panics -/

/-- Started in `s`, `m` panics. -/
def Panics (m : Exec ε σ α) (s : σ) : Prop := (result m s).1 = .error .panicked

theorem panics_bind {m : Exec ε σ α} {f : α → Exec ε σ β} :
    Panics (m >>= f) s ↔ Panics m s ∨ ∃ a s', result m s = (.ok a, s') ∧ Panics (f a) s' := by
  unfold Panics
  rw [result_bind]
  cases result m s with
  | mk r s' =>
    cases r with
    | ok a => simp [and_assoc]
    | error e => simp

theorem panics_pure {a : α} : Panics (pure a : Exec ε σ α) s ↔ False := by
  simp [Panics]

theorem panics_throw {e : ε} : Panics (throw (.err e) : Exec ε σ α) s ↔ False := by
  simp [Panics]

theorem panics_rejectIf {c : Prop} [Decidable c] {e : ε} :
    Panics (rejectIf c e : Exec ε σ PUnit) s ↔ False := by
  unfold rejectIf
  by_cases hc : c <;> simp [hc, Panics]

theorem panics_bind_get {f : σ → Exec ε σ β} : Panics (get >>= f) s ↔ Panics (f s) s := Iff.rfl

theorem panics_bind_modify {g : σ → σ} {f : PUnit → Exec ε σ β} :
    Panics (modify g >>= f) s ↔ Panics (f ⟨⟩) (g s) := Iff.rfl

theorem panics_bind_lift {x : Outcome ε α} {f : α → Exec ε σ β} :
    Panics (lift x >>= f) s ↔ x = .error .panicked ∨ ∃ a, x = .ok a ∧ Panics (f a) s := by
  rw [panics_bind]
  simp [Panics, and_assoc]

theorem panics_bind_rejectIf {c : Prop} [Decidable c] {e : ε} {f : PUnit → Exec ε σ β} :
    Panics (rejectIf c e >>= f) s ↔ ¬ c ∧ Panics (f ⟨⟩) s := by
  unfold Panics
  by_cases hc : c
  · simp [result_bind_rejectIf_of hc, hc]
  · simp [result_bind_rejectIf hc, hc]

theorem panics_doIf {c : Prop} [Decidable c] {m : Exec ε σ PUnit} :
    Panics (doIf c m) s ↔ c ∧ Panics m s := by
  unfold doIf
  by_cases hc : c <;> simp [hc, Panics]

theorem panics_bind_doIf {c : Prop} [Decidable c] {m : Exec ε σ PUnit} {f : PUnit → Exec ε σ β} :
    Panics (doIf c m >>= f) s ↔
      (c ∧ Panics (m >>= f) s) ∨ (¬ c ∧ Panics (f ⟨⟩) s) := by
  unfold Panics
  by_cases hc : c
  · rw [result_bind, result_doIf_of hc, ← result_bind]
    simp [hc]
  · rw [result_bind_ok (result_doIf_of_not hc m s)]
    simp [hc]

theorem not_panics_of_wp {m : Exec ε σ α} {Q : α → σ → Prop} {E : Stop ε → σ → Prop}
    (h : wp m Q E s) (hE : ∀ s', ¬ E .panicked s') : ¬ Panics m s := by
  intro hp
  exact hE _ (h.error (Prod.ext hp rfl))

/-! ### Outcomes -/

/-- The outcomes are the same, unless the first one is a panic. -/
def Tracks (x x' : Outcome ε α) : Prop := x = .error .panicked ∨ x = x'

theorem Tracks.refl (x : Outcome ε α) : Tracks x x := .inr rfl

theorem Tracks.bind {x x' : Outcome ε α} {f f' : α → Outcome ε β} (hx : Tracks x x')
    (hf : ∀ a, x = .ok a → Tracks (f a) (f' a)) : Tracks (x >>= f) (x' >>= f') := by
  rcases hx with rfl | rfl
  · exact .inl rfl
  · cases x with
    | ok a => exact hf a rfl
    | error e => exact .inr rfl

theorem Tracks.mapErr {ε' : Type u} {f : ε → ε'} {x x' : Outcome ε α} (hx : Tracks x x') :
    Tracks (mapErr f x) (Exec.mapErr f x') := by
  rcases hx with rfl | rfl
  · exact .inl rfl
  · exact .inr rfl

/-! ### Simulation -/

/-- Started in `s` and `t`, the computations have the same outcome and end in related states, unless
`p` holds and the first one panics. -/
def Sim (p : Prop) (R : σ → τ → Prop) (m : Exec ε σ α) (m' : Exec ε τ α) (s : σ) (t : τ) : Prop :=
  (p ∧ Panics m s) ∨ ((result m s).1 = (result m' t).1 ∧ R (result m s).2 (result m' t).2)

variable {p : Prop} {R : σ → τ → Prop} {m : Exec ε σ α} {m' : Exec ε τ α}

theorem Sim.of_not_panics (h : Sim p R m m' s t) (hp : ¬ Panics m s) :
    (result m s).1 = (result m' t).1 ∧ R (result m s).2 (result m' t).2 :=
  h.resolve_left fun ⟨_, hpanics⟩ => hp hpanics

namespace Sim

theorem refl (m : Exec ε σ α) (s : σ) : Sim p Eq m m s s := .inr ⟨rfl, rfl⟩

theorem pure {a : α} (h : R s t) : Sim p R (pure a : Exec ε σ α) (pure a) s t := .inr ⟨rfl, h⟩

theorem throw {e : Stop ε} (h : R s t) : Sim p R (throw e : Exec ε σ α) (throw e) s t :=
  .inr ⟨rfl, h⟩

theorem lift {x : Outcome ε α} (h : R s t) :
    Sim p R (lift x : Exec ε σ α) (Exec.lift x) s t := .inr ⟨rfl, h⟩

theorem modify {g : σ → σ} {g' : τ → τ} (h : R (g s) (g' t)) :
    Sim p R (modify g : Exec ε σ PUnit) (modify g') s t := .inr ⟨rfl, h⟩

theorem bind {f : α → Exec ε σ β} {f' : α → Exec ε τ β} (hm : Sim p R m m' s t)
    (hf : ∀ a s' t', result m s = (.ok a, s') → R s' t' → Sim p R (f a) (f' a) s' t') :
    Sim p R (m >>= f) (m' >>= f') s t := by
  rcases hm with ⟨hp, hpanics⟩ | ⟨hout, hR⟩
  · exact .inl ⟨hp, panics_bind.2 (.inl hpanics)⟩
  · unfold Sim Panics
    rw [result_bind, result_bind]
    cases hr : result m s with
    | mk r s' =>
      cases hr' : result m' t with
      | mk r' t' =>
        simp only [hr, hr'] at hout hR
        subst hout
        cases r with
        | ok a => exact hf a s' t' hr hR
        | error e => exact .inr ⟨rfl, hR⟩

theorem bind_get {f : σ → Exec ε σ β} {f' : τ → Exec ε τ β} (h : Sim p R (f s) (f' t) s t) :
    Sim p R (MonadState.get >>= f) (MonadState.get >>= f') s t := h

theorem bind_modify {g : σ → σ} {g' : τ → τ} {f : PUnit → Exec ε σ β} {f' : PUnit → Exec ε τ β}
    (h : Sim p R (f ⟨⟩) (f' ⟨⟩) (g s) (g' t)) :
    Sim p R ((MonadState.modifyGet fun s => (⟨⟩, g s)) >>= f)
      ((MonadState.modifyGet fun t => (⟨⟩, g' t)) >>= f') s t := h

theorem bind_lift {x x' : Outcome ε α} {f : α → Exec ε σ β} {f' : α → Exec ε τ β}
    (hx : x = x' ∨ (p ∧ Tracks x x')) (hR : R s t)
    (hf : ∀ a, x = .ok a → Sim p R (f a) (f' a) s t) :
    Sim p R (Exec.lift x >>= f) (Exec.lift x' >>= f') s t := by
  have hx' : (p ∧ x = .error .panicked) ∨ x = x' := by
    rcases hx with h | ⟨hp, h | h⟩
    · exact .inr h
    · exact .inl ⟨hp, h⟩
    · exact .inr h
  rcases hx' with ⟨hp, hx⟩ | rfl
  · exact .inl ⟨hp, panics_bind_lift.2 (.inl hx)⟩
  · unfold Sim Panics
    cases x with
    | ok a =>
      rw [result_bind_lift rfl, result_bind_lift rfl]
      exact hf a rfl
    | error e =>
      rw [result_bind_lift_error rfl, result_bind_lift_error rfl]
      exact .inr ⟨rfl, hR⟩

theorem rejectIf {c c' : Prop} [Decidable c] [Decidable c'] {e : ε} (hc : c ↔ c') (hR : R s t) :
    Sim p R (Exec.rejectIf c e) (Exec.rejectIf c' e) s t := by
  unfold Exec.rejectIf
  by_cases h : c
  · rw [if_pos h, if_pos (hc.1 h)]
    exact throw hR
  · rw [if_neg h, if_neg fun h' => h (hc.2 h')]
    exact pure hR

theorem bind_rejectIf {c c' : Prop} [Decidable c] [Decidable c'] {e : ε}
    {f : PUnit → Exec ε σ β} {f' : PUnit → Exec ε τ β} (hc : c ↔ c') (hR : R s t)
    (hf : ¬ c → Sim p R (f ⟨⟩) (f' ⟨⟩) s t) :
    Sim p R (Exec.rejectIf c e >>= f) (Exec.rejectIf c' e >>= f') s t := by
  by_cases h : c
  · right
    rw [result_bind_rejectIf_of h, result_bind_rejectIf_of (hc.1 h)]
    exact ⟨rfl, hR⟩
  · unfold Sim Panics
    rw [result_bind_rejectIf h, result_bind_rejectIf fun h' => h (hc.2 h')]
    exact hf h

theorem doIf {c c' : Prop} [Decidable c] [Decidable c'] {m : Exec ε σ PUnit}
    {m' : Exec ε τ PUnit} (hc : c ↔ c') (hm : c → Sim p R m m' s t) (hR : R s t) :
    Sim p R (Exec.doIf c m) (Exec.doIf c' m') s t := by
  unfold Exec.doIf
  by_cases h : c
  · rw [if_pos h, if_pos (hc.1 h)]
    exact hm h
  · rw [if_neg h, if_neg fun h' => h (hc.2 h')]
    exact pure hR

theorem ite {c c' : Prop} [Decidable c] [Decidable c'] {a b : Exec ε σ α} {a' b' : Exec ε τ α}
    (hc : c ↔ c') (ha : c → Sim p R a a' s t) (hb : ¬ c → Sim p R b b' s t) :
    Sim p R (if c then a else b) (if c' then a' else b') s t := by
  by_cases h : c
  · rw [if_pos h, if_pos (hc.1 h)]
    exact ha h
  · rw [if_neg h, if_neg fun h' => h (hc.2 h')]
    exact hb h

theorem zoomTry {ε' ρ : Type u} {proj : σ → ρ} {set : ρ → σ → σ} {m m' : Exec ε' ρ α}
    (hm : Sim p Eq m m' (proj s) (proj s)) :
    Sim p Eq (Exec.zoomTry proj set m : Exec ε σ _) (Exec.zoomTry proj set m') s s := by
  unfold Sim Panics at hm ⊢
  simp only [result_zoomTry]
  rcases hm with ⟨hp, hpanics⟩ | ⟨hout, hstate⟩
  · exact .inl ⟨hp, by rw [hpanics]; rfl⟩
  · exact .inr ⟨by rw [hout], by rw [hstate]⟩

/-- A weaker relation. -/
theorem mono {R' : σ → τ → Prop} (h : Sim p R m m' s t) (hR : ∀ s t, R s t → R' s t) :
    Sim p R' m m' s t :=
  h.imp id fun ⟨hout, hstate⟩ => ⟨hout, hR _ _ hstate⟩

theorem okOrNone (hm : Sim p R m m' s t) : Sim p R (okOrNone m) (Exec.okOrNone m') s t := by
  unfold Sim Panics at hm ⊢
  simp only [result_okOrNone]
  rcases hm with ⟨hp, hpanics⟩ | ⟨hout, hR⟩
  · left
    refine ⟨hp, ?_⟩
    cases hr : result m s with
    | mk r s' =>
      rw [hr] at hpanics
      obtain rfl : r = .error .panicked := hpanics
      rfl
  · right
    cases hr : result m s with
    | mk r s' =>
      cases hr' : result m' t with
      | mk r' t' =>
        simp only [hr, hr'] at hout hR
        subst hout
        cases r with
        | ok a => exact ⟨rfl, hR⟩
        | error e => cases e <;> exact ⟨rfl, hR⟩

theorem ifOk {f : α → Exec ε σ PUnit} {f' : α → Exec ε τ PUnit} (hm : Sim p R m m' s t)
    (hf : ∀ a s t, R s t → Sim p R (f a) (f' a) s t) :
    Sim p R (Exec.ifOk m f) (Exec.ifOk m' f') s t := by
  refine bind hm.okOrNone fun r s' t' _ hR => ?_
  cases r with
  | some a => exact hf a s' t' hR
  | none => exact pure hR

/-- Two loops over one list. -/
theorem foldlM {l : List β} {f : α → β → Exec ε σ α} {f' : α → β → Exec ε τ α} {a : α}
    (hf : ∀ a, ∀ b ∈ l, ∀ s t, R s t → Sim p R (f a b) (f' a b) s t) (hR : R s t) :
    Sim p R (l.foldlM f a) (l.foldlM f' a) s t := by
  induction l generalizing a s t with
  | nil => exact pure hR
  | cons b l ih =>
    rw [List.foldlM_cons, List.foldlM_cons]
    refine bind (hf a b List.mem_cons_self s t hR) fun a' s' t' _ hR' => ?_
    exact ih (fun a b hb => hf a b (List.mem_cons_of_mem _ hb)) hR'

end Sim

end Exec

end ConsensusBft

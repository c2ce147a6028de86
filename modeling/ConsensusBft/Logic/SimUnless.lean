import ConsensusBft.Logic.Sim

/-!
# Simulation up to a failure

* `SimUnless X R m m' s t` : started in `s` and `t`, the computations have the same outcome and end
  in related states, unless the first one fails in a way that `X` allows.
* `SimUnless.of_sim` : a simulation without such failures.
* `SimUnless.bind`, `SimUnless.forM`, … : sequences and loops of such computations.
* `SimUnless.survive` : where the first one does not fail so, the second one can follow it.
-/

namespace ConsensusBft

namespace Exec

variable {ε σ τ α β : Type} {s : σ} {t : τ}

/-- Started in `s` and `t`, the computations have the same outcome and end in related states, unless
the first one fails in a way that `X` allows. -/
def SimUnless (X : Stop ε → Prop) (R : σ → τ → Prop) (m : Exec ε σ α) (m' : Exec ε τ α) (s : σ)
    (t : τ) : Prop :=
  (∃ e, X e ∧ (result m s).1 = .error e) ∨
    ((result m s).1 = (result m' t).1 ∧ R (result m s).2 (result m' t).2)

variable {X : Stop ε → Prop} {R : σ → τ → Prop} {m : Exec ε σ α} {m' : Exec ε τ α}

namespace SimUnless

theorem of_sim (h : Sim False R m m' s t) : SimUnless X R m m' s t :=
  .inr (h.resolve_left And.left)

theorem pure {a : α} (h : R s t) : SimUnless X R (pure a : Exec ε σ α) (pure a) s t := .inr ⟨rfl, h⟩

/-- The second computation returns, and the first one fails or ends in a related state. -/
theorem of_result {m : Exec ε σ PUnit} {m' : Exec ε τ PUnit} {t' : τ}
    (hm' : result m' t = (.ok ⟨⟩, t')) (h : wp m (fun _ s' => R s' t') (fun e _ => X e) s) :
    SimUnless X R m m' s t := by
  unfold wp at h
  unfold SimUnless
  rw [hm']
  cases hr : result m s with
  | mk r s' =>
    rw [hr] at h
    cases r with
    | ok a => exact .inr ⟨rfl, h⟩
    | error e => exact .inl ⟨e, h, rfl⟩

theorem congr {n : Exec ε σ α} {n' : Exec ε τ α} (hm : result m s = result n s)
    (hm' : result m' t = result n' t) (h : SimUnless X R n n' s t) : SimUnless X R m m' s t := by
  unfold SimUnless
  rwa [hm, hm']

theorem bind {f : α → Exec ε σ β} {f' : α → Exec ε τ β} (hm : SimUnless X R m m' s t)
    (hf : ∀ a s' t', result m s = (.ok a, s') → R s' t' → SimUnless X R (f a) (f' a) s' t') :
    SimUnless X R (m >>= f) (m' >>= f') s t := by
  unfold SimUnless at hm ⊢
  rw [result_bind, result_bind]
  cases hr : result m s with
  | mk r s' =>
    rw [hr] at hm
    rcases hm with ⟨e, he, hfails⟩ | ⟨hout, hR⟩
    · obtain rfl : r = .error e := hfails
      exact .inl ⟨e, he, rfl⟩
    · cases hr' : result m' t with
      | mk r' t' =>
        rw [hr'] at hout hR
        obtain rfl : r = r' := hout
        cases r with
        | ok a => exact hf a s' t' hr hR
        | error e => exact .inr ⟨rfl, hR⟩

theorem bind_get {f : σ → Exec ε σ β} {f' : τ → Exec ε τ β} (h : SimUnless X R (f s) (f' t) s t) :
    SimUnless X R (MonadState.get >>= f) (MonadState.get >>= f') s t := h

theorem bind_modify {g : σ → σ} {g' : τ → τ} {f : PUnit → Exec ε σ β} {f' : PUnit → Exec ε τ β}
    (h : SimUnless X R (f ⟨⟩) (f' ⟨⟩) (g s) (g' t)) :
    SimUnless X R ((MonadState.modifyGet fun s => (⟨⟩, g s)) >>= f)
      ((MonadState.modifyGet fun t => (⟨⟩, g' t)) >>= f') s t := h

theorem bind_lift {x : Outcome ε α} {f : α → Exec ε σ β} {f' : α → Exec ε τ β} (hR : R s t)
    (hf : ∀ a, x = .ok a → SimUnless X R (f a) (f' a) s t) :
    SimUnless X R (Exec.lift x >>= f) (Exec.lift x >>= f') s t := by
  unfold SimUnless
  cases x with
  | ok a =>
    rw [result_bind_lift rfl, result_bind_lift rfl]
    exact hf a rfl
  | error e =>
    rw [result_bind_lift_error rfl, result_bind_lift_error rfl]
    exact .inr ⟨rfl, hR⟩

theorem doIf {c c' : Prop} [Decidable c] [Decidable c'] {m : Exec ε σ PUnit}
    {m' : Exec ε τ PUnit} (hc : c ↔ c') (hm : c → SimUnless X R m m' s t) (hR : R s t) :
    SimUnless X R (Exec.doIf c m) (Exec.doIf c' m') s t := by
  unfold Exec.doIf
  by_cases h : c
  · rw [if_pos h, if_pos (hc.1 h)]
    exact hm h
  · rw [if_neg h, if_neg fun h' => h (hc.2 h')]
    exact pure hR

theorem ite {c c' : Prop} [Decidable c] [Decidable c'] {a b : Exec ε σ α} {a' b' : Exec ε τ α}
    (hc : c ↔ c') (ha : c → SimUnless X R a a' s t) (hb : ¬ c → SimUnless X R b b' s t) :
    SimUnless X R (if c then a else b) (if c' then a' else b') s t := by
  by_cases h : c
  · rw [if_pos h, if_pos (hc.1 h)]
    exact ha h
  · rw [if_neg h, if_neg fun h' => h (hc.2 h')]
    exact hb h

theorem bind_rejectIf {c c' : Prop} [Decidable c] [Decidable c'] {e : ε}
    {f : PUnit → Exec ε σ β} {f' : PUnit → Exec ε τ β} (hc : c ↔ c') (hR : R s t)
    (hf : ¬ c → SimUnless X R (f ⟨⟩) (f' ⟨⟩) s t) :
    SimUnless X R (Exec.rejectIf c e >>= f) (Exec.rejectIf c' e >>= f') s t := by
  by_cases h : c
  · right
    rw [result_bind_rejectIf_of h, result_bind_rejectIf_of (hc.1 h)]
    exact ⟨rfl, hR⟩
  · unfold SimUnless
    rw [result_bind_rejectIf h, result_bind_rejectIf fun h' => h (hc.2 h')]
    exact hf h

theorem forM {l : List α} {f : α → Exec ε σ PUnit} {f' : α → Exec ε τ PUnit}
    (hf : ∀ a ∈ l, ∀ s t, R s t → SimUnless X R (f a) (f' a) s t) (hR : R s t) :
    SimUnless X R (l.forM f) (l.forM f') s t := by
  induction l generalizing s t with
  | nil => exact pure hR
  | cons a l ih =>
    exact bind (hf a List.mem_cons_self s t hR) fun _ s' t' _ hR' =>
      ih (fun b hb => hf b (List.mem_cons_of_mem _ hb)) hR'

/-- **Where the first computation does not fail so, the second one can follow it.** -/
theorem survive (h : SimUnless X R m m' s t) (hX : ∀ e, (result m s).1 = .error e → ¬ X e) {s' : σ}
    (hs : Exec.survive m s = some s') : ∃ t', Exec.survive m' t = some t' ∧ R s' t' := by
  obtain ⟨r, hr, hne⟩ := survive_eq_some.1 hs
  rcases h with ⟨e, he, hfails⟩ | ⟨hout, hR⟩
  · exact absurd he (hX e hfails)
  · rw [hr] at hout hR
    exact ⟨_, survive_eq_some.2 ⟨r, Prod.ext hout.symm rfl, hne⟩, hR⟩

end SimUnless

end Exec

end ConsensusBft

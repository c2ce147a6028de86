import ConsensusBft.Logic.Exec
import Mathlib.Algebra.GroupWithZero.Nat
import Mathlib.Algebra.Order.BigOperators.Group.List

/-!
# Potentials

A potential is a number that a state is worth.  What a computation may add to it is bounded by the
sum of what its parts may add.

* `Raises Φ n m s` : started in `s`, `m` adds at most `n` to the potential, on every exit.
* `Raises.bind`, `Raises.ifOk`, `Raises.forM` : sequences and loops add the bounds of their parts.
* `Raises.of_steps` : what moves along a relation that does not add to the potential adds nothing.
-/

namespace ConsensusBft

namespace Exec

variable {ε σ α β : Type} {Φ : σ → ℕ} {m : Exec ε σ α} {s s' : σ} {n k : ℕ}

/-- Started in `s`, `m` adds at most `n` to the potential, on every exit. -/
def Raises (Φ : σ → ℕ) (n : ℕ) (m : Exec ε σ α) (s : σ) : Prop :=
  wp m (fun _ s' => Φ s' ≤ Φ s + n) (fun _ s' => Φ s' ≤ Φ s + n) s

namespace Raises

theorem result_le (h : Raises Φ n m s) : Φ (result m s).2 ≤ Φ s + n := by
  unfold Raises wp at h
  cases hr : result m s with
  | mk r s' =>
    rw [hr] at h
    cases r <;> exact h

theorem survive (h : Raises Φ n m s) (hs : Exec.survive m s = some s') : Φ s' ≤ Φ s + n := by
  obtain ⟨r, hr, -⟩ := survive_eq_some.1 hs
  have hle := h.result_le
  rwa [hr] at hle

theorem mono (h : Raises Φ n m s) (hle : n ≤ k) : Raises Φ k m s :=
  wp.mono h (fun _ _ h => by omega) fun _ _ h => by omega

theorem of_steps {R : σ → σ → Prop} {Q : α → σ → Prop} (h : Steps R m Q s)
    (hR : ∀ s s', R s s' → Φ s' ≤ Φ s) : Raises Φ 0 m s := by
  have moves : ∀ s', Relation.ReflTransGen R s s' → Φ s' ≤ Φ s := by
    intro s' hs
    induction hs with
    | refl => exact Nat.le_refl _
    | tail _ hstep ih => exact (hR _ _ hstep).trans ih
  exact wp.mono h (fun _ s' hs => moves s' hs.1) fun _ s' hs => moves s' hs

theorem pure (a : α) : Raises Φ n (pure a : Exec ε σ α) s := Nat.le_add_right _ _

theorem throw (e : Stop ε) : Raises Φ n (throw e : Exec ε σ α) s := Nat.le_add_right _ _

/-- A sequence adds what its parts add. -/
theorem bind {f : α → Exec ε σ β} (hm : Raises Φ n m s)
    (hf : ∀ a s', result m s = (.ok a, s') → Raises Φ k (f a) s') :
    Raises Φ (n + k) (m >>= f) s := by
  have hle := hm.result_le
  refine wp_bind.2 (wp_of_result rfl (fun a ha => ?_) fun e he => by omega)
  exact wp.mono (hf a _ (Prod.ext ha rfl)) (fun _ _ h => by omega) fun _ _ h => by omega

theorem bind_get {f : σ → Exec ε σ β} (h : Raises Φ n (f s) s) :
    Raises Φ n (MonadState.get >>= f) s :=
  wp_bind.2 h

theorem bind_lift {x : Outcome ε α} {f : α → Exec ε σ β}
    (h : ∀ a, x = .ok a → Raises Φ n (f a) s) : Raises Φ n (Exec.lift x >>= f) s :=
  wp_bind.2 (wp_lift.2 ⟨h, fun _ _ => Nat.le_add_right _ _⟩)

/-- A change of the state before the rest. -/
theorem bind_modify {g : σ → σ} {f : PUnit → Exec ε σ β} (hg : Φ (g s) + k ≤ Φ s + n)
    (h : Raises Φ k (f ⟨⟩) (g s)) : Raises Φ n (modify g >>= f) s :=
  wp_bind.2 ((wp_modify g).2
    (wp.mono h (fun _ _ h => by omega) fun _ _ h => by omega))

theorem doIf {c : Prop} [Decidable c] {m : Exec ε σ PUnit} (hm : c → Raises Φ n m s) :
    Raises Φ n (Exec.doIf c m) s :=
  wp_doIf.2 ⟨hm, fun _ => Nat.le_add_right _ _⟩

theorem ite {c : Prop} [Decidable c] {a b : Exec ε σ α} (ha : c → Raises Φ n a s)
    (hb : ¬ c → Raises Φ n b s) : Raises Φ n (if c then a else b) s :=
  wp_ite.2 ⟨ha, hb⟩

/-- A loop adds what its turns add. -/
theorem forM {l : List α} {f : α → Exec ε σ PUnit} {cost : α → ℕ}
    (hf : ∀ a ∈ l, ∀ s, Raises Φ (cost a) (f a) s) : Raises Φ ((l.map cost).sum) (l.forM f) s := by
  induction l generalizing s with
  | nil => exact pure PUnit.unit
  | cons a l ih =>
    rw [List.map_cons, List.sum_cons]
    exact bind (hf a List.mem_cons_self s) fun _ _ _ =>
      ih fun b hb => hf b (List.mem_cons_of_mem a hb)

end Raises

end Exec

end ConsensusBft

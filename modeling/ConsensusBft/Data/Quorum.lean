import Mathlib.Algebra.BigOperators.Group.List.Basic
import Mathlib.Algebra.GroupWithZero.Nat
import Mathlib.Algebra.Order.BigOperators.Group.List
import Mathlib.Data.List.Dedup

/-!
# Weighted quorums

The members of a quorum system are the entries of a list, so that a member that is listed twice
counts twice.

* `weightOf w l p` : the weight of the entries of `l` that satisfy `p`.
* `lt_weightOf_inter` : **quorum intersection**: two sets of more than two thirds of the weight
  share more than a third of it.
* `card_le_weightOf` : distinct values taken by the entries bound a weight from below.
-/

namespace ConsensusBft

namespace Quorum

variable {α β : Type*} {w : α → ℕ} {l : List α} {p q : α → Prop} [DecidablePred p] [DecidablePred q]

/-- The weight of the entries of `l` that satisfy `p`. -/
def weightOf (w : α → ℕ) (l : List α) (p : α → Prop) [DecidablePred p] : ℕ :=
  ((l.filter fun a => decide (p a)).map w).sum

@[simp] theorem weightOf_nil : weightOf w [] p = 0 := rfl

theorem weightOf_cons (a : α) (l : List α) :
    weightOf w (a :: l) p = (if p a then w a else 0) + weightOf w l p := by
  unfold weightOf
  by_cases h : p a <;> simp [h]

theorem weightOf_le_sum (w : α → ℕ) (l : List α) (p : α → Prop) [DecidablePred p] :
    weightOf w l p ≤ (l.map w).sum := by
  induction l with
  | nil => simp
  | cons a l ih =>
    rw [weightOf_cons, List.map_cons, List.sum_cons]
    split_ifs <;> omega

theorem weightOf_mono (w : α → ℕ) (h : ∀ a ∈ l, p a → q a) : weightOf w l p ≤ weightOf w l q := by
  induction l with
  | nil => rfl
  | cons a l ih =>
    have hrest := ih fun b hb => h b (List.mem_cons_of_mem a hb)
    have hhead := h a List.mem_cons_self
    rw [weightOf_cons, weightOf_cons]
    split_ifs with hp hq <;> first | omega | exact absurd (hhead hp) hq

/-- Inclusion and exclusion, for two sets of entries. -/
theorem weightOf_add_le (w : α → ℕ) (l : List α) (p q : α → Prop) [DecidablePred p]
    [DecidablePred q] :
    weightOf w l p + weightOf w l q ≤ (l.map w).sum + weightOf w l fun a => p a ∧ q a := by
  induction l with
  | nil => simp
  | cons a l ih =>
    simp only [weightOf_cons, List.map_cons, List.sum_cons]
    by_cases hp : p a <;> by_cases hq : q a <;> simp only [hp, hq, and_true, and_false, if_true,
      if_false] <;> omega

/-- **Quorum intersection.**  Two sets that each have more than two thirds of the weight share
more than a third of it. -/
theorem lt_weightOf_inter (hp : 2 * (l.map w).sum < 3 * weightOf w l p)
    (hq : 2 * (l.map w).sum < 3 * weightOf w l q) :
    (l.map w).sum < 3 * weightOf w l fun a => p a ∧ q a := by
  have hie := weightOf_add_le w l p q
  omega

/-- If every value of `s` is taken by an entry, and entries weigh at least one each, then the
entries with a value in `s` weigh at least as much as `s` has values. -/
theorem card_le_weightOf (f : α → β) (hw : ∀ a ∈ l, 1 ≤ w a) (s : List β)
    [DecidablePred fun a => f a ∈ s] (hnodup : s.Nodup) (hs : ∀ b ∈ s, ∃ a ∈ l, f a = b) :
    s.length ≤ weightOf w l fun a => f a ∈ s := by
  have hlen : s.length ≤ (l.filter fun a => decide (f a ∈ s)).length := by
    have hsub : s ⊆ (l.filter fun a => decide (f a ∈ s)).map f := by
      intro b hb
      obtain ⟨a, ha, rfl⟩ := hs b hb
      exact List.mem_map_of_mem (List.mem_filter.2 ⟨ha, decide_eq_true hb⟩)
    have := (List.subperm_of_subset hnodup hsub).length_le
    rwa [List.length_map] at this
  have hsum : (l.filter fun a => decide (f a ∈ s)).length ≤
      ((l.filter fun a => decide (f a ∈ s)).map w).sum := by
    rw [← List.length_map (f := w)]
    refine List.length_le_sum_of_one_le _ ?_
    intro n hn
    obtain ⟨a, ha, rfl⟩ := List.mem_map.1 hn
    exact hw a (List.mem_of_mem_filter ha)
  exact hlen.trans hsum

end Quorum

end ConsensusBft

import Mathlib.Data.List.Chain

/-!
# Announced changes

A value that is `init` at first and is announced whenever it changes.

* `Relay α init` : the announcements so far: the first one is not `init`, and none repeats the one
  before it.
* `Relay.value`, `Relay.set` : the present value, and the relay once it is another one.
* `Relay.getLast?_log_eq_some` : a value other than `init` is the present one if and only if it was
  announced last.
-/

namespace ConsensusBft

/-- The announcements of a value that is `init` at first. -/
@[ext] structure Relay (α : Type*) (init : α) where
  log : List α
  changes : (init :: log).IsChain (· ≠ ·)

namespace Relay

variable {α : Type*} {init a : α}

/-- Nothing was announced. -/
def new (init : α) : Relay α init := ⟨[], .singleton init⟩

/-- The present value. -/
def value (r : Relay α init) : α := r.log.getLastD init

theorem changes_concat (r : Relay α init) (h : r.value ≠ a) :
    (init :: (r.log ++ [a])).IsChain (· ≠ ·) := by
  rw [← List.cons_append]
  refine r.changes.append (List.isChain_singleton a) ?_
  intro x hx y hy
  rw [List.getLast?_cons, ← List.getLastD_eq_getLast?] at hx
  obtain rfl := Option.some.inj hx
  obtain rfl := Option.some.inj hy
  exact h

/-- The value is `a` from now on, which is announced if it is a change. -/
def set [DecidableEq α] (r : Relay α init) (a : α) : Relay α init :=
  if h : r.value = a then r else ⟨r.log ++ [a], r.changes_concat h⟩

theorem set_of_eq [DecidableEq α] {r : Relay α init} (h : r.value = a) : r.set a = r := dif_pos h

theorem log_set_of_ne [DecidableEq α] {r : Relay α init} (h : r.value ≠ a) :
    (r.set a).log = r.log ++ [a] := by
  rw [set, dif_neg h]

@[simp] theorem value_set [DecidableEq α] (r : Relay α init) (a : α) : (r.set a).value = a := by
  by_cases h : r.value = a
  · rw [set_of_eq h, h]
  · rw [value, log_set_of_ne h]
    exact List.getLastD_concat

/-- The first announcement is a change. -/
theorem head?_log_ne (r : Relay α init) : ∀ x ∈ r.log.head?, x ≠ init :=
  fun _ hx => (r.changes.rel_head? hx).symm

/-- Every later one is. -/
theorem isChain_log (r : Relay α init) : r.log.IsChain (· ≠ ·) := r.changes.tail

/-- **A value other than the first one is present if and only if it was announced last.** -/
theorem getLast?_log_eq_some (r : Relay α init) (ha : a ≠ init) :
    r.log.getLast? = some a ↔ r.value = a := by
  rw [value, List.getLastD_eq_getLast?]
  cases r.log.getLast? with
  | none => exact ⟨nofun, fun h => absurd h.symm ha⟩
  | some x => exact Option.some_inj

end Relay

end ConsensusBft

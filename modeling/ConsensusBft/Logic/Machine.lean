import Mathlib.Data.List.Induction

/-!
# Deterministic machines driven by inputs

A machine is given by its transition function `next : ι → σ → Option σ` (`none` when the machine
stops for good).  All nondeterminism sits in the list of inputs, so a property of every run is a
property of every list.

* `runFrom next s is` : the state after the inputs `is`.
* `run_induction` : what holds at the start and is preserved by every step holds after every run;
  the predicate may look at the inputs processed so far.
* `EachStep C` : every step of the run is taken in a state and on an input satisfying `C`.
-/

namespace ConsensusBft

namespace Machine

variable {σ ι : Type*} (next : ι → σ → Option σ)

/-- The state after processing the inputs `is` from `s`; `none` if the machine stopped. -/
def runFrom (s : σ) : List ι → Option σ
  | [] => some s
  | i :: is => (next i s).bind fun s' => runFrom s' is

/-- Every step of the run on `is` from `s` is taken in a state and on an input satisfying `C`. -/
def EachStep (C : σ → ι → Prop) (s : σ) (is : List ι) : Prop :=
  ∀ is₁ i is₂ s₁, is = is₁ ++ i :: is₂ → runFrom next s is₁ = some s₁ → C s₁ i

variable {next}

@[simp] theorem runFrom_nil (s : σ) : runFrom next s [] = some s := rfl

theorem runFrom_cons {s s' : σ} {i : ι} {is : List ι} :
    runFrom next s (i :: is) = some s' ↔
      ∃ s₁, next i s = some s₁ ∧ runFrom next s₁ is = some s' := by
  simp only [runFrom, Option.bind_eq_some_iff]

theorem runFrom_append {s s' : σ} {is js : List ι} :
    runFrom next s (is ++ js) = some s' ↔
      ∃ s₁, runFrom next s is = some s₁ ∧ runFrom next s₁ js = some s' := by
  induction is generalizing s with
  | nil => simp
  | cons i is ih =>
    rw [List.cons_append, runFrom_cons]
    simp only [ih, runFrom_cons]
    constructor
    · rintro ⟨s₁, h₁, s₂, h₂, h₃⟩
      exact ⟨s₂, ⟨s₁, h₁, h₂⟩, h₃⟩
    · rintro ⟨s₂, ⟨s₁, h₁, h₂⟩, h₃⟩
      exact ⟨s₁, h₁, s₂, h₂, h₃⟩

theorem runFrom_snoc {s s' : σ} {is : List ι} {i : ι} :
    runFrom next s (is ++ [i]) = some s' ↔
      ∃ s₁, runFrom next s is = some s₁ ∧ next i s₁ = some s' := by
  rw [runFrom_append]
  simp only [runFrom_cons, runFrom_nil, Option.some.injEq, exists_eq_right]

/-- **Induction over runs.**  The predicate may mention the inputs processed so far. -/
theorem run_induction {P : List ι → σ → Prop} {s₀ : σ} (h₀ : P [] s₀)
    (hstep : ∀ is i s s', runFrom next s₀ is = some s → P is s → next i s = some s' →
      P (is ++ [i]) s') :
    ∀ is s, runFrom next s₀ is = some s → P is s := by
  intro is
  induction is using List.reverseRecOn with
  | nil =>
    intro s h
    obtain rfl := Option.some.inj h
    exact h₀
  | append_singleton is i ih =>
    intro s h
    obtain ⟨s₁, h₁, h₂⟩ := runFrom_snoc.1 h
    exact hstep is i s₁ s h₁ (ih s₁ h₁) h₂

theorem EachStep.init {C : σ → ι → Prop} {s : σ} {is js : List ι}
    (h : EachStep next C s (is ++ js)) : EachStep next C s is := by
  rintro is₁ i is₂ s₁ rfl hr
  exact h is₁ i (is₂ ++ js) s₁ (by simp) hr

theorem EachStep.last {C : σ → ι → Prop} {s s' : σ} {is : List ι} {i : ι}
    (h : EachStep next C s (is ++ [i])) (hr : runFrom next s is = some s') : C s' i :=
  h is i [] s' rfl hr

/-- **Invariants of runs whose steps all satisfy a condition.** -/
theorem invariant_of_eachStep {C : σ → ι → Prop} {I : σ → Prop} {s₀ : σ} (h₀ : I s₀)
    (hstep : ∀ s i s', I s → C s i → next i s = some s' → I s') {is : List ι} {s : σ}
    (hr : runFrom next s₀ is = some s) (hC : EachStep next C s₀ is) : I s := by
  refine run_induction (P := fun is s => EachStep next C s₀ is → I s) (fun _ => h₀) ?_ is s hr hC
  intro is i s s' hs ih hn hC
  exact hstep s i s' (ih hC.init) (hC.last hs) hn

end Machine

end ConsensusBft

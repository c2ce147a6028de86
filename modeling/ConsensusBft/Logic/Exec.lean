import Mathlib.Logic.Relation

/-!
# Fallible stateful computations

Imperative code that updates a state, may return early with an error and may panic is embedded
in `Exec ε σ`: a state is threaded through every exit, so that the updates made before an early
return are kept, exactly as `&mut self` keeps them.

* `Stop ε` : the two ways a computation ends without a value.
* `wp m Q E s` : started in `s`, `m` returns a value satisfying `Q` or stops satisfying `E`.
* `Steps R m Q s` : started in `s`, `m` moves along the relation `R` on **every** exit, and a
  returned value satisfies `Q`.  Invariants and frame conditions are proved with it: only the
  single updates have to be looked at, the control flow is handled by the rules.
-/

namespace ConsensusBft

universe u

/-- How a computation ends without a value: by returning an error, or by a panic. -/
inductive Stop (ε : Type u) where
  | err (e : ε)
  | panicked
deriving DecidableEq, Repr

/-- The outcome of a computation that does not touch a state. -/
abbrev Outcome (ε α : Type u) := Except (Stop ε) α

/-- A step that returns hands its value to the next. -/
theorem Outcome.ok_bind {ε α β : Type u} (a : α) (f : α → Outcome ε β) :
    ((Except.ok a : Outcome ε α) >>= f) = f a := rfl

theorem Outcome.bind_eq_ok {ε α β : Type u} {x : Outcome ε α} {f : α → Outcome ε β} {b : β} :
    x >>= f = .ok b ↔ ∃ a, x = .ok a ∧ f a = .ok b := by
  cases x with
  | ok a => exact ⟨fun h => ⟨a, rfl, h⟩, fun ⟨_, ha, h⟩ => Except.ok.inj ha ▸ h⟩
  | error e => exact ⟨nofun, fun ⟨_, ha, _⟩ => nomatch ha⟩

/-- A sequence of two steps panics where the first does, or where the second does on what the
first returns. -/
theorem Outcome.bind_eq_panicked {ε α β : Type u} {x : Outcome ε α} {f : α → Outcome ε β} :
    x >>= f = .error .panicked ↔
      x = .error .panicked ∨ ∃ a, x = .ok a ∧ f a = .error .panicked := by
  cases x with
  | ok a =>
    refine ⟨fun h => .inr ⟨a, rfl, h⟩, ?_⟩
    rintro (h | ⟨_, ha, h⟩)
    · exact nomatch h
    · exact Except.ok.inj ha ▸ h
  | error e =>
    refine ⟨fun h => .inl (congrArg Except.error (Except.error.inj h)), ?_⟩
    rintro (h | ⟨_, ha, -⟩)
    · exact congrArg Except.error (Except.error.inj h)
    · exact nomatch ha

/-- Going through a list panics at the first element that does. -/
theorem Outcome.mapM_eq_panicked {ε α β : Type u} {f : α → Outcome ε β} {l : List α} :
    l.mapM f = .error .panicked ↔ ∃ before a after, l = before ++ a :: after ∧
      (∀ b ∈ before, ∃ c, f b = .ok c) ∧ f a = .error .panicked := by
  induction l with
  | nil => exact ⟨nofun, by rintro ⟨before, a, after, h, -⟩; simp at h⟩
  | cons a l ih =>
    rw [List.mapM_cons, bind_eq_panicked]
    constructor
    · rintro (h | ⟨c, hc, h⟩)
      · exact ⟨[], a, l, rfl, List.forall_mem_nil _, h⟩
      · obtain h | ⟨_, -, h⟩ := bind_eq_panicked.1 h
        · obtain ⟨before, b, after, rfl, hbefore, hb⟩ := ih.1 h
          exact ⟨a :: before, b, after, rfl, List.forall_mem_cons.2 ⟨⟨c, hc⟩, hbefore⟩, hb⟩
        · exact nomatch h
    · rintro ⟨_ | ⟨a', before⟩, b, after, h, hbefore, hb⟩
      · obtain ⟨rfl, rfl⟩ := List.cons.inj h
        exact .inl hb
      · obtain ⟨rfl, rfl⟩ := List.cons.inj h
        obtain ⟨⟨c, hc⟩, hbefore⟩ := List.forall_mem_cons.1 hbefore
        exact .inr ⟨c, hc, bind_eq_panicked.2 (.inl (ih.2 ⟨before, b, after, rfl, hbefore, hb⟩))⟩

/-- Going through a list returns where every element does. -/
theorem Outcome.mapM_returns {ε α β : Type u} {f : α → Outcome ε β} {l : List α} :
    (∃ bs, l.mapM f = .ok bs) ↔ ∀ a ∈ l, ∃ b, f a = .ok b := by
  induction l with
  | nil => exact iff_of_true ⟨[], rfl⟩ (List.forall_mem_nil _)
  | cons a l ih =>
    rw [List.forall_mem_cons, ← ih, List.mapM_cons]
    constructor
    · rintro ⟨_, h⟩
      obtain ⟨b, hb, h⟩ := bind_eq_ok.1 h
      obtain ⟨bs, hbs, -⟩ := bind_eq_ok.1 h
      exact ⟨⟨b, hb⟩, bs, hbs⟩
    · rintro ⟨⟨b, hb⟩, bs, hbs⟩
      exact ⟨b :: bs, bind_eq_ok.2 ⟨b, hb, bind_eq_ok.2 ⟨bs, hbs, rfl⟩⟩⟩

/-- Computations over a state `σ` that may return an error `ε` or panic. -/
abbrev Exec (ε σ : Type u) := ExceptT (Stop ε) (StateM σ)

namespace Exec

variable {ε σ α β : Type u}

/-- The outcome of `m` started in `s`, and the state it leaves. -/
def result (m : Exec ε σ α) (s : σ) : Outcome ε α × σ := Id.run (StateT.run (ExceptT.run m) s)

/-- A stateless outcome as a computation. -/
def lift (x : Outcome ε α) : Exec ε σ α := ExceptT.mk (pure x)

/-- Return the error `e` early if `c` holds. -/
def rejectIf (c : Prop) [Decidable c] (e : ε) : Exec ε σ PUnit :=
  if c then throw (.err e) else pure ⟨⟩

/-- `if c { m }`. -/
def doIf (c : Prop) [Decidable c] (m : Exec ε σ PUnit) : Exec ε σ PUnit :=
  if c then m else pure ⟨⟩

/-- An error as a value; a panic stays a panic. -/
def capture {ε' : Type u} : Outcome ε' α → Outcome ε (Except ε' α)
  | .ok a => .ok (.ok a)
  | .error (.err e) => .ok (.error e)
  | .error .panicked => .error .panicked

/-- `map_err`. -/
def mapErr {ε' : Type u} (f : ε → ε') : Outcome ε α → Outcome ε' α
  | .ok a => .ok a
  | .error (.err e) => .error (.err (f e))
  | .error .panicked => .error .panicked

@[simp] theorem mapErr_eq_ok {ε' : Type u} {f : ε → ε'} {x : Outcome ε α} {a : α} :
    mapErr f x = .ok a ↔ x = .ok a := by
  cases x with
  | ok b => simp [mapErr]
  | error e => cases e <;> simp [mapErr]

/-- Whether the outcome is the error `e`. -/
def failsWith [DecidableEq ε] (e : ε) : Outcome ε α → Bool
  | .error (.err e') => e' = e
  | _ => false

theorem failsWith_iff [DecidableEq ε] {e : ε} {x : Outcome ε α} :
    failsWith e x = true ↔ x = .error (.err e) := by
  cases x with
  | ok a => simp [failsWith]
  | error e' => cases e' <;> simp [failsWith]

theorem exists_of_isOk {m : Exec ε σ α} {s : σ} (h : (result m s).1.isOk) :
    ∃ a s', result m s = (.ok a, s') := by
  cases hr : result m s with
  | mk r s' =>
    rw [hr] at h
    cases r with
    | ok a => exact ⟨a, s', rfl⟩
    | error e => exact nomatch h

/-- Run `m` on a part of the state. -/
def zoom {τ : Type u} (proj : σ → τ) (set : τ → σ → σ) (m : Exec ε τ α) : Exec ε σ α :=
  ExceptT.mk fun s => ((result m (proj s)).1, set (result m (proj s)).2 s)

/-- Run `m` on a part of the state; an error of `m` is returned as a value. -/
def zoomTry {ε' τ : Type u} (proj : σ → τ) (set : τ → σ → σ) (m : Exec ε' τ α) :
    Exec ε σ (Except ε' α) :=
  ExceptT.mk fun s => (capture (result m (proj s)).1, set (result m (proj s)).2 s)

/-- `if let Ok(a) = m`: an error is dropped, a panic stays a panic. -/
def okOrNone (m : Exec ε σ α) : Exec ε σ (Option α) :=
  ExceptT.mk fun s => match result m s with
    | (.ok a, s') => (.ok (some a), s')
    | (.error (.err _), s') => (.ok none, s')
    | (.error .panicked, s') => (.error .panicked, s')

/-- `if let Ok(a) = m { f(a) }`. -/
def ifOk (m : Exec ε σ α) (f : α → Exec ε σ PUnit) : Exec ε σ PUnit := do
  match ← okOrNone m with
  | some a => f a
  | none => pure ⟨⟩

/-- The state that `m` leaves, whether it succeeded or not; `none` if it panicked. -/
def survive (m : Exec ε σ α) (s : σ) : Option σ :=
  match result m s with
  | (.error .panicked, _) => none
  | (_, s') => some s'

theorem result_bind (m : Exec ε σ α) (f : α → Exec ε σ β) (s : σ) :
    result (m >>= f) s = match result m s with
      | (.ok a, s') => result (f a) s'
      | (.error e, s') => (.error e, s') := by
  simp only [result, ExceptT.run_bind, StateT.run_bind, Id.run_bind]
  cases StateT.run (ExceptT.run m) s with
  | mk r s' => cases r <;> rfl

theorem result_bind_ok {m : Exec ε σ α} {f : α → Exec ε σ β} {a : α} {s s' : σ}
    (h : result m s = (.ok a, s')) : result (m >>= f) s = result (f a) s' := by
  rw [result_bind, h]

theorem result_bind_error {m : Exec ε σ α} {f : α → Exec ε σ β} {e : Stop ε} {s s' : σ}
    (h : result m s = (.error e, s')) : result (m >>= f) s = (.error e, s') := by
  rw [result_bind, h]

@[simp] theorem result_pure (a : α) (s : σ) :
    result (pure a : Exec ε σ α) s = (.ok a, s) := rfl

@[simp] theorem result_throw (e : Stop ε) (s : σ) :
    result (throw e : Exec ε σ α) s = (.error e, s) := rfl

@[simp] theorem result_get (s : σ) : result (get : Exec ε σ σ) s = (.ok s, s) := rfl

@[simp] theorem result_modify (f : σ → σ) (s : σ) :
    result (modify f : Exec ε σ PUnit) s = (.ok ⟨⟩, f s) := rfl

@[simp] theorem result_lift (x : Outcome ε α) (s : σ) :
    result (lift x : Exec ε σ α) s = (x, s) := rfl

@[simp] theorem result_zoom {τ : Type u} (proj : σ → τ) (set : τ → σ → σ) (m : Exec ε τ α)
    (s : σ) : result (zoom proj set m) s =
      ((result m (proj s)).1, set (result m (proj s)).2 s) := rfl

@[simp] theorem result_zoomTry {ε' τ : Type u} (proj : σ → τ) (set : τ → σ → σ) (m : Exec ε' τ α)
    (s : σ) : result (zoomTry proj set m : Exec ε σ _) s =
      (capture (result m (proj s)).1, set (result m (proj s)).2 s) := rfl

theorem result_okOrNone (m : Exec ε σ α) (s : σ) : result (okOrNone m) s =
    match result m s with
    | (.ok a, s') => (.ok (some a), s')
    | (.error (.err _), s') => (.ok none, s')
    | (.error .panicked, s') => (.error .panicked, s') := rfl

theorem result_ifOk_ok {m : Exec ε σ α} {f : α → Exec ε σ PUnit} {a : α} {s s' : σ}
    (h : result m s = (.ok a, s')) : result (ifOk m f) s = result (f a) s' :=
  result_bind_ok (a := some a) (by rw [result_okOrNone, h])

theorem result_ifOk_err {m : Exec ε σ α} {f : α → Exec ε σ PUnit} {e : ε} {s s' : σ}
    (h : result m s = (.error (.err e), s')) : result (ifOk m f) s = (.ok ⟨⟩, s') :=
  result_bind_ok (a := none) (by rw [result_okOrNone, h])

theorem result_ifOk_panicked {m : Exec ε σ α} {f : α → Exec ε σ PUnit} {s s' : σ}
    (h : result m s = (.error .panicked, s')) :
    result (ifOk m f) s = (.error .panicked, s') :=
  result_bind_error (by rw [result_okOrNone, h])

theorem result_bind_get (f : σ → Exec ε σ β) (s : σ) :
    result (get >>= f) s = result (f s) s :=
  result_bind_ok (result_get s)

theorem result_bind_modify (g : σ → σ) (f : PUnit → Exec ε σ β) (s : σ) :
    result (modify g >>= f) s = result (f ⟨⟩) (g s) :=
  result_bind_ok (result_modify g s)

theorem result_bind_lift {x : Outcome ε α} {a : α} (h : x = .ok a) (f : α → Exec ε σ β) (s : σ) :
    result (lift x >>= f) s = result (f a) s :=
  result_bind_ok (by rw [result_lift, h])

theorem result_bind_lift_error {x : Outcome ε α} {e : Stop ε} (h : x = .error e)
    (f : α → Exec ε σ β) (s : σ) : result (lift x >>= f) s = (.error e, s) :=
  result_bind_error (by rw [result_lift, h])

theorem result_rejectIf_of {c : Prop} [Decidable c] (h : c) (e : ε) (s : σ) :
    result (rejectIf c e) s = (.error (.err e), s) := by
  unfold rejectIf
  rw [if_pos h]
  rfl

theorem result_rejectIf_of_not {c : Prop} [Decidable c] (h : ¬ c) (e : ε) (s : σ) :
    result (rejectIf c e) s = (.ok ⟨⟩, s) := by
  unfold rejectIf
  rw [if_neg h]
  rfl

theorem result_bind_rejectIf_of {c : Prop} [Decidable c] (h : c) (e : ε)
    (f : PUnit → Exec ε σ β) (s : σ) :
    result (rejectIf c e >>= f) s = (.error (.err e), s) :=
  result_bind_error (result_rejectIf_of h e s)

theorem result_bind_rejectIf {c : Prop} [Decidable c] (h : ¬ c) (e : ε)
    (f : PUnit → Exec ε σ β) (s : σ) :
    result (rejectIf c e >>= f) s = result (f ⟨⟩) s :=
  result_bind_ok (result_rejectIf_of_not h e s)

theorem result_doIf_of {c : Prop} [Decidable c] (h : c) (m : Exec ε σ PUnit) (s : σ) :
    result (doIf c m) s = result m s := by
  unfold doIf
  rw [if_pos h]

theorem result_doIf_of_not {c : Prop} [Decidable c] (h : ¬ c) (m : Exec ε σ PUnit) (s : σ) :
    result (doIf c m) s = (.ok ⟨⟩, s) := by
  unfold doIf
  rw [if_neg h]
  rfl

theorem survive_ok {m : Exec ε σ α} {a : α} {s s' : σ} (h : result m s = (.ok a, s')) :
    survive m s = some s' := by
  rw [survive, h]

theorem survive_err {m : Exec ε σ α} {e : ε} {s s' : σ}
    (h : result m s = (.error (.err e), s')) : survive m s = some s' := by
  rw [survive, h]

theorem survive_panicked {m : Exec ε σ α} {s s' : σ}
    (h : result m s = (.error .panicked, s')) : survive m s = none := by
  rw [survive, h]

theorem survive_eq_some {m : Exec ε σ α} {s s' : σ} :
    survive m s = some s' ↔ ∃ r, result m s = (r, s') ∧ r ≠ .error .panicked := by
  constructor
  · intro h
    cases hm : result m s with
    | mk r s₁ =>
      cases r with
      | ok a =>
        obtain rfl := Option.some.inj ((survive_ok hm).symm.trans h)
        exact ⟨_, rfl, by simp⟩
      | error e =>
        cases e with
        | err e =>
          obtain rfl := Option.some.inj ((survive_err hm).symm.trans h)
          exact ⟨_, rfl, by simp⟩
        | panicked => exact nomatch (survive_panicked hm).symm.trans h
  · rintro ⟨r, hm, hne⟩
    cases r with
    | ok a => exact survive_ok hm
    | error e =>
      cases e with
      | err e => exact survive_err hm
      | panicked => exact absurd rfl hne

/-- A sequence of two steps is survived by an error of the first one, or by both. -/
theorem survive_bind {m : Exec ε σ α} {f : α → Exec ε σ β} {s s' : σ}
    (h : survive (m >>= f) s = some s') : (∃ e, result m s = (.error (.err e), s')) ∨
      ∃ a s₁, result m s = (.ok a, s₁) ∧ survive (f a) s₁ = some s' := by
  cases hm : result m s with
  | mk r s₁ =>
    cases r with
    | ok a =>
      rw [survive, result_bind_ok hm] at h
      exact .inr ⟨a, s₁, rfl, h⟩
    | error e =>
      cases e with
      | err e =>
        rw [survive_err (result_bind_error hm)] at h
        obtain rfl := Option.some.inj h
        exact .inl ⟨e, rfl⟩
      | panicked => exact nomatch (survive_panicked (result_bind_error hm)).symm.trans h

theorem survive_ifOk {m : Exec ε σ α} {f : α → Exec ε σ PUnit} {s s' : σ}
    (h : survive (ifOk m f) s = some s') : (∃ e, result m s = (.error (.err e), s')) ∨
      ∃ a s₁, result m s = (.ok a, s₁) ∧ survive (f a) s₁ = some s' := by
  cases hm : result m s with
  | mk r s₁ =>
    cases r with
    | ok a =>
      rw [survive, result_ifOk_ok hm] at h
      exact .inr ⟨a, s₁, rfl, h⟩
    | error e =>
      cases e with
      | err e =>
        rw [survive, result_ifOk_err hm] at h
        obtain rfl := Option.some.inj h
        exact .inl ⟨e, rfl⟩
      | panicked => exact nomatch (survive_panicked (result_ifOk_panicked hm)).symm.trans h

/-! ### Preconditions -/

/-- Started in `s`, `m` returns a value and a state satisfying `Q`, or stops in a state
satisfying `E`. -/
def wp (m : Exec ε σ α) (Q : α → σ → Prop) (E : Stop ε → σ → Prop) (s : σ) : Prop :=
  match result m s with
  | (.ok a, s') => Q a s'
  | (.error e, s') => E e s'

variable {Q Q' : α → σ → Prop} {E E' : Stop ε → σ → Prop} {s : σ}

theorem wp_of_result {m : Exec ε σ α} {r : Outcome ε α × σ} (h : result m s = r)
    (hQ : ∀ a, r.1 = .ok a → Q a r.2) (hE : ∀ e, r.1 = .error e → E e r.2) : wp m Q E s := by
  obtain ⟨r, s'⟩ := r
  unfold wp
  rw [h]
  cases r with
  | ok a => exact hQ a rfl
  | error e => exact hE e rfl

theorem wp_congr {m m' : Exec ε σ α} (h : result m s = result m' s) :
    wp m Q E s ↔ wp m' Q E s := by
  unfold wp
  rw [h]

/-- A property of the outcome and the state together. -/
theorem result_of_wp {m : Exec ε σ α} {P : Outcome ε α → σ → Prop}
    (h : wp m (fun a => P (.ok a)) (fun e => P (.error e)) s) :
    P (result m s).1 (result m s).2 := by
  unfold wp at h
  cases hr : result m s with
  | mk r s' => cases r <;> simpa [hr] using h

/-- What holds on every exit but a panic holds of the state that is left. -/
theorem survive_of_wp {m : Exec ε σ α} {P : σ → Prop}
    (h : wp m (fun _ => P) (fun e s' => e ≠ .panicked → P s') s) {s' : σ}
    (hs : survive m s = some s') : P s' := by
  obtain ⟨r, hr, hne⟩ := survive_eq_some.1 hs
  unfold wp at h
  rw [hr] at h
  cases r with
  | ok a => exact h
  | error e => exact h fun he => hne (congrArg _ he)

theorem wp.ok {m : Exec ε σ α} {a : α} {s' : σ} (h : wp m Q E s)
    (hr : result m s = (.ok a, s')) : Q a s' := by
  unfold wp at h
  rwa [hr] at h

theorem wp.error {m : Exec ε σ α} {e : Stop ε} {s' : σ} (h : wp m Q E s)
    (hr : result m s = (.error e, s')) : E e s' := by
  unfold wp at h
  rwa [hr] at h

theorem wp.returns {m : Exec ε σ α} (h : wp m Q (fun _ _ => False) s) :
    ∃ a s', result m s = (.ok a, s') ∧ Q a s' := by
  unfold wp at h
  cases hr : result m s with
  | mk r s' =>
    rw [hr] at h
    cases r with
    | ok a => exact ⟨a, s', rfl, h⟩
    | error e => exact h.elim

theorem wp.mono {m : Exec ε σ α} (h : wp m Q E s) (hQ : ∀ a s', Q a s' → Q' a s')
    (hE : ∀ e s', E e s' → E' e s') : wp m Q' E' s :=
  wp_of_result rfl (fun a ha => hQ a _ (h.ok (Prod.ext ha rfl)))
    fun e he => hE e _ (h.error (Prod.ext he rfl))

theorem wp.and {m : Exec ε σ α} (h : wp m Q E s) (h' : wp m Q' E' s) :
    wp m (fun a s' => Q a s' ∧ Q' a s') (fun e s' => E e s' ∧ E' e s') s :=
  wp_of_result rfl (fun _ ha => ⟨h.ok (Prod.ext ha rfl), h'.ok (Prod.ext ha rfl)⟩)
    fun _ he => ⟨h.error (Prod.ext he rfl), h'.error (Prod.ext he rfl)⟩

@[simp] theorem wp_pure (a : α) : wp (pure a) Q E s ↔ Q a s := Iff.rfl

@[simp] theorem wp_throw (e : Stop ε) : wp (throw e) Q E s ↔ E e s := Iff.rfl

@[simp] theorem wp_get {Q : σ → σ → Prop} : wp get Q E s ↔ Q s s := Iff.rfl

@[simp] theorem wp_modify {Q : PUnit → σ → Prop} (f : σ → σ) :
    wp (modify f) Q E s ↔ Q ⟨⟩ (f s) := Iff.rfl

theorem wp_bind {m : Exec ε σ α} {f : α → Exec ε σ β} {Q : β → σ → Prop} :
    wp (m >>= f) Q E s ↔ wp m (fun a s' => wp (f a) Q E s') E s := by
  unfold wp
  rw [result_bind]
  cases result m s with
  | mk r s' => cases r <;> rfl

theorem wp_bind_ok {m : Exec ε σ α} {f : α → Exec ε σ β} {Q : β → σ → Prop} {a : α} {s' : σ}
    (h : result m s = (.ok a, s')) : wp (m >>= f) Q E s ↔ wp (f a) Q E s' := by
  unfold wp
  rw [result_bind_ok h]

theorem wp_lift {x : Outcome ε α} :
    wp (lift x) Q E s ↔ (∀ a, x = .ok a → Q a s) ∧ ∀ e, x = .error e → E e s := by
  unfold wp
  rw [result_lift]
  cases x <;> simp

theorem wp_ite {c : Prop} [Decidable c] {a b : Exec ε σ α} :
    wp (if c then a else b) Q E s ↔ (c → wp a Q E s) ∧ (¬ c → wp b Q E s) := by
  by_cases hc : c <;> simp [hc]

theorem wp_rejectIf {c : Prop} [Decidable c] {e : ε} {Q : PUnit → σ → Prop} :
    wp (rejectIf c e) Q E s ↔ (c → E (.err e) s) ∧ (¬ c → Q ⟨⟩ s) := by
  unfold rejectIf
  rw [wp_ite]
  rfl

theorem wp_doIf {c : Prop} [Decidable c] {m : Exec ε σ PUnit} {Q : PUnit → σ → Prop} :
    wp (doIf c m) Q E s ↔ (c → wp m Q E s) ∧ (¬ c → Q ⟨⟩ s) := by
  unfold doIf
  rw [wp_ite]
  rfl

theorem wp_zoom {τ : Type u} {proj : σ → τ} {set : τ → σ → σ} {m : Exec ε τ α} :
    wp (zoom proj set m) Q E s ↔
      wp m (fun a t => Q a (set t s)) (fun e t => E e (set t s)) (proj s) := by
  unfold wp
  rw [result_zoom]
  cases result m (proj s) with
  | mk r t => cases r <;> rfl

theorem wp_zoomTry {ε' τ : Type u} {proj : σ → τ} {set : τ → σ → σ} {m : Exec ε' τ α}
    {Q : Except ε' α → σ → Prop}
    (hok : ∀ a t, result m (proj s) = (.ok a, t) → Q (.ok a) (set t s))
    (herr : ∀ e t, result m (proj s) = (.error (.err e), t) → Q (.error e) (set t s))
    (hpanic : ∀ t, result m (proj s) = (.error .panicked, t) → E .panicked (set t s)) :
    wp (zoomTry proj set m) Q E s := by
  unfold wp
  rw [result_zoomTry]
  cases hm : result m (proj s) with
  | mk r t =>
    cases r with
    | ok a => exact hok a t hm
    | error e =>
      cases e with
      | err e => exact herr e t hm
      | panicked => exact hpanic t hm

theorem wp_ifOk {m : Exec ε σ α} {f : α → Exec ε σ PUnit} {Q : PUnit → σ → Prop}
    (h : wp m (fun a s' => wp (f a) Q E s')
      (fun e s' => (e ≠ .panicked → Q ⟨⟩ s') ∧ (e = .panicked → E .panicked s')) s) :
    wp (ifOk m f) Q E s := by
  unfold ifOk
  rw [wp_bind]
  unfold wp at h ⊢
  rw [result_okOrNone]
  cases hm : result m s with
  | mk r s' =>
    rw [hm] at h
    cases r with
    | ok a => exact h
    | error e =>
      cases e with
      | err e => exact h.1 (by simp)
      | panicked => exact h.2 rfl

/-- A loop keeps what its body keeps. -/
theorem wp_forM {l : List α} {f : α → Exec ε σ PUnit} {I : σ → Prop}
    (hf : ∀ a ∈ l, ∀ s, I s → wp (f a) (fun _ => I) E s) (hs : I s) :
    wp (l.forM f) (fun _ => I) E s := by
  induction l generalizing s with
  | nil => exact hs
  | cons a l ih =>
    change wp (f a >>= fun _ => l.forM f) _ _ s
    rw [wp_bind]
    exact (hf a List.mem_cons_self s hs).mono
      (fun _ s' hs' => ih (fun b hb => hf b (List.mem_cons_of_mem _ hb)) hs') fun _ _ h => h

/-- A fold keeps what its body keeps. -/
theorem wp_foldlM {l : List β} {f : α → β → Exec ε σ α} {a : α} {I : α → σ → Prop}
    (hf : ∀ a, ∀ b ∈ l, ∀ s, I a s → wp (f a b) I E s) (hs : I a s) : wp (l.foldlM f a) I E s := by
  induction l generalizing a s with
  | nil => exact hs
  | cons b l ih =>
    rw [List.foldlM_cons, wp_bind]
    exact (hf a b List.mem_cons_self s hs).mono
      (fun a' s' hs' => ih (fun a b hb => hf a b (List.mem_cons_of_mem _ hb)) hs') fun _ _ h => h

/-! ### Moving along a relation -/

/-- Started in `s`, `m` moves along `R` on every exit, and what it returns satisfies `Q`. -/
def Steps (R : σ → σ → Prop) (m : Exec ε σ α) (Q : α → σ → Prop) (s : σ) : Prop :=
  wp m (fun a s' => Relation.ReflTransGen R s s' ∧ Q a s')
    (fun _ s' => Relation.ReflTransGen R s s') s

variable {R R' : σ → σ → Prop} {m : Exec ε σ α}

theorem Steps.reach (h : Steps R m Q s) : Relation.ReflTransGen R s (result m s).2 := by
  unfold Steps wp at h
  cases hr : result m s with
  | mk r s' => cases r <;> simp_all

theorem Steps.reached (h : Steps R m Q s) {r : Except (Stop ε) α} {s' : σ}
    (hr : result m s = (r, s')) : Relation.ReflTransGen R s s' := by
  have := h.reach
  rwa [hr] at this

theorem Steps.survive (h : Steps R m Q s) {s' : σ} (hs : Exec.survive m s = some s') :
    Relation.ReflTransGen R s s' := by
  obtain ⟨r, hr, -⟩ := survive_eq_some.1 hs
  exact h.reached hr

theorem Steps.ok (h : Steps R m Q s) {a : α} {s' : σ} (hr : result m s = (.ok a, s')) :
    Q a s' :=
  (wp.ok h hr).2

theorem Steps.mono (h : Steps R m Q s)
    (hQ : ∀ a s', Relation.ReflTransGen R s s' → Q a s' → Q' a s') : Steps R m Q' s :=
  wp.mono h (fun a s' ⟨hr, hq⟩ => ⟨hr, hQ a s' hr hq⟩) fun _ _ hr => hr

theorem Steps.weaken (h : Steps R m Q s) (hR : ∀ a b, R a b → R' a b) : Steps R' m Q s :=
  wp.mono h (fun _ _ ⟨hr, hq⟩ => ⟨Relation.ReflTransGen.mono hR _ _ hr, hq⟩)
    fun _ _ hr => Relation.ReflTransGen.mono hR _ _ hr

theorem Steps.and_wp {E : Stop ε → σ → Prop} (h : Steps R m Q s) (h' : wp m Q' E s) :
    Steps R m (fun a s' => Q a s' ∧ Q' a s') s :=
  (wp.and h h').mono (fun _ _ ⟨⟨hr, hq⟩, hq'⟩ => ⟨hr, hq, hq'⟩) fun _ _ ⟨hr, _⟩ => hr

/-- What the relation preserves, the computation preserves. -/
theorem Steps.keeps (h : Steps R m Q s) {I : σ → Prop} (hR : ∀ a b, R a b → I a → I b)
    (hs : I s) : wp m (fun _ => I) (fun _ => I) s := by
  have reached : ∀ s', Relation.ReflTransGen R s s' → I s' := by
    intro s' hr
    induction hr with
    | refl => exact hs
    | tail _ hab ih => exact hR _ _ hab ih
  exact wp.mono h (fun _ s' ⟨hr, _⟩ => reached s' hr) fun _ s' hr => reached s' hr

namespace Steps

theorem pure {a : α} (h : Q a s) : Steps R (pure a : Exec ε σ α) Q s := ⟨.refl, h⟩

theorem throw {e : Stop ε} : Steps R (throw e : Exec ε σ α) Q s := Relation.ReflTransGen.refl

theorem get {Q : σ → σ → Prop} (h : Q s s) : Steps R (get : Exec ε σ σ) Q s :=
  ⟨.refl, h⟩

theorem modify {Q : PUnit → σ → Prop} {f : σ → σ} (hR : R s (f s)) (h : Q ⟨⟩ (f s)) :
    Steps R (modify f : Exec ε σ PUnit) Q s :=
  ⟨.single hR, h⟩

theorem lift {x : Outcome ε α} (h : ∀ a, x = .ok a → Q a s) :
    Steps R (Exec.lift x : Exec ε σ α) Q s :=
  wp_lift.2 ⟨fun a ha => ⟨.refl, h a ha⟩, fun _ _ => .refl⟩

theorem zoomTry {ε' τ : Type u} {proj : σ → τ} {set : τ → σ → σ} {m : Exec ε' τ α}
    {Q : Except ε' α → σ → Prop} (hR : R s (set (result m (proj s)).2 s))
    (hQ : ∀ r, capture (ε := ε) (result m (proj s)).1 = .ok r →
      Q r (set (result m (proj s)).2 s)) :
    Steps R (Exec.zoomTry proj set m : Exec ε σ _) Q s :=
  wp_of_result (result_zoomTry _ _ _ _) (fun r hr => ⟨.single hR, hQ r hr⟩) fun _ _ => .single hR

/-- A computation as one move. -/
theorem whole (hR : R s (result m s).2) (hQ : ∀ a, (result m s).1 = .ok a → Q a (result m s).2) :
    Steps R m Q s :=
  wp_of_result rfl (fun a ha => ⟨.single hR, hQ a ha⟩) fun _ _ => .single hR

theorem okOrNone (h : Steps R m Q s) :
    Steps R (Exec.okOrNone m) (fun o s' => ∀ a, o = some a → Q a s') s := by
  unfold Steps wp at h ⊢
  rw [result_okOrNone]
  generalize result m s = r at h
  obtain ⟨r, s'⟩ := r
  cases r with
  | ok a => exact ⟨h.1, fun _ ha => by obtain rfl := Option.some.inj ha; exact h.2⟩
  | error e =>
    cases e with
    | err e => exact ⟨h, fun _ ha => nomatch ha⟩
    | panicked => exact h

theorem rejectIf {c : Prop} [Decidable c] {e : ε} {Q : PUnit → σ → Prop}
    (h : ¬ c → Q ⟨⟩ s) : Steps R (Exec.rejectIf c e) Q s :=
  wp_rejectIf.2 ⟨fun _ => .refl, fun hc => ⟨.refl, h hc⟩⟩

theorem ite {c : Prop} [Decidable c] {a b : Exec ε σ α} (ha : c → Steps R a Q s)
    (hb : ¬ c → Steps R b Q s) : Steps R (if c then a else b) Q s :=
  wp_ite.2 ⟨ha, hb⟩

theorem doIf {c : Prop} [Decidable c] {m : Exec ε σ PUnit} {Q : PUnit → σ → Prop}
    (hm : c → Steps R m Q s) (h : ¬ c → Q ⟨⟩ s) : Steps R (Exec.doIf c m) Q s :=
  wp_doIf.2 ⟨hm, fun hc => ⟨.refl, h hc⟩⟩

theorem bind {f : α → Exec ε σ β} {Q : β → σ → Prop} {P : α → σ → Prop} (hm : Steps R m P s)
    (hf : ∀ a s', Relation.ReflTransGen R s s' → P a s' → Steps R (f a) Q s') :
    Steps R (m >>= f) Q s := by
  refine wp_bind.2 (wp.mono hm (fun a s' ⟨hr, hp⟩ => ?_) fun _ _ hr => hr)
  exact wp.mono (hf a s' hr hp) (fun _ _ ⟨hr', hq⟩ => ⟨hr.trans hr', hq⟩)
    fun _ _ hr' => hr.trans hr'

theorem bind_get {f : σ → Exec ε σ β} {Q : β → σ → Prop} (h : Steps R (f s) Q s) :
    Steps R (MonadState.get >>= f) Q s :=
  bind (P := fun a s' => a = s ∧ s' = s) (get ⟨rfl, rfl⟩) (by rintro _ _ - ⟨rfl, rfl⟩; exact h)

theorem bind_lift {x : Outcome ε α} {f : α → Exec ε σ β} {Q : β → σ → Prop}
    (h : ∀ a, x = .ok a → Steps R (f a) Q s) : Steps R (Exec.lift x >>= f) Q s :=
  bind (P := fun a s' => x = .ok a ∧ s' = s) (lift fun _ ha => ⟨ha, rfl⟩)
    (by rintro a _ - ⟨ha, rfl⟩; exact h a ha)

theorem bind_rejectIf {c : Prop} [Decidable c] {e : ε} {f : PUnit → Exec ε σ β}
    {Q : β → σ → Prop} (h : ¬ c → Steps R (f ⟨⟩) Q s) :
    Steps R (Exec.rejectIf c e >>= f) Q s :=
  bind (P := fun _ s' => ¬ c ∧ s' = s) (rejectIf fun hc => ⟨hc, rfl⟩)
    (by rintro _ _ - ⟨hc, rfl⟩; exact h hc)

theorem bind_modify {g : σ → σ} {f : PUnit → Exec ε σ β} {Q : β → σ → Prop} (hR : R s (g s))
    (h : Steps R (f ⟨⟩) Q (g s)) :
    Steps R ((MonadState.modifyGet fun s => (⟨⟩, g s)) >>= f) Q s :=
  bind (P := fun _ s' => s' = g s) (modify hR rfl) (by rintro _ _ - rfl; exact h)

/-- An update that changes nothing is no move. -/
theorem bind_modify_self {g : σ → σ} {f : PUnit → Exec ε σ β} {Q : β → σ → Prop} (hg : g s = s)
    (h : Steps R (f ⟨⟩) Q s) :
    Steps R ((MonadState.modifyGet fun s => (⟨⟩, g s)) >>= f) Q s := by
  refine bind (P := fun _ s' => s' = s) (wp_modify g |>.2 ⟨?_, hg⟩) (by rintro _ _ - rfl; exact h)
  rw [hg]

theorem ifOk {f : α → Exec ε σ PUnit} {Q' : PUnit → σ → Prop} (hm : Steps R m Q s)
    (hf : ∀ a s', Relation.ReflTransGen R s s' → Q a s' → Steps R (f a) Q' s')
    (hn : ∀ s', Relation.ReflTransGen R s s' → Q' ⟨⟩ s') : Steps R (Exec.ifOk m f) Q' s := by
  refine bind (okOrNone hm) ?_
  intro o s' hr ho
  cases o with
  | some a => exact hf a s' hr (ho a rfl)
  | none => exact pure (hn s' hr)

theorem forM {l : List α} {f : α → Exec ε σ PUnit} {I : σ → Prop}
    (hf : ∀ a ∈ l, ∀ s, I s → Steps R (f a) (fun _ => I) s) (hs : I s) :
    Steps R (l.forM f) (fun _ => I) s := by
  induction l generalizing s with
  | nil => exact ⟨.refl, hs⟩
  | cons a l ih =>
    change Steps R (f a >>= fun _ => l.forM f) _ s
    exact bind (hf a List.mem_cons_self s hs) fun _ s' _ hs' =>
      ih (fun b hb => hf b (List.mem_cons_of_mem _ hb)) hs'

theorem foldlM {l : List β} {f : α → β → Exec ε σ α} {a : α} {I : α → σ → Prop}
    (hf : ∀ a, ∀ b ∈ l, ∀ s, I a s → Steps R (f a b) I s) (hs : I a s) :
    Steps R (l.foldlM f a) I s := by
  induction l generalizing a s with
  | nil => exact ⟨.refl, hs⟩
  | cons b l ih =>
    rw [List.foldlM_cons]
    exact bind (hf a b List.mem_cons_self s hs) fun a' s' _ hs' =>
      ih (fun a b hb => hf a b (List.mem_cons_of_mem _ hb)) hs'

end Steps

/-- An invariant of the relation is an invariant of everything that moves along it. -/
theorem invariant_of_moves {I : σ → Prop} (hR : ∀ s s', R s s' → I s → I s') {s s' : σ}
    (h : Relation.ReflTransGen R s s') (hs : I s) : I s' := by
  induction h with
  | refl => exact hs
  | tail _ hst ih => exact hR _ _ hst ih

end Exec

end ConsensusBft

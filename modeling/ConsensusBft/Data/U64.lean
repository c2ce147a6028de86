import ConsensusBft.Logic.Exec
import Mathlib.Algebra.BigOperators.Group.List.Basic
import Mathlib.Algebra.GroupWithZero.Nat
import Mathlib.Algebra.Order.BigOperators.Group.List

/-!
# Machine integers

Arithmetic on `u64` that leaves the range panics in a build with overflow checks and wraps in a
build without.  The flag `checks` says which build is meant; where an operation stays in range
both give the integer result (`add64_of_lt`, `sub64_of_le`, `sum64_eq`).
-/

namespace ConsensusBft

variable {ε : Type} {checks : Bool} {a b n : UInt64}

/-- `a + b`. -/
def add64 (checks : Bool) (a b : UInt64) : Outcome ε UInt64 :=
  if checks ∧ 2 ^ 64 ≤ a.toNat + b.toNat then .error .panicked else .ok (a + b)

/-- `a - b`. -/
def sub64 (checks : Bool) (a b : UInt64) : Outcome ε UInt64 :=
  if checks ∧ a < b then .error .panicked else .ok (a - b)

/-- `a * b`. -/
def mul64 (checks : Bool) (a b : UInt64) : Outcome ε UInt64 :=
  if checks ∧ 2 ^ 64 ≤ a.toNat * b.toNat then .error .panicked else .ok (a * b)

/-- `iter().sum()`. -/
def sum64 (checks : Bool) (l : List UInt64) : Outcome ε UInt64 := l.foldlM (add64 checks) 0

theorem add64_of_lt (h : a.toNat + b.toNat < 2 ^ 64) :
    add64 (ε := ε) checks a b = .ok (a + b) := by
  rw [add64, if_neg (by omega)]

theorem add64_eq_panicked : add64 (ε := ε) checks a b = .error .panicked ↔
    checks = true ∧ 2 ^ 64 ≤ a.toNat + b.toNat := by
  unfold add64
  split_ifs with h
  · exact iff_of_true rfl h
  · exact iff_of_false nofun h

theorem sub64_eq_panicked :
    sub64 (ε := ε) checks a b = .error .panicked ↔ checks = true ∧ a < b := by
  unfold sub64
  split_ifs with h
  · exact iff_of_true rfl h
  · exact iff_of_false nofun h

theorem sub64_of_le (h : b ≤ a) : sub64 (ε := ε) checks a b = .ok (a - b) := by
  rw [sub64, if_neg (by simp [UInt64.not_lt.2 h])]

/-- A product with a value that fits. -/
theorem mul64_ofNat (b : UInt64) (k : ℕ) (hk : checks = true → k < 2 ^ 64) :
    mul64 (ε := ε) checks (UInt64.ofNat k) b =
      if checks ∧ 2 ^ 64 ≤ b.toNat * k then .error .panicked
      else .ok (UInt64.ofNat (b.toNat * k)) := by
  have hval : UInt64.ofNat k * b = UInt64.ofNat (b.toNat * k) := by
    rw [UInt64.ofNat_mul, UInt64.ofNat_toNat, UInt64.mul_comm]
  unfold mul64
  rw [hval]
  cases checks with
  | false => simp
  | true => rw [UInt64.toNat_ofNat', Nat.mod_eq_of_lt (hk rfl), mul_comm]

/-- Whatever the build, a value of `a + b` is the wrapped sum. -/
theorem add64_ok (h : add64 (ε := ε) checks a b = .ok n) : n = a + b := by
  unfold add64 at h
  split_ifs at h
  exact (Except.ok.inj h).symm

/-- An addition has no other error. -/
theorem add64_error {e : Stop ε} (h : add64 checks a b = .error e) : e = .panicked := by
  unfold add64 at h
  split_ifs at h
  exact (Except.error.inj h).symm

/-- `a + 1` only overflows where it wraps to `0`. -/
theorem add64_one (checks : Bool) (a : UInt64) : add64 (ε := ε) checks a 1 =
    if checks ∧ a + 1 = 0 then .error .panicked else .ok (a + 1) := by
  have hlt := a.toNat_lt
  have hwraps : 2 ^ 64 ≤ a.toNat + (1 : UInt64).toNat ↔ a + 1 = 0 := by
    rw [← UInt64.toNat_inj, UInt64.toNat_add, UInt64.toNat_one, UInt64.toNat_zero]
    omega
  unfold add64
  simp only [hwraps]

theorem sub64_ok (h : sub64 (ε := ε) checks a b = .ok n) :
    n = a - b ∧ (checks = true → b ≤ a) := by
  unfold sub64 at h
  split_ifs at h with hc
  exact ⟨(Except.ok.inj h).symm, fun hch => UInt64.not_lt.1 fun hlt => hc ⟨hch, hlt⟩⟩

theorem foldlM_add64 (l : List UInt64) (a : UInt64) :
    l.foldlM (add64 (ε := ε) checks) a =
      if checks ∧ 2 ^ 64 ≤ a.toNat + (l.map UInt64.toNat).sum then .error .panicked
      else .ok (a + UInt64.ofNat (l.map UInt64.toNat).sum) := by
  induction l generalizing a with
  | nil =>
    have ha := a.toNat_lt
    rw [if_neg (by simp; omega)]
    simp [Pure.pure, Except.pure]
  | cons b l ih =>
    rw [List.foldlM_cons]
    simp only [List.map_cons, List.sum_cons]
    unfold add64
    split_ifs with hc hs hs
    · rfl
    · exact absurd ⟨hc.1, by omega⟩ hs
    · -- the rest of the list overflows
      change List.foldlM (add64 checks) (a + b) l = _
      rw [ih, if_pos]
      have hlt : a.toNat + b.toNat < 2 ^ 64 := by simp_all
      rw [UInt64.toNat_add, Nat.mod_eq_of_lt hlt]
      exact ⟨hs.1, by omega⟩
    · change List.foldlM (add64 checks) (a + b) l = _
      rw [ih, if_neg]
      · rw [UInt64.ofNat_add, UInt64.ofNat_toNat, UInt64.add_assoc]
      · rintro ⟨hch, hle⟩
        have hmod := Nat.mod_le (a.toNat + b.toNat) (2 ^ 64)
        rw [UInt64.toNat_add] at hle
        exact hs ⟨hch, by omega⟩

/-- A sum is that of the integers, wrapped in a build that does not check. -/
theorem sum64_eq (l : List UInt64) : sum64 (ε := ε) checks l =
    if checks ∧ 2 ^ 64 ≤ (l.map UInt64.toNat).sum then .error .panicked
    else .ok (UInt64.ofNat (l.map UInt64.toNat).sum) := by
  simp [sum64, foldlM_add64]

end ConsensusBft

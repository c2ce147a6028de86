import Mathlib.Algebra.GroupWithZero.Nat
import Mathlib.Data.List.AList

/-!
# Hash maps

A hash map is an association list without repeated keys (Mathlib's `AList`); the order of the
list stands for an iteration order that nothing may rely on.

* `HashMap.orInsert` : `entry(k).or_insert(v)`, the first writer wins.
* `HashMap.pushEntry` : `entry(k).or_insert_with(Vec::new).push(v)`.
* `HashMap.Equal` : equality of maps.
-/

namespace ConsensusBft

/-- A finite map from `κ` to `α`. -/
abbrev HashMap (κ α : Type*) := AList fun _ : κ => α

namespace HashMap

variable {κ α : Type*} [DecidableEq κ]

/-- `entry(k).or_insert(v)`: an entry that is there already is kept. -/
def orInsert (m : HashMap κ α) (k : κ) (v : α) : HashMap κ α :=
  match m.lookup k with
  | some _ => m
  | none => m.insert k v

/-- `entry(k).or_insert_with(Vec::new).push(v)`. -/
def pushEntry (m : HashMap κ (List α)) (k : κ) (v : α) : HashMap κ (List α) :=
  m.insert k ((m.lookup k).getD [] ++ [v])

theorem orInsert_of_some {m : HashMap κ α} {k : κ} {v w : α} (h : m.lookup k = some w) :
    m.orInsert k v = m := by
  simp [orInsert, h]

theorem lookup_orInsert (m : HashMap κ α) (k k' : κ) (v : α) :
    (m.orInsert k v).lookup k' = if k' = k then some ((m.lookup k).getD v) else m.lookup k' := by
  unfold orInsert
  by_cases hk : k' = k
  · subst hk
    cases h : m.lookup k' with
    | none => simp
    | some w => simp [h]
  · rw [if_neg hk]
    cases h : m.lookup k with
    | none => simp [AList.lookup_insert_ne hk]
    | some w => rfl

/-- An entry found after `orInsert` was there before, or is the new one. -/
theorem lookup_orInsert_cases {m : HashMap κ α} {k k' : κ} {v w : α}
    (h : (m.orInsert k v).lookup k' = some w) :
    m.lookup k' = some w ∨ (k' = k ∧ w = v ∧ m.lookup k = none) := by
  rw [lookup_orInsert] at h
  by_cases hk : k' = k
  · subst hk
    rw [if_pos rfl] at h
    cases hm : m.lookup k' with
    | none => rw [hm] at h; simp_all
    | some u => rw [hm] at h; simp_all
  · rw [if_neg hk] at h
    exact Or.inl h

/-- Erasing several keys. -/
theorem lookup_foldl_erase (ks : List κ) (m : HashMap κ α) (k : κ) :
    (ks.foldl (fun m k => m.erase k) m).lookup k = if k ∈ ks then none else m.lookup k := by
  induction ks generalizing m with
  | nil => rfl
  | cons k' ks ih =>
    rw [List.foldl_cons, ih]
    by_cases hk : k ∈ ks
    · rw [if_pos hk, if_pos (List.mem_cons_of_mem k' hk)]
    · by_cases heq : k = k'
      · subst heq
        rw [if_neg hk, if_pos List.mem_cons_self, AList.lookup_erase]
      · rw [if_neg hk, if_neg (by rw [List.mem_cons, not_or]; exact ⟨heq, hk⟩),
          AList.lookup_erase_ne heq]

theorem lookup_pushEntry (m : HashMap κ (List α)) (k k' : κ) (v : α) :
    (m.pushEntry k v).lookup k' =
      if k' = k then some ((m.lookup k).getD [] ++ [v]) else m.lookup k' := by
  unfold pushEntry
  by_cases hk : k' = k
  · subst hk
    simp
  · simp [hk, AList.lookup_insert_ne hk]

@[simp] theorem mem_pushEntry {m : HashMap κ (List α)} {k k' : κ} {v : α} :
    k' ∈ m.pushEntry k v ↔ k' = k ∨ k' ∈ m :=
  AList.mem_insert m

/-- What is found under a key after a push was there before, or is the pushed value. -/
theorem mem_of_pushEntry {m : HashMap κ (List α)} {k k' : κ} {v w : α} {l : List α}
    (h : (m.pushEntry k v).lookup k' = some l) (hw : w ∈ l) :
    (∃ l', m.lookup k' = some l' ∧ w ∈ l') ∨ (k' = k ∧ w = v) := by
  rw [lookup_pushEntry] at h
  by_cases hk : k' = k
  · subst hk
    rw [if_pos rfl] at h
    obtain rfl := Option.some.inj h
    rcases List.mem_append.1 hw with hw | hw
    · cases hm : m.lookup k' with
      | none => simp [hm] at hw
      | some l' => exact Or.inl ⟨l', rfl, by simpa [hm] using hw⟩
    · exact Or.inr ⟨rfl, List.mem_singleton.1 hw⟩
  · rw [if_neg hk] at h
    exact Or.inl ⟨l, h, hw⟩

/-- Equality of maps (`PartialEq`): the order of the entries does not count. -/
def Equal (m m' : HashMap κ α) : Prop := ∀ k, m.lookup k = m'.lookup k

theorem equal_iff_perm {m m' : HashMap κ α} : m.Equal m' ↔ m.entries.Perm m'.entries := by
  constructor
  · intro h
    refine List.lookup_ext m.nodupKeys m'.nodupKeys fun k v => ?_
    rw [show m.entries.dlookup k = m'.entries.dlookup k from h k]
  · exact fun h k => AList.perm_lookup h

/-- Entries that are new to a map are put in front of it one after the other. -/
theorem entries_foldl_insert {l : List (Sigma fun _ : κ => α)} {m : HashMap κ α}
    (hl : (l.map Sigma.fst).Nodup) (hm : ∀ kv ∈ l, kv.1 ∉ m) :
    (l.foldl (fun m kv => m.insert kv.1 kv.2) m).entries = l.reverse ++ m.entries := by
  induction l generalizing m with
  | nil => rfl
  | cons kv l ih =>
    rw [List.map_cons, List.nodup_cons] at hl
    have hnew : ∀ kv' ∈ l, kv'.1 ∉ m.insert kv.1 kv.2 := by
      intro kv' hmem hin
      rcases (AList.mem_insert m).1 hin with heq | hin
      · exact hl.1 (heq ▸ List.mem_map_of_mem hmem)
      · exact hm kv' (List.mem_cons_of_mem kv hmem) hin
    rw [List.foldl_cons, ih hl.2 hnew, AList.entries_insert_of_notMem (hm kv List.mem_cons_self)]
    simp

/-- What is found after an erasure was there before. -/
theorem lookup_of_erase {m : HashMap κ α} {k k' : κ} {v : α}
    (h : (m.erase k).lookup k' = some v) : m.lookup k' = some v := by
  by_cases hk : k' = k
  · subst hk
    rw [AList.lookup_erase] at h
    exact nomatch h
  · rwa [AList.lookup_erase_ne hk] at h

/-! ### Sums -/

/-- The sum of `f` over all elements of all lists of a map. -/
def sumAll (f : α → ℕ) (m : HashMap κ (List α)) : ℕ :=
  (m.entries.map fun kv => (kv.2.map f).sum).sum

/-- The list of one key apart from the others. -/
theorem sumAll_eq (f : α → ℕ) (m : HashMap κ (List α)) (k : κ) :
    sumAll f m = sumAll f (m.erase k) + (((m.lookup k).getD []).map f).sum := by
  unfold sumAll
  change _ = ((m.entries.kerase k).map _).sum + (((m.entries.dlookup k).getD []).map f).sum
  induction m.entries with
  | nil => rfl
  | cons kv l ih =>
    by_cases hk : k = kv.1
    · subst hk
      rw [List.kerase_cons_eq rfl, List.dlookup_cons_eq]
      simp [Nat.add_comm]
    · rw [List.kerase_cons_ne hk, List.dlookup_cons_ne _ _ hk, List.map_cons, List.map_cons,
        List.sum_cons, List.sum_cons, ih]
      omega

/-- A push adds its element. -/
theorem sumAll_pushEntry (f : α → ℕ) (m : HashMap κ (List α)) (k : κ) (a : α) :
    sumAll f (m.pushEntry k a) = sumAll f m + f a := by
  have hpush : sumAll f (m.pushEntry k a) =
      (((m.lookup k).getD [] ++ [a]).map f).sum + sumAll f (m.erase k) := by
    unfold sumAll pushEntry
    rw [AList.entries_insert, List.map_cons, List.sum_cons]
    rfl
  rw [hpush, sumAll_eq f m k, List.map_append, List.sum_append, List.map_singleton,
    List.sum_singleton]
  omega

end HashMap

end ConsensusBft

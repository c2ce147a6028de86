import ConsensusBft.Data.HashMap
import Mathlib.Data.Finset.Card
import Mathlib.Data.Finset.Dedup

/-!
# Least-recently-used caches

`LruCache cap κ α` keeps at most `cap` entries, the most recently used first.  Inserting a new
key into a full cache evicts the last entry; every access to a key through `getMut` or `insert`
moves it to the front.

The law of such a cache is about *distinct* keys: an entry can only be evicted by `cap` distinct
other keys used after it.  It is stated with `Recent S k c`: the keys used since `k` was last
used all belong to the finite set `S`.  An access to a key of `S` keeps `Recent S k`
(`Recent.insert`, `Recent.getMut`) as long as `S` has fewer than `cap` elements, and with it the
entry of `k`.
-/

namespace ConsensusBft

/-- A cache of at most `cap` entries, the most recently used first. -/
structure LruCache (cap : ℕ) (κ α : Type*) where
  map : HashMap κ α
  length_le : map.entries.length ≤ cap

namespace LruCache

variable {cap : ℕ} {κ α : Type*} [DecidableEq κ]

/-- The empty cache. -/
def new : LruCache cap κ α := ⟨∅, Nat.zero_le _⟩

/-- The entry of `k`, without counting as a use of `k`. -/
def peek (c : LruCache cap κ α) (k : κ) : Option α := c.map.lookup k

theorem length_entries_insert (m : HashMap κ α) (k : κ) (v : α) :
    (m.insert k v).entries.length ≤ m.entries.length + 1 := by
  rw [AList.entries_insert, List.length_cons]
  exact Nat.succ_le_succ (List.kerase_sublist k m.entries).length_le

/-- Insert or overwrite the entry of `k`, evicting the least recently used entry if the cache
would exceed its capacity. -/
def insert (c : LruCache cap κ α) (k : κ) (v : α) : LruCache cap κ α :=
  if h : (c.map.insert k v).entries.length ≤ cap then ⟨c.map.insert k v, h⟩
  else
    { map := ⟨(c.map.insert k v).entries.dropLast,
        (c.map.insert k v).nodupKeys.sublist (List.dropLast_sublist _)⟩
      length_le := by
        have := length_entries_insert c.map k v
        have := c.length_le
        rw [List.length_dropLast]
        omega }

/-- `get_mut`: the entry of `k`, which becomes the most recently used one. -/
def getMut (c : LruCache cap κ α) (k : κ) : Option α × LruCache cap κ α :=
  match c.peek k with
  | some v => (some v, c.insert k v)
  | none => (none, c)

theorem mem_keys_of_peek {c : LruCache cap κ α} {k : κ} {v : α} (h : c.peek k = some v) :
    k ∈ c.map.keys := by
  rw [← AList.mem_keys, ← AList.lookup_isSome]
  unfold peek at h
  simp [h]

theorem insert_map (c : LruCache cap κ α) (k : κ) (v : α) :
    (c.insert k v).map = c.map.insert k v ∧ (c.map.insert k v).entries.length ≤ cap ∨
      (c.insert k v).map.entries = (c.map.insert k v).entries.dropLast ∧
        cap < (c.map.insert k v).entries.length := by
  unfold insert
  split_ifs with h
  · exact Or.inl ⟨rfl, h⟩
  · exact Or.inr ⟨rfl, not_le.1 h⟩

/-- Overwriting an entry that is there evicts nothing. -/
theorem insert_map_of_peek {c : LruCache cap κ α} {k : κ} {v w : α} (h : c.peek k = some w) :
    (c.insert k v).map = c.map.insert k v := by
  rcases insert_map c k v with ⟨hm, -⟩ | ⟨-, hlt⟩
  · exact hm
  · exfalso
    have hk : k ∈ c.map.keys := mem_keys_of_peek h
    have hlen : (c.map.insert k v).keys.length = c.map.keys.length := by
      rw [AList.keys_insert, List.length_cons, List.length_erase_of_mem hk]
      have := List.length_pos_of_mem hk
      omega
    simp only [AList.keys, List.keys, List.length_map] at hlen
    have := c.length_le
    omega

/-- Entries that survive an insertion were there before, or are the new one. -/
theorem peek_insert_cases {c : LruCache cap κ α} {k k' : κ} {v w : α}
    (h : (c.insert k v).peek k' = some w) : k' = k ∧ w = v ∨ k' ≠ k ∧ c.peek k' = some w := by
  have hmem : ⟨k', w⟩ ∈ (c.map.insert k v).entries := by
    have hw : ⟨k', w⟩ ∈ (c.insert k v).map.entries := AList.mem_lookup_iff.1 h
    rcases insert_map c k v with ⟨hm, -⟩ | ⟨hm, -⟩
    · rwa [hm] at hw
    · rw [hm] at hw
      exact List.mem_of_mem_dropLast hw
  have hl : (c.map.insert k v).lookup k' = some w := AList.mem_lookup_iff.2 hmem
  by_cases hk : k' = k
  · subst hk
    rw [AList.lookup_insert] at hl
    exact Or.inl ⟨rfl, (Option.some.inj hl).symm⟩
  · rw [AList.lookup_insert_ne hk] at hl
    exact Or.inr ⟨hk, hl⟩

theorem getMut_fst (c : LruCache cap κ α) (k : κ) : (c.getMut k).1 = c.peek k := by
  unfold getMut
  cases h : c.peek k <;> rfl

/-- A use of a key changes no entry. -/
theorem peek_getMut (c : LruCache cap κ α) (k k' : κ) : (c.getMut k).2.peek k' = c.peek k' := by
  unfold getMut
  cases h : c.peek k with
  | none => rfl
  | some v =>
    change ((c.insert k v).map).lookup k' = c.peek k'
    rw [insert_map_of_peek h]
    by_cases hk : k' = k
    · subst hk
      rw [AList.lookup_insert, h]
    · rw [AList.lookup_insert_ne hk]
      rfl

/-! ### Which entries survive -/

/-- The entry of `k` is `v`, and every key used after the last use of `k` belongs to `S`. -/
def Recent (S : Finset κ) (k : κ) (v : α) (c : LruCache cap κ α) : Prop :=
  ∃ l₁ l₂, c.map.entries = l₁ ++ ⟨k, v⟩ :: l₂ ∧ ∀ e ∈ l₁, e.1 ∈ S

namespace Recent

variable {S : Finset κ} {k k' : κ} {v w : α} {c : LruCache cap κ α}

theorem peek (h : Recent S k v c) : c.peek k = some v := by
  obtain ⟨l₁, l₂, he, -⟩ := h
  exact AList.mem_lookup_iff.2 (by rw [he]; simp)

omit [DecidableEq κ] in
theorem mono {T : Finset κ} (h : Recent S k v c) (hST : S ⊆ T) : Recent T k v c := by
  obtain ⟨l₁, l₂, he, hS⟩ := h
  exact ⟨l₁, l₂, he, fun e he => hST (hS e he)⟩

/-- The key inserted last is the most recently used one. -/
theorem insert_self (hcap : 0 < cap) : Recent S k v (c.insert k v) := by
  rcases insert_map c k v with ⟨hm, -⟩ | ⟨hm, hlt⟩
  · exact ⟨[], _, by rw [hm, AList.entries_insert]; rfl, by simp⟩
  · rw [AList.entries_insert] at hm hlt
    cases hl : List.kerase k c.map.entries with
    | nil => rw [hl, List.length_singleton] at hlt; omega
    | cons e l =>
      rw [hl, List.dropLast_cons_of_ne_nil (List.cons_ne_nil e l)] at hm
      exact ⟨[], _, hm, by simp⟩

/-- Removing another key leaves the entry of `k`, behind no further keys. -/
theorem kerase_split (v : α) (l₁ l₂ : List (Sigma fun _ : κ => α)) (hk : k' ≠ k) :
    ∃ m₁ m₂, List.kerase k' (l₁ ++ ⟨k, v⟩ :: l₂) = m₁ ++ ⟨k, v⟩ :: m₂ ∧ m₁.Sublist l₁ := by
  by_cases hmem : k' ∈ l₁.keys
  · exact ⟨List.kerase k' l₁, l₂, List.kerase_append_left hmem, List.kerase_sublist k' l₁⟩
  · refine ⟨l₁, List.kerase k' l₂, ?_, List.Sublist.refl _⟩
    rw [List.kerase_append_right hmem, List.kerase_cons_ne (by exact hk)]

/-- **An entry survives the insertion of another key** as long as fewer than `cap` distinct keys
were used after it. -/
theorem insert (h : Recent S k v c) (hS : k' ∈ S) (hk : k' ≠ k) (hcard : S.card < cap) :
    Recent S k v (c.insert k' w) := by
  obtain ⟨l₁, l₂, he, hl₁⟩ := h
  obtain ⟨m₁, m₂, hm, hsub⟩ := kerase_split v l₁ l₂ hk
  have hins : (c.map.insert k' w).entries = (⟨k', w⟩ :: m₁) ++ ⟨k, v⟩ :: m₂ := by
    rw [AList.entries_insert, he, hm]
    rfl
  have hfront : ∀ e ∈ (⟨k', w⟩ :: m₁ : List (Sigma fun _ : κ => α)), e.1 ∈ S := by
    intro e hmem
    rcases List.mem_cons.1 hmem with rfl | hmem
    · exact hS
    · exact hl₁ e (hsub.subset hmem)
  rcases insert_map c k' w with ⟨hmap, -⟩ | ⟨hmap, hlt⟩
  · exact ⟨_, m₂, by rw [hmap, hins], hfront⟩
  · -- the keys in front of `k` are distinct and all in `S`, so `k` is not the last entry
    have hnodup : ((⟨k', w⟩ :: m₁ : List (Sigma fun _ : κ => α)).map Sigma.fst).Nodup := by
      have := (c.map.insert k' w).nodupKeys
      rw [hins, List.NodupKeys, List.keys, List.map_append] at this
      exact (List.nodup_append.1 this).1
    have hle : (⟨k', w⟩ :: m₁ : List (Sigma fun _ : κ => α)).length ≤ S.card := by
      rw [← List.length_map (f := Sigma.fst), ← List.toFinset_card_of_nodup hnodup]
      refine Finset.card_le_card ?_
      intro x hx
      obtain ⟨e, hmem, rfl⟩ := List.mem_map.1 (List.mem_toFinset.1 hx)
      exact hfront e hmem
    cases m₂ with
    | nil =>
      rw [hins, List.length_append, List.length_singleton] at hlt
      omega
    | cons e m₂ =>
      refine ⟨_, (e :: m₂).dropLast, ?_, hfront⟩
      rw [hmap, hins, List.dropLast_append_of_ne_nil (List.cons_ne_nil _ _),
        List.dropLast_cons_of_ne_nil (List.cons_ne_nil _ _)]

/-- **An entry survives a use of another key** under the same condition. -/
theorem getMut (h : Recent S k v c) (hS : k' ≠ k → k' ∈ S) (hcard : S.card < cap) :
    Recent S k v (c.getMut k').2 := by
  unfold LruCache.getMut
  cases hp : c.peek k' with
  | none => exact h
  | some w =>
    by_cases hk : k' = k
    · subst hk
      obtain rfl : v = w := Option.some.inj (h.peek.symm.trans hp)
      exact insert_self ((Nat.zero_le _).trans_lt hcard)
    · exact h.insert (hS hk) hk hcard

end Recent

end LruCache

end ConsensusBft

import ConsensusBft.Consensus.Reference
import ConsensusBft.Consensus.Stages
import Mathlib.Data.List.Rotate

/-!
# Rotation of the proposers

* `countP_cyclic` : a walk once around a list, from wherever it starts, meets each element as often
  as the list has it.
* `checkProposer_ok_iff` : who passes as the proposer of a round.
* `proposers_rotate` : **in as many rounds as there are authorities, everybody is the rightful
  proposer as often as the authority list has it**, from whatever round on, and whatever the engine
  is like.
-/

namespace ConsensusBft

/-! ### Walking around a list -/

theorem countP_getElem {α : Type} [BEq α] [LawfulBEq α] [DecidableEq α] (l : List α) (a : α) :
    (List.range l.length).countP (fun k => l[k]? = some a) = l.count a := by
  induction l with
  | nil => rfl
  | cons b l ih =>
    rw [List.length_cons, List.range_succ_eq_map, List.countP_cons, List.countP_map,
      List.count_cons]
    have htail : (fun k => decide ((b :: l)[k]? = some a)) ∘ Nat.succ =
        fun k => decide (l[k]? = some a) := by
      funext k
      simp
    rw [htail, ih]
    simp

/-- A walk once around a list meets each element as often as the list has it. -/
theorem countP_cyclic {α : Type} [BEq α] [LawfulBEq α] [DecidableEq α] (l : List α) (n : ℕ)
    (a : α) :
    (List.range l.length).countP (fun k => l[(k + n) % l.length]? = some a) = l.count a := by
  have hrotate : ∀ k ∈ List.range l.length,
      (decide (l[(k + n) % l.length]? = some a) = true ↔
        decide ((l.rotate n)[k]? = some a) = true) := by
    intro k hk
    rw [List.getElem?_rotate (List.mem_range.1 hk)]
  calc (List.range l.length).countP (fun k => l[(k + n) % l.length]? = some a)
      = (List.range (l.rotate n).length).countP (fun k => (l.rotate n)[k]? = some a) := by
        rw [List.length_rotate]
        exact List.countP_congr hrotate
    _ = (l.rotate n).count a := countP_getElem _ a
    _ = l.count a := (List.rotate_perm l n).count_eq a

/-! ### Proposers -/

variable {F : Type} {E : Env F} {s : State F} {height round : UInt64} {address : Address}

/-- **Who passes as the proposer of a round.** -/
theorem checkProposer_ok_iff (hfits : height.toNat + round.toNat < 2 ^ 64) :
    (Exec.result (checkProposer E height round address) s).1 = .ok ⟨⟩ ↔
      s.eng.authority.Proposes height round address := by
  unfold checkProposer AuthorityManage.Proposes
  rw [Exec.result_bind_get]
  by_cases hlist : s.eng.authority.listAt height = []
  · rw [Exec.result_bind_rejectIf_of hlist, hlist]
    simp [intoAddrSet]
  rw [Exec.result_bind_rejectIf hlist, Exec.result_bind_lift (add64_of_lt hfits)]
  by_cases hp : (intoAddrSet (s.eng.authority.listAt height))[(height + round).toNat %
      (s.eng.authority.listAt height).length]? = some address
  · rw [Exec.result_rejectIf_of_not (not_not.2 hp)]
    exact iff_of_true rfl hp
  · rw [Exec.result_rejectIf_of hp]
    exact iff_of_false nofun hp

/-- **The proposers rotate**: in as many rounds of a height as there are authorities, everybody is
the rightful proposer as often as the authority list has it. -/
theorem proposers_rotate (E : Env F) (s : State F) {height round : UInt64}
    (hfits : height.toNat + round.toNat + (s.eng.authority.listAt height).length ≤ 2 ^ 64)
    (address : Address) :
    (List.range (s.eng.authority.listAt height).length).countP (fun k =>
        (Exec.result (checkProposer E height (round + UInt64.ofNat k) address) s).1 = .ok ⟨⟩) =
      (intoAddrSet (s.eng.authority.listAt height)).count address := by
  have hlength : (intoAddrSet (s.eng.authority.listAt height)).length =
      (s.eng.authority.listAt height).length := List.length_map _
  rw [← countP_cyclic _ (height.toNat + round.toNat) address, hlength]
  refine List.countP_congr fun k hk => ?_
  have hk := List.mem_range.1 hk
  have hround : (round + UInt64.ofNat k).toNat = round.toNat + k := by
    rw [UInt64.toNat_add, UInt64.toNat_ofNat', Nat.mod_eq_of_lt (a := k) (by omega),
      Nat.mod_eq_of_lt (by omega)]
  have hsum : (height + (round + UInt64.ofNat k)).toNat =
      k + (height.toNat + round.toNat) := by
    rw [UInt64.toNat_add, hround, Nat.mod_eq_of_lt (by omega)]
    omega
  rw [decide_eq_true_eq, decide_eq_true_eq, checkProposer_ok_iff (by omega),
    AuthorityManage.Proposes, hsum]

/-- Of two authorities each proposes in one of two rounds. -/
theorem proposers_rotate_two : ∃ p,
    Life (Reference.env [7]) [7] Reference.disk
      [.external (.status ⟨0, none, [Node.new [7], Node.new [8]]⟩)] p ∧
    (List.range 2).countP (fun k => (Exec.result
      (checkProposer (Reference.env [7]) 1 (5 + UInt64.ofNat k) [8]) p.state).1 = .ok ⟨⟩) = 1 := by
  obtain ⟨p, hl, hf⟩ := Reference.exists_life (Reference.env [7]) [7]
    [.external (.status ⟨0, none, [Node.new [7], Node.new [8]]⟩)]
    (fun p => decide (p.state.eng.authority.listAt 1 = [Node.new [7], Node.new [8]]))
    (by decide +kernel)
  have hlist := of_decide_eq_true hf
  have hfits : (1 : UInt64).toNat + (5 : UInt64).toNat + (p.state.eng.authority.listAt 1).length ≤
      2 ^ 64 := by
    rw [hlist]
    decide
  have hrotate := proposers_rotate (Reference.env [7]) p.state hfits [8]
  rw [hlist] at hrotate
  exact ⟨p, hl, hrotate⟩

end ConsensusBft

import ConsensusBft.Data.Quorum
import Mathlib.Order.WellFounded

/-!
# Agreement from locks

Nodes vote in rounds: a node *prevotes* a block, and *precommits* one that a quorum prevoted, which
locks it.  Of the nodes, some are honest and follow the rules `Rules`; of the others nothing is
known, so that a quorum stands for the votes of its honest members only.

* `Quorums ν` : quorums and honest nodes; any two quorums share an honest node.
* `Quorums.ofWeights` : the sets of more than two thirds of the weight, at most a third of which is
  not honest.
* `Ballot` : the prevotes and precommits of the honest nodes; `Polka`, `Decided` : a quorum of them.
* `Rules` : one prevote a round, no precommit without a polka, and no prevote against a lock without
  a later polka.
* `Rules.agreement` : **under the rules no two blocks are decided**, in whatever rounds.
-/

namespace ConsensusBft

namespace Locking

open Quorum (weightOf)

variable {ν ρ β : Type*}

/-- The quorums of a set of nodes, some of which are honest. -/
structure Quorums (ν : Type*) where
  honest : Set ν
  quorum : Set ν → Prop
  meet : ∀ P Q, quorum P → quorum Q → ∃ n, honest n ∧ n ∈ P ∧ n ∈ Q

open Classical in
/-- More than two thirds of the weight of a list of nodes are a quorum, if at most a third of the
weight is not honest. -/
noncomputable def Quorums.ofWeights {α : Type*} (w : α → ℕ) (l : List α) (node : α → ν)
    (honest : Set ν) (hfaulty : 3 * weightOf w l (fun a => ¬ honest (node a)) ≤ (l.map w).sum) :
    Quorums ν where
  honest := honest
  quorum S := 2 * (l.map w).sum < 3 * weightOf w l fun a => node a ∈ S
  meet P Q hP hQ := by
    by_contra hnone
    have hinter := Quorum.lt_weightOf_inter hP hQ
    have hle : weightOf w l (fun a => node a ∈ P ∧ node a ∈ Q) ≤
        weightOf w l fun a => ¬ honest (node a) :=
      Quorum.weightOf_mono w fun a _ hmem hhonest => hnone ⟨node a, hhonest, hmem⟩
    omega

/-- The votes of the honest nodes. -/
structure Ballot (ν ρ β : Type*) where
  prevote : ν → ρ → β → Prop
  precommit : ν → ρ → β → Prop

variable (Q : Quorums ν) (V : Ballot ν ρ β)

/-- The honest members of a quorum prevoted the block. -/
def Polka (r : ρ) (b : β) : Prop :=
  ∃ S, Q.quorum S ∧ ∀ n ∈ S, Q.honest n → V.prevote n r b

/-- The honest members of a quorum precommitted the block. -/
def Decided (r : ρ) (b : β) : Prop :=
  ∃ S, Q.quorum S ∧ ∀ n ∈ S, Q.honest n → V.precommit n r b

/-- The rules that honest nodes follow. -/
structure Rules [Preorder ρ] : Prop where
  /-- A node prevotes once a round. -/
  once : ∀ n r b b', Q.honest n → V.prevote n r b → V.prevote n r b' → b = b'
  /-- A node precommits what a quorum prevoted. -/
  polka : ∀ n r b, Q.honest n → V.precommit n r b → Polka Q V r b
  /-- A node that is locked on a block prevotes another one only after a polka for it. -/
  locked : ∀ n r r' b b', Q.honest n → V.precommit n r b → V.prevote n r' b' → r < r' → b ≠ b' →
    ∃ r'', r ≤ r'' ∧ r'' < r' ∧ Polka Q V r'' b'

variable {Q V} {r r' : ρ} {b b' : β}

/-- One round has one polka at most. -/
theorem Rules.polka_eq [Preorder ρ] (hV : Rules Q V) (h : Polka Q V r b) (h' : Polka Q V r b') :
    b = b' := by
  obtain ⟨S, hS, hb⟩ := h
  obtain ⟨T, hT, hb'⟩ := h'
  obtain ⟨n, hn, hnS, hnT⟩ := Q.meet S T hS hT
  exact hV.once n r b b' hn (hb n hnS hn) (hb' n hnT hn)

/-- A block that is decided has a polka. -/
theorem Rules.polka_of_decided [Preorder ρ] (hV : Rules Q V) (h : Decided Q V r b) :
    Polka Q V r b := by
  obtain ⟨S, hS, hb⟩ := h
  obtain ⟨n, hn, hnS, -⟩ := Q.meet S S hS hS
  exact hV.polka n r b hn (hb n hnS hn)

/-- **Once a block is decided, every later polka is for it.** -/
theorem Rules.polka_eq_of_decided [PartialOrder ρ] [WellFoundedLT ρ] (hV : Rules Q V)
    (h : Decided Q V r b) (hle : r ≤ r') (h' : Polka Q V r' b') : b = b' := by
  -- the first later polka for another block would need an earlier one
  induction r' using WellFoundedLT.induction generalizing b' with
  | ind r' ih =>
    rcases hle.eq_or_lt with rfl | hlt
    · exact hV.polka_eq (hV.polka_of_decided h) h'
    · by_contra hne
      obtain ⟨S, hS, hb⟩ := h
      obtain ⟨T, hT, hb'⟩ := h'
      obtain ⟨n, hn, hnS, hnT⟩ := Q.meet S T hS hT
      obtain ⟨r'', hle'', hlt'', hpolka⟩ :=
        hV.locked n r r' b b' hn (hb n hnS hn) (hb' n hnT hn) hlt hne
      exact hne (ih r'' hlt'' hle'' hpolka)

/-- **Agreement**: two decisions are for one block, in whatever rounds they are taken. -/
theorem Rules.agreement [LinearOrder ρ] [WellFoundedLT ρ] (hV : Rules Q V)
    (h : Decided Q V r b) (h' : Decided Q V r' b') : b = b' := by
  rcases le_total r r' with hle | hle
  · exact hV.polka_eq_of_decided h hle (hV.polka_of_decided h')
  · exact (hV.polka_eq_of_decided h' hle (hV.polka_of_decided h)).symm

end Locking

end ConsensusBft

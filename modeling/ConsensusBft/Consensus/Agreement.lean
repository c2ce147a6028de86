import ConsensusBft.Consensus.CommitOrder
import ConsensusBft.Consensus.Network
import ConsensusBft.Consensus.ProofCheck
import ConsensusBft.Logic.Locking

/-!
# Agreement of a network

The BFT cores vote by what their engines hand to them.  If they follow the rules of locking on
these messages, then the nodes that run them agree, although the network may do as it likes.

* `Network.Heard` : the BFT core of a node knows a vote, its own or from its engine.
* `Network.QuorumHeard` : it knows votes for a block of more than two thirds of the weight.
* `Network.CoreRules` : the rules of a BFT core at a height.
* `Network.CoreRules.locking` : **if the BFT cores follow the rules by what they hear, the network
  follows the rules of locking.**
* `Network.Decision` : a proof that is accepted, or a commit that is handed to an application;
  `Network.decisions_agree` : **at one height all decisions are for one block**, in whatever
  rounds and on whatever nodes they are taken.
-/

namespace ConsensusBft

open Quorum (weightOf)
open Locking (Quorums Ballot Rules Polka Decided)

namespace Network

variable {ι F : Type} (N : Network ι F) (w : World ι F)

/-- The BFT core of the node knows the vote: it is its own, or the engine handed it over, alone or
as a lock vote. -/
inductive Heard (j : ι) (v : BftVote) : Prop
  | own (said : w.told j (.vote v)) (mine : v.voter = N.address j)
  | vote {call : Call F} {d : Bool} (mem : call ∈ w.calls j) (event : call.event = .bft (.vote v) d)
  | lockVote {call : Call F} {p : BftProposal} {d : Bool} (mem : call ∈ w.calls j)
      (event : call.event = .bft (.proposal p) d) (lock : v ∈ p.lockVotes)

/-- The BFT core of the node knows votes for the block of more than two thirds of the weight. -/
def QuorumHeard (authority : List Node) (j : ι) (t : BftVoteType) (h r : UInt64) (b : Hash) :
    Prop :=
  ∃ voters : List Address, 2 * totalWeight authority < 3 * signedWeight authority voters ∧
    ∀ a ∈ voters, N.Heard w j ⟨t, h, r, b, a⟩

/-- The BFT core of the node votes for the block in its own name. -/
def Votes (j : ι) (t : BftVoteType) (h r : UInt64) (b : Hash) : Prop :=
  w.told j (.vote ⟨t, h, r, b, N.address j⟩)

/-- The rules of the BFT core of a node at a height.  They are about the hashes `blocks`; the others
stand for no block, and are voted for as the BFT core likes. -/
structure CoreRules (authority : List Node) (h : UInt64) (blocks : Hash → Prop) (j : ι) :
    Prop where
  /-- One block is prevoted in a round. -/
  once : ∀ r b b', blocks b → blocks b' → N.Votes w j .prevote h r b → N.Votes w j .prevote h r b' →
    b = b'
  /-- A block is precommitted after a quorum of prevotes for it. -/
  polka : ∀ r b, blocks b → N.Votes w j .precommit h r b →
    N.QuorumHeard w authority j .prevote h r b
  /-- Another block is prevoted only after a quorum of prevotes for it, not older than the lock. -/
  locked : ∀ r r' b b', blocks b → blocks b' → N.Votes w j .precommit h r b →
    N.Votes w j .prevote h r' b' → r < r' → b ≠ b' →
    ∃ r'', r ≤ r'' ∧ r'' < r' ∧ N.QuorumHeard w authority j .prevote h r'' b'
  /-- A block is committed after a quorum of precommits for it. -/
  commit : ∀ c, w.told j (.commit c) → c.height = h →
    N.QuorumHeard w authority j .precommit h c.round c.proposal

/-- The address of a node that runs the engine. -/
def Honest (a : Address) : Prop := ∃ j, N.address j = a

open Classical in
/-- At most a third of the weight is not that of nodes that run the engine. -/
def FewFaulty (authority : List Node) : Prop :=
  3 * weightOf Node.weight authority (fun node => ¬ N.Honest node.address) ≤ totalWeight authority

/-- The quorums of the authorities. -/
noncomputable def quorums {authority : List Node} (hfaulty : N.FewFaulty authority) :
    Quorums Address :=
  .ofWeights Node.weight authority Node.address {a | N.Honest a} hfaulty

/-- The votes for blocks of the nodes that run the engine. -/
def ballot (h : UInt64) (blocks : Hash → Prop) : Ballot Address ℕ Hash where
  prevote a n b := blocks b ∧ ∃ j r, N.address j = a ∧ r.toNat = n ∧ N.Votes w j .prevote h r b
  precommit a n b := blocks b ∧ ∃ j r, N.address j = a ∧ r.toNat = n ∧ N.Votes w j .precommit h r b

/-- A block is decided at a height: somebody accepts a proof for it that has no forged signature, or
the engine of a node hands a commit of it to its application. -/
inductive Decision (authority : List Node) (h : UInt64) : Hash → Prop
  | proof {checks : Bool} {proof : Proof}
      (accepted : checkProof checks proof (h + 1) authority N.hash
        (fun sig hash => (N.verify sig hash).toOption) = .ok true)
      (unforged : ∀ entry ∈ proof.precommitVotes.entries,
        N.Unforged w (proof.voteOf entry.1).rlpBytes entry.2) :
      Decision authority h proof.blockHash
  | commit {j : ι} {call : Call F} {c : Commit F} {r : Except String Status}
      (mem : call ∈ w.calls j) (event : call.event = .commit c r) (height_eq : c.height = h) :
      Decision authority h c.proof.blockHash

variable {N w} {authority : List Node} {h : UInt64} {blocks : Hash → Prop} {j : ι} {r : UInt64}
variable {b b' : Hash}

/-! ### What is heard was said -/

theorem Sound.heard (hs : N.Sound w) {k : ι} {t : BftVoteType}
    (h' : N.Heard w j ⟨t, h, r, b, N.address k⟩) : N.Votes w k t h r b := by
  cases h' with
  | own said mine =>
    obtain rfl : k = j := N.distinct mine
    exact said
  | vote mem event => exact hs.heardVote mem event rfl
  | lockVote mem event lock => exact hs.heardLockVote mem event lock rfl

/-- The voters that are heard are a quorum. -/
theorem quorum_of_voters (hfaulty : N.FewFaulty authority) {voters : List Address}
    (hq : 2 * totalWeight authority < 3 * signedWeight authority voters) :
    (N.quorums hfaulty).quorum {a | a ∈ voters} := by
  unfold quorums Quorums.ofWeights
  unfold totalWeight signedWeight at hq
  -- membership is decided in two ways
  convert hq
  exact Iff.rfl

theorem Sound.polka (hs : N.Sound w) (hfaulty : N.FewFaulty authority) (hb : blocks b)
    (hq : N.QuorumHeard w authority j .prevote h r b) :
    Polka (N.quorums hfaulty) (N.ballot w h blocks) r.toNat b := by
  obtain ⟨voters, hweight, hvoters⟩ := hq
  refine ⟨_, quorum_of_voters hfaulty hweight, ?_⟩
  rintro _ ha ⟨k, rfl⟩
  exact ⟨hb, k, r, rfl, rfl, hs.heard (hvoters _ ha)⟩

/-- **If the BFT cores follow the rules by what they hear, the network follows the rules of
locking.** -/
theorem CoreRules.locking (hs : N.Sound w) (hfaulty : N.FewFaulty authority)
    (hrules : ∀ j, N.CoreRules w authority h blocks j) :
    Rules (N.quorums hfaulty) (N.ballot w h blocks) where
  once := by
    rintro _ _ b b' - ⟨hb, j, r, rfl, rfl, hv⟩ ⟨hb', k, r', hk, hr, hv'⟩
    obtain rfl := N.distinct hk
    obtain rfl := UInt64.toNat_inj.1 hr
    exact (hrules k).once r' b b' hb hb' hv hv'
  polka := by
    rintro _ _ b - ⟨hb, j, r, rfl, rfl, hv⟩
    exact hs.polka hfaulty hb ((hrules j).polka r b hb hv)
  locked := by
    rintro _ _ _ b b' - ⟨hb, j, r, rfl, rfl, hv⟩ ⟨hb', k, r', hk, rfl, hv'⟩ hlt hne
    obtain rfl := N.distinct hk
    obtain ⟨r'', hle, hlt', hq⟩ := (hrules k).locked r r' b b' hb hb' hv hv' hlt hne
    exact ⟨r''.toNat, hle, hlt', hs.polka hfaulty hb' hq⟩

/-! ### Decisions -/

theorem ok_of_toOption {ε α : Type} {x : Except ε α} {a : α} (h : x.toOption = some a) :
    x = .ok a := by
  cases x with
  | error e => exact nomatch h
  | ok b => exact congrArg _ (Option.some.inj h)

theorem Decision.decided (hs : N.Sound w) (hfaulty : N.FewFaulty authority)
    (hrules : ∀ j, N.CoreRules w authority h blocks j) (hh : h + 1 ≠ 0)
    (hw : 3 * totalWeight authority < 2 ^ 64) (hd : N.Decision w authority h b) (hb : blocks b) :
    ∃ r, Decided (N.quorums hfaulty) (N.ballot w h blocks) r b := by
  cases hd with
  | @proof checks proof accepted unforged =>
    obtain ⟨hheight, hweight, hsigned⟩ := (checkProof_iff hh hw).1 accepted
    obtain rfl : h = proof.height := by grind
    refine ⟨proof.round.toNat, _, quorum_of_voters hfaulty hweight, ?_⟩
    rintro _ ha ⟨k, rfl⟩
    obtain ⟨⟨voter, sig⟩, hentry, hk⟩ := List.mem_map.1 ha
    obtain rfl : voter = N.address k := hk
    have hsig := unforged _ hentry
    have hverify := (hsigned _ hentry).2
    dsimp only at hsig hverify
    have hvoted := hs.voted hsig (ok_of_toOption hverify)
    exact ⟨hb, k, proof.round, rfl, rfl, hvoted⟩
  | @commit k call c r mem event height_eq =>
    have hsaid := hs.said k call mem
    rw [event] at hsaid
    obtain ⟨bc, htold, hheight, -, -, -, hhash⟩ := hsaid
    obtain ⟨voters, hweight, hvoters⟩ :=
      (hrules k).commit bc htold (hheight.symm.trans height_eq)
    refine ⟨bc.round.toNat, _, quorum_of_voters hfaulty hweight, ?_⟩
    rintro _ ha ⟨k', rfl⟩
    rw [hhash] at hb ⊢
    exact ⟨hb, k', bc.round, rfl, rfl, hs.heard (hvoters _ ha)⟩

theorem Decision.unique (hs : N.Sound w) (hfaulty : N.FewFaulty authority)
    (hrules : ∀ j, N.CoreRules w authority h blocks j) (hh : h + 1 ≠ 0)
    (hw : 3 * totalWeight authority < 2 ^ 64) (hd : N.Decision w authority h b) (hb : blocks b)
    (hd' : N.Decision w authority h b') (hb' : blocks b') : b = b' := by
  have hlocking := CoreRules.locking hs hfaulty hrules
  obtain ⟨r, hr⟩ := hd.decided hs hfaulty hrules hh hw hb
  obtain ⟨r', hr'⟩ := hd'.decided hs hfaulty hrules hh hw hb'
  exact hlocking.agreement hr hr'

/-- **Agreement**: if at most a third of the weight is faulty and the BFT cores follow the rules of
locking, then at one height all decisions are for one block. -/
theorem decisions_agree [DecidableEq ι] [Content F] (hreach : N.Reachable w)
    (hfaulty : N.FewFaulty authority) (hrules : ∀ j, N.CoreRules w authority h blocks j)
    (hh : h + 1 ≠ 0) (hw : 3 * totalWeight authority < 2 ^ 64)
    (hd : N.Decision w authority h b) (hb : blocks b) (hd' : N.Decision w authority h b')
    (hb' : blocks b') : b = b' :=
  hd.unique hreach.sound hfaulty hrules hh hw hb hd' hb'

/-- The only authority asks for its block, votes for it and commits it. -/
def soleRun : List Input := Reference.readyRun [7] ++
  [.core (.getProposalRequest 1), .async, .core (.vote ⟨.prevote, 1, 0, [1], [7]⟩),
    .core (.vote ⟨.precommit, 1, 0, [1], [7]⟩),
    .core (.commit ⟨1, 0, [1], [⟨.precommit, 1, 0, [1], [7]⟩], [7]⟩)]

theorem event_of_committed {call : Call F} {n : UInt64} (h' : call.committed = some n) :
    ∃ c rs, call.event = .commit c (.ok rs) ∧ c.height = n := by
  unfold Call.committed at h'
  split at h'
  · rename_i c rs he
    exact ⟨c, rs, he, Option.some.inj h'⟩
  · exact nomatch h'

/-- What the BFT core of the only authority says. -/
theorem told_soleRun {j : Bool} {P : Process Block} {m : CoreOutput}
    (h : (lived (World.init Bool Block) false soleRun P).told j m) : j = false ∧
      (m = .getProposalRequest 1 ∨ m = .vote ⟨.prevote, 1, 0, [1], [7]⟩ ∨
        m = .vote ⟨.precommit, 1, 0, [1], [7]⟩ ∨
        m = .commit ⟨1, 0, [1], [⟨.precommit, 1, 0, [1], [7]⟩], [7]⟩) := by
  simpa [lived, World.init, soleRun, Reference.readyRun] using h

theorem fewFaulty_sole : reference.FewFaulty [Node.new [7]] := by
  have hhonest : reference.Honest [7] := ⟨false, rfl⟩
  simp [FewFaulty, weightOf, Node.new, hhonest]

/-- The only authority is a quorum. -/
theorem quorumHeard_sole {P : Process Block} {t : BftVoteType}
    (h : (lived (World.init Bool Block) false soleRun P).told false (.vote ⟨t, 1, 0, [1], [7]⟩)) :
    reference.QuorumHeard (lived (World.init Bool Block) false soleRun P) [Node.new [7]] false t
      1 0 [1] := by
  refine ⟨[[7]], by decide, fun a ha => ?_⟩
  obtain rfl := List.mem_singleton.1 ha
  exact .own h rfl

theorem coreRules_sole (P : Process Block) (j : Bool) :
    reference.CoreRules (lived (World.init Bool Block) false soleRun P) [Node.new [7]] 1
      (fun _ => True) j where
  once r b b' _ _ h h' := by
    obtain ⟨rfl, hm⟩ := told_soleRun h
    obtain ⟨-, hm'⟩ := told_soleRun h'
    obtain ⟨-, rfl⟩ : r = 0 ∧ b = [1] := by simpa [reference] using hm
    obtain ⟨-, rfl⟩ : r = 0 ∧ b' = [1] := by simpa [reference] using hm'
    rfl
  polka r b _ h := by
    obtain ⟨rfl, hm⟩ := told_soleRun h
    obtain ⟨rfl, rfl⟩ : r = 0 ∧ b = [1] := by simpa [reference] using hm
    exact quorumHeard_sole (by simp [lived, soleRun])
  locked r r' b b' _ _ h h' hlt _ := by
    obtain ⟨rfl, hm⟩ := told_soleRun h
    obtain ⟨-, hm'⟩ := told_soleRun h'
    obtain ⟨rfl, rfl⟩ : r = 0 ∧ b = [1] := by simpa [reference] using hm
    obtain ⟨rfl, rfl⟩ : r' = 0 ∧ b' = [1] := by simpa [reference] using hm'
    exact absurd hlt (by decide)
  commit c h _ := by
    obtain ⟨rfl, hm⟩ := told_soleRun h
    obtain rfl : c = ⟨1, 0, [1], [⟨.precommit, 1, 0, [1], [7]⟩], [7]⟩ := by simpa using hm
    exact quorumHeard_sole (by simp [lived, soleRun])

/-- What the only authority commits is what a proof for the height is about. -/
theorem decisions_agree_sole : ∃ (w : World Bool Block) (call : Call Block) (c : Commit Block)
    (r : Except String Status), reference.Reachable w ∧ call ∈ w.calls false ∧
      call.event = .commit c r ∧ (Reference.proof [1] [[7]]).blockHash = c.proof.blockHash := by
  obtain ⟨P, hP, hf⟩ := Reference.exists_life (Reference.env [7]) [7] soleRun
    (fun P => (P.state.calls.any fun call => asksFor call =
        some (Reference.signedVote .precommit 1 0 [1] [7]).vote.rlpBytes) &&
      P.state.calls.any fun call => call.committed = some 1) (by decide +kernel)
  obtain ⟨hsign, hcommit⟩ := Bool.and_eq_true_iff.1 hf
  obtain ⟨call, hcall, hasks⟩ := List.any_eq_true.1 hsign
  obtain ⟨r, hevent⟩ := event_of_asksFor (of_decide_eq_true hasks)
  obtain ⟨call', hcall', hcommits⟩ := List.any_eq_true.1 hcommit
  obtain ⟨c, st, hevent', hheight⟩ := event_of_committed (of_decide_eq_true hcommits)
  have hreach : reference.Reachable (lived (World.init Bool Block) false soleRun P) :=
    Reachable.lived .refl rfl hP (by simp [soleRun, Reference.readyRun, Own])
  have hcalls : ∀ call ∈ P.state.calls,
      call ∈ (lived (World.init Bool Block) false soleRun P).calls false := by
    simp [World.calls, lived, World.init, World.callsOf]
  have haccepted : checkProof true (Reference.proof [1] [[7]]) (1 + 1) [Node.new [7]]
      reference.hash (fun sig hash => (reference.verify sig hash).toOption) = .ok true := by
    decide +kernel
  have hsigned : (lived (World.init Bool Block) false soleRun P).Signed false
      (Reference.signedVote .precommit 1 0 [1] [7]).vote.rlpBytes :=
    ⟨call, hcalls call hcall, r, hevent⟩
  refine ⟨_, call', c, .ok st, hreach, hcalls call' hcall', hevent', ?_⟩
  refine decisions_agree (h := 1) hreach fewFaulty_sole (coreRules_sole P) (by decide) (by decide)
    (.proof haccepted fun entry he => ?_) trivial
    (.commit (hcalls call' hcall') hevent' hheight) trivial
  obtain rfl : entry = ⟨[7], [7]⟩ := List.mem_singleton.1 he
  refine ⟨by decide, fun j hj => ?_⟩
  cases j with
  | false => exact hsigned
  | true => exact absurd hj (by decide)

end Network

end ConsensusBft

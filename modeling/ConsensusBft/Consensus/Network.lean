import ConsensusBft.Consensus.Idle
import ConsensusBft.Consensus.Speech

/-!
# Networks

Nodes that run the engine, in a network that loses, delays, repeats, reorders and makes up messages
as it likes, but cannot sign for a node.

* `Network ι F` : the nodes; each has its own application, and all hash and verify alike.
* `World ι F` : the engines that run, the calls of those that stopped, and what the BFT cores said.
* `Network.Unforged` : if a signature is one of a node, the application of the node was asked for
  it.
* `Network.Step` : a node starts, on whatever disk, takes a turn, or stops somewhere in a turn.
* `Network.Sound` : there is something behind each call of each node; `Network.Reachable.sound` :
  **so it is in every world that is reached.**
* `Network.Sound.voted`, `Network.Sound.proposed` : **what is signed for a node is what its BFT core
  said.**
* `Network.vote_integrity`, `Network.proposal_integrity` : so what is handed to the BFT core of a
  node as a message of another node was said by the BFT core of that node.
-/

namespace ConsensusBft

/-- The nodes that run the engine.  Each has its own application; all hash and verify alike.  The
blocks of proposals are declared under hashes as `declares` permits. -/
structure Network (ι F : Type) where
  env : ι → Env F
  address : ι → Address
  hash : Bytes → Hash
  verify : Signature → Hash → Except String Address
  declares : Hash → F → Prop
  hash_eq : ∀ j, (env j).support.hash = hash
  verify_eq : ∀ j, (env j).support.verifySignature = verify
  collision_free : Function.Injective hash
  distinct : Function.Injective address

/-- The nodes at one moment: the engines that run, the calls of those that stopped, and all that
the BFT cores said, directly or through the log. -/
structure World (ι F : Type) where
  engine : ι → Option (Process F)
  past : ι → List (Call F)
  told : ι → CoreOutput → Prop

namespace World

variable {ι F : Type} (w : World ι F)

/-- The calls of an engine, if one runs. -/
def callsOf : Option (Process F) → List (Call F)
  | none => []
  | some p => p.state.calls

/-- All calls of a node, of the engine that runs and of those that stopped. -/
def calls (j : ι) : List (Call F) := w.past j ++ callsOf (w.engine j)

/-- The application of the node was asked to sign the hash. -/
def Signed (j : ι) (hash : Hash) : Prop := ∃ call ∈ w.calls j, ∃ r, call.event = .sign hash r

/-- Before any node has started. -/
def init (ι F : Type) : World ι F := ⟨fun _ => none, fun _ => [], fun _ _ => False⟩

end World

namespace Network

variable {ι F : Type} [DecidableEq ι] [Content F] (N : Network ι F)

/-- If the signature is one of a node, the application of the node was asked for it.  No message is
longer than a byte vector can be. -/
def Unforged (w : World ι F) (message : Bytes) (sig : Signature) : Prop :=
  message.length < 2 ^ 63 ∧
    ∀ j, N.verify sig (N.hash message) = .ok (N.address j) → w.Signed j (N.hash message)

/-- What a node may receive: no signature of a node is forged. -/
def supply (w : World ι F) (j : ι) : Supply F where
  vote sv := N.Unforged w sv.vote.rlpBytes sv.signature
  proposal sp := N.Unforged w sp.proposal.rlpBytes sp.signature ∧
    ∀ sv ∈ sp.proposal.lockVotes, N.Unforged w sv.vote.rlpBytes sv.signature
  block := N.declares
  core := w.told j

/-- The input brings what the BFT core of the node says. -/
def hear (w : World ι F) (j : ι) (p : Process F) (i : Input) : World ι F :=
  { w with told := fun k m => w.told k m ∨ k = j ∧ BringsCore (N.env j) p i m }

/-- One step of the network. -/
inductive Step : World ι F → World ι F → Prop
  /-- A node starts, on whatever disk. -/
  | start {w : World ι F} {j : ι} {disk : Disk} {p : Process F} (idle : w.engine j = none)
      (boots : boot (N.env j) (N.address j) disk = some p) :
      Step w { w with engine := Function.update w.engine j (some p) }
  /-- A node takes a turn. -/
  | turn {w : World ι F} {j : ι} {p p' : Process F} {i : Input} (runs : w.engine j = some p)
      (received : Supplied (N.env j) (N.supply (N.hear w j p i) j) p i)
      (takes : next (N.env j) i p = some p') :
      Step w { N.hear w j p i with engine := Function.update w.engine j (some p') }
  /-- A node stops in the middle of a turn, after any of its calls. -/
  | stop {w : World ι F} {j : ι} {p : Process F} {i : Input} {m : EngineM F PUnit} {s : State F}
      {calls : List (Call F)} (runs : w.engine j = some p)
      (received : Supplied (N.env j) (N.supply (N.hear w j p i) j) p i)
      (attempt : Attempt (N.env j) p i m s) (made : p.state.calls <+: calls)
      (cut : calls <+: (Exec.result m s).2.calls) :
      Step w { N.hear w j p i with
        engine := Function.update w.engine j none
        past := Function.update w.past j (w.past j ++ calls) }

/-- A world that is reached. -/
def Reachable (w : World ι F) : Prop := Relation.ReflTransGen N.Step (World.init ι F) w

/-- There is something behind each call, and behind all that is cached. -/
structure Sound (w : World ι F) : Prop where
  said : ∀ j, ∀ call ∈ w.calls j, Said (N.env j) (N.supply w j) call.event
  cached : ∀ j p, w.engine j = some p → Cached (N.env j) (N.supply w j) p.state.eng
  votesBound : ∀ j p, w.engine j = some p → VotesBound p.state.eng

/-! ### Steps -/

variable {N} {w w' : World ι F} {j : ι}

omit [DecidableEq ι] [Content F] in
/-- What was unforged remains so. -/
theorem supply_le (hcalls : ∀ k, w.calls k ⊆ w'.calls k)
    (htold : ∀ k m, w.told k m → w'.told k m) (k : ι) : (N.supply w k).Le (N.supply w' k) := by
  have unforged : ∀ message sig, N.Unforged w message sig → N.Unforged w' message sig := by
    rintro message sig ⟨hlen, hsigned⟩
    refine ⟨hlen, fun j hj => ?_⟩
    obtain ⟨call, hcall, h⟩ := hsigned j hj
    exact ⟨call, hcalls j hcall, h⟩
  exact
    { vote := fun sv => unforged _ _
      proposal := fun sp h => ⟨unforged _ _ h.1, fun sv hsv => unforged _ _ (h.2 sv hsv)⟩
      core := htold k }

omit [DecidableEq ι] [Content F] in
/-- A step of one node keeps the network sound, if there is something behind its new calls. -/
theorem Sound.of_node (hs : N.Sound w) {l : List (Call F)}
    (htold : ∀ k m, w.told k m → w'.told k m)
    (hengine : ∀ k, k ≠ j → w'.engine k = w.engine k) (hpast : ∀ k, k ≠ j → w'.past k = w.past k)
    (hcalls : w'.calls j = w.calls j ++ l)
    (hsaid : ∀ call ∈ l, Said (N.env j) (N.supply { w with told := w'.told } j) call.event)
    (hkeeps : ∀ p', w'.engine j = some p' →
      Cached (N.env j) (N.supply { w with told := w'.told } j) p'.state.eng ∧
        VotesBound p'.state.eng) : N.Sound w' := by
  have hother : ∀ k, k ≠ j → w'.calls k = w.calls k := by
    intro k hk
    unfold World.calls
    rw [hengine k hk, hpast k hk]
  have hmore : ∀ k, w.calls k ⊆ w'.calls k := by
    intro k
    by_cases hk : k = j
    · subst hk
      exact hcalls ▸ List.subset_append_left _ _
    · exact hother k hk ▸ List.Subset.refl _
  have hle : ∀ k, (N.supply w k).Le (N.supply w' k) := supply_le hmore htold
  have hle' : (N.supply { w with told := w'.told } j).Le (N.supply w' j) :=
    supply_le (w := { w with told := w'.told }) hmore (fun _ _ h => h) j
  refine ⟨fun k call hcall => ?_, fun k p hp => ?_, fun k p hp => ?_⟩
  · by_cases hk : k = j
    · subst hk
      rw [hcalls] at hcall
      rcases List.mem_append.1 hcall with hcall | hcall
      · exact (hs.said k call hcall).mono (hle k)
      · exact (hsaid call hcall).mono hle'
    · rw [hother k hk] at hcall
      exact (hs.said k call hcall).mono (hle k)
  · by_cases hk : k = j
    · subst hk
      exact (hkeeps p hp).1.mono hle'
    · rw [hengine k hk] at hp
      exact (hs.cached k p hp).mono (hle k)
  · by_cases hk : k = j
    · subst hk
      exact (hkeeps p hp).2
    · rw [hengine k hk] at hp
      exact hs.votesBound k p hp

variable {p p' : Process F} {i : Input} {m : EngineM F PUnit} {s s' : State F}

omit [DecidableEq ι] [Content F] in
theorem hear_le (k : ι) : (N.supply w k).Le (N.supply (N.hear w j p i) k) := by
  have hcalls : ∀ k, w.calls k ⊆ (N.hear w j p i).calls k := fun _ => List.Subset.refl _
  exact supply_le hcalls (fun _ _ h => .inl h) k

omit [DecidableEq ι] in
/-- What a node says in a turn, up to any point of it. -/
theorem Sound.attempt (hs : N.Sound w) (runs : w.engine j = some p)
    (received : Supplied (N.env j) (N.supply (N.hear w j p i) j) p i)
    (attempt : Attempt (N.env j) p i m s) :
    Exec.Steps (Speaks (N.env j) (N.supply (N.hear w j p i) j)) m (fun _ _ => True) s :=
  attempt_speaks attempt received ((hs.cached j p runs).mono (hear_le j)) (hs.votesBound j p runs)

/-- **Every step keeps the network sound.** -/
theorem Sound.step (hs : N.Sound w) (h : N.Step w w') : N.Sound w' := by
  cases h with
  | @start j disk p idle boots =>
    obtain ⟨heng, -, hcalls⟩ := boot_state boots
    refine hs.of_node (j := j) (l := []) (fun _ _ h => h)
      (fun k hk => Function.update_of_ne hk _ _) (fun _ _ => rfl) ?_ (List.forall_mem_nil _) ?_
    · unfold World.calls
      dsimp only
      rw [Function.update_self, idle]
      simp only [World.callsOf, hcalls, List.append_nil]
    · intro p' hp'
      dsimp only at hp'
      rw [Function.update_self] at hp'
      obtain rfl := Option.some.inj hp'
      rw [heng]
      exact ⟨⟨nofun, nofun⟩, nofun⟩
  | @turn j p p' i runs received takes =>
    obtain ⟨m, s, attempt, hm⟩ := attempt_of_next takes
    have hspeaks := Speaks.of_moves ((hs.attempt runs received attempt).survive hm)
    obtain ⟨l, hl, hsaid, -⟩ := hspeaks.calls
    obtain ⟨heng, hcalls⟩ := attempt.state
    have hcached := (hs.cached j p runs).mono (hear_le (j := j) (p := p) (i := i) j)
    refine hs.of_node (j := j) (l := l) (fun _ _ h => .inl h)
      (fun k hk => Function.update_of_ne hk _ _) (fun _ _ => rfl) ?_ hsaid ?_
    · unfold World.calls
      dsimp only [hear]
      rw [Function.update_self, runs, World.callsOf, World.callsOf, hl, hcalls, List.append_assoc]
    · intro p₁ hp₁
      dsimp only at hp₁
      rw [Function.update_self] at hp₁
      obtain rfl := Option.some.inj hp₁
      refine ⟨hspeaks.cached (heng ▸ hcached), ?_⟩
      exact Updates.invariant (I := fun s => VotesBound s.eng)
        (fun _ _ h => h.storedVotes fun _ _ _ _ _ _ filed => filed.toBftVote)
        (next_moves received hcached takes) (hs.votesBound j p runs)
  | @stop j p i m s calls runs received attempt made cut =>
    have hspeaks := Speaks.of_moves (hs.attempt runs received attempt).reach
    obtain ⟨l, hl, hsaid, -⟩ := hspeaks.calls
    obtain ⟨-, hcalls⟩ := attempt.state
    -- the new calls that were made before the stop
    obtain ⟨l₁, rfl⟩ := made
    obtain ⟨l₂, hl₂⟩ := cut
    have hsub : l₁ ⊆ l := by
      rw [hl, hcalls, List.append_assoc] at hl₂
      exact List.append_cancel_left hl₂ ▸ List.subset_append_left _ _
    refine hs.of_node (j := j) (l := l₁) (fun _ _ h => .inl h)
      (fun k hk => Function.update_of_ne hk _ _) (fun k hk => Function.update_of_ne hk _ _) ?_
      (fun call hcall => hsaid call (hsub hcall)) ?_
    · unfold World.calls
      dsimp only [hear]
      rw [Function.update_self, Function.update_self, runs, World.callsOf, World.callsOf,
        List.append_nil, List.append_assoc]
    · intro p₁ hp₁
      dsimp only at hp₁
      rw [Function.update_self] at hp₁
      exact nomatch hp₁

/-- **In every world that is reached there is something behind each call.** -/
theorem Reachable.sound (h : N.Reachable w) : N.Sound w := by
  unfold Reachable at h
  induction h with
  | refl => exact ⟨fun _ => List.forall_mem_nil _, nofun, nofun⟩
  | tail _ hstep ih => exact ih.step hstep

/-! ### Lives -/

/-- The input brings nothing of other nodes and nothing from the log. -/
def Own : Input → Prop
  | .core _ | .external (.status _) | .async => True
  | _ => False

/-- The world after a node has started and has taken the turns `is`. -/
def lived (w : World ι F) (j : ι) (is : List Input) (p : Process F) : World ι F where
  engine := Function.update w.engine j (some p)
  past := w.past
  told k m := w.told k m ∨ k = j ∧ .core m ∈ is

theorem own_brings_nothing {E : Env F} (hi : Own i) :
    (∀ sv, ¬ BringsVote E p i sv) ∧ ∀ sp block hash, ¬ BringsProposal E p i sp block hash := by
  cases i with
  | external m =>
    cases m with
    | status rs => exact ⟨fun _ => id, fun _ _ _ => id⟩
    | _ => exact hi.elim
  | replay => exact hi.elim
  | _ => exact ⟨fun _ => id, fun _ _ _ => id⟩

omit [DecidableEq ι] in
theorem own_supplied (hi : Own i) : Supplied (N.env j) (N.supply (N.hear w j p i) j) p i where
  vote := fun sv h => absurd h ((own_brings_nothing hi).1 sv)
  proposal := fun sp block hash h => absurd h ((own_brings_nothing hi).2 sp block hash)
  block := fun sp block hash h => absurd h ((own_brings_nothing hi).2 sp block hash)
  core := fun _ h => .inr ⟨rfl, h⟩

omit [Content F] in
theorem own_brings {E : Env F} {m : CoreOutput} (hi : Own i) :
    BringsCore E p i m ↔ i = .core m := by
  cases i with
  | core m' => simp [BringsCore]
  | replay => exact hi.elim
  | _ => simp [BringsCore]

/-- **A node may live as long as it receives what it may receive**, and hears from its BFT core
only. -/
theorem Reachable.lived_of (h : N.Reachable w) {disk : Disk} {is : List Input}
    (idle : w.engine j = none) (hl : Life (N.env j) (N.address j) disk is p)
    (hreceived : ∀ is₁, ∀ i ∈ is, ∀ q, Supplied (N.env j)
      (N.supply (N.hear (Network.lived w j is₁ q) j q i) j) q i)
    (hbrings : ∀ i ∈ is, ∀ q m, BringsCore (N.env j) q i m ↔ i = .core m) :
    N.Reachable (Network.lived w j is p) := by
  induction is using List.reverseRecOn generalizing p with
  | nil =>
    obtain ⟨p₀, hboot, hrun⟩ := hl
    obtain rfl := Option.some.inj hrun
    have hworld : Network.lived w j [] p₀ =
        { w with engine := Function.update w.engine j (some p₀) } := by
      simp [Network.lived]
    rw [hworld]
    exact h.tail (.start idle hboot)
  | append_singleton is i ih =>
    obtain ⟨p₁, p₂, hl₁, hn, hl₂⟩ := hl.split
    obtain rfl := hl₂.unique hl
    have hi : i ∈ is ++ [i] := by simp
    have hreach := ih hl₁ (fun is₁ i hi => hreceived is₁ i (List.mem_append_left _ hi))
      fun i hi => hbrings i (List.mem_append_left _ hi)
    have hworld : Network.lived w j (is ++ [i]) p₂ = { N.hear (Network.lived w j is p₁) j p₁ i with
        engine := Function.update (Network.lived w j is p₁).engine j (some p₂) } := by
      simp only [Network.lived, hear, Function.update_idem, hbrings i hi p₁, List.mem_append,
        List.mem_singleton]
      congr 1
      funext k m
      rw [eq_comm (a := i)]
      exact propext (by tauto)
    rw [hworld]
    exact hreach.tail (.turn (Function.update_self ..) (hreceived is i hi p₁) hn)

/-- **A node may live by itself.** -/
theorem Reachable.lived (h : N.Reachable w) {disk : Disk} {is : List Input}
    (idle : w.engine j = none) (hl : Life (N.env j) (N.address j) disk is p)
    (hown : ∀ i ∈ is, Own i) : N.Reachable (lived w j is p) :=
  h.lived_of idle hl (fun _ i hi _ => own_supplied (hown i hi))
    fun i hi _ _ => own_brings (hown i hi)

/-! ### Signatures -/

omit [DecidableEq ι] [Content F] in
/-- What the application of a node signed was said by its BFT core. -/
theorem Sound.signable (hs : N.Sound w) {message : Bytes} {sig : Signature}
    (hsig : N.Unforged w message sig)
    (hverify : N.verify sig (N.hash message) = .ok (N.address j)) :
    (∃ v, w.told j (.vote v) ∧ v.toVote.rlpBytes = message) ∨
      ∃ (q : BftProposal) (r : Proposal), w.told j (.proposal q) ∧
        r.toBftProposal r.hash = q.settled ∧ r.rlpBytes = message := by
  obtain ⟨call, hcall, r, hevent⟩ := hsig.2 j hverify
  have hsaid := hs.said j call hcall
  rw [hevent] at hsaid
  change Signable _ _ _ at hsaid
  have same : ∀ b, (N.env j).support.hash b = N.hash message → b = message := fun b hb =>
    N.collision_free ((congrFun (N.hash_eq j) b).symm.trans hb)
  generalize hm : N.hash message = m at hsaid same
  cases hsaid with
  | vote received => exact .inl ⟨_, received, same _ rfl⟩
  | proposal received stands => exact .inr ⟨_, _, received, stands, same _ rfl⟩

omit [DecidableEq ι] [Content F] in
/-- **A vote that is signed for a node is a vote of its BFT core.** -/
theorem Sound.voted (hs : N.Sound w) {v : Vote} {sig : Signature}
    (hsig : N.Unforged w v.rlpBytes sig)
    (hverify : N.verify sig (N.hash v.rlpBytes) = .ok (N.address j)) :
    w.told j (.vote v.toBftVote) := by
  rcases hs.signable hsig hverify with ⟨v', hv', hbytes⟩ | ⟨q, r, -, -, hbytes⟩
  · rwa [← Vote.eq_of_rlpBytes (hbytes ▸ hsig.1) hbytes, BftVote.toVote, toBftVote_fromBftVote]
  · exact absurd hbytes.symm (Vote.rlpBytes_ne _ _ hsig.1)

omit [DecidableEq ι] [Content F] in
/-- **A proposal that is signed for a node stands for a proposal of its BFT core.** -/
theorem Sound.proposed (hs : N.Sound w) {p : Proposal} {sig : Signature}
    (hsig : N.Unforged w p.rlpBytes sig)
    (hverify : N.verify sig (N.hash p.rlpBytes) = .ok (N.address j)) :
    ∃ q, w.told j (.proposal q) ∧ p.toBftProposal p.hash = q.settled := by
  rcases hs.signable hsig hverify with ⟨v, -, hbytes⟩ | ⟨q, r, hq, hstands, hbytes⟩
  · exact absurd hbytes (Vote.rlpBytes_ne _ _ (hbytes ▸ hsig.1))
  · have hsorted := Proposal.sorted_eq_of_rlpBytes (hbytes ▸ hsig.1) hbytes
    refine ⟨q, hq, ?_⟩
    calc p.toBftProposal p.hash
        = p.sorted.toBftProposal p.sorted.hash := rfl
      _ = r.sorted.toBftProposal r.sorted.hash := by rw [hsorted]
      _ = q.settled := hstands

/-! ### What the BFT core receives -/

variable {call : Call F} {d : Bool}

omit [DecidableEq ι] [Content F] in
theorem verify_of_genuineVote {sv : SignedVote} {k : ι} (h : sv.Genuine (N.env k)) :
    N.verify sv.signature (N.hash sv.vote.rlpBytes) = .ok sv.vote.voter := by
  rwa [← N.hash_eq k, ← N.verify_eq k]

omit [DecidableEq ι] [Content F] in
theorem verify_of_genuineProposal {sp : SignedProposal} {k : ι} (h : sp.Genuine (N.env k)) :
    N.verify sp.signature (N.hash sp.proposal.rlpBytes) = .ok sp.proposal.proposer := by
  rwa [← N.hash_eq k, ← N.verify_eq k]

omit [DecidableEq ι] [Content F] in
theorem Sound.heardVote (hs : N.Sound w) {v : BftVote} {k : ι} (hcall : call ∈ w.calls k)
    (hevent : call.event = .bft (.vote v) d) (hvoter : v.voter = N.address j) :
    w.told j (.vote v) := by
  have hsaid := hs.said k call hcall
  rw [hevent] at hsaid
  obtain ⟨sv, hsig, hgenuine, rfl⟩ := hsaid
  exact hs.voted hsig ((verify_of_genuineVote hgenuine).trans (congrArg _ hvoter))

omit [DecidableEq ι] [Content F] in
theorem Sound.heardLockVote (hs : N.Sound w) {p : BftProposal} {v : BftVote} {k : ι}
    (hcall : call ∈ w.calls k) (hevent : call.event = .bft (.proposal p) d)
    (hv : v ∈ p.lockVotes) (hvoter : v.voter = N.address j) : w.told j (.vote v) := by
  have hsaid := hs.said k call hcall
  rw [hevent] at hsaid
  obtain ⟨sp, ⟨-, hsigs⟩, -, rfl, hgenuine⟩ := hsaid
  -- lock votes without a lock round are dropped
  by_cases hlock : sp.proposal.lockRound.isSome = true
  · have hmem : v ∈ sp.proposal.lockVotes.map fun sv => sv.vote.toBftVote := by
      simpa only [Proposal.toBftProposal, hlock, if_true] using hv
    obtain ⟨sv, hsv, rfl⟩ := List.mem_map.1 hmem
    exact hs.voted (hsigs sv hsv)
      ((verify_of_genuineVote (hgenuine hlock sv hsv)).trans (congrArg _ hvoter))
  · simp [Proposal.toBftProposal, hlock] at hv

/-- Two nodes with the reference application. -/
def reference : Network Bool Block where
  env j := Reference.env (bif j then [8] else [7])
  address j := bif j then [8] else [7]
  hash b := b
  verify sig _ := if sig = [] then .error "empty signature" else .ok sig
  declares hash block := Content.hash block = hash
  hash_eq _ := rfl
  verify_eq _ := rfl
  collision_free _ _ h := h
  distinct := by decide

/-- Both nodes are authorities of height `1`. -/
def bothEnter : Input := .external (.status ⟨0, none, [Node.new [7], Node.new [8]]⟩)

/-- The first node proposes its block in round `1`, and prevotes it. -/
def speakerRun : List Input :=
  [bothEnter, .core (.getProposalRequest 1), .async,
    .core (.proposal ⟨1, 1, [1], none, [], [7]⟩), .core (.vote ⟨.prevote, 1, 1, [1], [7]⟩)]

/-- The hash that a call asks a signature for. -/
def asksFor (call : Call F) : Option Hash :=
  match call.event with
  | .sign hash _ => some hash
  | _ => none

omit [Content F] in
theorem event_of_asksFor {hash : Hash} (h : asksFor call = some hash) :
    ∃ r, call.event = .sign hash r := by
  unfold asksFor at h
  cases he : call.event with
  | sign hash' r =>
    rw [he] at h
    exact ⟨r, congrArg (Event.sign · r) (Option.some.inj h)⟩
  | _ =>
    rw [he] at h
    exact nomatch h

omit [Content F] in
theorem event_of_sent {msg : CoreInput} (h : call.sent = some msg) :
    ∃ d, call.event = .bft msg d := by
  unfold Call.sent at h
  cases he : call.event with
  | bft msg' d =>
    rw [he] at h
    exact ⟨d, congrArg (Event.bft · d) (Option.some.inj h)⟩
  | _ =>
    rw [he] at h
    exact nomatch h

/-- What the first node signed is not forged. -/
theorem unforged_of_first {w : World Bool Block} {Q : Process Block} {i : Input} {hash : Hash}
    (h : w.Signed false hash) (j : Bool)
    (hj : reference.verify [7] hash = .ok (reference.address j)) :
    (reference.hear w true Q i).Signed j hash := by
  cases j with
  | false => exact h
  | true => exact nomatch hj

/-- When the first node has spoken, the second one receives a message of it. -/
theorem exists_hearing (i : Input) (msg : CoreInput) (signed : Hash)
    (hsigned : (Reference.run (Reference.env [7]) [7] speakerRun).any
      (fun P => P.state.calls.any fun call => asksFor call = some signed) = true)
    (hheard : (Reference.run (Reference.env [8]) [8] ([bothEnter] ++ [i])).any
      (fun P => P.state.calls.any fun call => call.sent = some msg) = true)
    (hsupplied : ∀ (w : World Bool Block) Q, w.Signed false signed →
      Supplied (Reference.env [8]) (reference.supply (reference.hear w true Q i) true) Q i) :
    ∃ (w : World Bool Block) (call : Call Block) (d : Bool), reference.Reachable w ∧
      call ∈ w.calls true ∧ call.event = .bft msg d ∧
      ∀ m, w.told false m ↔ .core m ∈ speakerRun := by
  obtain ⟨P, hP, hf⟩ := Reference.exists_life (Reference.env [7]) [7] speakerRun _ hsigned
  obtain ⟨call, hcall, hasks⟩ := List.any_eq_true.1 hf
  obtain ⟨r, hevent⟩ := event_of_asksFor (of_decide_eq_true hasks)
  obtain ⟨Q, Q', hQ, -, hn, -, hg⟩ := Reference.exists_turn (Reference.env [8]) [8] [bothEnter] i
    (fun _ => true) _ (by decide +kernel) hheard
  obtain ⟨call', hcall', hsent⟩ := List.any_eq_true.1 hg
  have h₁ : reference.Reachable (lived (World.init Bool Block) false speakerRun P) :=
    Reachable.lived .refl rfl hP (by simp [speakerRun, bothEnter, Own])
  have h₂ := h₁.lived (j := true) rfl hQ (by simp [bothEnter, Own])
  have hsign : (lived (lived (World.init Bool Block) false speakerRun P) true [bothEnter] Q).Signed
      false signed := ⟨call, by simpa [World.calls, lived, World.init, World.callsOf], r, hevent⟩
  obtain ⟨d, hevent'⟩ := event_of_sent (of_decide_eq_true hsent)
  refine ⟨_, call', d, h₂.tail (.turn (Function.update_self ..) (hsupplied _ Q hsign) hn), ?_,
    hevent', ?_⟩
  · simpa [World.calls, hear, lived, World.init, World.callsOf]
  · simp [hear, lived, World.init]

/-- **Integrity of votes**: whatever the network does, a vote that is handed to the BFT core of a
node as one of another node was said by the BFT core of that node. -/
theorem vote_integrity {v : BftVote} {k : ι} (h : N.Reachable w) (hcall : call ∈ w.calls k)
    (hevent : call.event = .bft (.vote v) d) (hvoter : v.voter = N.address j) :
    w.told j (.vote v) :=
  h.sound.heardVote hcall hevent hvoter

/-- The second node receives the prevote of the first one. -/
theorem vote_integrity_prevote :
    ∃ (w : World Bool Block) (call : Call Block) (d : Bool), reference.Reachable w ∧
      call ∈ w.calls true ∧ call.event = .bft (.vote ⟨.prevote, 1, 1, [1], [7]⟩) d ∧
      w.told false (.vote ⟨.prevote, 1, 1, [1], [7]⟩) := by
  obtain ⟨w, call, d, hreach, hcall, hevent, -⟩ := exists_hearing
    (.external (.signedVote (Reference.voteBytes .prevote 1 1 [1] [7])))
    (.vote ⟨.prevote, 1, 1, [1], [7]⟩)
    (Reference.signedVote .prevote 1 1 [1] [7]).vote.rlpBytes (by decide +kernel)
    (by decide +kernel) fun w Q hsign =>
      { vote := by
          intro sv hsv
          obtain rfl : Reference.signedVote .prevote 1 1 [1] [7] = sv := Except.ok.inj hsv
          exact ⟨by decide, unforged_of_first hsign⟩
        proposal := nofun
        block := nofun
        core := nofun }
  exact ⟨w, call, d, hreach, hcall, hevent, vote_integrity hreach hcall hevent rfl⟩

/-- **Integrity of proposals**: a proposal that is handed to the BFT core of a node as one of
another node was said by the BFT core of that node, and so was every lock vote in it, whoever
proposed it. -/
theorem proposal_integrity {p : BftProposal} {k : ι} (h : N.Reachable w) (hcall : call ∈ w.calls k)
    (hevent : call.event = .bft (.proposal p) d) :
    (∀ j, p.proposer = N.address j → ∃ q, w.told j (.proposal q) ∧ p = q.settled) ∧
      ∀ v ∈ p.lockVotes, ∀ j, v.voter = N.address j → w.told j (.vote v) := by
  refine ⟨fun j hj => ?_, fun v hv j hj => h.sound.heardLockVote hcall hevent hv hj⟩
  have hsaid := h.sound.said k call hcall
  rw [hevent] at hsaid
  obtain ⟨sp, ⟨hsig, -⟩, hgenuine, rfl, -⟩ := hsaid
  exact h.sound.proposed hsig ((verify_of_genuineProposal hgenuine).trans (congrArg _ hj))

/-- The second node receives the proposal of the first one. -/
theorem proposal_integrity_proposal :
    ∃ (w : World Bool Block) (call : Call Block) (d : Bool), reference.Reachable w ∧
      call ∈ w.calls true ∧ call.event = .bft (.proposal ⟨1, 1, [1], none, [], [7]⟩) d ∧
      ∃ q, w.told false (.proposal q) ∧ ⟨1, 1, [1], none, [], [7]⟩ = q.settled := by
  obtain ⟨w, call, d, hreach, hcall, hevent, -⟩ := exists_hearing
    (.external (.signedProposal
      (Reference.proposalBytes (Reference.signedProposal 1 1 [1] none [] [7]) [1] [1])))
    (.proposal ⟨1, 1, [1], none, [], [7]⟩)
    (Reference.signedProposal 1 1 [1] none [] [7]).proposal.rlpBytes (by decide +kernel)
    (by decide +kernel) fun w Q hsign =>
      { vote := nofun
        proposal := by
          intro sp block hash hsp
          obtain ⟨rfl, -⟩ := Prod.mk.inj (Except.ok.inj hsp)
          exact ⟨⟨by decide, unforged_of_first hsign⟩, nofun⟩
        block := by
          intro sp block hash hsp _
          obtain ⟨-, hblock⟩ := Prod.mk.inj (Except.ok.inj hsp)
          obtain ⟨rfl, rfl⟩ := Prod.mk.inj hblock
          rfl
        core := nofun }
  exact ⟨w, call, d, hreach, hcall, hevent, (proposal_integrity hreach hcall hevent).1 false rfl⟩

end Network

end ConsensusBft

import ConsensusBft.Consensus.Reference

/-!
# The binding of cached blocks to their hashes

A block that the application feeds is cached under its own hash.  A block that comes with a signed
proposal is cached under the hash that the message declares, before any check.

* `BlocksBound` : every cached block is cached under its own hash.
* `BlockBinding` : so are the blocks that were committed and transmitted.
* `DeclaresHash E p i` : the input declares the hash of the block it brings, unless the hash it
  declares has a block already.
* `blockBinding_iff` : **the binding holds throughout a run if and only if all its inputs declare
  the hashes of their blocks**; `forged_block_committed` : one that does not gets a wrong block
  committed.
-/

namespace ConsensusBft

variable {F : Type} [Content F] {E : Env F} {K : Supply F} {s s' : State F}

/-- Every cached block is cached under its own hash. -/
def BlocksBound (eng : Consensus F) : Prop :=
  ∀ hash block, eng.blockOriginCache.lookup hash = some block → Content.hash block = hash

/-- The block of a commit, or of a transmitted proposal, has the hash that goes with it. -/
def Event.BlockBound : Event F → Prop
  | .commit c _ => Content.hash c.result = c.proof.blockHash
  | .transmit (.signedProposal bytes) _ =>
    ∃ (sp : SignedProposal) (block : F) (encoded : Bytes) (height : UInt64),
      bytes = combine sp.rlpBytes (encodeBlock height encoded sp.proposal.hash) ∧
        Content.encode block = .ok encoded ∧ Content.hash block = sp.proposal.hash
  | _ => True

/-- Cached, committed and transmitted blocks have the hashes that go with them. -/
structure BlockBinding (s : State F) : Prop where
  cache : BlocksBound s.eng
  calls : ∀ call ∈ s.calls, call.event.BlockBound

/-- Caching a block under its own hash keeps the cache bound. -/
theorem BlocksBound.orInsert {eng : Consensus F} (h : BlocksBound eng) {hash : Hash} {block : F}
    (hb : Content.hash block = hash) :
    BlocksBound { eng with blockOriginCache := eng.blockOriginCache.orInsert hash block } := by
  intro hash' block' hl
  rcases HashMap.lookup_orInsert_cases hl with hl | ⟨rfl, rfl, -⟩
  · exact h hash' block' hl
  · exact hb

/-- What a bound engine is permitted to send out is bound. -/
theorem Permitted.blockBound {e : Event F} (h : Permitted E K s e) (hb : BlocksBound s.eng) :
    e.BlockBound := by
  cases e with
  | commit c res => exact hb _ _ h.2.1
  | transmit msg res =>
    cases msg with
    | signedProposal bytes =>
      obtain ⟨sp, block, encoded, hbytes, hl, henc, -⟩ := h.2
      exact ⟨sp, block, encoded, _, hbytes, henc, hb _ _ hl⟩
    | _ => trivial
  | _ => trivial

/-- **Every update keeps the binding**, if the blocks of the supply are declared under their
hashes. -/
theorem Update.blockBinding (hK : ∀ hash block, K.block hash block → Content.hash block = hash)
    (h : Update E K s s') (hs : BlockBinding s) : BlockBinding s' := by
  have record : ∀ e : Event F, e.BlockBound →
      ∀ call ∈ s.calls ++ [⟨s.eng, s.disk, e⟩], Event.BlockBound call.event := by
    intro e he call hmem
    rcases List.mem_append.1 hmem with hmem | hmem
    · exact hs.calls call hmem
    · obtain rfl := List.mem_singleton.1 hmem
      exact he
  cases h with
  | call e permitted => exact ⟨hs.cache, record e (permitted.blockBound hs.cache)⟩
  | check hash block bytes isLock isBySelf res cached answer =>
    exact ⟨hs.cache, record _ trivial⟩
  | cacheBlock hash block missing source =>
    refine ⟨hs.cache.orInsert ?_, hs.calls⟩
    rcases source with hsource | hsource
    · exact hK hash block hsource
    · exact hsource.symm
  | clear => exact ⟨nofun, hs.calls⟩
  | _ => exact ⟨hs.cache, hs.calls⟩

/-- The input declares the hash of the block it brings, unless the hash it declares has a block
already. -/
def DeclaresHash (E : Env F) (p : Process F) (i : Input) : Prop :=
  ∀ sp block hash, BringsProposal E p i sp block hash →
    p.state.eng.blockOriginCache.lookup hash = none → Content.hash block = hash

/-- **Blocks are bound to their hashes** in every run in which every signed proposal, received or
replayed, declares the hash of its block. -/
theorem blockBinding_of_declaresHash {address : Address} {disk : Disk} {is : List Input}
    {p : Process F} (hl : Life E address disk is p)
    (hC : EachInput E address disk is (DeclaresHash E)) : BlockBinding p.state := by
  let K : Supply F := { Supply.all F with block := fun hash block => Content.hash block = hash }
  refine hl.invariant (K := K) ?_ (fun p₀ hb => ?_) fun _ _ =>
    Update.blockBinding fun _ _ h => h
  · intro is₁ i is₂ p₁ his hl₁
    exact ⟨fun _ _ => trivial, fun _ _ _ _ => trivial, hC is₁ i is₂ p₁ his hl₁, fun _ _ => trivial⟩
  · obtain ⟨heng, -, hcalls⟩ := boot_state hb
    refine ⟨?_, by rw [hcalls]; exact List.forall_mem_nil _⟩
    rw [heng]
    exact nofun

/-- A block that is brought under a hash that has none is cached under it, whatever becomes of the
proposal. -/
theorem lookup_of_bringsProposal {p p' : Process F} {i : Input} {sp : SignedProposal} {block : F}
    {hash : Hash} (hb : BringsProposal E p i sp block hash)
    (hl : p.state.eng.blockOriginCache.lookup hash = none) (hn : next E i p = some p') :
    p'.state.eng.blockOriginCache.lookup hash = some block := by
  -- what follows the caching of the block leaves the cached blocks as they are
  let s₁ : State F :=
    { p.state with eng.blockOriginCache := p.state.eng.blockOriginCache.orInsert hash block }
  have hs₁ : s₁.eng.blockOriginCache.lookup hash = some block := by
    simp only [s₁, HashMap.lookup_orInsert, if_true, hl, Option.getD_none]
  cases i with
  | external m =>
    cases m with
    | signedProposal bytes =>
      obtain ⟨s, -, hs, rfl⟩ :=
        live_of_next (i := .external (.signedProposal bytes)) nofun hn
      obtain ⟨r, hr, -⟩ := Exec.survive_eq_some.1 hs
      have hd : Exec.result (Exec.lift (decodeProposal E bytes)) p.state =
          (.ok (sp, block, hash), p.state) := by rw [Exec.result_lift, hb]
      have hres : Exec.result (receiveProposal E sp block bytes) s₁ = (r, s) :=
        (Exec.result_bind_ok hd).symm.trans hr
      have hm := (receiveProposal_moves (S := Source.all F) (s := s₁) trivial hb).reached hres
      rw [Stills.blocks_eq hm, hs₁]
    | _ => exact hb.elim
  | replay =>
    obtain ⟨msg, records, hp, hd⟩ := hb
    obtain ⟨record, records', hp', -, hs⟩ := pending_of_replayNext hn
    obtain ⟨rfl, rfl⟩ := List.cons.inj (hp.symm.trans hp')
    have hd : Exec.result (Exec.lift (decodeLogged E msg)) p.state =
        (.ok (sp, block, hash), p.state) := by rw [Exec.result_lift, hd]
    have hres : Exec.result (loadRecord E (LOG_TYPE_SIGNED_PROPOSAL, msg)) p.state =
        Exec.result (replayProposal E sp block msg) s₁ := Exec.result_bind_ok hd
    obtain ⟨r, hr, -⟩ := Exec.survive_eq_some.1 hs
    have hm := (replayProposal_moves (E := E) (s := s₁)
      (show (Source.all F).proposal sp from trivial) block msg).reached (hres.symm.trans hr)
    rw [Stills.blocks_eq hm, hs₁]
  | _ => exact hb.elim

/-- **Blocks are bound to their hashes throughout a run if and only if every signed proposal of
the run declares the hash of its block** (or one that has a block already). -/
theorem blockBinding_iff {address : Address} {disk : Disk} {is : List Input} {p : Process F}
    (hl : Life E address disk is p) :
    EachState E address disk is (fun p => BlockBinding p.state) ↔
      EachInput E address disk is (DeclaresHash E) := by
  constructor
  · intro hB is₁ i is₂ p₁ his hl₁ sp block hash hb hnone
    obtain ⟨p₁', p₂, hl₁', hn, hl₂⟩ := (his ▸ hl).split
    obtain rfl := hl₁.unique hl₁'
    have hbound : BlockBinding p₂.state := hB (is₁ ++ [i]) is₂ p₂ (by simp [his]) hl₂
    exact hbound.cache hash block (lookup_of_bringsProposal hb hnone hn)
  · intro hC is₁ is₂ p₁ his hl₁
    refine blockBinding_of_declaresHash hl₁ ?_
    intro is₃ i is₄ p₃ his₁ hl₃
    exact hC is₃ i (is₄ ++ is₂) p₃ (by rw [his, his₁, List.append_assoc]; rfl) hl₃

/-- The block `[5]` is proposed under the hash `[9]`, by a message that nobody signed, and the
engine commits what the BFT core knows as `[9]`. -/
def forgedRun : List Input :=
  [.external (.status ⟨0, none, [Node.new [7]]⟩),
    .external (.signedProposal
      (Reference.proposalBytes (Reference.signedProposal 1 0 [9] none [] []) [5] [9])),
    .core (.vote ⟨.precommit, 1, 0, [9], [7]⟩),
    .core (.commit ⟨1, 0, [9], [⟨.precommit, 1, 0, [9], [7]⟩], [7]⟩)]

theorem blockBinding_iff_run : ∃ p, Life (Reference.env [7]) [7] Reference.disk forgedRun p ∧
    (EachState (Reference.env [7]) [7] Reference.disk forgedRun (fun p => BlockBinding p.state) ↔
      EachInput (Reference.env [7]) [7] Reference.disk forgedRun
        (DeclaresHash (Reference.env [7]))) := by
  obtain ⟨p, hp, -⟩ := Reference.exists_life (Reference.env [7]) [7] forgedRun (fun _ => true)
    (by decide +kernel)
  exact ⟨p, hp, blockBinding_iff hp⟩

/-- The commit of the forged run has a block whose hash is not the hash of its proof. -/
theorem forged_block_committed : ∃ p, Life (Reference.env [7]) [7] Reference.disk forgedRun p ∧
    ∃ call ∈ p.state.calls, ∃ c res, call.event = .commit c res ∧
      Content.hash c.result ≠ c.proof.blockHash := by
  obtain ⟨p, hp, hf⟩ := Reference.exists_life (Reference.env [7]) [7] forgedRun
    (fun p => p.state.calls.any fun call => match call.event with
      | .commit c _ => Content.hash c.result != c.proof.blockHash
      | _ => false) (by decide +kernel)
  obtain ⟨call, hmem, hc⟩ := List.any_eq_true.1 hf
  refine ⟨p, hp, call, hmem, ?_⟩
  cases he : call.event with
  | commit c res =>
    rw [he] at hc
    exact ⟨c, res, rfl, bne_iff_ne.1 hc⟩
  | _ =>
    rw [he] at hc
    exact absurd hc Bool.false_ne_true

end ConsensusBft

import ConsensusBft.Consensus.EarlyVotes
import ConsensusBft.Consensus.StatusTurn
import ConsensusBft.Consensus.Transparency

/-!
# The window of the caches

Messages of coming heights are cached.  Proposals are only cached for the next few heights, votes
for any height, and a status empties the caches of the height it opens, and of no other one.

* `SameCaches s s'` : the height and the caches stayed as they were.
* `afterStatus_empties`, `handleStatus_leaves` : what a status leaves of the caches.
* `handleSignedVote_voteEffect` : what a vote leaves of them.
* `Windowed eng` : all cached messages are for the next `CACHE_NUMBER - 1` heights.
* `next_windowed_iff`, `windowed_iff` : **when the caches stay within their window**;
  `distant_votes_cached` : a run in which they do not.
-/

namespace ConsensusBft

open Exec (Steps wp wp_bind)

variable {F : Type} {E : Env F} {s s' : State F} {rs : Status}

/-! ### What leaves the caches alone -/

/-- The height and the caches stayed as they were. -/
structure SameCaches (s s' : State F) : Prop where
  height : s'.eng.height = s.eng.height
  proposalCache : s'.eng.proposalCache = s.eng.proposalCache
  voteCache : s'.eng.voteCache = s.eng.voteCache

theorem SameCaches.of_moves (h : Relation.ReflTransGen SameCaches s s') : SameCaches s s' := by
  induction h with
  | refl => exact ⟨rfl, rfl, rfl⟩
  | tail _ h' ih =>
    exact ⟨h'.height.trans ih.height, h'.proposalCache.trans ih.proposalCache,
      h'.voteCache.trans ih.voteCache⟩

/-- Asking for a verdict leaves the caches alone. -/
theorem verdictOf_sameCaches (hash : Hash) (bytes : Bytes) (isLock : Bool) :
    Steps SameCaches (verdictOf E hash bytes isLock) (fun _ _ => True) s := by
  unfold verdictOf
  refine .bind_get ?_
  cases s.eng.verifiedBlock.lookup hash with
  | some isPass => exact .pure trivial
  | none =>
    cases s.eng.blockOriginCache.lookup hash with
    | none => exact .throw
    | some content =>
      refine .bind (P := fun _ _ => True) ?_ fun _ _ _ _ => .pure trivial
      exact .bind_get (.modify ⟨rfl, rfl, rfl⟩ trivial)

/-- So does handling a proposal. -/
theorem handleSignedProposal_sameCaches (sp : SignedProposal) (needWal : Bool) (bytes : Bytes) :
    Steps SameCaches (handleSignedProposal E sp needWal bytes) (fun _ _ => True) s := by
  unfold handleSignedProposal
  refine Steps.bind_verifySignature fun _ _ => .bind_rejectIf fun _ => .bind_get
    (.bind_lift fun _ _ => .bind_rejectIf fun _ => ?_)
  refine .bind (logIf_moves fun _ _ _ => ⟨rfl, rfl, rfl⟩) fun _ _ _ _ =>
    .bind_modify ⟨rfl, rfl, rfl⟩ (.bind (checkProposer_moves ..) fun _ _ _ _ => ?_)
  refine .bind (checkLockVotes_steps fun _ _ => ⟨rfl, rfl, rfl⟩) fun _ s₁ _ _ =>
    .ite (fun _ => .pure trivial) fun _ => ?_
  refine .bind (verdictOf_sameCaches _ _ _) fun _ s₂ _ _ =>
    .bind (P := fun _ _ => True) ?_ fun _ _ _ _ => .pure trivial
  unfold checkProofOf
  exact .bind_get (.bind_rejectIf fun _ => .bind_lift fun _ _ => .bind_rejectIf fun _ =>
    .doIf (fun _ => .modify ⟨rfl, rfl, rfl⟩ trivial) fun _ => trivial)

/-- So does handing it to the BFT core. -/
theorem forwardProposal_sameCaches (sp : SignedProposal) (bytes : Bytes) :
    Steps SameCaches (forwardProposal E sp bytes) (fun _ _ => True) s := by
  unfold forwardProposal sendProposal
  refine .bind (handleSignedProposal_sameCaches sp true bytes) fun r _ _ _ => ?_
  refine .bind (sendBft_records ⟨rfl, rfl, rfl⟩) fun _ _ _ _ => ?_
  cases r.2 with
  | none => exact .pure trivial
  | some resp => exact (sendBft_records ⟨rfl, rfl, rfl⟩).mono fun _ _ _ _ => trivial

/-- A vote that is not for a later height is not cached. -/
theorem handleSignedVote_sameCaches {sv : SignedVote} (h : sv.vote.height ≤ s.eng.height)
    (needWal : Bool) : Steps SameCaches (handleSignedVote E sv needWal) (fun _ _ => True) s := by
  unfold handleSignedVote
  refine Steps.bind_verifySignature fun _ _ => .bind_get (.bind_lift fun _ _ =>
    .bind_rejectIf fun _ => .bind_rejectIf fun _ => .bind (P := fun _ _ => True) ?_ ?_)
  · refine .doIf (fun _ => .bind (logIf_moves fun _ _ _ => ⟨rfl, rfl, rfl⟩) fun _ s₁ h₁ _ => ?_)
      fun _ => trivial
    exact .doIf (fun hlt => absurd hlt (UInt64.not_lt.2 h)) fun _ => trivial
  · intro _ _ _ _
    exact .bind_modify ⟨rfl, rfl, rfl⟩ (.bind (checkVoteSender_moves _ _) fun _ _ _ _ =>
      .pure trivial)

theorem forwardVote_sameCaches {sv : SignedVote} (h : sv.vote.height ≤ s.eng.height) :
    Steps SameCaches (forwardVote E sv) (fun _ _ => True) s :=
  .bind (handleSignedVote_sameCaches h true) fun _ _ _ _ =>
    (sendBft_records ⟨rfl, rfl, rfl⟩).mono fun _ _ _ _ => trivial

/-! ### What a status empties -/

/-- The number of messages that announce a status: the status itself, and the switch of the
consensus power if there is one. -/
def announcements (eng : Consensus F) (rs : Status) : ℕ :=
  if eng.address ∈ intoAddrSet rs.authorityList ↔ eng.consensusPower = true then 1 else 2

/-- The messages that announce a status are delivered. -/
def Announced (E : Env F) (s : State F) (rs : Status) : Prop :=
  ∀ n < announcements s.eng rs, E.delivers (s.calls.length + n) = true

/-- Switching the power succeeds if the switch is delivered, and a status that follows is then
announced if it is delivered as well. -/
theorem switchPower_announces (rs : Status) : wp (switchPower E rs)
    (fun _ s' => Announced E s rs ↔ E.delivers s'.calls.length = true)
    (fun e _ => e ≠ .panicked ∧ ¬ Announced E s rs) s := by
  -- two messages are sent if the power is switched
  have switch : ∀ (on : Bool) (m : CoreInput) (name : String), announcements s.eng rs = 2 →
      wp (do
        modify fun s : State F => { s with eng.consensusPower := on }
        sendBft E m name) (fun _ s' => Announced E s rs ↔ E.delivers s'.calls.length = true)
        (fun e _ => e ≠ .panicked ∧ ¬ Announced E s rs) s := by
    intro on m name hcount
    have hsend := result_sendBft (E := E) { s with eng.consensusPower := on } m name
    have hall : Announced E s rs ↔ E.delivers s.calls.length = true ∧
        E.delivers (s.calls.length + 1) = true := by
      unfold Announced
      rw [hcount]
      exact Nat.forall_lt_succ_right.trans (and_congr_left' (by simp))
    refine wp_bind.2 ((Exec.wp_modify _).2
      (Exec.wp_of_result hsend (fun _ hr => ?_) fun e hr => ?_))
    · split_ifs at hr with hd
      rw [hall]
      simp [State.record, hd]
    · split_ifs at hr with hd
      obtain rfl := Except.error.inj hr
      exact ⟨by simp, fun h => hd (hall.1 h).1⟩
  have keep : announcements s.eng rs = 1 →
      (Announced E s rs ↔ E.delivers s.calls.length = true) := by
    intro hcount
    unfold Announced
    rw [hcount]
    simp
  unfold announcements at switch keep
  unfold switchPower
  refine wp_bind.2 (Exec.wp_ite.2 ⟨fun hmem => ?_, fun hmem => ?_⟩)
  · refine Exec.wp_ite.2 ⟨fun hp => switch _ _ _ ?_, fun hp => keep ?_⟩
    · simp [hmem, hp]
    · simp [hmem, hp]
  · refine Exec.wp_ite.2 ⟨fun hp => switch _ _ _ ?_, fun hp => keep ?_⟩
    · simp [hmem, hp]
    · simp [hmem, hp]

theorem switchPower_sameCaches (rs : Status) :
    Steps SameCaches (switchPower E rs) (fun _ _ => True) s := by
  have switch : ∀ (on : Bool) (m : CoreInput) (name : String), Steps SameCaches (do
      modify fun s : State F => { s with eng.consensusPower := on }
      sendBft E m name) (fun _ _ => True) s := fun on m name =>
    .bind_modify ⟨rfl, rfl, rfl⟩ ((sendBft_records ⟨rfl, rfl, rfl⟩).mono fun _ _ _ _ => trivial)
  unfold switchPower
  exact .bind_get (.ite (fun _ => .ite (fun _ => switch _ _ _) fun _ => .pure trivial)
    fun _ => .ite (fun _ => switch _ _ _) fun _ => .pure trivial)

/-- What leaves the caches alone, on every exit. -/
theorem Steps.sameCaches {α : Type} {m : EngineM F α} {Q : α → State F → Prop}
    (h : Steps SameCaches m Q s) : wp m (fun _ => SameCaches s) (fun _ => SameCaches s) s :=
  wp.mono h (fun _ _ h => SameCaches.of_moves h.1) fun _ _ h => SameCaches.of_moves h

/-- The proposals cached for the present height were taken. -/
structure TookProposals (s s' : State F) : Prop where
  height : s'.eng.height = s.eng.height
  keys : ∀ k, k ∈ s'.eng.proposalCache ↔ k ∈ s.eng.proposalCache ∧ k ≠ s.eng.height
  voteCache : s'.eng.voteCache = s.eng.voteCache

/-- However the draining of the proposals ends, they were taken. -/
theorem sendCacheProposal_takes (s : State F) : wp (sendCacheProposal E s.eng.height)
    (fun _ => TookProposals s) (fun _ => TookProposals s) s := by
  unfold sendCacheProposal
  refine wp_bind.2 ((Exec.wp_get).2 ?_)
  cases hl : s.eng.proposalCache.lookup s.eng.height with
  | none =>
    refine ⟨rfl, fun k => ?_, rfl⟩
    refine ⟨fun hk => ⟨hk, ?_⟩, And.left⟩
    rintro rfl
    exact AList.lookup_eq_none.1 hl hk
  | some proposals =>
    have taken : ∀ s', SameCaches { s with
        eng.proposalCache := s.eng.proposalCache.erase s.eng.height } s' → TookProposals s s' := by
      intro s' h
      refine ⟨h.height, fun k => ?_, h.voteCache⟩
      rw [h.proposalCache, AList.mem_erase]
      exact and_comm
    refine wp_bind.2 ((Exec.wp_modify _).2 ?_)
    have hloop : Steps SameCaches (proposals.forM fun entry => forwardProposal E entry.1 entry.2.2)
        (fun _ _ => True) { s with
          eng.proposalCache := s.eng.proposalCache.erase s.eng.height } :=
      .forM (fun _ _ _ _ => forwardProposal_sameCaches _ _) trivial
    exact (Steps.sameCaches hloop).mono (fun _ => taken) fun _ => taken

/-- The draining of the proposals ends well if there are none. -/
theorem sendCacheProposal_ends {s₀ : State F} (he : Entered s₀ rs s)
    (hc : ∀ l e, s.eng.proposalCache.lookup s.eng.height = some l → e ∈ l →
      e.1.proposal.height = s.eng.height) : wp (sendCacheProposal E s.eng.height)
    (fun _ _ => cachedProposals s.eng s.eng.height = [])
    (fun _ _ => cachedProposals s.eng s.eng.height ≠ []) s := by
  refine Exec.wp_of_result rfl (fun _ hr => ?_) fun e hr hnil => ?_
  · exact (sendCacheProposal_unknown he.blocks he.verdicts hc).ok (Prod.ext hr rfl)
  · obtain ⟨s', hs'⟩ := sendCacheProposal_nil (E := E) (List.isEmpty_iff.2 hnil)
    rw [hs'] at hr
    exact nomatch hr

/-- The votes cached for the present height were taken. -/
structure TookVotes (s s' : State F) : Prop where
  height : s'.eng.height = s.eng.height
  proposalCache : s'.eng.proposalCache = s.eng.proposalCache
  keys : ∀ k, k ∈ s'.eng.voteCache ↔ k ∈ s.eng.voteCache ∧ k ≠ s.eng.height

/-- However the draining of the votes ends, they were taken. -/
theorem sendCacheVote_takes (hc : ∀ l sv, s.eng.voteCache.lookup s.eng.height = some l → sv ∈ l →
      sv.vote.height = s.eng.height) : wp (sendCacheVote E s.eng.height)
    (fun _ => TookVotes s) (fun _ => TookVotes s) s := by
  unfold sendCacheVote
  refine wp_bind.2 ((Exec.wp_get).2 ?_)
  cases hl : s.eng.voteCache.lookup s.eng.height with
  | none =>
    refine ⟨rfl, rfl, fun k => ?_⟩
    refine ⟨fun hk => ⟨hk, ?_⟩, And.left⟩
    rintro rfl
    exact AList.lookup_eq_none.1 hl hk
  | some votes =>
    have taken : ∀ s', SameCaches { s with
        eng.voteCache := s.eng.voteCache.erase s.eng.height } s' → TookVotes s s' := by
      intro s' h
      refine ⟨h.height, h.proposalCache, fun k => ?_⟩
      rw [h.voteCache, AList.mem_erase]
      exact and_comm
    refine wp_bind.2 ((Exec.wp_modify _).2 ?_)
    -- the height stays, so that no vote is put back
    have hloop : Steps SameCaches (votes.forM (forwardVote E))
        (fun _ s' => s'.eng.height = s.eng.height) { s with
          eng.voteCache := s.eng.voteCache.erase s.eng.height } := by
      refine .forM (I := fun s' : State F => s'.eng.height = s.eng.height)
        (fun sv hsv s' hs' => ?_) rfl
      have hle : sv.vote.height ≤ s'.eng.height := by
        rw [hc votes sv hl hsv, hs']
        exact UInt64.le_refl _
      exact (forwardVote_sameCaches hle).mono fun _ _ h _ =>
        (SameCaches.of_moves h).height.trans hs'
    exact (Steps.sameCaches hloop).mono (fun _ => taken) fun _ => taken

/-- What is left of the caches once a height was opened and its status announced: what is cached
for it is taken, the votes only if there are no proposals. -/
structure Emptied (E : Env F) (rs : Status) (s s' : State F) : Prop where
  height : s'.eng.height = s.eng.height
  proposals : ∀ k, k ∈ s'.eng.proposalCache ↔
    k ∈ s.eng.proposalCache ∧ (k = s.eng.height → ¬ Announced E s rs)
  votes : ∀ k, k ∈ s'.eng.voteCache ↔ k ∈ s.eng.voteCache ∧
    (k = s.eng.height → ¬ (Announced E s rs ∧ cachedProposals s.eng s.eng.height = []))

/-- A status that is not announced empties nothing. -/
theorem Emptied.of_sameCaches (h : SameCaches s s') (hannounced : ¬ Announced E s rs) :
    Emptied E rs s s' := by
  refine ⟨h.height, fun k => ?_, fun k => ?_⟩
  · rw [h.proposalCache]
    exact (and_iff_left fun _ => hannounced).symm
  · rw [h.voteCache]
    exact (and_iff_left fun _ h => hannounced h.1).symm

/-- Draining the caches of a height that was announced empties them. -/
theorem drain_empties {K : Supply F} {s₀ s₂ : State F} (he₂ : Entered s₀ rs s₂)
    (hc : Cached E K s.eng) (hsame : SameCaches s s₂) (ha : Announced E s rs) :
    wp (do
        let s ← get
        sendCacheProposal E s.eng.height
        let s ← get
        sendCacheVote E s.eng.height) (fun _ => Emptied E rs s) (fun _ => Emptied E rs s) s₂ := by
  have hnil : cachedProposals s₂.eng s₂.eng.height = cachedProposals s.eng s.eng.height := by
    unfold cachedProposals
    rw [hsame.proposalCache, hsame.height]
  refine wp_bind.2 (Exec.wp_get.2 (wp_bind.2 ?_))
  have hdrain := (sendCacheProposal_takes (E := E) s₂).and (sendCacheProposal_ends he₂
    fun l e hl he => (hc.proposal _ l e (hsame.proposalCache ▸ hl) he).2)
  rw [hnil] at hdrain
  have proposals : ∀ s', TookProposals s₂ s' → ∀ k, k ∈ s'.eng.proposalCache ↔
      k ∈ s.eng.proposalCache ∧ (k = s.eng.height → ¬ Announced E s rs) := by
    intro s' h k
    rw [h.keys, hsame.proposalCache, hsame.height]
    exact and_congr_right fun _ => ⟨fun hne heq => absurd heq hne, fun h heq => h heq ha⟩
  refine hdrain.mono ?_ ?_
  · rintro _ s₃ ⟨h₃, hempty⟩
    refine wp_bind.2 (Exec.wp_get.2 ?_)
    have hvotes : s₃.eng.voteCache = s.eng.voteCache := h₃.voteCache.trans hsame.voteCache
    have hheight : s₃.eng.height = s.eng.height := h₃.height.trans hsame.height
    have emptied : ∀ s', TookVotes s₃ s' → Emptied E rs s s' := by
      intro s' h
      refine ⟨h.height.trans hheight, ?_, fun k => ?_⟩
      · rw [h.proposalCache]
        exact proposals s₃ h₃
      · rw [h.keys, hvotes, hheight]
        exact and_congr_right fun _ =>
          ⟨fun hne heq => absurd heq hne, fun h heq => h heq ⟨ha, hempty⟩⟩
    refine (sendCacheVote_takes fun l sv hl hsv => ?_).mono (fun _ => emptied) fun _ => emptied
    exact (hc.vote _ l sv (hvotes ▸ hl) hsv).2.2.1
  · rintro _ s₃ ⟨h₃, hne⟩
    refine ⟨h₃.height.trans hsame.height, proposals s₃ h₃, fun k => ?_⟩
    rw [h₃.voteCache, hsame.voteCache]
    exact (and_iff_left fun _ h => hne h.2).symm

/-- **What a status empties**, once it opened its height. -/
theorem afterStatus_empties {K : Supply F} {s₀ : State F} (he : Entered s₀ rs s)
    (hc : Cached E K s.eng) (st : BftStatus) :
    wp (afterStatus E rs st) (fun _ => Emptied E rs s) (fun _ => Emptied E rs s) s := by
  unfold afterStatus
  have hpower := ((Steps.sameCaches (switchPower_sameCaches (E := E) rs)).and
    (switchPower_announces rs)).and (switchPower_enters (P := fun _ => False) id id he)
  refine wp_bind.2 (hpower.mono ?_ fun _ s₁ h => .of_sameCaches h.1.1 h.1.2.2)
  rintro _ s₁ ⟨⟨hs₁, hannounced⟩, -, he₁⟩
  refine wp_bind.2 (Exec.wp_of_result (result_sendBft s₁ _ _) (fun _ hr => ?_) fun e hr => ?_)
  swap
  · split_ifs at hr with hd
    exact .of_sameCaches ⟨hs₁.height, hs₁.proposalCache, hs₁.voteCache⟩ fun h =>
      hd (hannounced.1 h)
  split_ifs at hr with hd
  -- the status is announced, and the caches are drained
  have he₂ : Entered s₀ rs (s₁.record (.bft (.status st) (E.delivers s₁.calls.length))) :=
    ⟨he₁.accepted, he₁.height, he₁.authority, he₁.blocks, he₁.verdicts, he₁.proposalCache,
      he₁.voteCache⟩
  exact drain_empties he₂ hc ⟨hs₁.height, hs₁.proposalCache, hs₁.voteCache⟩ (hannounced.2 hd)

/-! ### What a status leaves -/

/-- The log once a live status was logged. -/
def walAfterStatus (E : Env F) (s : State F) (rs : Status) : WalState :=
  if E.walOn then (E.serde.status.toString rs).elim s.walState fun bytes => (Exec.result
    (Wal.save E.io E.overflowChecks rs.height LOG_TYPE_RICH_STATUS bytes) s.walState).2
  else s.walState

/-- The status empties the caches of the height it opens: it is live, the file of the height can be
opened, and the status is announced. -/
structure Empties (E : Env F) (s : State F) (rs : Status) (needWal : Bool) : Prop where
  live : needWal = true
  file : (Exec.result (Wal.setHeight E.io (rs.height + 1)) (walAfterStatus E s rs)).1 = .ok ⟨⟩
  announced : Announced E s rs

/-- A live status that is let in is accepted if the file of its height can be opened. -/
theorem handleRichStatus_accepts (hlet : LetIn E s rs true) : wp (handleRichStatus E rs true)
    (fun _ _ => (Exec.result (Wal.setHeight E.io (rs.height + 1))
      (walAfterStatus E s rs)).1 = .ok ⟨⟩)
    (fun e _ => e ≠ .panicked → (Exec.result (Wal.setHeight E.io (rs.height + 1))
      (walAfterStatus E s rs)).1 ≠ .ok ⟨⟩) s := by
  have filed : ∀ w, StatusFiled E s rs true w → w = walAfterStatus E s rs := by
    intro w hw
    cases hw with
    | off idle => rw [walAfterStatus, if_neg (by simpa using idle)]
    | on due text saved =>
      rw [walAfterStatus, if_pos (by simpa using due), text, Option.elim_some, saved]
  refine handleRichStatus_wp ?_ ?_ ?_ ?_
  · exact fun _ _ hrefused => absurd hlet hrefused.not_letIn
  · exact fun _ _ _ _ hne => absurd rfl hne
  · exact fun _ w hw hfile => filed w hw ▸ hfile
  · exact fun _ w hw _ hfails _ _ => filed w hw ▸ hfails

/-- What is left of the caches in the height that a status opened. -/
structure Leaves (E : Env F) (s : State F) (rs : Status) (needWal : Bool) (s' : State F) :
    Prop where
  height : s'.eng.height = rs.height + 1
  proposals : ∀ k, k ∈ s'.eng.proposalCache ↔
    k ∈ s.eng.proposalCache ∧ (k = rs.height + 1 → ¬ Empties E s rs needWal)
  votes : ∀ k, k ∈ s'.eng.voteCache ↔ k ∈ s.eng.voteCache ∧ (k = rs.height + 1 →
    ¬ (Empties E s rs needWal ∧ cachedProposals s.eng (rs.height + 1) = []))

/-- A status that does not empty the caches leaves them. -/
theorem Leaves.of_not_empties (hheight : s'.eng.height = rs.height + 1)
    (hproposals : s'.eng.proposalCache = s.eng.proposalCache)
    (hvotes : s'.eng.voteCache = s.eng.voteCache) {needWal : Bool}
    (h : ¬ Empties E s rs needWal) : Leaves E s rs needWal s' := by
  refine ⟨hheight, fun k => ?_, fun k => ?_⟩
  · rw [hproposals]
    exact (and_iff_left fun _ => h).symm
  · rw [hvotes]
    exact (and_iff_left fun _ h' => h h'.1).symm

/-- **What a status leaves of the caches**, if it is let in; otherwise it leaves everything. -/
theorem handleStatus_leaves [Content F] {needWal : Bool} (hc : Cached E (Supply.all F) s.eng)
    (h : Exec.survive (handleStatus E rs needWal) s = some s') :
    (¬ LetIn E s rs needWal ∧ SameCaches s s') ∨
      LetIn E s rs needWal ∧ Leaves E s rs needWal s' := by
  have heffect := handleRichStatus_effect E s rs needWal
  rcases handleStatus_cases h with ⟨e, hr⟩ | ⟨st, s₁, hr, hlive, hlogged⟩
  · rw [hr] at heffect
    cases heffect with
    | refused logged out => exact .inl ⟨out, ⟨rfl, rfl, rfl⟩⟩
    | entered logged letIn ret =>
      refine .inr ⟨letIn, .of_not_empties (by rfl) (by rfl) (by rfl) ?_⟩
      rintro ⟨rfl, hfile, -⟩
      exact (handleRichStatus_accepts letIn).error hr (by simp) hfile
  · rw [hr] at heffect
    have hentered := (handleRichStatus_enters (E := E) (s := s) rs needWal).ok hr
    generalize hr₁ : (Except.ok st : Outcome ConsensusError BftStatus) = r at heffect
    cases heffect with
    | refused logged out => exact nomatch hr₁
    | crashed logged letIn wraps => exact nomatch hr₁
    | @entered _ w logged letIn ret =>
      refine .inr ⟨letIn, ?_⟩
      cases needWal with
      | false =>
        rw [hlogged rfl]
        exact .of_not_empties (by rfl) (by rfl) (by rfl) fun h => Bool.false_ne_true h.live
      | true =>
        have hfile := (handleRichStatus_accepts letIn).ok hr
        let s₁ := s.enter rs (Exec.result (Wal.setHeight E.io (rs.height + 1)) w).2
        have hcached : Cached E (Supply.all F) s₁.eng := ⟨hc.proposal, hc.vote⟩
        have hempties := Exec.survive_of_wp ((afterStatus_empties hentered hcached st).mono
          (fun _ _ h => h) fun _ _ h _ => h) (hlive rfl)
        have hiff : Empties E s rs true ↔ Announced E s₁ rs :=
          ⟨fun h => h.announced, fun h => ⟨rfl, hfile, h⟩⟩
        refine ⟨hempties.height, fun k => ?_, fun k => ?_⟩
        · rw [hempties.proposals, hiff]
          rfl
        · rw [hempties.votes, hiff]
          rfl

/-! ### What a vote leaves -/

/-- The signature of the vote is that of its voter, and the vote is not of a passed height. -/
def VotePasses (E : Env F) (eng : Consensus F) (sv : SignedVote) : Prop :=
  sv.Genuine E ∧ LockHeight E eng.height sv.vote.height

/-- What a vote leaves of the caches: it is cached, or it changes nothing.  A vote for a far height
that passes is always cached. -/
inductive VoteEffect (E : Env F) (s : State F) (sv : SignedVote) (s' : State F) : Prop
  | kept (same : SameCaches s s')
      (near : VotePasses E s.eng sv → sv.vote.height.toNat < s.eng.height.toNat + CACHE_NUMBER)
  | cached (passes : VotePasses E s.eng sv) (later : s.eng.height < sv.vote.height)
      (height : s'.eng.height = s.eng.height)
      (proposalCache : s'.eng.proposalCache = s.eng.proposalCache)
      (voteCache : s'.eng.voteCache = s.eng.voteCache.pushEntry sv.vote.height sv)

theorem VoteEffect.record {sv : SignedVote} (h : VoteEffect E s sv s') (e : Event F) :
    VoteEffect E s sv (s'.record e) := by
  cases h with
  | kept same near => exact .kept ⟨same.height, same.proposalCache, same.voteCache⟩ near
  | cached passes later height proposalCache voteCache =>
    exact .cached passes later height proposalCache voteCache

/-- **What a vote leaves of the caches**, however it is handled. -/
theorem handleSignedVote_voteEffect (s : State F) (sv : SignedVote) (needWal : Bool) :
    wp (handleSignedVote E sv needWal) (fun _ => VoteEffect E s sv)
      (fun _ => VoteEffect E s sv) s := by
  by_cases hlt : s.eng.height < sv.vote.height
  swap
  · -- a vote that is not for a later height is near
    have hle := UInt64.not_lt.1 hlt
    have hnear : sv.vote.height.toNat < s.eng.height.toNat + CACHE_NUMBER :=
      lt_of_le_of_lt (UInt64.le_iff_toNat_le.1 hle) (Nat.lt_add_of_pos_right (by decide))
    have kept : ∀ s', SameCaches s s' → VoteEffect E s sv s' := fun s' h => .kept h fun _ => hnear
    exact (Steps.sameCaches (handleSignedVote_sameCaches hle needWal)).mono (fun _ => kept)
      fun _ => kept
  refine handleSignedVote_later hlt ?_ ?_ ?_
  · exact fun hp _ => .kept ⟨rfl, rfl, rfl⟩ fun h => absurd h hp
  · intro hlog _ w
    -- only a vote of the window is logged
    have hnear : sv.vote.height.toNat < s.eng.height.toNat + CACHE_NUMBER := by
      simp only [Bool.and_eq_true, decide_eq_true_eq] at hlog
      have hsub := UInt64.toNat_sub_of_le _ _ (UInt64.le_of_lt hlt)
      have := UInt64.lt_iff_toNat_lt.1 hlt
      omega
    exact .kept ⟨rfl, rfl, rfl⟩ fun _ => hnear
  · exact fun hp w => VoteEffect.cached hp hlt rfl rfl rfl

/-! ### The window -/

/-- The heights after the current one whose messages may be cached. -/
structure InWindow (current height : UInt64) : Prop where
  later : current < height
  near : height.toNat < current.toNat + CACHE_NUMBER

/-- This is what is tested of proposals. -/
theorem inWindow_iff {height current : UInt64} :
    inWindow height current = true ↔ InWindow current height := by
  unfold inWindow
  rw [Bool.and_eq_true, decide_eq_true_eq, decide_eq_true_eq]
  constructor
  · rintro ⟨hlt, hnear⟩
    rw [UInt64.toNat_sub_of_le _ _ (UInt64.le_of_lt hlt)] at hnear
    exact ⟨hlt, by omega⟩
  · rintro ⟨hlt, hnear⟩
    refine ⟨hlt, ?_⟩
    rw [UInt64.toNat_sub_of_le _ _ (UInt64.le_of_lt hlt)]
    have := UInt64.lt_iff_toNat_lt.1 hlt
    omega

/-- All cached messages are for heights of the window. -/
def Windowed (eng : Consensus F) : Prop :=
  ∀ k, k ∈ eng.proposalCache ∨ k ∈ eng.voteCache → InWindow eng.height k

theorem SameCaches.windowed_congr (h : SameCaches s s') : Windowed s'.eng ↔ Windowed s.eng := by
  unfold Windowed
  rw [h.height, h.proposalCache, h.voteCache]

/-- The vote is near, unless it is turned away. -/
def VoteNear (E : Env F) (eng : Consensus F) (sv : SignedVote) : Prop :=
  VotePasses E eng sv → sv.vote.height.toNat < eng.height.toNat + CACHE_NUMBER

/-- **A vote keeps the caches in their window if and only if it is near.** -/
theorem VoteEffect.keeps_iff {sv : SignedVote} (h : VoteEffect E s sv s')
    (hw : Windowed s.eng) : Windowed s'.eng ↔ VoteNear E s.eng sv := by
  cases h with
  | kept same near => exact iff_of_true (same.windowed_congr.2 hw) near
  | cached passes later height proposalCache voteCache =>
    unfold Windowed
    rw [height, proposalCache, voteCache]
    constructor
    · intro h _
      exact (h sv.vote.height (.inr (HashMap.mem_pushEntry.2 (.inl rfl)))).near
    · rintro hnear k (hk | hk)
      · exact hw k (.inl hk)
      · rcases HashMap.mem_pushEntry.1 hk with rfl | hk
        · exact ⟨later, hnear passes⟩
        · exact hw k (.inr hk)

/-- What is cached fits the height that a status opens: it is for the window after it, or it is
taken. -/
structure Fits (E : Env F) (s : State F) (rs : Status) (needWal : Bool) : Prop where
  proposals : ∀ k ∈ s.eng.proposalCache,
    (k = rs.height + 1 ∧ Empties E s rs needWal) ∨ InWindow (rs.height + 1) k
  votes : ∀ k ∈ s.eng.voteCache, (k = rs.height + 1 ∧ Empties E s rs needWal ∧
    cachedProposals s.eng (rs.height + 1) = []) ∨ InWindow (rs.height + 1) k

/-- **A status that is let in keeps the caches in their window if and only if they fit its
height.** -/
theorem Leaves.enters_iff {needWal : Bool} (h : Leaves E s rs needWal s') :
    Windowed s'.eng ↔ Fits E s rs needWal := by
  unfold Windowed
  rw [h.height]
  constructor
  · intro hw
    refine ⟨fun k hk => ?_, fun k hk => ?_⟩
    · by_cases htaken : k = rs.height + 1 ∧ Empties E s rs needWal
      · exact .inl htaken
      · exact .inr (hw k (.inl ((h.proposals k).2 ⟨hk, fun heq he => htaken ⟨heq, he⟩⟩)))
    · by_cases htaken : k = rs.height + 1 ∧ Empties E s rs needWal ∧
          cachedProposals s.eng (rs.height + 1) = []
      · exact .inl htaken
      · exact .inr (hw k (.inr ((h.votes k).2 ⟨hk, fun heq he => htaken ⟨heq, he⟩⟩)))
  · rintro ⟨hproposals, hvotes⟩ k (hk | hk)
    · obtain ⟨hk, hkept⟩ := (h.proposals k).1 hk
      exact (hproposals k hk).resolve_left fun htaken => hkept htaken.1 htaken.2
    · obtain ⟨hk, hkept⟩ := (h.votes k).1 hk
      exact (hvotes k hk).resolve_left fun htaken => hkept htaken.1 htaken.2

variable [Content F] {S : Source F} {i : Input} {p p' : Process F} {needWal : Bool}

/-- A move keeps the caches in their window if the votes at hand are near. -/
theorem Move.windowed (h : Move E S s s')
    (hS : ∀ sv, S.vote sv → InWindow s.eng.height sv.vote.height) (hw : Windowed s.eng) :
    Windowed s'.eng := by
  cases h with
  | cacheProposal sp block bytes received window =>
    rintro k (hk | hk)
    · rcases HashMap.mem_pushEntry.1 hk with rfl | hk
      · exact inWindow_iff.1 window
      · exact hw k (.inl hk)
    · exact hw k (.inr hk)
  | cacheVote sv received genuine future =>
    rintro k (hk | hk)
    · exact hw k (.inl hk)
    · rcases HashMap.mem_pushEntry.1 hk with rfl | hk
      · exact hS sv received
      · exact hw k (.inr hk)
  | takeProposals height =>
    rintro k (hk | hk)
    · exact hw k (.inl (AList.mem_erase.1 hk).2)
    · exact hw k (.inr hk)
  | takeVotes height =>
    rintro k (hk | hk)
    · exact hw k (.inl hk)
    · exact hw k (.inr (AList.mem_erase.1 hk).2)
  | _ => exact hw

/-! ### Turns -/

omit [Content F] in
theorem BringsVote.unique {sv sv' : SignedVote} (h : BringsVote E p i sv)
    (h' : BringsVote E p i sv') : sv = sv' := by
  cases i with
  | external m =>
    cases m with
    | signedVote bytes => exact Except.ok.inj (h.symm.trans h')
    | _ => exact h.elim
  | replay =>
    obtain ⟨msg, records, hp, hmsg⟩ := h
    obtain ⟨msg', records', hp', hmsg'⟩ := h'
    obtain rfl : msg = msg' := by simpa using (List.cons.inj (hp.symm.trans hp')).1
    exact Option.some.inj (hmsg.symm.trans hmsg')
  | _ => exact h.elim

/-- A turn that brings a vote does what the vote does. -/
theorem next_voteEffect {sv : SignedVote} (hb : BringsVote E p i sv) (hn : next E i p = some p') :
    VoteEffect E p.state sv p'.state := by
  have hsend : ∀ s₁ (v : BftVote), VoteEffect E p.state sv s₁ →
      wp (sendBft E (.vote v) "BftVote") (fun _ => VoteEffect E p.state sv)
        (fun _ => VoteEffect E p.state sv) s₁ := fun s₁ v h =>
    Exec.wp_of_result (result_sendBft s₁ _ _) (fun _ _ => h.record _) fun _ _ => h.record _
  cases i with
  | external m =>
    cases m with
    | signedVote bytes =>
      obtain ⟨s, -, hs, rfl⟩ := live_of_next (by simp) hn
      refine Exec.survive_of_wp (m := processSignedVote E bytes) ?_ hs
      have hdecode : SignedVote.decode E.rlp bytes = .ok sv := hb
      unfold processSignedVote
      rw [hdecode]
      refine wp_bind.2 (wp_bind.2 ((handleSignedVote_voteEffect _ sv true).mono ?_ ?_))
      · exact fun v s₁ h => (hsend s₁ v h).mono (fun _ _ h => h) fun _ _ h _ => h
      · exact fun _ _ h _ => h
    | _ => exact hb.elim
  | replay =>
    obtain ⟨msg, records, hp, hmsg⟩ := hb
    obtain ⟨record, records', hp', -, hs⟩ := pending_of_replayNext hn
    obtain ⟨rfl, rfl⟩ := List.cons.inj (hp.symm.trans hp')
    refine Exec.survive_of_wp (m := loadSignedVote E msg) ?_ hs
    unfold loadSignedVote loadJson
    rw [hmsg]
    refine wp_bind.2 (Exec.wp_ifOk ((handleSignedVote_voteEffect _ sv false).mono ?_ ?_))
    · exact fun v s₁ h => (hsend s₁ v h).mono (fun _ _ h => h) fun _ _ h _ => h
    · exact fun _ _ h => ⟨fun _ => h, fun _ _ => h⟩
  | _ => exact hb.elim

omit [Content F] in
/-- A turn that handles a status brings no vote, and hands it over with the caches as they were. -/
theorem HandlesAt.sameCaches (h : HandlesAt E p i rs needWal s) :
    (∀ sv, ¬ BringsVote E p i sv) ∧ SameCaches p.state s := by
  have hbefore := h.beforeStatus
  refine ⟨?_, hbefore.height, hbefore.proposalCache, hbefore.voteCache⟩
  cases h with
  | external => exact fun _ => id
  | committed => exact fun _ => id
  | @logged msg records rs head text =>
    rintro sv ⟨msg', records', hp, -⟩
    have htag := (Prod.mk.inj (List.cons.inj (head.symm.trans hp)).1).1
    exact absurd htag (by decide)

/-- What keeps the caches in their window: a vote that the input brings is near, and what is cached
fits the height that its status opens. -/
structure KeepsWindow (E : Env F) (p : Process F) (i : Input) : Prop where
  vote : ∀ sv, BringsVote E p i sv → VoteNear E p.state.eng sv
  status : ∀ rs needWal s, HandlesAt E p i rs needWal s → LetIn E s rs needWal → Fits E s rs needWal

/-- **A turn keeps the caches in their window if and only if its vote is near and what is cached
fits the height that its status opens.** -/
theorem next_windowed_iff (hc : Cached E (Supply.all F) p.state.eng) (hn : next E i p = some p')
    (hw : Windowed p.state.eng) : Windowed p'.state.eng ↔ KeepsWindow E p i := by
  by_cases hvote : ∃ sv, BringsVote E p i sv
  · obtain ⟨sv, hb⟩ := hvote
    rw [(next_voteEffect hb hn).keeps_iff hw]
    constructor
    · intro hnear
      refine ⟨fun sv' hb' => ?_, fun rs needWal s hs => absurd hb (hs.sameCaches.1 sv)⟩
      obtain rfl := hb.unique hb'
      exact hnear
    · exact fun h => h.vote sv hb
  by_cases hstatus : ∃ rs needWal s, HandlesAt E p i rs needWal s
  · obtain ⟨rs, needWal, s, hs⟩ := hstatus
    obtain ⟨hnovote, hsame⟩ := hs.sameCaches
    have hc₁ : Cached E (Supply.all F) s.eng := by
      refine ⟨?_, ?_⟩
      · rw [hsame.proposalCache]
        exact hc.proposal
      · rw [hsame.voteCache]
        exact hc.vote
    -- the status is the only one of the turn
    have hunique : KeepsWindow E p i ↔ (LetIn E s rs needWal → Fits E s rs needWal) := by
      refine ⟨fun h => h.status rs needWal s hs, fun h => ⟨fun sv hb => absurd hb (hnovote sv), ?_⟩⟩
      intro rs' needWal' s' hs'
      obtain ⟨rfl, rfl, rfl⟩ := hs.unique hs'
      exact h
    rw [hunique]
    rcases handleStatus_leaves hc₁ (survive_of_handlesAt hn hs) with
      ⟨hout, hsame'⟩ | ⟨hlet, hleaves⟩
    · exact iff_of_true (hsame'.windowed_congr.2 (hsame.windowed_congr.2 hw)) fun h => absurd h hout
    · rw [hleaves.enters_iff]
      exact ⟨fun h _ => h, fun h => h hlet⟩
  · -- only votes that are cached already are at hand
    simp only [not_exists] at hvote hstatus
    let S : Source F := { statusless F with
      vote := fun sv => ∃ k l, p.state.eng.voteCache.lookup k = some l ∧ sv ∈ l }
    have hsupplied : Supplied E S.toSupply p i :=
      ⟨fun sv hb => absurd hb (hvote sv), fun _ _ _ _ => trivial, fun _ _ _ _ _ => trivial,
        fun _ _ => trivial⟩
    have hcached : Cached E S.toSupply p.state.eng :=
      ⟨hc.proposal, fun k l sv hl hsv => ⟨⟨k, l, hl, hsv⟩, (hc.vote k l sv hl hsv).2⟩⟩
    have hmoves := next_moves_of_none (S := S) hsupplied (fun _ _ => trivial) (fun _ => not_false)
      hcached hn hstatus
    have hnear : ∀ sv, S.vote sv → InWindow p.state.eng.height sv.vote.height := by
      rintro sv ⟨k, l, hl, hsv⟩
      rw [(hc.vote k l sv hl hsv).2.2.1]
      exact hw k (.inr (AList.lookup_isSome.1 (by rw [hl]; rfl)))
    refine iff_of_true ?_ ⟨fun sv hb => absurd hb (hvote sv), fun rs needWal s hs =>
      absurd hs (hstatus rs needWal s)⟩
    refine (Exec.invariant_of_moves (R := Move E S) (I := fun s =>
      s.eng.height = p.state.eng.height ∧ Windowed s.eng) ?_ hmoves ⟨rfl, hw⟩).2
    rintro s s' hm ⟨hheight, hw⟩
    exact ⟨hm.height_eq.trans hheight, hm.windowed (hheight ▸ hnear) hw⟩

/-! ### Runs -/

variable {address : Address} {disk : Disk} {is : List Input}

/-- **The caches stay within their window if and only if no vote for a far height is received and
no status opens a height that the cached messages do not fit.** -/
theorem windowed_iff (hl : Life E address disk is p) :
    EachState E address disk is (fun p => Windowed p.state.eng) ↔
      EachInput E address disk is (KeepsWindow E) := by
  constructor
  · intro h is₁ i is₂ p₁ his hl₁
    subst his
    obtain ⟨q₁, q₂, hq₁, hn, hq₂⟩ := hl.split
    obtain rfl := hq₁.unique hl₁
    obtain ⟨-, -, -, hc⟩ := hl₁.updates (SuppliedLife.all E address disk is₁)
    refine (next_windowed_iff hc hn (h _ _ q₁ rfl hl₁)).1 ?_
    exact h (is₁ ++ [i]) is₂ q₂ (by simp) hq₂
  · intro h is₁ is₂ p₁ his hl₁
    subst his
    refine hl₁.induction (I := fun p => Windowed p.state.eng) ?_ ?_
    · intro p₀ hb
      rw [(boot_state hb).1]
      rintro k (hk | hk)
      · exact absurd hk (AList.notMem_empty k)
      · exact absurd hk (AList.notMem_empty k)
    · intro js i js' q q' hjs hq hc hn hw
      exact (next_windowed_iff hc hn hw).2 (h js i (js' ++ is₂) q (by rw [hjs]; simp) hq)

/-- Votes for the heights `2` and `100` are received at height `1`, then a status opens height
`6`. -/
def distantRun : List Input :=
  Reference.readyRun [7] ++
    [.external (.signedVote (Reference.voteBytes .prevote 2 0 [5] [7])),
      .external (.signedVote (Reference.voteBytes .prevote 100 0 [5] [7])),
      .external (.status ⟨5, none, [Node.new [7]]⟩)]

theorem exists_distantRun :
    ∃ p, Life (Reference.env [7]) [7] Reference.disk distantRun p ∧ p.state.eng.height = 6 ∧
      2 ∈ p.state.eng.voteCache ∧ 100 ∈ p.state.eng.voteCache := by
  obtain ⟨p, hl, hf⟩ := Reference.exists_life (Reference.env [7]) [7] distantRun
    (fun p => decide (p.state.eng.height = 6 ∧ 2 ∈ p.state.eng.voteCache ∧
      100 ∈ p.state.eng.voteCache)) (by decide +kernel)
  exact ⟨p, hl, of_decide_eq_true hf⟩

theorem windowed_iff_distant :
    ∃ p, Life (Reference.env [7]) [7] Reference.disk distantRun p ∧
      (EachState (Reference.env [7]) [7] Reference.disk distantRun
          (fun p => Windowed p.state.eng) ↔
        EachInput (Reference.env [7]) [7] Reference.disk distantRun
          (KeepsWindow (Reference.env [7]))) := by
  obtain ⟨p, hl, -⟩ := exists_distantRun
  exact ⟨p, hl, windowed_iff hl⟩

/-- **At height `6` a vote for the passed height `2` is cached, and one for height `100`.** -/
theorem distant_votes_cached :
    ∃ p, Life (Reference.env [7]) [7] Reference.disk distantRun p ∧
      p.state.eng.height = 6 ∧ 2 ∈ p.state.eng.voteCache ∧ 100 ∈ p.state.eng.voteCache ∧
      ¬ Windowed p.state.eng := by
  obtain ⟨p, hl, hheight, hpassed, hfar⟩ := exists_distantRun
  refine ⟨p, hl, hheight, hpassed, hfar, fun hw => ?_⟩
  have hlater := (hw 2 (.inr hpassed)).later
  rw [hheight] at hlater
  exact absurd hlater (by decide)

end ConsensusBft

import ConsensusBft.Collection.Basic

/-!
# When adding a vote or a proposal changes nothing

* `VoteCollector.Same` : two collectors hold the same votes, and their heights and rounds were used
  in the same order.
* `VoteCollector.Latest` : a vote is stored, and its height and round are those used last.
* `VoteCollector.same_add_iff`, `VoteCollector.same_addAll_iff` : **adding votes under one height,
  round and type changes nothing if and only if all of them are the latest.**
* `ProposalCollector.Latest` : a round has a proposal, and its height and round are those used
  last.
* `ProposalCollector.add_eq_iff` : **adding a proposal changes nothing if and only if its round is
  such a one.**
-/

namespace ConsensusBft

namespace LruCache

variable {cap : ℕ} {κ α : Type*} [DecidableEq κ] {c : LruCache cap κ α} {k : κ} {v w : α}

/-- The entry used last is the first one. -/
theorem recent_empty_iff :
    Recent ∅ k v c ↔ c.map.keys.head? = some k ∧ c.peek k = some v := by
  constructor
  · intro h
    refine ⟨?_, h.peek⟩
    obtain ⟨l₁, l₂, he, hl⟩ := h
    obtain rfl : l₁ = [] := List.eq_nil_iff_forall_not_mem.2 fun e hmem => by simpa using hl e hmem
    simp [AList.keys, he]
  · rintro ⟨hhead, hpeek⟩
    cases he : c.map.entries with
    | nil => simp [AList.keys, he] at hhead
    | cons e l =>
      obtain ⟨k', v'⟩ := e
      obtain rfl : k' = k := by simpa [AList.keys, he] using hhead
      have hmem : ⟨k', v'⟩ ∈ c.map.entries := by simp [he]
      obtain rfl : v' = v := Option.some.inj ((AList.mem_lookup_iff.2 hmem).symm.trans hpeek)
      exact ⟨[], l, he, by simp⟩

/-- Overwriting the entry used last keeps the order of use. -/
theorem keys_insert_of_recent (h : Recent ∅ k v c) : (c.insert k w).map.keys = c.map.keys := by
  obtain ⟨hhead, hpeek⟩ := recent_empty_iff.1 h
  rw [insert_map_of_peek hpeek, AList.keys_insert]
  cases hk : c.map.keys with
  | nil => simp [hk] at hhead
  | cons k' l =>
    obtain rfl : k' = k := by simpa [hk] using hhead
    simp

theorem peek_insert_of_recent (h : Recent ∅ k v c) (k' : κ) :
    (c.insert k w).peek k' = if k' = k then some w else c.peek k' := by
  unfold peek
  rw [insert_map_of_peek h.peek]
  by_cases hk : k' = k
  · subst hk
    simp
  · rw [if_neg hk, AList.lookup_insert_ne hk]

/-- Writing the entry used last once more changes nothing. -/
theorem insert_of_recent (h : Recent ∅ k v c) : c.insert k v = c := by
  have hmap : (c.insert k v).map = c.map := by
    obtain ⟨l₁, l₂, he, hl⟩ := h
    obtain rfl : l₁ = [] := List.eq_nil_iff_forall_not_mem.2 fun e hmem => by simpa using hl e hmem
    have hpeek : c.peek k = some v := AList.mem_lookup_iff.2 (by simp [he])
    rw [insert_map_of_peek hpeek]
    refine AList.ext ?_
    rw [AList.entries_insert, he]
    simp
  cases c
  cases hc : insert _ k v
  rw [hc] at hmap
  rw [mk.injEq]
  exact hmap

end LruCache

namespace VoteCollector

variable {vc vc' vc'' : VoteCollector} {h r : UInt64} {t : VoteType} {bv bv' : BftVote}
  {sv : SignedVote}

/-- The rounds of a height, the one used last first. -/
def rounds (vc : VoteCollector) (h : UInt64) : Option (List UInt64) :=
  (vc.votes.peek h).map fun rc => rc.roundVotes.map.keys

/-- The same votes are stored, and heights and rounds were used in the same order. -/
structure Same (vc vc' : VoteCollector) : Prop where
  heights : vc.votes.map.keys = vc'.votes.map.keys
  rounds : ∀ h, vc.rounds h = vc'.rounds h
  stored : ∀ h r t bv, vc.stored h r t bv = vc'.stored h r t bv

theorem Same.refl (vc : VoteCollector) : vc.Same vc := ⟨rfl, fun _ => rfl, fun _ _ _ _ => rfl⟩

theorem Same.symm (hs : vc.Same vc') : vc'.Same vc :=
  ⟨hs.heights.symm, fun h => (hs.rounds h).symm, fun h r t bv => (hs.stored h r t bv).symm⟩

theorem Same.trans (hs : vc.Same vc') (hs' : vc'.Same vc'') : vc.Same vc'' :=
  ⟨hs.heights.trans hs'.heights, fun h => (hs.rounds h).trans (hs'.rounds h),
    fun h r t bv => (hs.stored h r t bv).trans (hs'.stored h r t bv)⟩

/-- A vote is stored for `bv`, and its height and round are those used last. -/
def Latest (vc : VoteCollector) (h r : UInt64) (t : VoteType) (bv : BftVote) : Prop :=
  ∃ sv, Kept ∅ ∅ h r t bv sv vc

theorem latest_iff : vc.Latest h r t bv ↔ vc.votes.map.keys.head? = some h ∧
    (vc.rounds h).bind List.head? = some r ∧ (vc.stored h r t bv).isSome := by
  constructor
  · rintro ⟨sv, hk⟩
    have hstored := hk.stored
    obtain ⟨rc, sc, hrc, hsc, -⟩ := hk
    refine ⟨(LruCache.recent_empty_iff.1 hrc).1, ?_, by simp [hstored]⟩
    simp [rounds, hrc.peek, (LruCache.recent_empty_iff.1 hsc).1]
  · rintro ⟨hh, hr, hs⟩
    obtain ⟨sv, hsv⟩ := Option.isSome_iff_exists.1 hs
    obtain ⟨rc, hrc, hsv⟩ := Option.bind_eq_some_iff.1 hsv
    obtain ⟨sc, hsc, hsv⟩ := Option.bind_eq_some_iff.1 hsv
    have hr' : rc.roundVotes.map.keys.head? = some r := by simpa [rounds, hrc] using hr
    exact ⟨sv, rc, sc, LruCache.recent_empty_iff.2 ⟨hh, hrc⟩,
      LruCache.recent_empty_iff.2 ⟨hr', hsc⟩, hsv⟩

theorem Same.latest (hs : vc.Same vc') (hl : vc.Latest h r t bv) : vc'.Latest h r t bv := by
  rw [latest_iff] at hl ⊢
  rw [← hs.heights, ← hs.rounds, ← hs.stored]
  exact hl

theorem latest_add (vc : VoteCollector) (h r : UInt64) (t : VoteType) (bv : BftVote)
    (sv : SignedVote) : (vc.add h r t bv sv).2.Latest h r t bv := ⟨_, Kept.of_add vc h r t bv sv⟩

/-- It stays the latest when votes of the same height and round are added. -/
theorem Latest.add (hl : vc.Latest h r t bv) (bv' : BftVote) (sv : SignedVote) :
    (vc.add h r t bv' sv).2.Latest h r t bv := by
  obtain ⟨w, hk⟩ := hl
  exact ⟨w, hk.add (fun hne => absurd rfl hne) (fun _ hne => absurd rfl hne) (by decide)
    (by decide)⟩

/-- **Adding the latest vote again changes nothing.** -/
theorem Latest.same (hl : vc.Latest h r t bv) (sv : SignedVote) :
    (vc.add h r t bv sv).2.Same vc := by
  obtain ⟨w, rc, sc, hrc, hsc, hw⟩ := hl
  have hadd : (vc.add h r t bv sv).2 =
      ⟨vc.votes.insert h ⟨rc.roundVotes.insert r (sc.add t bv sv).2⟩⟩ := by
    simp [VoteCollector.add, RoundCollector.add, hrc.peek, hsc.peek]
  have hpeek : ∀ h' : UInt64, (vc.add h r t bv sv).2.votes.peek h' =
      if h' = h then some ⟨rc.roundVotes.insert r (sc.add t bv sv).2⟩ else vc.votes.peek h' := by
    intro h'
    rw [hadd]
    exact LruCache.peek_insert_of_recent hrc h'
  refine ⟨?_, fun h' => ?_, fun h' r' t' bv' => ?_⟩
  · rw [hadd]
    exact LruCache.keys_insert_of_recent hrc
  · unfold rounds
    rw [hpeek]
    by_cases hh : h' = h
    · subst hh
      simp [hrc.peek, LruCache.keys_insert_of_recent hsc]
    · rw [if_neg hh]
  · unfold stored
    rw [hpeek]
    by_cases hh : h' = h
    · subst hh
      simp only [if_true, hrc.peek, Option.bind_some, RoundCollector.stored,
        LruCache.peek_insert_of_recent hsc]
      by_cases hr : r' = r
      · subst hr
        simp only [if_true, hsc.peek, Option.bind_some, StepCollector.stored_add]
        split_ifs with hc
        · obtain ⟨rfl, rfl⟩ := hc
          rw [hw, Option.getD_some]
        · rfl
      · rw [if_neg hr]
    · rw [if_neg hh]

/-- Add votes under one height, round and type. -/
def addAll (vc : VoteCollector) (h r : UInt64) (t : VoteType) (votes : List SignedVote) :
    VoteCollector :=
  votes.foldl (fun vc sv => (vc.add h r t sv.vote.toBftVote sv).2) vc

theorem Latest.addAll (hl : vc.Latest h r t bv) (votes : List SignedVote) :
    (vc.addAll h r t votes).Latest h r t bv := by
  induction votes generalizing vc with
  | nil => exact hl
  | cons sv votes ih => exact ih (hl.add _ _)

/-- The votes that were added are the latest. -/
theorem latest_addAll {votes : List SignedVote} (hsv : sv ∈ votes) :
    (vc.addAll h r t votes).Latest h r t sv.vote.toBftVote := by
  induction votes generalizing vc with
  | nil => simp at hsv
  | cons w votes ih =>
    rcases List.mem_cons.1 hsv with rfl | hsv
    · exact (latest_add vc h r t _ _).addAll votes
    · exact ih hsv

/-- What is stored then was stored before, or is one of the votes. -/
theorem stored_addAll_cases {votes : List SignedVote} {h' r' : UInt64} {t' : VoteType}
    {bv' : BftVote} {w : SignedVote} (hw : (vc.addAll h r t votes).stored h' r' t' bv' = some w) :
    vc.stored h' r' t' bv' = some w ∨ (h' = h ∧ r' = r ∧ t' = t ∧ w ∈ votes) := by
  induction votes generalizing vc with
  | nil => exact .inl hw
  | cons sv votes ih =>
    rcases ih hw with hw | ⟨hh, hr, ht, hmem⟩
    · rcases stored_add_cases hw with hw | ⟨hh, hr, ht, -, rfl⟩
      · exact .inl hw
      · exact .inr ⟨hh, hr, ht, List.mem_cons_self⟩
    · exact .inr ⟨hh, hr, ht, List.mem_cons_of_mem sv hmem⟩

theorem same_addAll {votes : List SignedVote}
    (hl : ∀ sv ∈ votes, vc.Latest h r t sv.vote.toBftVote) : (vc.addAll h r t votes).Same vc := by
  induction votes generalizing vc with
  | nil => exact .refl vc
  | cons sv votes ih =>
    have hsame := (hl sv List.mem_cons_self).same sv
    refine Same.trans (ih fun w hw => ?_) hsame
    exact hsame.symm.latest (hl w (List.mem_cons_of_mem sv hw))

/-- **Adding votes under one height, round and type changes nothing if and only if they are all the
latest.** -/
theorem same_addAll_iff {votes : List SignedVote} : (vc.addAll h r t votes).Same vc ↔
    ∀ sv ∈ votes, vc.Latest h r t sv.vote.toBftVote :=
  ⟨fun hs _ hsv => hs.latest (latest_addAll hsv), same_addAll⟩

/-- **Adding a vote changes nothing if and only if it is the latest.** -/
theorem same_add_iff : (vc.add h r t bv sv).2.Same vc ↔ vc.Latest h r t bv :=
  ⟨fun hs => hs.latest (latest_add vc h r t bv sv), fun hl => hl.same sv⟩

end VoteCollector

namespace ProposalRoundCollector

variable {rp : ProposalRoundCollector} {r : UInt64} {sp : SignedProposal}

/-- Whether its proposal is kept or it is a new one, the round is the one used last. -/
theorem recent_add (rp : ProposalRoundCollector) (r : UInt64) (sp : SignedProposal) :
    ∃ w, LruCache.Recent ∅ r w (rp.add r sp).2.roundProposals := by
  have hcap : 0 < CACHE_NUMBER := by decide
  unfold add LruCache.getMut
  cases rp.roundProposals.peek r with
  | some w => exact ⟨w, .insert_self hcap⟩
  | none => exact ⟨sp, .insert_self hcap⟩

/-- Adding a proposal for the round used last changes nothing. -/
theorem add_of_recent {w : SignedProposal} (h : LruCache.Recent ∅ r w rp.roundProposals) :
    rp.add r sp = (false, rp) := by
  unfold add LruCache.getMut
  rw [h.peek]
  exact congrArg (fun c => (false, ProposalRoundCollector.mk c)) (LruCache.insert_of_recent h)

end ProposalRoundCollector

namespace ProposalCollector

variable {pc : ProposalCollector} {h r : UInt64} {sp : SignedProposal}

/-- The round has a proposal, and its height and round are those used last. -/
def Latest (pc : ProposalCollector) (h r : UInt64) : Prop :=
  ∃ rp sp, LruCache.Recent ∅ h rp pc.proposals ∧ LruCache.Recent ∅ r sp rp.roundProposals

theorem latest_add (pc : ProposalCollector) (h r : UInt64) (sp : SignedProposal) :
    (pc.add h r sp).2.Latest h r := by
  unfold add
  cases pc.proposals.peek h with
  | some rp =>
    obtain ⟨w, hw⟩ := rp.recent_add r sp
    exact ⟨_, w, .insert_self (by decide), hw⟩
  | none =>
    obtain ⟨w, hw⟩ := ProposalRoundCollector.new.recent_add r sp
    exact ⟨_, w, .insert_self (by decide), hw⟩

/-- **Adding a proposal changes nothing if and only if its round has one**, and its height and round
are those used last. -/
theorem add_eq_iff : (pc.add h r sp).2 = pc ↔ pc.Latest h r := by
  constructor
  · exact fun heq => heq ▸ latest_add pc h r sp
  · rintro ⟨rp, w, hheight, hround⟩
    simp only [add, hheight.peek, ProposalRoundCollector.add_of_recent hround]
    exact congrArg ProposalCollector.mk (LruCache.insert_of_recent hheight)

end ProposalCollector

end ConsensusBft

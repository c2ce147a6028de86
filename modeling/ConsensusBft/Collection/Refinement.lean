import ConsensusBft.Collection.Basic

/-!
# The vote collector is a map

The three nested containers of the vote collector are compared with the list of the additions made
so far, in which the first signed vote that was given for a vote counts.

* `VoteCollector.Within H R` : only the heights of `H`, and only the rounds `R h` of a height `h`,
  are in the collector.  If these are at most `CACHE_NUMBER` each, nothing is ever evicted
  (`VoteCollector.Within.voteSet_add`).
* `ReadsAs l h r t o` : `o` is what the additions among the calls `l` give for a height, round and
  type.
* `VoteCollector.answers_of_fits` : **every call is answered as the list of additions says**, as
  long as the calls fit into the caches.
-/

namespace ConsensusBft

/-! ### Caches that are large enough -/

namespace LruCache

variable {cap : ℕ} {κ α : Type*} [DecidableEq κ] {S : Finset κ} {c : LruCache cap κ α} {k : κ}
  {v : α}

/-- All keys belong to `S`. -/
def Within (S : Finset κ) (c : LruCache cap κ α) : Prop :=
  ∀ k v, c.peek k = some v → k ∈ S

theorem within_new : Within S (new : LruCache cap κ α) := by
  intro k v hpeek
  simp [new, peek] at hpeek

namespace Within

/-- **A cache that has room for all keys of `S` evicts nothing.** -/
theorem insert_map (hc : Within S c) (hk : k ∈ S) (hcard : S.card ≤ cap) :
    (c.insert k v).map = c.map.insert k v := by
  rcases LruCache.insert_map c k v with ⟨hm, -⟩ | ⟨-, hlt⟩
  · exact hm
  · have hsub : (c.map.insert k v).keys.toFinset ⊆ S := by
      intro k' hmem
      rw [List.mem_toFinset, ← AList.mem_keys, AList.mem_insert] at hmem
      rcases hmem with rfl | hmem
      · exact hk
      · obtain ⟨w, hw⟩ := Option.isSome_iff_exists.1 (AList.lookup_isSome.2 hmem)
        exact hc k' w hw
    have hle := Finset.card_le_card hsub
    rw [List.toFinset_card_of_nodup (AList.keys_nodup _), AList.keys, List.keys,
      List.length_map] at hle
    omega

theorem peek_insert (hc : Within S c) (hk : k ∈ S) (hcard : S.card ≤ cap) (k' : κ) :
    (c.insert k v).peek k' = if k' = k then some v else c.peek k' := by
  unfold peek
  rw [hc.insert_map hk hcard]
  by_cases hkk : k' = k
  · subst hkk
    simp
  · rw [if_neg hkk, AList.lookup_insert_ne hkk]

theorem insert (hc : Within S c) (hk : k ∈ S) : Within S (c.insert k v) := by
  intro k' w hw
  rcases peek_insert_cases hw with ⟨rfl, -⟩ | ⟨-, hw⟩
  · exact hk
  · exact hc k' w hw

theorem getMut (hc : Within S c) (k : κ) : Within S (c.getMut k).2 := by
  intro k' w hw
  rw [peek_getMut] at hw
  exact hc k' w hw

end Within

end LruCache

/-! ### The three containers -/

namespace StepCollector

theorem getVoteSet_add (sc : StepCollector) (t t' : VoteType) (bv : BftVote) (sv : SignedVote) :
    (sc.add t bv sv).2.getVoteSet t' =
      if t' = t then some (((sc.getVoteSet t).getD .new).add bv sv).2 else sc.getVoteSet t' := by
  unfold add getVoteSet
  by_cases ht : t' = t
  · subst ht
    simp
  · rw [if_neg ht, AList.lookup_insert_ne ht]

end StepCollector

namespace RoundCollector

variable {rc : RoundCollector} {R : Finset UInt64} {r r' : UInt64} {t t' : VoteType} {bv : BftVote}
  {sv : SignedVote}

/-- The vote set of a round and type, without counting as a use. -/
def voteSet (rc : RoundCollector) (r : UInt64) (t : VoteType) : Option VoteSet :=
  (rc.roundVotes.peek r).bind fun sc => sc.getVoteSet t

/-- Both branches of `add` add to the round's votes, which may be none. -/
theorem add_eq (rc : RoundCollector) (r : UInt64) (t : VoteType) (bv : BftVote) (sv : SignedVote) :
    rc.add r t bv sv = ((((rc.roundVotes.peek r).getD .new).add t bv sv).1,
      ⟨rc.roundVotes.insert r (((rc.roundVotes.peek r).getD .new).add t bv sv).2⟩) := by
  unfold add
  cases rc.roundVotes.peek r <;> rfl

theorem add_fst (rc : RoundCollector) (r : UInt64) (t : VoteType) (bv : BftVote)
    (sv : SignedVote) : (rc.add r t bv sv).1 = (((rc.voteSet r t).getD .new).add bv sv).1 := by
  rw [add_eq, voteSet]
  cases rc.roundVotes.peek r <;> rfl

theorem voteSet_add (hrc : rc.roundVotes.Within R) (hr : r ∈ R) (hcard : R.card ≤ CACHE_NUMBER) :
    (rc.add r t bv sv).2.voteSet r' t' = if r' = r ∧ t' = t then
      some (((rc.voteSet r t).getD .new).add bv sv).2 else rc.voteSet r' t' := by
  rw [add_eq]
  unfold voteSet
  rw [hrc.peek_insert hr hcard]
  by_cases hrr : r' = r
  · subst hrr
    rw [if_pos rfl, Option.bind_some, StepCollector.getVoteSet_add]
    by_cases ht : t' = t
    · subst ht
      rw [if_pos rfl, if_pos ⟨rfl, rfl⟩]
      cases rc.roundVotes.peek r' <;> rfl
    · rw [if_neg ht, if_neg fun h => ht h.2]
      cases rc.roundVotes.peek r' <;> rfl
  · rw [if_neg hrr, if_neg fun h => hrr h.1]

theorem within_add (hrc : rc.roundVotes.Within R) (hr : r ∈ R) :
    (rc.add r t bv sv).2.roundVotes.Within R := by
  rw [add_eq]
  exact hrc.insert hr

theorem voteSet_getVoteSet (rc : RoundCollector) (r r' : UInt64) (t t' : VoteType) :
    (rc.getVoteSet r t).2.voteSet r' t' = rc.voteSet r' t' := by
  simp only [getVoteSet, voteSet, LruCache.peek_getMut]

end RoundCollector

namespace VoteCollector

variable {vc : VoteCollector} {H : Finset UInt64} {R : UInt64 → Finset UInt64}
  {h h' r r' : UInt64} {t t' : VoteType} {bv : BftVote} {sv : SignedVote}

/-- The heights in the collector belong to `H`, the rounds of a height `h` to `R h`. -/
structure Within (H : Finset UInt64) (R : UInt64 → Finset UInt64) (vc : VoteCollector) : Prop where
  heights : vc.votes.Within H
  rounds : ∀ h rc, vc.votes.peek h = some rc → rc.roundVotes.Within (R h)

theorem within_new : Within H R new := by
  refine ⟨LruCache.within_new, fun h rc hpeek => ?_⟩
  simp [new, LruCache.new, LruCache.peek] at hpeek

theorem add_eq (vc : VoteCollector) (h r : UInt64) (t : VoteType) (bv : BftVote)
    (sv : SignedVote) :
    vc.add h r t bv sv = ((((vc.votes.peek h).getD .new).add r t bv sv).1,
      ⟨vc.votes.insert h (((vc.votes.peek h).getD .new).add r t bv sv).2⟩) := by
  unfold add
  cases vc.votes.peek h <;> rfl

theorem voteSet_eq (vc : VoteCollector) (h r : UInt64) (t : VoteType) :
    vc.voteSet h r t = (vc.votes.peek h).bind fun rc => rc.voteSet r t := rfl

/-- A vote is new if its vote set has none for it. -/
theorem add_fst (vc : VoteCollector) (h r : UInt64) (t : VoteType) (bv : BftVote)
    (sv : SignedVote) : (vc.add h r t bv sv).1 = (((vc.voteSet h r t).getD .new).add bv sv).1 := by
  have hround : (vc.add h r t bv sv).1 = (((vc.votes.peek h).getD .new).add r t bv sv).1 :=
    congrArg Prod.fst (add_eq vc h r t bv sv)
  rw [hround, RoundCollector.add_fst, voteSet_eq]
  cases vc.votes.peek h <;> rfl

namespace Within

/-- The rounds of a height, which may be none. -/
theorem getD (hvc : Within H R vc) (h : UInt64) :
    ((vc.votes.peek h).getD .new).roundVotes.Within (R h) := by
  cases hpeek : vc.votes.peek h with
  | none => exact LruCache.within_new
  | some rc => exact hvc.rounds h rc hpeek

/-- **Adding a vote changes its own vote set only**, and no other one is lost. -/
theorem voteSet_add (hvc : Within H R vc) (hh : h ∈ H) (hr : r ∈ R h)
    (hH : H.card ≤ CACHE_NUMBER) (hR : (R h).card ≤ CACHE_NUMBER) :
    (vc.add h r t bv sv).2.voteSet h' r' t' = if h' = h ∧ r' = r ∧ t' = t then
      some (((vc.voteSet h r t).getD .new).add bv sv).2 else vc.voteSet h' r' t' := by
  rw [add_eq, voteSet_eq]
  change (LruCache.peek (vc.votes.insert h _) h').bind _ = _
  rw [hvc.heights.peek_insert hh hH]
  by_cases hhh : h' = h
  · subst hhh
    rw [if_pos rfl, Option.bind_some, RoundCollector.voteSet_add (hvc.getD h') hr hR]
    by_cases hrt : r' = r ∧ t' = t
    · rw [if_pos hrt, if_pos ⟨rfl, hrt⟩, voteSet_eq]
      cases vc.votes.peek h' <;> rfl
    · rw [if_neg hrt, if_neg fun hall => hrt hall.2, voteSet_eq]
      cases vc.votes.peek h' <;> rfl
  · rw [if_neg hhh, if_neg fun hall => hhh hall.1, voteSet_eq]

theorem add (hvc : Within H R vc) (hh : h ∈ H) (hr : r ∈ R h) (hH : H.card ≤ CACHE_NUMBER) :
    Within H R (vc.add h r t bv sv).2 := by
  rw [add_eq]
  refine ⟨hvc.heights.insert hh, fun h' rc hpeek => ?_⟩
  change LruCache.peek (vc.votes.insert h _) h' = some rc at hpeek
  rw [hvc.heights.peek_insert hh hH] at hpeek
  split_ifs at hpeek with hhh
  · subst hhh
    obtain rfl := Option.some.inj hpeek
    exact RoundCollector.within_add (hvc.getD h') hr
  · exact hvc.rounds h' rc hpeek

theorem getVoteSet (hvc : Within H R vc) (h r : UInt64) (t : VoteType) :
    Within H R (vc.getVoteSet h r t).2 := by
  unfold VoteCollector.getVoteSet
  cases hpeek : vc.votes.peek h with
  | none => exact hvc
  | some rc =>
    refine ⟨hvc.heights.insert (hvc.heights h rc hpeek), fun h' rc' hpeek' => ?_⟩
    rcases LruCache.peek_insert_cases hpeek' with ⟨rfl, rfl⟩ | ⟨-, hpeek'⟩
    · exact (hvc.rounds h' rc hpeek).getMut r
    · exact hvc.rounds h' rc' hpeek'

end Within

/-- **Reading a vote set changes none.** -/
theorem voteSet_getVoteSet (vc : VoteCollector) (h h' r r' : UInt64) (t t' : VoteType) :
    (vc.getVoteSet h r t).2.voteSet h' r' t' = vc.voteSet h' r' t' := by
  unfold getVoteSet
  cases hpeek : vc.votes.peek h with
  | none => rfl
  | some rc =>
    rw [voteSet_eq]
    change ((vc.votes.insert h (rc.getVoteSet r t).2).map.lookup h').bind _ = _
    rw [LruCache.insert_map_of_peek hpeek]
    by_cases hhh : h' = h
    · subst hhh
      rw [AList.lookup_insert, Option.bind_some, rc.voteSet_getVoteSet, voteSet_eq, hpeek,
        Option.bind_some]
    · rw [AList.lookup_insert_ne hhh]
      rfl

end VoteCollector

/-! ### The list of additions -/

/-- The coordinates of a vote set: height, round and type. -/
abbrev VoteKey := UInt64 × UInt64 × VoteType

/-- A call of the collector. -/
inductive CollectorCall where
  | add (height round : UInt64) (voteType : VoteType) (bftVote : BftVote) (signedVote : SignedVote)
  | getVoteSet (height round : UInt64) (voteType : VoteType)

/-- What a call returns. -/
inductive CollectorAnswer where
  | added (new : Bool)
  | votes (voteSet : Option VoteSet)

namespace CollectorCall

/-- The height a call touches. -/
def height : CollectorCall → UInt64
  | add h _ _ _ _ => h
  | getVoteSet h _ _ => h

/-- The round a call touches. -/
def round : CollectorCall → UInt64
  | add _ r _ _ _ => r
  | getVoteSet _ r _ => r

/-- What a call adds. -/
def addition : CollectorCall → Option ((VoteKey × BftVote) × SignedVote)
  | add h r t bv sv => some (((h, r, t), bv), sv)
  | getVoteSet _ _ _ => none

end CollectorCall

/-- All that was added by the calls, the first one first. -/
def additions (l : List CollectorCall) : List ((VoteKey × BftVote) × SignedVote) :=
  l.filterMap CollectorCall.addition

/-- `o` is what was added under a height, round and type: nothing if there was no vote, otherwise
the votes with the first signed vote given for each. -/
def ReadsAs (l : List CollectorCall) (h r : UInt64) (t : VoteType) (o : Option VoteSet) : Prop :=
  (o.isSome ↔ ∃ bv sv, (((h, r, t), bv), sv) ∈ additions l) ∧
    ∀ vs, o = some vs → ∀ bv, vs.votePair.lookup bv = (additions l).lookup ((h, r, t), bv)

/-- A call after the calls `l` is answered as the additions say. -/
def Answers (l : List CollectorCall) : CollectorCall → CollectorAnswer → Prop
  | .add h r t bv _, .added new => new = true ↔ ∀ sv, (((h, r, t), bv), sv) ∉ additions l
  | .getVoteSet h r t, .votes o => ReadsAs l h r t o
  | _, _ => False

/-- The calls touch `CACHE_NUMBER` heights or fewer, and as many rounds of each height. -/
structure FitsCaches (l : List CollectorCall) : Prop where
  heights : (l.map CollectorCall.height).toFinset.card ≤ CACHE_NUMBER
  rounds : ∀ h, ((l.filter fun c => c.height = h).map CollectorCall.round).toFinset.card ≤
    CACHE_NUMBER

/-- What is found in a list was put there. -/
theorem lookup_isSome_iff_mem {κ α : Type*} [BEq κ] [LawfulBEq κ] {l : List (κ × α)} {k : κ} :
    (l.lookup k).isSome ↔ ∃ v, (k, v) ∈ l := by
  rw [List.lookup_isSome_iff]
  constructor
  · rintro ⟨⟨k', v⟩, hmem, hk⟩
    obtain rfl : k = k' := eq_of_beq hk
    exact ⟨v, hmem⟩
  · rintro ⟨v, hmem⟩
    exact ⟨(k, v), hmem, beq_self_eq_true k⟩

namespace ReadsAs

variable {l : List CollectorCall} {h h' r r' : UInt64} {t t' : VoteType} {bv bv' : BftVote}
  {sv : SignedVote} {o : Option VoteSet}

/-- A vote set that is not there holds nothing. -/
theorem lookup (ho : ReadsAs l h r t o) (bv : BftVote) :
    (o.getD .new).votePair.lookup bv = (additions l).lookup ((h, r, t), bv) := by
  cases o with
  | some vs => exact ho.2 vs rfl bv
  | none =>
    refine (Option.not_isSome_iff_eq_none.1 fun hsome => ?_).symm
    obtain ⟨sv, hmem⟩ := lookup_isSome_iff_mem.1 hsome
    exact Bool.noConfusion (ho.1.2 ⟨bv, sv, hmem⟩)

theorem nil : ReadsAs [] h r t none :=
  ⟨by simp [additions], nofun⟩

/-- What is added under other coordinates does not count. -/
theorem add_ne (ho : ReadsAs l h' r' t' o) (hne : ¬(h' = h ∧ r' = r ∧ t' = t)) :
    ReadsAs (l ++ [.add h r t bv sv]) h' r' t' o := by
  have happ : additions (l ++ [.add h r t bv sv]) = additions l ++ [(((h, r, t), bv), sv)] :=
    List.filterMap_append
  refine ⟨ho.1.trans (exists₂_congr fun bv' sv' => ?_),
    fun vs hvs bv' => (ho.2 vs hvs bv').trans ?_⟩
  · rw [happ, List.mem_append, List.mem_singleton]
    refine ⟨.inl, fun hmem => hmem.resolve_right fun heq => hne ?_⟩
    simp only [Prod.mk.injEq] at heq
    exact heq.1.1
  · have hkey : ((((h', r', t'), bv') : VoteKey × BftVote) == ((h, r, t), bv)) = false := by
      refine beq_false_of_ne fun heq => hne ?_
      simp only [Prod.mk.injEq] at heq
      exact heq.1
    rw [happ, List.lookup_append, List.lookup_cons, hkey, List.lookup_nil, Option.or_none]

/-- A vote that is added stands in its vote set, unless there was a signed vote for it. -/
theorem add (ho : ReadsAs l h r t o) :
    ReadsAs (l ++ [.add h r t bv sv]) h r t (some ((o.getD .new).add bv sv).2) := by
  have happ : additions (l ++ [.add h r t bv sv]) = additions l ++ [(((h, r, t), bv), sv)] :=
    List.filterMap_append
  refine ⟨⟨fun _ => ⟨bv, sv, ?_⟩, fun _ => rfl⟩, fun vs hvs bv' => ?_⟩
  · rw [happ]
    exact List.mem_append_right _ (List.mem_singleton.2 rfl)
  · obtain rfl := Option.some.inj hvs
    change ((o.getD .new).votePair.orInsert bv sv).lookup bv' = _
    rw [HashMap.lookup_orInsert, ho.lookup, ho.lookup, happ, List.lookup_append, List.lookup_cons]
    by_cases hbv : bv' = bv
    · subst hbv
      rw [if_pos rfl, beq_self_eq_true]
      cases (additions l).lookup ((h, r, t), bv') <;> rfl
    · have hkey : ((((h, r, t), bv') : VoteKey × BftVote) == ((h, r, t), bv)) = false :=
        beq_false_of_ne fun heq => hbv (congrArg Prod.snd heq)
      rw [if_neg hbv, hkey, List.lookup_nil, Option.or_none]

/-- Reading adds nothing. -/
theorem getVoteSet (ho : ReadsAs l h r t o) : ReadsAs (l ++ [.getVoteSet h' r' t']) h r t o := by
  have happ : additions (l ++ [.getVoteSet h' r' t']) = additions l := by
    rw [additions, List.filterMap_append]
    exact List.append_nil _
  unfold ReadsAs
  rw [happ]
  exact ho

end ReadsAs

/-! ### Runs -/

namespace VoteCollector

variable {l before after : List CollectorCall} {c : CollectorCall} {vc : VoteCollector}
  {H : Finset UInt64} {R : UInt64 → Finset UInt64}

/-- One call. -/
def perform (vc : VoteCollector) : CollectorCall → CollectorAnswer × VoteCollector
  | .add h r t bv sv => (.added (vc.add h r t bv sv).1, (vc.add h r t bv sv).2)
  | .getVoteSet h r t => (.votes (vc.getVoteSet h r t).1, (vc.getVoteSet h r t).2)

/-- The collector after some calls. -/
def performAll (l : List CollectorCall) : VoteCollector :=
  l.foldl (fun vc c => (vc.perform c).2) new

/-- The collector holds what was added by the calls `l`. -/
structure Represents (H : Finset UInt64) (R : UInt64 → Finset UInt64) (l : List CollectorCall)
    (vc : VoteCollector) : Prop where
  within : Within H R vc
  readsAs : ∀ h r t, ReadsAs l h r t (vc.voteSet h r t)

theorem Represents.answers (hvc : Represents H R l vc) (c : CollectorCall) :
    Answers l c (vc.perform c).1 := by
  cases c with
  | add h r t bv sv =>
    change (vc.add h r t bv sv).1 = true ↔ ∀ sv, (((h, r, t), bv), sv) ∉ additions l
    rw [add_fst, VoteSet.add, (hvc.readsAs h r t).lookup, Option.isNone_iff_eq_none,
      ← Option.not_isSome_iff_eq_none, lookup_isSome_iff_mem, not_exists]
  | getVoteSet h r t =>
    change ReadsAs l h r t (vc.getVoteSet h r t).1
    rw [getVoteSet_fst]
    exact hvc.readsAs h r t

/-- **One call keeps the collector and the list of additions together.** -/
theorem Represents.perform (hvc : Represents H R l vc) (hh : c.height ∈ H)
    (hr : c.round ∈ R c.height) (hH : H.card ≤ CACHE_NUMBER)
    (hR : ∀ h, (R h).card ≤ CACHE_NUMBER) : Represents H R (l ++ [c]) (vc.perform c).2 := by
  obtain ⟨hwithin, hreads⟩ := hvc
  cases c with
  | add h r t bv sv =>
    change h ∈ H at hh
    change r ∈ R h at hr
    refine ⟨hwithin.add hh hr hH, fun h' r' t' => ?_⟩
    change ReadsAs _ h' r' t' ((vc.add h r t bv sv).2.voteSet h' r' t')
    rw [hwithin.voteSet_add hh hr hH (hR h)]
    split_ifs with hkey
    · obtain ⟨rfl, rfl, rfl⟩ := hkey
      exact (hreads h' r' t').add
    · exact (hreads h' r' t').add_ne hkey
  | getVoteSet h r t =>
    refine ⟨hwithin.getVoteSet h r t, fun h' r' t' => ?_⟩
    change ReadsAs _ h' r' t' ((vc.getVoteSet h r t).2.voteSet h' r' t')
    rw [voteSet_getVoteSet]
    exact (hreads h' r' t').getVoteSet

/-- The run: calls that touch the heights of `H` and the rounds of `R` only. -/
theorem represents_performAll (hl : ∀ c ∈ l, c.height ∈ H ∧ c.round ∈ R c.height)
    (hH : H.card ≤ CACHE_NUMBER) (hR : ∀ h, (R h).card ≤ CACHE_NUMBER) :
    Represents H R l (performAll l) := by
  induction l using List.reverseRecOn with
  | nil =>
    refine ⟨within_new, fun h r t => ?_⟩
    exact ReadsAs.nil
  | append_singleton l c ih =>
    obtain ⟨hh, hr⟩ := hl c (List.mem_append_right l (List.mem_singleton.2 rfl))
    have hvc := (ih fun c hc => hl c (List.mem_append_left _ hc)).perform hh hr hH hR
    rw [performAll, List.foldl_append]
    exact hvc

/-- **The nested vote collector is a map**: every call of a list of calls that fits into the caches
is answered as the additions before it say. -/
theorem answers_of_fits (hl : FitsCaches (before ++ c :: after)) :
    Answers before c ((performAll before).perform c).1 := by
  refine Represents.answers (represents_performAll (fun c' hc' => ?_) hl.heights hl.rounds) c
  have hmem : c' ∈ before ++ c :: after := List.mem_append_left _ hc'
  refine ⟨List.mem_toFinset.2 (List.mem_map_of_mem hmem), List.mem_toFinset.2 ?_⟩
  exact List.mem_map_of_mem (List.mem_filter.2 ⟨hmem, decide_eq_true rfl⟩)

/-- A vote that is given twice is read with its first signature. -/
theorem answers_of_fits_twice : ∃ l c, FitsCaches (l ++ [c]) ∧
    Answers l c ((performAll l).perform c).1 ∧ additions l ≠ [] := by
  have hl : FitsCaches (
      [.add 1 0 .prevote ⟨.prevote, 1, 0, [7], [1]⟩ ⟨⟨.prevote, 1, 0, [7], [1]⟩, [5]⟩,
      .add 1 0 .prevote ⟨.prevote, 1, 0, [7], [1]⟩ ⟨⟨.prevote, 1, 0, [7], [1]⟩, [6]⟩] ++
      .getVoteSet 1 0 .prevote :: []) := by
    refine ⟨by decide, fun h => ?_⟩
    refine (List.toFinset_card_le _).trans ?_
    rw [List.length_map]
    exact (List.length_filter_le _ _).trans (by decide)
  exact ⟨_, _, hl, answers_of_fits hl, List.cons_ne_nil _ _⟩

end VoteCollector

end ConsensusBft

import ConsensusBft.Consensus.Reference
import ConsensusBft.Consensus.StatusTurn

/-!
# One view of the authorities for each height

`check_proposer` selects a list of authorities for the height of a message, `check_vote_sender` and
`check_signed_vote` a set: those of the previous height for `authority_h_old`, else the present
ones.

* `OneView E address disk is p rs` : the run on `is` and the status `rs` accepted behind it leave
  `p`, where messages of the new height are judged by the authorities of `rs`, and those of the
  height before as they were while the engine was there.
* `oneView_iff` : **every accepted status leaves one view, if and only if none is accepted whose
  height is the last one**; behind it the height wraps to `0`.
-/

namespace ConsensusBft

variable {F : Type} [Content F] {E : Env F} {rs : Status} {address : Address} {disk : Disk}
variable {is : List Input} {i : Input} {p p' : Process F}

/-- For the messages of a height two states select the same authorities. -/
def SameAuthorities (a b : AuthorityManage) (height : UInt64) : Prop :=
  a.listAt height = b.listAt height ∧ a.setAt height = b.setAt height

/-- What a status accepted behind the run on `is` leaves. -/
structure OneView (E : Env F) (address : Address) (disk : Disk) (is : List Input) (p : Process F)
    (rs : Status) : Prop where
  old_lt : p.state.eng.authority.authorityHOld < p.state.eng.height
  height_eq : p.state.eng.height.toNat = rs.height.toNat + 1
  listAt : p.state.eng.authority.listAt p.state.eng.height = rs.authorityList
  setAt : p.state.eng.authority.setAt p.state.eng.height =
    (rs.authorityList.map Node.address).toFinset
  /-- Messages of the height before are judged as in every earlier state at that height. -/
  before : ∀ is₁ is₂ q, is = is₁ ++ is₂ → Life E address disk is₁ q →
    q.state.eng.height.toNat + 1 = p.state.eng.height.toNat →
      SameAuthorities p.state.eng.authority q.state.eng.authority q.state.eng.height

/-- `C` holds of every status that the run on `is` accepts, with the run before it and the state
that it leaves. -/
def EachAccepted (E : Env F) (address : Address) (disk : Disk) (is : List Input)
    (C : List Input → Process F → Status → Prop) : Prop :=
  ∀ is₁ i is₂ p p' rs, is = is₁ ++ i :: is₂ → Life E address disk is₁ p → next E i p = some p' →
    Accepts E p i rs → C is₁ p' rs

/-- The height after that of the status exists. -/
def Status.HasNext (rs : Status) : Prop := rs.height.toNat + 1 < 2 ^ 64

instance (rs : Status) : Decidable rs.HasNext :=
  inferInstanceAs (Decidable (rs.height.toNat + 1 < 2 ^ 64))

theorem Status.HasNext.toNat (h : rs.HasNext) : (rs.height + 1).toNat = rs.height.toNat + 1 := by
  unfold Status.HasNext at h
  rw [UInt64.toNat_add, UInt64.toNat_one, Nat.mod_eq_of_lt h]

/-! ### The generations -/

/-- The old generation is that of an earlier height, or there is none yet. -/
def Generations (eng : Consensus F) : Prop :=
  eng.authority.authorityHOld < eng.height ∨ eng.authority = AuthorityManage.default

omit [Content F] in
/-- The present authorities are selected for the messages of the present height. -/
theorem Generations.present {eng : Consensus F} (h : Generations eng) :
    eng.authority.listAt eng.height = eng.authority.authorities ∧
      eng.authority.setAt eng.height = eng.authority.addressSet := by
  unfold AuthorityManage.listAt AuthorityManage.setAt
  rcases h with h | h
  · have hne : eng.height ≠ eng.authority.authorityHOld := by grind
    rw [if_neg hne, if_neg hne]
    exact ⟨rfl, rfl⟩
  · rw [h]
    exact ⟨ite_self _, ite_self _⟩

/-- The statuses that the turn accepts have a next height. -/
def AcceptsNext (E : Env F) (p : Process F) (i : Input) : Prop :=
  ∀ rs, Accepts E p i rs → rs.HasNext

section

variable (hio : ∀ n, E.io n = .ok)

include hio

/-- Every turn keeps the generations in order. -/
theorem next_generations (hc : Cached E (Supply.all F) p.state.eng) (hn : next E i p = some p')
    (hnext : AcceptsNext E p i) (hg : Generations p.state.eng) : Generations p'.state.eng := by
  unfold Generations
  rcases next_position hio hc hn with ⟨rs, hrs, hle, hheight, hauthority⟩ | ⟨-, hheight, hauthority⟩
  · left
    rw [hheight, hauthority, UInt64.lt_iff_toNat_lt, (hnext rs hrs).toNat]
    exact Nat.lt_succ_of_le (UInt64.le_iff_toNat_le.1 hle)
  · rw [hheight, hauthority]
    exact hg

/-- So does every run. -/
theorem Life.generations (hl : Life E address disk is p)
    (hnext : EachInput E address disk is (AcceptsNext E)) : Generations p.state.eng := by
  refine hl.induction (I := fun p => Generations p.state.eng) (fun p₀ hb => .inr ?_) ?_
  · rw [(boot_state hb).1]
    rfl
  · exact fun is₁ i is₂ q q' his hq hc hn => next_generations hio hc hn (hnext is₁ i is₂ q his hq)

/-- The height never falls, and while it stays the authorities stay. -/
theorem Life.position_from {is₁ is₂ : List Input} {q : Process F}
    (hl : Life E address disk (is₁ ++ is₂) p) (hq : Life E address disk is₁ q)
    (hnext : EachInput E address disk (is₁ ++ is₂) (AcceptsNext E)) :
    q.state.eng.height < p.state.eng.height ∨
      p.state.eng.height = q.state.eng.height ∧ p.state.eng.authority = q.state.eng.authority := by
  refine hl.induction_from (I := fun p => q.state.eng.height < p.state.eng.height ∨
    p.state.eng.height = q.state.eng.height ∧ p.state.eng.authority = q.state.eng.authority)
    hq (.inr ⟨rfl, rfl⟩) ?_
  intro is₀ i is₃ r r' his hr hc hn hpos
  rcases next_position hio hc hn with ⟨rs, hrs, hle, hheight, -⟩ | ⟨-, hheight, hauthority⟩
  · left
    have hnat := (hnext is₀ i is₃ r his hr rs hrs).toNat
    rw [UInt64.lt_iff_toNat_lt, hheight, hnat]
    rw [UInt64.le_iff_toNat_le] at hle
    rcases hpos with hlt | ⟨heq, -⟩
    · rw [UInt64.lt_iff_toNat_lt] at hlt
      omega
    · rw [heq] at hle
      omega
  · rwa [hheight, hauthority]

/-- **A status with a next height leaves one view.** -/
theorem oneView_of_accepts (hl : Life E address disk is p) (hn : next E i p = some p')
    (hrs : Accepts E p i rs) (hnext : EachInput E address disk is (AcceptsNext E))
    (hlast : AcceptsNext E p i) : OneView E address disk is p' rs := by
  obtain ⟨-, -, -, hc⟩ := hl.updates (SuppliedLife.all E address disk is)
  have hnat := (hlast rs hrs).toNat
  rcases next_position hio hc hn with ⟨rs', hrs', hle, hheight, hauthority⟩ | ⟨hnot, -, -⟩
  · obtain rfl : rs' = rs := Accepts.unique hrs' hrs
    rw [UInt64.le_iff_toNat_le] at hle
    have hold : ¬ p'.state.eng.height = p.state.eng.height := by
      rw [hheight, ← UInt64.toNat_inj, hnat]
      omega
    refine ⟨?_, hheight ▸ hnat, ?_, ?_, fun is₁ is₂ q his hq hqh => ?_⟩
    · rw [hheight, hauthority, UInt64.lt_iff_toNat_lt, hnat]
      exact Nat.lt_succ_of_le hle
    · rw [hauthority]
      exact if_neg hold
    · rw [hauthority]
      exact if_neg hold
    · subst his
      rw [hheight, hnat] at hqh
      rcases hl.position_from hio hq hnext with hlt | ⟨heq, hsame⟩
      · rw [UInt64.lt_iff_toNat_lt] at hlt
        omega
      · obtain ⟨hlist, hset⟩ := (hl.generations hio hnext).present
        rw [← heq, SameAuthorities, ← hsame, hlist, hset, hauthority]
        exact ⟨if_pos rfl, if_pos rfl⟩
  · exact absurd hrs (hnot rs)

/-- **One view of the authorities for each height**: in every run, each accepted status leaves one
view if and only if each accepted status has a next height. -/
theorem oneView_iff (address : Address) (disk : Disk) (is : List Input) :
    EachAccepted E address disk is (fun is₁ p rs => OneView E address disk is₁ p rs) ↔
      EachAccepted E address disk is fun _ _ rs => rs.HasNext := by
  constructor
  · intro h is₁ i is₂ p p' rs his hl hn hrs
    unfold Status.HasNext
    rw [← (h is₁ i is₂ p p' rs his hl hn hrs).height_eq]
    exact UInt64.toNat_lt _
  · intro h is₁ i is₂ p p' rs his hl hn hrs
    have hnext : EachInput E address disk is₁ (AcceptsNext E) := by
      intro a j b q hab hq rs' hrs'
      obtain ⟨q₁, q₂, hq₁, hstep, -⟩ := Life.split (hab ▸ hl)
      obtain rfl := hq₁.unique hq
      refine h a j (b ++ i :: is₂) q₁ q₂ rs' ?_ hq₁ hstep hrs'
      rw [his, hab, List.append_assoc]
      rfl
    refine oneView_of_accepts hio hl hn hrs hnext fun rs' hrs' => ?_
    obtain rfl := hrs'.unique hrs
    exact h is₁ i is₂ p p' rs' his hl hn hrs'

end

/-- Heights `1` and `4`, with an obsolete status in between. -/
def skipRun : List Input :=
  [.external (.status ⟨0, none, [Node.new [7]]⟩), .external (.status ⟨0, none, [Node.new [8]]⟩),
    .external (.status ⟨3, none, [Node.new [8], Node.new [7]]⟩)]

theorem oneView_iff_skip : EachAccepted (Reference.env [7]) [7] Reference.disk skipRun
    fun is₁ p rs => OneView (Reference.env [7]) [7] Reference.disk is₁ p rs := by
  refine (oneView_iff (fun _ => rfl) [7] Reference.disk skipRun).2 ?_
  rintro is₁ i is₂ p p' rs his - - ⟨needWal, s, st, s₁, hs, -⟩
  have hi : i ∈ skipRun := by simp [his]
  simp only [skipRun, List.mem_cons, List.not_mem_nil, or_false] at hi
  rcases hi with rfl | rfl | rfl <;> cases hs <;> decide

/-- In a build without overflow checks, a status of the last height is accepted at height `1`, and
leaves the engine at height `0` with the old generation of height `1`. -/
theorem status_wraps : ∃ p p' : Process Block,
    Life { Reference.env [7] with overflowChecks := false } [7] Reference.disk
      (Reference.readyRun [7]) p ∧
    next { Reference.env [7] with overflowChecks := false }
      (.external (.status ⟨18446744073709551615, none, [Node.new [7]]⟩)) p = some p' ∧
    Accepts { Reference.env [7] with overflowChecks := false } p
      (.external (.status ⟨18446744073709551615, none, [Node.new [7]]⟩))
      ⟨18446744073709551615, none, [Node.new [7]]⟩ ∧
    ¬ p'.state.eng.authority.authorityHOld < p'.state.eng.height := by
  obtain ⟨p, p', hl, -, hn, hf, hg⟩ := Reference.exists_turn
    { Reference.env [7] with overflowChecks := false } [7] (Reference.readyRun [7])
    (.external (.status ⟨18446744073709551615, none, [Node.new [7]]⟩))
    (fun p => (Exec.result (handleRichStatus { Reference.env [7] with overflowChecks := false }
      ⟨18446744073709551615, none, [Node.new [7]]⟩ true) p.state).1.isOk)
    (fun p => decide (¬ p.state.eng.authority.authorityHOld < p.state.eng.height))
    (by decide +kernel) (by decide +kernel)
  refine ⟨p, p', hl, hn, ?_, of_decide_eq_true hg⟩
  obtain ⟨st, s₁, hr⟩ := Exec.exists_of_isOk hf
  exact ⟨true, p.state, st, s₁, .external _, hr⟩

end ConsensusBft

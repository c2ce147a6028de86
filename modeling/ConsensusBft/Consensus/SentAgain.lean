import ConsensusBft.Consensus.Answers
import ConsensusBft.Consensus.ReplayStops
import ConsensusBft.Consensus.WriteAhead

/-!
# Votes after a crash

A vote of the BFT core is in the log before it is sent, and a restart goes through the log.

* `Call.Sends v` : the call sends the vote `v` to the network, signed.
* `VoteTaken.kept` : **a vote that was sent stays in the file of its height**, as long as the engine
  stays there.
* `pending_of_boot` : a restart reads the records of the file of the height.
* `vote_sent_again` : **the restarted engine sends the vote again**, unless the replay stops or a
  status takes it to another height.
-/

namespace ConsensusBft

variable {F : Type} {E : Env F} {s s' : State F} {address : Address} {disk : Disk}
variable {is later : List Input} {p p' : Process F} {v : BftVote} {h : UInt64}

/-- The call sends the vote to the network, signed. -/
def Call.Sends (call : Call F) (v : BftVote) : Prop :=
  ∃ sig r, call.event = .transmit (.signedVote (SignedVote.mk v.toVote sig).rlpBytes) r

/-! ### One vote -/

/-- A vote that is neither logged nor of a past height is signed. -/
theorem handleVote_signs (hsigns : ∀ n hash, ∃ sig, E.support.sign n hash = .ok sig)
    (hheight : s.eng.height ≤ v.height) :
    ∃ sig s₁, Exec.result (handleVote E v false) s = (.ok ⟨v.toVote, sig⟩, s₁) := by
  obtain ⟨sig, hsig⟩ := hsigns s.calls.length (E.support.hash v.toVote.rlpBytes)
  have hsign : Exec.result (callSign E (E.support.hash v.toVote.rlpBytes)) s = (.ok (.ok sig),
      s.record (.sign (E.support.hash v.toVote.rlpBytes) (.ok sig))) := by
    rw [← hsig]
    rfl
  unfold handleVote
  rw [Exec.result_bind_get, Exec.result_bind_rejectIf (UInt64.not_lt.2 hheight),
    Exec.result_bind_ok (Exec.result_doIf_of_not (by simp) _ _)]
  exact ⟨sig, _, (Exec.result_bind_ok hsign).trans rfl⟩

/-- A failed `transmit` was called all the same. -/
theorem survive_transmit {msg : ConsensusOutput F} {f : String → ConsensusError}
    (hs : Exec.survive (do
      let res ← callTransmit E msg
      let _ ← orErr res f) s = some s') :
    ∃ r, s' = s.record (.transmit msg r) := by
  obtain ⟨_, h⟩ | ⟨res, s₁, h, hs⟩ := Exec.survive_bind hs
  · exact nomatch h
  · obtain ⟨hr, rfl⟩ := Prod.mk.inj h
    obtain rfl := Except.ok.inj hr
    refine ⟨E.support.transmit s.calls.length msg, ?_⟩
    cases hr : E.support.transmit s.calls.length msg with
    | ok a =>
      rw [← hr]
      rw [hr] at hs
      exact (Option.some.inj hs).symm
    | error e =>
      rw [← hr]
      rw [hr] at hs
      exact (Option.some.inj hs).symm

variable [Content F]

/-- **The replay sends a logged vote.** -/
theorem loadRecord_sends (hinverts : E.serde.bftVote.Inverts) {text : Bytes}
    (htext : E.serde.bftVote.toString v = some text)
    (hsigns : ∀ n hash, ∃ sig, E.support.sign n hash = .ok sig)
    (hheight : s.eng.height ≤ v.height)
    (hs : Exec.survive (loadRecord E (LOG_TYPE_VOTE, text)) s = some s') :
    ∃ call ∈ s'.calls, call.Sends v := by
  obtain ⟨sig, s₁, hv⟩ := handleVote_signs hsigns hheight
  change Exec.survive (loadVote E text) s = some s' at hs
  unfold loadVote loadJson at hs
  rw [hinverts v text htext, pure_bind] at hs
  obtain ⟨_, h⟩ | ⟨sv, s₂, h, hs⟩ := Exec.survive_ifOk hs
  · exact nomatch hv.symm.trans h
  · obtain ⟨hsv, rfl⟩ := Prod.mk.inj (hv.symm.trans h)
    obtain rfl := Except.ok.inj hsv
    obtain ⟨r, rfl⟩ := survive_transmit hs
    exact ⟨_, List.mem_append_right _ (List.mem_singleton_self _), sig, r, rfl⟩

/-! ### What is kept -/

/-- A vote that is taken from the core leaves the log as its handler leaves it. -/
theorem next_vote_disk {sv : SignedVote}
    (hv : Exec.result (handleVote E v true) p.state = (.ok sv, s))
    (hn : next E (.core (.vote v)) p = some p') :
    p'.state.disk = s.disk := by
  obtain ⟨s', -, hl, rfl⟩ := live_of_next (by simp) hn
  obtain ⟨_, h⟩ | ⟨sv', s₁, h, hs⟩ := Exec.survive_bind hl
  · exact nomatch hv.symm.trans h
  · obtain ⟨-, rfl⟩ := Prod.mk.inj (hv.symm.trans h)
    obtain ⟨r, rfl⟩ := survive_transmit hs
    rfl

/-- The engine stays at the height from the first of the later turns on. -/
theorem Stays.tail {i : Input} (hs : Stays E address disk is (i :: later) h) :
    Stays E address disk (is ++ [i]) later h := by
  intro is₁ is₂ q hlater hq
  exact hs (i :: is₁) is₂ q (by rw [hlater]; rfl) (by simpa using hq)

/-- In the run on `is`, the vote and `later`, the vote is taken from the core at the height of the
engine, which a status has opened and where the engine stays. -/
structure VoteTaken (E : Env F) (address : Address) (disk : Disk) (is later : List Input)
    (v : BftVote) (p p' : Process F) : Prop where
  before : Life E address disk is p
  run : Life E address disk (is ++ .core (.vote v) :: later) p'
  opened : StatusHandled E address disk is
  height : v.height = p.state.eng.height
  taken : (Exec.result (handleVote E v true) p.state).1.isOk
  stays : Stays E address disk is (.core (.vote v) :: later) v.height

section

variable (hio : ∀ n, E.io n = .ok)

include hio

/-- **A vote that was taken at its height stays in the file of the height.** -/
theorem VoteTaken.kept (hon : E.walOn = true) (htexts : E.serde.Printed)
    (hdisk : disk.Holds fun _ _ => True) (hv : VoteTaken E address disk is later v p p') :
    Synced p'.state ∧ p'.state.eng.height = v.height ∧ ∃ text recs,
      E.serde.bftVote.toString v = some text ∧ (LOG_TYPE_VOTE, text) ∈ recs ∧
        p'.state.disk.logs.lookup v.height = some (encodeRecords recs) := by
  obtain ⟨hp, hl, hstatus, hheight, htaken, hstays⟩ := hv
  obtain ⟨sv, s, hhandled⟩ := Exec.exists_of_isOk htaken
  obtain ⟨p₁, p₂, hp₁, hn, hp₂⟩ := hl.split
  obtain rfl := hp₁.unique hp
  have hdisk₂ := next_vote_disk hhandled hn
  have hsync := hp.synced_of_statusHandled hio hstatus
  -- the vote is in the file when it is sent
  obtain ⟨text, htext, b, recs, hb, hrecs, hmem⟩ :=
    (HandsOut.vote hhandled).recorded hio hon htexts hsync (hp.currentFile hio) hheight
  rw [← hdisk₂, ← hheight] at hrecs
  rw [← hheight] at hb
  obtain ⟨old, rfl, -⟩ := hp.holds hio (fun _ _ _ => trivial) hdisk _ _ hb
  -- and the file only grows after that
  have hheight₂ : p₂.state.eng.height = v.height :=
    hstays [.core (.vote v)] later p₂ rfl hp₂
  have hstored : Stored p₂.state := by
    unfold Stored
    rw [hheight₂, hrecs]
    rfl
  have happend : is ++ .core (.vote v) :: later = (is ++ [.core (.vote v)]) ++ later := by simp
  obtain ⟨hheight', b', recs', hb', hrecs'⟩ := Life.grows hio hp₂ (happend ▸ hl) hstored
    (hheight₂ ▸ hstays.tail)
  rw [hheight₂] at hb' hrecs' hheight'
  obtain rfl := Option.some.inj (hb'.symm.trans hrecs)
  refine ⟨Life.synced hio hl hp hsync, hheight', text, old ++ recs ++ recs', htext, ?_, ?_⟩
  · exact List.mem_append_left _ (List.mem_append_right _ hmem)
  · rw [hrecs', encodeRecords_append, encodeRecords_append]

omit [Content F] in
/-- **A restart reads the records of the file of its height.** -/
theorem pending_of_boot {recs : List (UInt8 × Bytes)} {r : UInt8 × Bytes} (hon : E.walOn = true)
    (hindex : Wal.indexHeight disk = some h) (hne : h ≠ 0)
    (hfile : disk.logs.lookup h = some (encodeRecords recs)) (hshort : disk.Short) (hr : r ∈ recs)
    (htext : r.2 ≠ []) (hb : boot E address disk = some p) : p.pending = recs := by
  obtain ⟨h', hh', hp⟩ := booted_of_boot hio hb
  obtain rfl := Option.some.inj (hh'.symm.trans hindex)
  have hlookup : p.state.disk.logs.lookup h' = some (encodeRecords recs) := by
    rw [hp.logs, HashMap.orInsert_of_some hfile, hfile]
  have hlong : 5 < (encodeRecords recs).length := by
    obtain ⟨before, after, rfl⟩ := List.append_of_mem hr
    have hpos := List.length_pos_of_ne_nil htext
    rw [encodeRecords_append, encodeRecords_cons, List.length_append, List.length_append,
      length_encodeRecord]
    omega
  have hparse : parseRecords (encodeRecords recs ++ []).length (encodeRecords recs ++ []) =
      recs ++ parseRecords 0 [] := parseRecords_encodeRecords (hshort h' recs hfile) (Nat.le_refl _)
  rw [List.append_nil] at hparse
  rw [hp.pending, if_pos hon, Wal.loaded, hlookup, Option.getD_some,
    if_neg (not_or.2 ⟨hne, by omega⟩), hparse]
  exact List.append_nil recs

end

/-! ### The replay -/

variable {p₀ q q' : Process F} {n : ℕ}

/-- Without statuses the replay stays at height `0`. -/
theorem height_of_replayed (hb : boot E address disk = some p₀)
    (hopens : ∀ r ∈ p₀.pending, r.1 ≠ LOG_TYPE_RICH_STATUS)
    (hq : Life E address disk (List.replicate n .replay) q) : q.state.eng.height = 0 := by
  refine (hq.induction (I := fun q => q.state.eng.height = 0 ∧ q.pending <:+ p₀.pending) ?_ ?_).1
  · intro p₁ hb₁
    obtain rfl := Option.some.inj (hb₁.symm.trans hb)
    exact ⟨by rw [(boot_state hb).1]; rfl, List.suffix_rfl⟩
  · rintro is₁ i is₂ q q' his - - hn ⟨hheight, hsuffix⟩
    obtain rfl : i = .replay := by
      refine List.eq_of_mem_replicate (n := n) ?_
      rw [his]
      simp
    obtain ⟨record, records, hp, hrest, -⟩ := pending_of_replayNext hn
    have hS : Sourced E { Source.all F with status := fun _ => False } q .replay :=
      { vote := fun _ _ => trivial
        proposal := fun _ _ _ _ => trivial
        block := fun _ _ _ _ _ => trivial
        core := fun _ _ => trivial
        status := by
          rintro rs ⟨msg, records', hp', -⟩
          exact hopens (LOG_TYPE_RICH_STATUS, msg) (hsuffix.subset (by simp [hp'])) rfl
        verdict := fun _ _ => trivial }
    refine ⟨Exec.invariant_of_moves (I := fun s => s.eng.height = 0) (fun s s' hstep hs => ?_)
      (replayNext_advances hS hn) hheight,
      (hrest.trans (hp ▸ List.suffix_cons record records)).trans hsuffix⟩
    rcases hstep.effect with h | ⟨rs, needWal, r, given, -⟩
    · rwa [h.height_eq]
    · exact absurd given not_false

/-- Calls stay on record. -/
theorem Life.mem_calls {is₁ is₂ : List Input} {call : Call F}
    (hl : Life E address disk (is₁ ++ is₂) p) (hq : Life E address disk is₁ q)
    (hcall : call ∈ q.state.calls) : call ∈ p.state.calls := by
  refine hl.induction_from (I := fun p => call ∈ p.state.calls) hq hcall ?_
  rintro is₀ i is₃ p₁ p₂ - hp₁ hc hn hmem
  obtain ⟨-, -, calls, -, -, hcalls, -⟩ := next_answers hc hp₁.votesBound hn
  rw [hcalls]
  exact List.mem_append_left _ hmem

/-- **A replay that does not stop hands every record over.** -/
theorem exists_replayed {r : UInt8 × Bytes} (hb : boot E address disk = some p₀)
    (hgoes : ∀ n q, Replayed E p₀ n q → q.pending = p₀.pending.drop n)
    (hs : start E address disk = some s) (hr : r ∈ p₀.pending) :
    ∃ n m q q' records, Life E address disk (List.replicate n .replay) q ∧
      q.pending = r :: records ∧ next E .replay q = some q' ∧
      Life E address disk (List.replicate n .replay ++ [.replay]) q' ∧
      Life E address disk ((List.replicate n .replay ++ [.replay]) ++ List.replicate m .replay)
        ⟨s, []⟩ := by
  obtain ⟨k, hk⟩ := start_iff_replay.1 hs
  obtain ⟨p₁, hb₁, hrun⟩ := id hk
  obtain rfl := Option.some.inj (hb₁.symm.trans hb)
  have hlen : p₁.pending.length ≤ k := List.drop_eq_nil_iff.1 (hgoes k _ hrun).symm
  obtain ⟨before, after, happend⟩ := List.append_of_mem hr
  obtain ⟨m, rfl⟩ : ∃ m, k = before.length + (1 + m) := by
    refine ⟨k - before.length - 1, ?_⟩
    rw [happend, List.length_append, List.length_cons] at hlen
    omega
  have hsplit : List.replicate (before.length + (1 + m)) Input.replay =
      List.replicate before.length .replay ++ .replay :: List.replicate m .replay := by
    rw [List.replicate_add, Nat.add_comm 1 m, List.replicate_succ]
  rw [hsplit] at hk
  obtain ⟨q, q', hq, hn, hq'⟩ := hk.split
  refine ⟨before.length, m, q, q', after, hq, ?_, hn, hq', by simpa using hk⟩
  obtain ⟨p₂, hb₂, hrun₂⟩ := id hq
  obtain rfl := Option.some.inj (hb₂.symm.trans hb)
  rw [hgoes _ _ hrun₂, happend, List.drop_left]

/-- The replay of the log goes through: no record opens a height, and none but the last one stops
it. -/
structure GoesThrough (E : Env F) (address : Address) (disk : Disk) : Prop where
  opens : ∀ p₀, boot E address disk = some p₀ → ∀ r ∈ p₀.pending, r.1 ≠ LOG_TYPE_RICH_STATUS
  goes : ∀ p₀, boot E address disk = some p₀ → ∀ n q record records, Replayed E p₀ n q →
    q.pending = record :: records → Stops E record q.state → records = []

/-- **A vote is sent again after a crash**: whenever the process stops, as long as it is at the
height of the vote, the engine that is started again sends the vote, if it can sign and its replay
goes through. -/
theorem vote_sent_again {E' : Env F} (hio : ∀ n, E.io n = .ok) (hio' : ∀ n, E'.io n = .ok)
    (hon : E.walOn = true) (hon' : E'.walOn = true) (hserde : E'.serde = E.serde)
    (htexts : E.serde.Printed) (hinverts : E.serde.bftVote.Inverts)
    (hsigns : ∀ n hash, ∃ sig, E'.support.sign n hash = .ok sig)
    (hdisk : disk.Holds fun _ _ => True) (hv : VoteTaken E address disk is later v p p')
    (hne : v.height ≠ 0) (hshort : p'.state.disk.Short)
    (hgoes : GoesThrough E' address p'.state.disk)
    (hs : start E' address p'.state.disk = some s) : ∃ call ∈ s.calls, call.Sends v := by
  obtain ⟨hsync, hheight, text, recs, htext, hmem, hfile⟩ := hv.kept hio hon htexts hdisk
  have hindex := Wal.indexHeight_decimal hsync.index
  rw [hheight] at hindex
  obtain ⟨n, p₀, hb, -⟩ := start_iff_replay.1 hs
  have hpending := pending_of_boot hio' hon' hindex hne hfile hshort hmem
    (htexts.bftVote v text htext) hb
  obtain ⟨n, m, q, q', records, hq, hnext, hn, hq', hend⟩ := exists_replayed hb
    (pending_iff.2 (hgoes.goes p₀ hb)) hs (hpending ▸ hmem)
  have hzero := height_of_replayed hb (hgoes.opens p₀ hb) hq
  -- the turn that hands the record over sends the vote
  obtain ⟨record, records', hp, -, hload⟩ := pending_of_replayNext hn
  obtain rfl := (List.cons.inj (hnext.symm.trans hp)).1
  obtain ⟨call, hcall, hsends⟩ := loadRecord_sends (hserde ▸ hinverts) (hserde ▸ htext) hsigns
    (by rw [hzero]; exact UInt64.zero_le) hload
  exact ⟨call, hend.mem_calls hq' hcall, hsends⟩

/-- The only authority votes at height `1`, is started again and sends its vote. -/
theorem vote_sent_again_ready : ∃ p' s,
    Life voteLog [7] Reference.disk (Reference.readyRun [7] ++ [.core (.vote ownVote)]) p' ∧
      start voteLog [7] p'.state.disk = some s ∧ ∃ call ∈ s.calls, call.Sends ownVote := by
  obtain ⟨p, hp, hf⟩ := Reference.exists_life voteLog [7] (Reference.readyRun [7])
    (fun p => decide (p.state.eng.height = 1) &&
      (Exec.result (handleVote voteLog ownVote true) p.state).1.isOk) (by decide +kernel)
  obtain ⟨p', hl, hf'⟩ := Reference.exists_life voteLog [7]
    (Reference.readyRun [7] ++ [Input.core (.vote ownVote)])
    (fun p' => decide (p'.state.eng.height = 1) &&
      p'.state.disk.logs.entries.all (fun e => decide (e.2.length < 2 ^ 32)) &&
      (start voteLog [7] p'.state.disk).isSome &&
      (boot voteLog [7] p'.state.disk).all fun p₀ : Process Block =>
        decide (p₀.pending.map Prod.fst = [LOG_TYPE_VOTE])) (by decide +kernel)
  simp only [Bool.and_eq_true, decide_eq_true_eq, List.all_eq_true, Option.all_eq_true] at hf hf'
  obtain ⟨hheight, htaken⟩ := hf
  obtain ⟨⟨⟨hheight', hfiles⟩, hstarts⟩, hpending⟩ := hf'
  obtain ⟨s, hs⟩ := Option.isSome_iff_exists.1 hstarts
  obtain ⟨p₁, hb, -⟩ := id hp
  have htext : (voteLog.serde.status.toString ⟨0, none, [Node.new [7]]⟩).isSome := by
    decide +kernel
  have hv : VoteTaken voteLog [7] Reference.disk (Reference.readyRun [7]) [] ownVote p p' :=
    { before := hp
      run := hl
      opened := ⟨[], _, [], p₁, rfl, ⟨p₁, hb, rfl⟩, htext⟩
      height := hheight.symm
      taken := htaken
      stays := by
        intro is₁ is₂ q his hq
        rcases List.append_eq_singleton_iff.1 his.symm with ⟨rfl, -⟩ | ⟨rfl, -⟩
        · rw [List.append_nil] at hq
          rw [hq.unique hp, hheight]
          rfl
        · rw [hq.unique hl, hheight']
          rfl }
  have hgoes : GoesThrough voteLog [7] p'.state.disk := by
    refine ⟨fun p₀ hb r hr => ?_, fun p₀ hb n q record records hq hp _ => ?_⟩
    · have hmem := List.mem_map_of_mem (f := Prod.fst) hr
      rw [hpending p₀ hb] at hmem
      rw [List.mem_singleton.1 hmem]
      decide
    · obtain ⟨p₂, hb₂, hsuffix⟩ := Life.pending ⟨p₀, hb, hq⟩
      obtain rfl := Option.some.inj (hb₂.symm.trans hb)
      have hlen := congrArg List.length (hpending p₂ hb)
      have hle := hsuffix.length_le
      rw [hp, List.length_cons] at hle
      rw [List.length_map, List.length_singleton] at hlen
      exact List.length_eq_zero_iff.1 (by omega)
  exact ⟨p', s, hl, hs, vote_sent_again (fun _ => rfl) (fun _ => rfl) rfl rfl rfl voteLog_printed
    (Reference.jsonOf_inverts _ _) (fun _ _ => ⟨_, rfl⟩) (Disk.Holds.empty rfl) hv (by decide)
    (Disk.Short.of_length fun k b hb => hfiles ⟨k, b⟩ (AList.mem_lookup_iff.1 hb)) hgoes hs⟩

end ConsensusBft

import ConsensusBft.Consensus.CommitOrder
import ConsensusBft.Consensus.CommitProof
import ConsensusBft.Consensus.LogFiles
import ConsensusBft.Consensus.Relogging

/-!
# Replaying the log again

* `loadRecord_alike` : what a record does depends on the log and its files only.
* `Twin p q` : the same records are replayed from the same log on the same files.
* `Restarted E address p₀ p₁` : after any number of replays, each cut off anywhere, the engine boots
  as `p₁`; `Repeats E p₀ p₁` : what is replayed from `p₁` is what is replayed from `p₀`.
* `replay_repeats_iff` : **replays can be repeated if and only if no record rewrites the log.**
-/

namespace ConsensusBft

open Disk (SameFiles)
open Exec (Sim)
open Wal (Alike)

variable {F : Type} {E : Env F} {s t : State F}

/-! ### Replays from the same files -/

section

variable (hio : ∀ n, E.io n = .ok)

include hio

/-- Saving a text depends on the log and its files only. -/
theorem saveJson_alike (h : Beside Alike s t) (height : UInt64) (tag : UInt8) (name : String)
    (json : Option Bytes) :
    Sim False (Beside Alike) (saveJson E height tag name json) (saveJson E height tag name json)
      s t := by
  cases json with
  | none => exact .throw h
  | some msg =>
    obtain ⟨hout, hw⟩ := h.walState.save hio E.overflowChecks height (tag, msg)
    refine .bind (.inr ⟨congrArg Exec.capture hout, h.setWal hw⟩) fun _ _ _ _ h₁ => ?_
    exact .bind (orErr_beside h₁ _ _) fun _ _ _ _ h₂ => .pure h₂

theorem forwardProposal_alike (h : Beside Alike s t) (sp : SignedProposal) (bytes : Bytes) :
    Sim False (Beside Alike) (forwardProposal E sp bytes) (forwardProposal E sp bytes) s t := by
  rw [show forwardProposal E sp bytes = _ from forwardProposal_log E sp bytes E.walOn]
  refine .bind (orErr_beside h _ _) fun _ s₁ t₁ _ h₁ => .bind_rejectIf Iff.rfl h₁ fun _ =>
    .bind_get ?_
  rw [h₁.height_eq]
  refine .bind_lift (.inl rfl) h₁ fun _ _ => .bind_rejectIf Iff.rfl h₁ fun _ => ?_
  exact .bind (.doIf Iff.rfl (fun _ => saveJson_alike hio h₁ _ _ _ _) h₁) fun _ _ _ _ h₂ =>
    settleProposal_beside h₂ _ _ _

theorem handleRichStatus_alike (h : Beside Alike s t) (rs : Status) :
    Sim False (Beside Alike) (handleRichStatus E rs false) (handleRichStatus E rs false) s t := by
  refine .bind_get (.bind_rejectIf (by rw [h.height_eq]) h fun _ =>
    .bind (.doIf Iff.rfl (fun hlog => absurd hlog (by simp)) h) ?_)
  rintro _ s₁ _ - ⟨w, calls, rfl, hc, hw⟩
  refine .bind_modify (.bind (.bind_modify (.bind_lift (.inl rfl) ⟨w, calls, rfl, hc, hw⟩
    fun new _ => .bind_modify ?_)) fun _ _ _ _ h₂ => .pure h₂)
  obtain ⟨hout, hset⟩ := hw.setHeight hio new
  refine .bind (.inr ⟨congrArg Exec.capture hout, _, calls, rfl, hc, hset⟩) fun _ _ _ _ h₂ => ?_
  exact .bind (orErr_beside h₂ _ _) fun _ _ _ _ h₃ => .pure h₃

theorem handleCommit_alike (h : Beside Alike s t) (c : BftCommit) :
    Sim False (Beside Alike) (handleCommit E c true) (handleCommit E c true) s t := by
  rw [handleCommit_eq]
  refine .bind_get (.bind_rejectIf (by rw [h.height_eq]) h fun _ => ?_)
  exact .bind (.doIf Iff.rfl (fun _ => saveJson_alike hio h _ _ _ _) h) fun _ _ _ _ h₁ =>
    settleCommit_beside h₁ c

/-- **What a record does depends on the log and its files only.** -/
theorem loadRecord_alike [Content F] (h : Beside Alike s t) (record : UInt8 × Bytes) :
    Sim False (Beside Alike) (loadRecord E record) (loadRecord E record) s t := by
  rw [loadRecord_eq]
  refine .bind_lift (.inl rfl) h fun o _ => ?_
  cases o with
  | none => exact .pure h
  | some m =>
    change Sim False (Beside Alike) (replayMessage E record.2 m) (replayMessage E record.2 m) s t
    by_cases hm : m.Loud
    swap
    · exact replayMessage_beside hm h
    cases m with
    | signedProposal sp block hash =>
      obtain ⟨w, calls, rfl, hc⟩ := h
      refine .bind_modify (.bind_get (.bind (.doIf Iff.rfl (fun _ => ?_) ?_) fun _ _ _ _ h₁ =>
        forwardProposal_alike hio h₁ sp _))
      · exact .modify ⟨w, calls, rfl, hc⟩
      · exact ⟨w, calls, rfl, hc⟩
    | status rs =>
      exact .ifOk (handleRichStatus_alike hio h rs) fun _ _ _ h => sendBft_beside h _ _
    | bftCommit c =>
      exact .ifOk (handleCommit_alike hio h c) fun _ _ _ h => .bind (callCommit_beside h _)
        fun _ _ _ _ h => .bind (orErr_beside h _ _) fun _ _ _ _ h => .pure h
    | _ => exact hm.elim

end

variable [Content F] {p p₀ p₁ q : Process F} {n : ℕ} {address : Address} {disk d : Disk}

/-- The processes replay the same records, with the same log on the same files. -/
structure Twin (p q : Process F) : Prop where
  pending : q.pending = p.pending
  state : Beside Alike p.state q.state

omit [Content F] in
theorem Beside.symm {W : WalState → WalState → Prop} (h : Beside W s t)
    (hW : ∀ w w', W w w' → W w' w) : Beside W t s := by
  obtain ⟨w, calls, rfl, hc, hw⟩ := h
  exact ⟨s.walState, s.calls, rfl, hc.symm, hW _ _ hw⟩

omit [Content F] in
theorem Beside.events_eq {W : WalState → WalState → Prop} (h : Beside W s t) :
    t.calls.map Call.event = s.calls.map Call.event := by
  have key : ∀ calls : List (Call F),
      calls.map Call.event = (calls.map Call.unlogged).map Call.event := by
    intro calls
    rw [List.map_map]
    rfl
  obtain ⟨w, calls, rfl, hc, -⟩ := h
  rw [key, hc, ← key]

omit [Content F] in
theorem Twin.symm (h : Twin p q) : Twin q p :=
  ⟨h.pending.symm, h.state.symm fun _ _ => Alike.symm⟩

section

variable (hio : ∀ n, E.io n = .ok)

include hio

/-- **Twins stay twins.** -/
theorem Twin.turn {p' : Process F} (h : Twin p q) (hn : next E .replay p = some p') :
    ∃ q', next E .replay q = some q' ∧ Twin p' q' := by
  obtain ⟨record, records, hp, -, -⟩ := pending_of_replayNext hn
  obtain ⟨hout, hstate⟩ := (loadRecord_alike hio h.state record).resolve_left And.left
  have hq : q.pending = record :: records := h.pending.trans hp
  cases hr : Exec.result (loadRecord E record) p.state with
  | mk r s =>
    cases hr' : Exec.result (loadRecord E record) q.state with
    | mk r' t =>
      rw [hr, hr'] at hout hstate
      obtain rfl : r = r' := hout
      cases r with
      | ok a =>
        obtain rfl := Option.some.inj ((next_of_ok hp hr).symm.trans hn)
        exact ⟨_, next_of_ok hq hr', rfl, hstate⟩
      | error e =>
        cases e with
        | err e =>
          obtain rfl := Option.some.inj ((next_of_err hp hr).symm.trans hn)
          exact ⟨_, next_of_err hq hr', rfl, hstate⟩
        | panicked => exact nomatch (next_of_panicked hp hr).symm.trans hn

theorem Twin.replayed (h : Twin p₀ p₁) (hr : Replayed E p₀ n p) :
    ∃ q, Replayed E p₁ n q ∧ Twin p q := by
  induction n generalizing p with
  | zero =>
    obtain rfl := Option.some.inj hr
    exact ⟨p₁, rfl, h⟩
  | succ n ih =>
    obtain ⟨p', hr', hn⟩ := replayed_succ.1 hr
    obtain ⟨q', hq', htwin⟩ := ih hr'
    obtain ⟨q, hq, htwin⟩ := htwin.turn hio hn
    exact ⟨q, replayed_succ.2 ⟨q', hq', hq⟩, htwin⟩

/-- Twins that are cut off leave the same files. -/
theorem Twin.cutOff (h : Twin p₀ p₁) (hd : CutOff E p₀ d) :
    ∃ d', CutOff E p₁ d' ∧ SameFiles d d' := by
  cases hd with
  | between hr =>
    obtain ⟨q, hq, htwin⟩ := h.replayed hio hr
    exact ⟨_, .between hq, htwin.state.walState.files⟩
  | @ended n p record records hr hp =>
    obtain ⟨q, hq, htwin⟩ := h.replayed hio hr
    obtain ⟨-, hstate⟩ := (loadRecord_alike hio htwin.state record).resolve_left And.left
    exact ⟨_, .ended hq (htwin.pending.trans hp), hstate.walState.files⟩

omit [Content F] in
/-- **Booting again on the same files** gives a twin. -/
theorem exists_twin_of_boot (hb : boot E address disk = some p₀)
    (hd : SameFiles p₀.state.disk d) : ∃ p₁, boot E address d = some p₁ ∧ Twin p₀ p₁ := by
  obtain ⟨h, hh, hp₀⟩ := booted_of_boot hio hb
  have hdindex : d.index = some (disk.index.getD []) := hd.index.trans hp₀.index
  have hdh : Wal.indexHeight d = some h := by
    rw [← hh]
    unfold Wal.indexHeight
    rw [hdindex, Option.getD_some]
  obtain ⟨p₁, hb', hp₁⟩ : ∃ p₁, boot E address d = some p₁ ∧ Booted E address d h p₁ :=
    boot_of_index hio hdh
  -- the file of the height was created by the first boot, if it was missing
  have hfiles : SameFiles p₀.state.disk p₁.state.disk := by
    refine ⟨?_, fun k => ?_⟩
    · rw [hp₁.index, hdindex, hp₀.index, Option.getD_some]
    · obtain ⟨b, hfile⟩ : ∃ b, d.logs.lookup h = some b := by
        rw [← hd.logs h, hp₀.logs, HashMap.lookup_orInsert, if_pos rfl]
        exact ⟨_, rfl⟩
      rw [hp₁.logs, HashMap.orInsert_of_some hfile, hd.logs k]
  refine ⟨p₁, hb', ?_, p₁.state.walState, p₁.state.calls, ?_, ?_, ?_, hfiles⟩
  · rw [hp₁.pending, hp₀.pending, Wal.loaded_congr hfiles]
  · obtain ⟨-, hqueue, -⟩ := boot_state hb
    obtain ⟨-, hqueue', -⟩ := boot_state hb'
    cases hs₀ : p₀.state with
    | mk eng queue disk₀ calls =>
      cases hs₁ : p₁.state with
      | mk eng' queue' disk₁ calls' =>
        have heng := hp₀.eng.trans hp₁.eng.symm
        simp only [hs₀, hs₁] at heng hqueue hqueue'
        subst heng hqueue hqueue'
        rfl
  · rw [(boot_state hb).2.2, (boot_state hb').2.2]
  · change p₁.state.eng.walLog = p₀.state.eng.walLog
    rw [hp₁.eng, hp₀.eng]

end

/-! ### Replaying any number of times -/

/-- After any number of replays, each cut off anywhere, the engine boots as `p₁`. -/
abbrev Restarted (E : Env F) (address : Address) : Process F → Process F → Prop :=
  Relation.ReflTransGen fun p q => ∃ d, CutOff E p d ∧ boot E address d = some q

/-- The replay from `p₁` is the replay from `p₀` once more: it presents the same records, makes the
same calls and leaves the same files. -/
structure Repeats (E : Env F) (p₀ p₁ : Process F) : Prop where
  pending : p₁.pending = p₀.pending
  files : ∀ d, CutOff E p₁ d → SameFiles p₀.state.disk d
  turns : ∀ n q, Replayed E p₁ n q → ∃ p, Replayed E p₀ n p ∧ q.pending = p.pending ∧
    q.state.calls.map Call.event = p.state.calls.map Call.event

theorem Twin.repeats (hio : ∀ n, E.io n = .ok) (hharmless : Harmless E p₀) (h : Twin p₀ p₁) :
    Repeats E p₀ p₁ := by
  refine ⟨h.pending, fun d hd => ?_, fun n q hq => ?_⟩
  · obtain ⟨d', hd', hsame⟩ := h.symm.cutOff hio hd
    exact (hharmless.sameFiles hd').trans hsame.symm
  · obtain ⟨p, hp, htwin⟩ := h.symm.replayed hio hq
    exact ⟨p, hp, htwin.pending.symm, htwin.state.events_eq.symm⟩

theorem Harmless.twin_of_restarted (hio : ∀ n, E.io n = .ok)
    (hb : boot E address disk = some p₀) (hharmless : Harmless E p₀)
    (h : Restarted E address p₀ p₁) : Twin p₀ p₁ := by
  induction h with
  | refl => exact ⟨rfl, p₀.state.walState, p₀.state.calls, rfl, rfl, rfl, .refl _⟩
  | tail _ hstep ih =>
    obtain ⟨d, hd, hb'⟩ := hstep
    obtain ⟨q, hq, htwin⟩ := exists_twin_of_boot hio hb ((ih.repeats hio hharmless).files d hd)
    obtain rfl := Option.some.inj (hq.symm.trans hb')
    exact htwin

omit [Content F] in
/-- Reading the records changes no file. -/
theorem sameFiles_of_boot (hs : newEngine E address disk = some s)
    (hb : boot E address disk = some p₀) : SameFiles s.disk p₀.state.disk := by
  unfold boot at hb
  rw [hs, Option.bind_some] at hb
  by_cases hon : E.walOn = true
  · rw [if_pos hon] at hb
    have hload := Wal.load_sameFiles E.io s.walState
    cases hr : Exec.result (Wal.load E.io) s.walState with
    | mk r w =>
      rw [hr] at hb hload
      cases r with
      | ok records =>
        obtain rfl := Option.some.inj hb
        exact hload
      | error e =>
        cases e with
        | err e =>
          obtain rfl := Option.some.inj hb
          exact hload
        | panicked => exact nomatch hb
  · rw [if_neg hon] at hb
    obtain rfl := Option.some.inj hb
    exact .refl _

/-- **Loading the log leaves index and files as they were, whichever file operations fail, if no
record rewrites the log; and if none fails, all replays that follow one another, each cut off
anywhere, are the same replay if and only if no record rewrites the log.** -/
theorem replay_repeats_iff (hb : boot E address disk = some p₀) :
    (Harmless E p₀ → ∀ s d, newEngine E address disk = some s → CutOff E p₀ d →
      SameFiles s.disk d) ∧
    ((∀ n, E.io n = .ok) →
      ((∀ p₁, Restarted E address p₀ p₁ → Repeats E p₀ p₁) ↔ Harmless E p₀)) := by
  refine ⟨fun h s d hs hd => (sameFiles_of_boot hs hb).trans (h.sameFiles hd),
    fun hio => ⟨fun h => ?_, fun h p₁ hp₁ => ?_⟩⟩
  · exact harmless_of_sameFiles hio (h p₀ .refl).files
  · exact (h.twin_of_restarted hio hb hp₁).repeats hio h

namespace Reference

def bftVoteText (v : BftVote) : Bytes := voteText (Vote.fromBftVote v v.voteType.toVoteType)

def feedText (f : Feed Block) : Bytes :=
  jsonObject [("height", decimal f.height), ("content", jsonBytes f.content.bytes)]

def bftCommitText (c : BftCommit) : Bytes :=
  jsonObject [("height", decimal c.height), ("round", decimal c.round),
    ("proposal", jsonBytes c.proposal), ("lock_votes", jsonArray (c.lockVotes.map bftVoteText)),
    ("address", jsonBytes c.address)]

end Reference

/-- A commit of height `0`. -/
def obsoleteCommit : BftCommit := ⟨0, 0, [1], [], [7]⟩

/-- The application of the node `[7]`, which can read a feed, a vote and this commit. -/
def quietLog : Env Block :=
  { Reference.readyLog with
    serde := { Reference.readyLog.serde with
      feed :=
        { toString f := some (Reference.feedText f)
          fromSlice text := if text = Reference.feedText ⟨1, ⟨[1]⟩⟩ then some ⟨1, ⟨[1]⟩⟩ else none }
      bftVote := Reference.jsonOf Reference.bftVoteText Reference.firstCommit.lockVotes
      bftCommit := Reference.jsonOf Reference.bftCommitText [obsoleteCommit] } }

/-- A status that opens height `1`, the obsolete commit, a feed and a vote. -/
def quietRecords : List (UInt8 × Bytes) :=
  [(LOG_TYPE_RICH_STATUS, Reference.statusText ⟨0, none, [Node.new [7]]⟩),
    (LOG_TYPE_COMMIT, Reference.bftCommitText obsoleteCommit),
    (LOG_TYPE_BLOCK_TXS, Reference.feedText ⟨1, ⟨[1]⟩⟩),
    (LOG_TYPE_VOTE, Reference.bftVoteText ⟨.precommit, 1, 0, [1], [7]⟩)]

/-- A directory with this log for height `1`. -/
def quietDisk : Disk :=
  ⟨true, some (decimal 1), (∅ : HashMap UInt64 Bytes).insert 1 (encodeRecords quietRecords), 0⟩

/-- The first turn of its replay opens height `1`, where the log is already. -/
theorem quiet_replay : ∃ p₀ p₁ q, boot quietLog [7] quietDisk = some p₀ ∧
    p₀.pending = quietRecords ∧ ¬ Wal.Shifts p₀.state.walState 1 ∧
    next quietLog .replay p₀ = some p₁ ∧ p₁.pending = quietRecords.tail ∧
    p₁.state.eng.height = 1 ∧ Replayed quietLog p₀ 4 q ∧ q.pending = [] ∧
    q.state.calls.any (fun call => call.event.isOutput) := by
  have hrun : (boot quietLog [7] quietDisk).any (fun p₀ => decide (p₀.pending = quietRecords) &&
      (decide (p₀.state.disk.index = some (decimal 1)) && (p₀.state.disk.logs.lookup 1).isSome &&
        decide (Wal.expired 1 (Wal.openHandle 1 p₀.state.eng.walLog.heightFs) = [])) &&
      (next quietLog .replay p₀).any fun p₁ => decide (p₁.pending = quietRecords.tail) &&
        decide (p₁.state.eng.height = 1) &&
        (Machine.runFrom (next quietLog) p₀ (List.replicate 4 .replay)).any fun q =>
          decide (q.pending = []) && q.state.calls.any fun call => call.event.isOutput) = true := by
    decide +kernel
  obtain ⟨p₀, hb, h⟩ := (Option.any_eq_true _ _).1 hrun
  simp only [Bool.and_eq_true, decide_eq_true_eq] at h
  obtain ⟨⟨hp₀, ⟨hindex, hfile⟩, hexpired⟩, h⟩ := h
  obtain ⟨p₁, hn, h⟩ := (Option.any_eq_true _ _).1 h
  simp only [Bool.and_eq_true, decide_eq_true_eq] at h
  obtain ⟨⟨hp₁, hheight⟩, h⟩ := h
  obtain ⟨q, hq, h⟩ := (Option.any_eq_true _ _).1 h
  simp only [Bool.and_eq_true, decide_eq_true_eq] at h
  refine ⟨p₀, p₁, q, hb, hp₀, ?_, hn, hp₁, hheight, hq, h.1, h.2⟩
  rintro (⟨b, hb, hne⟩ | hnone | ⟨k, hk, -⟩)
  · exact hne (Option.some.inj (hb.symm.trans hindex))
  · change p₀.state.disk.logs.lookup 1 = none at hnone
    rw [hnone] at hfile
    exact nomatch hfile
  · change k ∈ Wal.expired 1 (Wal.openHandle 1 p₀.state.eng.walLog.heightFs) at hk
    rw [hexpired] at hk
    exact nomatch hk

/-- The node `[7]` replays this log.  The status and the commit write nothing, and neither do the
feed and the vote, which is transmitted. -/
theorem replay_repeats_quiet : ∃ p₀ q, boot quietLog [7] quietDisk = some p₀ ∧
    p₀.pending = quietRecords ∧ Replayed quietLog p₀ 4 q ∧ q.pending = [] ∧
    q.state.calls.any (fun call => call.event.isOutput) ∧
    ∀ p₁, Restarted quietLog [7] p₀ p₁ → Repeats quietLog p₀ p₁ := by
  obtain ⟨p₀, p₁, q, hb, hp₀, hshifts, hn, hp₁, hheight, hq, hend, hout⟩ := quiet_replay
  refine ⟨p₀, q, hb, hp₀, hq, hend, hout, ((replay_repeats_iff hb).2 fun _ => rfl).2 ?_⟩
  have hstatus : readRecord quietLog (LOG_TYPE_RICH_STATUS, Reference.statusText
      ⟨0, none, [Node.new [7]]⟩) = .ok (some (.status ⟨0, none, [Node.new [7]]⟩)) := by rfl
  have hcommit : readRecord quietLog (LOG_TYPE_COMMIT, Reference.bftCommitText obsoleteCommit) =
      .ok (some (.bftCommit obsoleteCommit)) := by rfl
  refine .cons hp₀ (fun m hread => ?_) fun p hp => ?_
  · obtain rfl := Option.some.inj (Except.ok.inj (hstatus.symm.trans hread))
    intro hrewrites
    cases hrewrites with
    | status _ _ shifts => exact hshifts shifts
  obtain rfl := Option.some.inj (hn.symm.trans hp)
  refine .cons hp₁ (fun m hread => ?_) fun p₂ hn₂ => harmless_of_tags fun r hr => ?_
  · obtain rfl := Option.some.inj (Except.ok.inj (hcommit.symm.trans hread))
    intro hrewrites
    cases hrewrites with
    | commit height _ _ _ =>
      rw [hheight] at height
      exact absurd height (by decide)
  · -- a feed and a vote are left
    obtain ⟨record, records, hp, hsuffix, -⟩ := pending_of_replayNext hn₂
    obtain rfl := (List.cons.inj (hp₁.symm.trans hp)).2
    have htags : ∀ r ∈ quietRecords.drop 2, r.1 ≠ LOG_TYPE_SIGNED_PROPOSAL ∧
        r.1 ≠ LOG_TYPE_RICH_STATUS ∧ r.1 ≠ LOG_TYPE_COMMIT := by decide
    exact htags r (hsuffix.subset hr)

/-! ### A commit that is replayed twice -/

/-- An application that refuses the commit of `recommitRun`, its call number `6`, and accepts it
later. -/
def recommitLog : Env Block :=
  { Reference.readyLog with
    support := { Reference.support [7] with
      commit := fun n c => if n = 6 then .error "busy" else .ok ⟨c.height, none, [Node.new [7]]⟩ }
    serde := { Reference.readyLog.serde with
      feed :=
        { toString f := some (Reference.feedText f)
          fromSlice text := if text = Reference.feedText ⟨1, ⟨[1]⟩⟩ then some ⟨1, ⟨[1]⟩⟩ else none }
      bftVote := Reference.jsonOf Reference.bftVoteText Reference.firstCommit.lockVotes
      bftCommit := Reference.jsonOf Reference.bftCommitText [Reference.firstCommit] } }

/-- The only authority commits the block that it was fed. -/
def recommitRun : List Input := Reference.precommitRun ++ [.core (.commit Reference.firstCommit)]

/-- The log that it leaves for height `1`. -/
def recommitRecords : List (UInt8 × Bytes) :=
  [(LOG_TYPE_BLOCK_TXS, Reference.feedText ⟨1, ⟨[1]⟩⟩),
    (LOG_TYPE_VOTE, Reference.bftVoteText ⟨.precommit, 1, 0, [1], [7]⟩),
    (LOG_TYPE_COMMIT, Reference.bftCommitText Reference.firstCommit)]

/-- **The replay logs the commit once more**, and the next replay commits the block twice. -/
theorem commit_replayed_twice : ∃ p p₀ q₀ p₁ q₁,
    Life recommitLog [7] Reference.disk recommitRun p ∧
      boot recommitLog [7] p.state.disk = some p₀ ∧ p₀.pending = recommitRecords ∧
      Replayed recommitLog p₀ 3 q₀ ∧ q₀.pending = [] ∧ committedHeights q₀.state.calls = [1] ∧
      boot recommitLog [7] q₀.state.disk = some p₁ ∧
      p₁.pending = recommitRecords ++
        [(LOG_TYPE_COMMIT, Reference.bftCommitText Reference.firstCommit)] ∧
      Replayed recommitLog p₁ 4 q₁ ∧ committedHeights q₁.state.calls = [1, 1] ∧
      ¬ Repeats recommitLog p₀ p₁ := by
  have hrun : (Reference.run recommitLog [7] recommitRun).any (fun p =>
      (boot recommitLog [7] p.state.disk).any fun p₀ => decide (p₀.pending = recommitRecords) &&
        (Machine.runFrom (next recommitLog) p₀ (List.replicate 3 .replay)).any fun q₀ =>
          decide (q₀.pending = []) && decide (committedHeights q₀.state.calls = [1]) &&
            (boot recommitLog [7] q₀.state.disk).any fun p₁ => decide (p₁.pending =
                recommitRecords ++
                  [(LOG_TYPE_COMMIT, Reference.bftCommitText Reference.firstCommit)]) &&
              (Machine.runFrom (next recommitLog) p₁ (List.replicate 4 .replay)).any fun q₁ =>
                decide (committedHeights q₁.state.calls = [1, 1])) = true := by
    decide +kernel
  obtain ⟨p, hl, h⟩ := Reference.exists_life recommitLog [7] recommitRun _ hrun
  obtain ⟨p₀, hb₀, h⟩ := (Option.any_eq_true _ _).1 h
  rw [Bool.and_eq_true, decide_eq_true_eq] at h
  obtain ⟨hp₀, h⟩ := h
  obtain ⟨q₀, hq₀, h⟩ := (Option.any_eq_true _ _).1 h
  rw [Bool.and_eq_true, Bool.and_eq_true, decide_eq_true_eq, decide_eq_true_eq] at h
  obtain ⟨⟨hend, honce⟩, h⟩ := h
  obtain ⟨p₁, hb₁, h⟩ := (Option.any_eq_true _ _).1 h
  rw [Bool.and_eq_true, decide_eq_true_eq] at h
  obtain ⟨hp₁, h⟩ := h
  obtain ⟨q₁, hq₁, h⟩ := (Option.any_eq_true _ _).1 h
  have htwice := of_decide_eq_true h
  refine ⟨p, p₀, q₀, p₁, q₁, hl, hb₀, hp₀, hq₀, hend, honce, hb₁, hp₁, hq₁, htwice, fun hsame => ?_⟩
  have hlen := congrArg List.length hsame.pending
  rw [hp₁, hp₀, List.length_append] at hlen
  exact absurd hlen (by simp)

end ConsensusBft

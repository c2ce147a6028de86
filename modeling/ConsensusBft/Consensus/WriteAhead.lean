import ConsensusBft.Consensus.Recovery
import ConsensusBft.Consensus.Speech
import ConsensusBft.Consensus.StatusTurn

/-!
# The log is ahead

What the engine hands to the network and to the application is in the log first.

* `CurrentFile w` : the file of the log's current height is open and on the disk;
  `Life.currentFile` : **it always is**.
* `Grows s s'` : the engine stays at its height, and records are appended to the file of the height.
* `next_grows` : **a turn that leaves the height does nothing else to its file.**
* `HandsOut E s m s'` : handling the message `m` of the core in `s`, the engine calls `transmit` or
  `commit` in `s'`; `HandsOut.logged` : **the message was saved before.**
* `HandsOut.of_call` : **all calls of `transmit` and `commit` that a turn of the core makes are made
  so.**
* `write_ahead` : **a message of the height is in the file of the height when it is handed out.**
-/

namespace ConsensusBft

open Exec (Steps wp wp_bind)

variable {F : Type} [Content F] {E : Env F} {S : Source F} {s s' s₁ : State F} {address : Address}
variable {disk : Disk} {is : List Input} {i : Input} {p p' : Process F} {w w' : WalState}
variable {m : LogMessage F}

/-! ### The file of the current height -/

/-- The file of the current height of the log is open and on the disk. -/
structure CurrentFile (w : WalState) : Prop where
  handle : w.wal.currentHeight ∈ w.wal.heightFs
  stored : (w.disk.logs.lookup w.wal.currentHeight).isSome

theorem CurrentFile.saved (hw : CurrentFile w) (h : UInt64) (r : UInt8 × Bytes) :
    CurrentFile (Wal.saved w h r) := by
  refine Wal.saved_keeps (fun w hw => ⟨Wal.mem_openHandle.2 (.inr hw.handle), ?_⟩)
    (fun w hw => ⟨hw.handle, ?_⟩) hw
  · change ((w.disk.logs.orInsert h []).lookup w.wal.currentHeight).isSome
    rw [HashMap.lookup_orInsert]
    split_ifs
    · rfl
    · exact hw.stored
  · change (AList.lookup w.wal.currentHeight (AList.insert h _ _)).isSome
    by_cases heq : w.wal.currentHeight = h
    · rw [← heq, AList.lookup_insert]
      rfl
    · rw [AList.lookup_insert_ne heq]
      exact hw.stored

theorem CurrentFile.moved (w : WalState) (h : UInt64) : CurrentFile (Wal.moved w h) := by
  refine ⟨Wal.mem_kept.2 ⟨Wal.mem_openHandle.2 (.inl rfl), Wal.sub_interval_le⟩, ?_⟩
  change ((Wal.moved w h).disk.logs.lookup h).isSome
  rw [Wal.lookup_moved (UInt64.le_refl h), HashMap.lookup_orInsert, if_pos rfl]
  rfl

section

variable (hio : ∀ n, E.io n = .ok)

include hio

omit [Content F] in
theorem LogStep.currentFile (h : LogStep E s s') (hs : CurrentFile s.walState) :
    CurrentFile s'.walState := by
  cases h with
  | level appended _ => exact appended.keeps hio (fun w h r _ hw => hw.saved h r) hs
  | entered appended moved _ =>
    rw [moved, Wal.setHeight_result hio]
    exact .moved _ _

/-- **The file of the current height is always open and on the disk.** -/
theorem Life.currentFile (hl : Life E address disk is p) : CurrentFile p.state.walState := by
  refine hl.induction (I := fun p => CurrentFile p.state.walState) ?_ ?_
  · intro p₀ hb
    obtain ⟨h, -, hp⟩ := booted_of_boot hio hb
    have hwal : p₀.state.eng.walLog = ⟨[h], h⟩ := congrArg Consensus.walLog hp.eng
    refine ⟨?_, ?_⟩
    · change p₀.state.eng.walLog.currentHeight ∈ p₀.state.eng.walLog.heightFs
      rw [hwal]
      exact List.mem_singleton_self h
    · change (p₀.state.disk.logs.lookup p₀.state.eng.walLog.currentHeight).isSome
      rw [hwal, hp.logs, HashMap.lookup_orInsert, if_pos rfl]
      rfl
  · intro is₁ i is₂ q q' _ _ hc hn hq
    exact Exec.invariant_of_moves (I := fun s => CurrentFile s.walState)
      (fun _ _ h => h.currentFile hio) (next_logSteps hc hn) hq

end

/-! ### What happens to the file of a height -/

/-- The engine stays at its height, and records are appended to the file of the height. -/
def Grows (s s' : State F) : Prop := s'.eng.height = s.eng.height ∧
  ∃ b recs, s.disk.logs.lookup s.eng.height = some b ∧
    s'.disk.logs.lookup s.eng.height = some (b ++ encodeRecords recs)

/-- The file of the height of the engine is on the disk. -/
def Stored (s : State F) : Prop := (s.disk.logs.lookup s.eng.height).isSome

section

omit [Content F]

theorem Grows.refl (hs : Stored s) : Grows s s := by
  obtain ⟨b, hb⟩ := Option.isSome_iff_exists.1 hs
  exact ⟨rfl, b, [], hb, by simpa using hb⟩

theorem Grows.trans (h : Grows s s₁) (h' : Grows s₁ s') : Grows s s' := by
  obtain ⟨hheight, b, recs, hb, hb₁⟩ := h
  obtain ⟨hheight', b', recs', hb', hb₂⟩ := h'
  rw [hheight] at hb' hb₂
  obtain rfl := Option.some.inj (hb₁.symm.trans hb')
  exact ⟨hheight'.trans hheight, b, recs ++ recs', hb, by simpa using hb₂⟩

theorem Grows.stored (h : Grows s s') : Stored s' := by
  obtain ⟨hheight, b, recs, -, hb⟩ := h
  unfold Stored
  rw [hheight, hb]
  rfl

theorem Synced.stored (h : Synced s) (hw : CurrentFile s.walState) : Stored s := by
  have hstored := hw.stored
  change (s.disk.logs.lookup s.eng.walLog.currentHeight).isSome at hstored
  rwa [h.current] at hstored

end

section

variable (hio : ∀ n, E.io n = .ok)

include hio

omit [Content F] in
/-- A step that leaves the height appends to its file at most. -/
theorem LogStep.grows (h : LogStep E s s') (hheight : s'.eng.height = s.eng.height)
    (hs : Stored s) : Grows s s' := by
  obtain ⟨b, hb⟩ := Option.isSome_iff_exists.1 hs
  have happended : ∀ w, Appended E s.walState w →
      ∃ recs, w.disk.logs.lookup s.eng.height = some (b ++ encodeRecords recs) := by
    intro w hw
    refine hw.keeps hio (I := fun w => ∃ recs, w.disk.logs.lookup s.eng.height =
      some (b ++ encodeRecords recs)) ?_ ⟨[], by rwa [encodeRecords_nil, List.append_nil]⟩
    rintro w h r - ⟨recs, hrecs⟩
    obtain ⟨recs', hrecs'⟩ := Wal.saved_extends hrecs h r
    exact ⟨recs ++ recs', by simpa using hrecs'⟩
  cases h with
  | level appended _ =>
    obtain ⟨recs, hrecs⟩ := happended _ appended
    exact ⟨hheight, b, recs, hb, hrecs⟩
  | @entered w height appended moved height_eq =>
    -- the file of the height that is entered is not removed
    obtain ⟨recs, hrecs⟩ := happended _ appended
    obtain rfl := height_eq.symm.trans hheight
    rw [Wal.setHeight_result hio] at moved
    refine ⟨hheight, b, recs, hb, ?_⟩
    change s'.walState.disk.logs.lookup _ = _
    rw [moved]
    change (Wal.moved w s.eng.height).disk.logs.lookup _ = _
    rw [Wal.lookup_moved (UInt64.le_refl _), HashMap.orInsert_of_some hrecs, hrecs]

theorem Moves.grows (h : Moves E S s s') (hs : Stored s) : Grows s s' := by
  induction h with
  | refl => exact .refl hs
  | tail _ hm ih => exact ih.trans (hm.logStep.grows hio hm.height_eq ih.stored)

omit hio in
/-- A turn is a sequence of moves, with at most one status between them. -/
theorem next_around_status (hc : Cached E (Supply.all F) p.state.eng) (hn : next E i p = some p') :
    ∃ s s₁, Moves E (statusless F) p.state s ∧ LogStep E s s₁ ∧
      Moves E (statusless F) s₁ p'.state := by
  by_cases hh : ∃ rs needWal s, HandlesAt E p i rs needWal s
  · obtain ⟨rs, needWal, s, hs⟩ := hh
    have hmoves := hs.moves
    have hc₁ : Cached E (Supply.all F) s.eng :=
      Advances.cached hmoves.advances ⟨hc.proposal, hc.vote⟩
    have hstatus : LogStep E s (Exec.result (handleRichStatus E rs needWal) s).2 :=
      Advance.logStep (S := Source.all F) (.status rs needWal trivial)
    obtain ⟨r, s₁, hr, -, hafter⟩ := handleStatus_moves hc₁ (survive_of_handlesAt hn hs)
    rw [hr] at hstatus
    exact ⟨s, s₁, hmoves, hstatus, hafter⟩
  · simp only [not_exists] at hh
    exact ⟨_, _, next_moves_of_none (S := statusless F) (Supplied.all E p i) (fun _ _ => trivial)
      (fun _ => not_false) ⟨hc.proposal, hc.vote⟩ hn hh, .level (.inl rfl) rfl, .refl⟩

/-- **A turn that leaves the height only appends to its file.** -/
theorem next_grows (hc : Cached E (Supply.all F) p.state.eng) (hn : next E i p = some p')
    (hheight : p'.state.eng.height = p.state.eng.height) (hs : Stored p.state) :
    Grows p.state p'.state := by
  obtain ⟨s, s₁, hbefore, hstatus, hafter⟩ := next_around_status hc hn
  have hgrows := hbefore.grows hio hs
  have hheight₁ : s₁.eng.height = s.eng.height := by
    rw [← hafter.height_eq, hheight, hbefore.height_eq]
  have hgrows₁ := hstatus.grows hio hheight₁ hgrows.stored
  exact (hgrows.trans hgrows₁).trans (hafter.grows hio hgrows₁.stored)

end

/-! ### What is handed out -/

/-- Handling the message `m` of the core in `s`, the engine calls `transmit` for it, or for a commit
`support.commit`, in the state `s'`. -/
inductive HandsOut (E : Env F) (s : State F) : LogMessage F → State F → Prop
  | proposal {p : BftProposal} {bytes : Bytes} {s' : State F}
      (handled : Exec.result (handleProposal E p true) s = (.ok bytes, s')) :
      HandsOut E s (.bftProposal p) s'
  | vote {v : BftVote} {sv : SignedVote} {s' : State F}
      (handled : Exec.result (handleVote E v true) s = (.ok sv, s')) : HandsOut E s (.bftVote v) s'
  | commit {c : BftCommit} {commit : Commit F} {s' : State F}
      (handled : Exec.result (handleCommit E c true) s = (.ok commit, s')) :
      HandsOut E s (.bftCommit c) s'

/-- Nothing was handed out between the two states. -/
abbrev Withheld : State F → State F → Prop := OnlyCalls fun e => ¬ e.isOutput

/-- What is logged of a message of the core. -/
def CoreOutput.message : CoreOutput → Option (LogMessage F)
  | .proposal p => some (.bftProposal p)
  | .vote v => some (.bftVote v)
  | .commit c => some (.bftCommit c)
  | .getProposalRequest _ => none

omit [Content F] in
theorem Prepares.withheld (h : Prepares s s') : Withheld s s' :=
  h.onlyCalls (fun _ _ => Bool.false_ne_true) fun _ _ _ _ _ _ => Bool.false_ne_true

omit [Content F] in
/-- Where the core says nothing, nothing is handed out. -/
theorem Said.not_isOutput {K : Supply F} {e : Event F} (h : Said E K e) (hK : ∀ m, ¬ K.core m) :
    ¬ e.isOutput := by
  cases e with
  | transmit msg r =>
    cases msg with
    | signedVote bytes =>
      obtain ⟨v, sig, hv, -⟩ := h
      exact fun _ => hK _ hv
    | signedProposal bytes =>
      obtain ⟨p, sp, block, hp, -⟩ := h
      exact fun _ => hK _ hp
    | commit c => exact h.elim
  | commit c r =>
    obtain ⟨bc, hbc, -⟩ := h
    exact fun _ => hK _ hbc
  | _ => exact Bool.false_ne_true

omit [Content F] in
theorem Speaks.onlyCalls {K : Supply F} (h : Speaks E K s s') : OnlyCalls (Said E K) s s' := by
  obtain ⟨calls, hcalls, hsaid, -⟩ := h.calls
  exact ⟨calls, hcalls, hsaid⟩

omit [Content F] in
/-- A status hands nothing out. -/
theorem processStatus_withheld {K : Supply F} (hc : Cached E K s.eng) (rs : Status) :
    Withheld s (Exec.result (processStatus E rs) s).2 := by
  let silent : Supply F := { Supply.all F with core := fun _ => False }
  have hc' : Cached E silent s.eng :=
    ⟨fun k l e hl he => ⟨trivial, (hc.proposal k l e hl he).2⟩,
      fun k l sv hl hsv => ⟨trivial, (hc.vote k l sv hl hsv).2⟩⟩
  have hspeaks := Speaks.of_moves ((processStatus_speaks rs hc').reached rfl)
  exact hspeaks.onlyCalls.mono fun _ h => h.not_isOutput fun _ => id

omit [Content F] in
/-- The only call that hands something out. -/
theorem eq_of_isOutput {e : Event F} {call : Call F} (h : Withheld s s₁)
    (h' : Withheld (s₁.record e) s') (hmem : call ∈ s'.callsSince s) (hout : call.event.isOutput) :
    call = ⟨s₁.eng, s₁.disk, e⟩ := by
  obtain ⟨l, hl, hnone⟩ := h
  obtain ⟨l', hl', hnone'⟩ := h'
  have hcalls : s'.calls = s.calls ++ (l ++ ⟨s₁.eng, s₁.disk, e⟩ :: l') := by
    rw [hl']
    change (s₁.calls ++ [_]) ++ l' = _
    rw [hl]
    simp
  rw [State.callsSince, hcalls, List.drop_left] at hmem
  rcases List.mem_append.1 hmem with hmem | hmem
  · exact absurd hout (hnone call hmem)
  · rcases List.mem_cons.1 hmem with rfl | hmem
    · rfl
    · exact absurd hout (hnone' call hmem)

omit [Content F] in
theorem callTransmit_withheld (msg : ConsensusOutput F) (f : String → ConsensusError)
    (s : State F) : ∃ e, Withheld (s.record e) (Exec.result (do
      let res ← callTransmit E msg
      let _ ← orErr res f) s).2 := by
  have hcall : Exec.result (callTransmit E msg) s = (.ok (E.support.transmit s.calls.length msg),
      s.record (.transmit msg (E.support.transmit s.calls.length msg))) := rfl
  refine ⟨.transmit msg (E.support.transmit s.calls.length msg), ?_⟩
  rw [Exec.result_bind_ok hcall]
  cases E.support.transmit s.calls.length msg <;> exact .of_calls_eq rfl

theorem callCommit_withheld {K : Supply F} (hc : Cached E K s.eng) (commit : Commit F)
    (f : String → ConsensusError) : ∃ e, Withheld (s.record e) (Exec.result (do
      let res ← callCommit E commit
      let status ← orErr res f
      externalProcess E (.status status)) s).2 := by
  refine ⟨.commit commit (E.support.commit s.calls.length commit), ?_⟩
  rw [Exec.result_bind_ok (result_callCommit commit s)]
  cases E.support.commit s.calls.length commit with
  | error e => exact .of_calls_eq rfl
  | ok rs =>
    exact processStatus_withheld (s := s.record (.commit commit (.ok rs)))
      ⟨hc.proposal, hc.vote⟩ rs

omit [Content F] in
theorem askForProposal_withheld (height : UInt64) (s : State F) :
    Withheld s (Exec.result (askForProposal E height) s).2 := by
  have hsteps : Steps Withheld (askForProposal E height) (fun _ _ => True) s := by
    unfold askForProposal
    refine .bind_get (.bind_modify (.record Bool.false_ne_true) ?_)
    cases E.support.getContent s.calls.length height with
    | ok content => exact .modify (.of_calls_eq rfl) trivial
    | error e => exact .pure trivial
  exact .of_moves (hsteps.reached rfl)

omit [Content F] in
/-- What is handed out is handed out after the handler. -/
theorem disk_of_isOutput {α : Type} {handler : EngineM F α} {f : α → EngineM F PUnit}
    {Q : α → State F → Prop} {call : Call F} (hprepares : Steps Prepares handler Q s)
    (hrest : ∀ a s₁, Exec.result handler s = (.ok a, s₁) →
      ∃ e, Withheld (s₁.record e) (Exec.result (f a) s₁).2)
    (hmem : call ∈ (Exec.result (handler >>= f) s).2.callsSince s) (hout : call.event.isOutput) :
    ∃ a s₁, Exec.result handler s = (.ok a, s₁) ∧ call.disk = s₁.disk := by
  cases hr : Exec.result handler s with
  | mk r s₁ =>
    have hwithheld : Withheld s s₁ :=
      .of_moves ((hprepares.weaken fun _ _ => Prepares.withheld).reached hr)
    cases r with
    | error e =>
      rw [Exec.result_bind_error hr] at hmem
      exact absurd hout (hwithheld.of_mem hmem)
    | ok a =>
      obtain ⟨e, he⟩ := hrest a s₁ hr
      rw [Exec.result_bind_ok hr] at hmem
      rw [eq_of_isOutput hwithheld he hmem hout]
      exact ⟨a, s₁, rfl, rfl⟩

/-- **Whatever a turn of the core hands out, it hands out after its handler**, wherever the turn
stops. -/
theorem HandsOut.of_call (hc : Cached E (Supply.all F) s.eng) {c : CoreOutput} {call : Call F}
    (hmem : call ∈ (Exec.result (coreProcess E c) s).2.callsSince s)
    (hout : call.event.isOutput) :
    ∃ m s₁, c.message = some m ∧ HandsOut E s m s₁ ∧ call.disk = s₁.disk := by
  cases c with
  | proposal p =>
    obtain ⟨bytes, s₁, hr, hdisk⟩ := disk_of_isOutput (handleProposal_emits p true s)
      (fun _ _ _ => callTransmit_withheld _ _ _) hmem hout
    exact ⟨_, s₁, rfl, .proposal hr, hdisk⟩
  | vote v =>
    obtain ⟨sv, s₁, hr, hdisk⟩ := disk_of_isOutput (handleVote_prepares v true s)
      (fun _ _ _ => callTransmit_withheld _ _ _) hmem hout
    exact ⟨_, s₁, rfl, .vote hr, hdisk⟩
  | commit c =>
    have hcached : ∀ commit s₁, Exec.result (handleCommit E c true) s = (.ok commit, s₁) →
        Cached E (Supply.all F) s₁.eng := by
      intro commit s₁ hr
      exact (Speaks.of_moves ((handleCommit_speaks trivial true).reached hr)).cached hc
    obtain ⟨commit, s₁, hr, hdisk⟩ := disk_of_isOutput (handleCommit_prepares c true s)
      (fun commit s₁ hr => callCommit_withheld (hcached commit s₁ hr) commit _) hmem hout
    exact ⟨_, s₁, rfl, .commit hr, hdisk⟩
  | getProposalRequest height =>
    exact absurd hout ((askForProposal_withheld height s).of_mem hmem)

/-- The text of no message of the core is empty. -/
structure Serde.Printed (serde : Serde F) : Prop where
  bftProposal : ∀ p text, serde.bftProposal.toString p = some text → text ≠ []
  bftVote : ∀ v text, serde.bftVote.toString v = some text → text ≠ []
  bftCommit : ∀ c text, serde.bftCommit.toString c = some text → text ≠ []

section

variable (hio : ∀ n, E.io n = .ok)

include hio

omit [Content F] in
theorem saveJson_saves (height : UInt64) (tag : UInt8) (name : String) (json : Option Bytes)
    (s : State F) : wp (saveJson E height tag name json)
      (fun _ s' => ∃ text, json = some text ∧
        s' = s.setWal (Wal.saved s.walState height (tag, text))) (fun _ _ => True) s := by
  unfold saveJson
  cases json with
  | none => trivial
  | some text =>
    refine wp_bind.2 (Exec.wp_zoomTry (fun n w hw => ?_) (fun _ _ _ => trivial)
      fun _ _ => trivial)
    rcases Wal.save_cases hio E.overflowChecks height (tag, text) s.walState with
      heq | ⟨k, heq⟩ <;> rw [hw] at heq
    · exact nomatch heq
    · obtain rfl := congrArg Prod.snd heq
      exact ⟨text, rfl, rfl⟩

omit [Content F] in
/-- A handler that logs its message does so before all else. -/
theorem result_log_first {α : Type} {rest : EngineM F α} (reject : State F → Prop)
    [DecidablePred reject] {e : ConsensusError} {height : UInt64} {tag : UInt8} {name : String}
    {json : Option Bytes} {a : α} (hon : E.walOn = true) (hw : ∀ w, reject (s.setWal w) ↔ reject s)
    (h : Exec.result (do
      let s ← get
      Exec.rejectIf (reject s) e
      Exec.doIf (E.walOn && true) (saveJson E height tag name json)
      rest) s = (.ok a, s')) :
    ∃ text, json = some text ∧ Exec.result (do
      let s ← get
      Exec.rejectIf (reject s) e
      Exec.doIf (E.walOn && false) (saveJson E height tag name json)
      rest) (s.setWal (Wal.saved s.walState height (tag, text))) = (.ok a, s') := by
  rw [Exec.result_bind_get] at h
  by_cases hr : reject s
  · rw [Exec.result_bind_rejectIf_of hr] at h
    exact nomatch h
  rw [Exec.result_bind_rejectIf hr] at h
  cases hs : Exec.result (Exec.doIf (E.walOn && true) (saveJson E height tag name json)) s with
  | mk r s₁ =>
    cases r with
    | error e =>
      rw [Exec.result_bind_error hs] at h
      exact nomatch h
    | ok _ =>
      rw [Exec.result_bind_ok hs] at h
      rw [Exec.result_doIf_of (by simp [hon])] at hs
      obtain ⟨text, htext, rfl⟩ := (saveJson_saves hio height tag name json s).ok hs
      refine ⟨text, htext, ?_⟩
      rw [Exec.result_bind_get, Exec.result_bind_rejectIf (mt (hw _).1 hr),
        Exec.result_bind_ok (Exec.result_doIf_of_not (by simp) _ _)]
      exact h

/-- **What is handed out was saved before.** -/
theorem HandsOut.logged (hon : E.walOn = true) (h : HandsOut E s m s') : ∃ text, m.Text E text ∧
    Moves E (Source.all F) (s.setWal (Wal.saved s.walState (m.height s.eng) (m.tag, text))) s' := by
  cases h with
  | @proposal p bytes s' handled =>
    obtain ⟨text, htext, h⟩ := result_log_first hio
      (fun s => p.height ≠ s.eng.height) hon (fun _ => Iff.rfl) handled
    have hmoves := (handleProposal_moves (S := Source.all F) (p := p) trivial false).reached h
    exact ⟨text, htext, Stills.moves hmoves⟩
  | @vote v sv s' handled =>
    obtain ⟨text, htext, h⟩ := result_log_first hio
      (fun s => v.height < s.eng.height) hon (fun _ => Iff.rfl) handled
    have hmoves := (handleVote_moves (S := Source.all F) (v := v) trivial false).reached h
    exact ⟨text, htext, Stills.moves hmoves⟩
  | @commit c commit s' handled =>
    obtain ⟨text, htext, h⟩ := result_log_first hio
      (fun s => c.height < s.eng.height) hon (fun _ => Iff.rfl) handled
    have hmoves := (handleCommit_moves (S := Source.all F) (c := c) trivial false).reached h
    exact ⟨text, htext, Stills.moves hmoves⟩

/-- The record `r` was appended to the file of the height `h` between `d` and `d'`. -/
def Recorded (d d' : Disk) (h : UInt64) (r : UInt8 × Bytes) : Prop :=
  ∃ b recs, d.logs.lookup h = some b ∧ d'.logs.lookup h = some (b ++ encodeRecords recs) ∧ r ∈ recs

/-- **A message of the height is in the file of the height when it is handed out.** -/
theorem HandsOut.recorded (hon : E.walOn = true) (htexts : E.serde.Printed) (hsync : Synced s)
    (hw : CurrentFile s.walState) (h : HandsOut E s m s')
    (hheight : m.height s.eng = s.eng.height) :
    ∃ text, m.Text E text ∧ Recorded s.disk s'.disk s.eng.height (m.tag, text) := by
  obtain ⟨text, htext, hmoves⟩ := h.logged hio hon
  obtain ⟨b, hb⟩ := Option.isSome_iff_exists.1 (hsync.stored hw)
  have hne : text ≠ [] := by
    cases h with
    | proposal _ => exact htexts.bftProposal _ _ htext
    | vote _ => exact htexts.bftVote _ _ htext
    | commit _ => exact htexts.bftCommit _ _ htext
  -- the file is open, so the record is written
  have hopen : m.height s.eng ∈ s.walState.wal.heightFs := by
    rw [hheight, ← hsync.current]
    exact hw.handle
  rw [Wal.saved_of_open hne hopen, hheight] at hmoves
  have hwritten : (Wal.written s.walState s.eng.height (m.tag, text)).disk.logs.lookup
      s.eng.height = some (b ++ encodeRecord (m.tag, text)) := by
    change AList.lookup _ (AList.insert _ _ _) = _
    rw [AList.lookup_insert]
    change some ((s.disk.logs.lookup s.eng.height).getD [] ++ _) = _
    rw [hb]
    rfl
  have hstored : Stored (s.setWal (Wal.written s.walState s.eng.height (m.tag, text))) :=
    (congrArg Option.isSome hwritten).trans rfl
  obtain ⟨-, b', recs, hb', hrecs⟩ := hmoves.grows hio hstored
  obtain rfl := Option.some.inj (hb'.symm.trans hwritten)
  change s'.disk.logs.lookup s.eng.height = _ at hrecs
  exact ⟨text, htext, b, (m.tag, text) :: recs, hb, by simpa using hrecs, List.mem_cons_self⟩

end

/-! ### Runs -/

/-- From the end of the run on `is` on, the engine stays at the height `h` through `later`. -/
def Stays (E : Env F) (address : Address) (disk : Disk) (is later : List Input) (h : UInt64) :
    Prop :=
  ∀ is₁ is₂ q, later = is₁ ++ is₂ → Life E address disk (is ++ is₁) q → q.state.eng.height = h

/-- While the engine stays at a height, the file of the height only grows. -/
theorem Life.grows (hio : ∀ n, E.io n = .ok) {later : List Input} (hl : Life E address disk is p)
    (hl' : Life E address disk (is ++ later) p') (hs : Stored p.state)
    (hstays : Stays E address disk is later p.state.eng.height) : Grows p.state p'.state := by
  induction later using List.reverseRecOn generalizing p' with
  | nil =>
    rw [List.append_nil] at hl'
    obtain rfl := hl.unique hl'
    exact .refl hs
  | append_singleton later i ih =>
    rw [← List.append_assoc] at hl'
    obtain ⟨q, q', hq, hn, hq'⟩ := @Life.split F _ E address disk i p' (is ++ later) [] hl'
    obtain rfl := hl'.unique hq'
    have hgrows := ih hq fun is₁ is₂ r his => hstays is₁ (is₂ ++ [i]) r (by simp [his])
    obtain ⟨-, -, -, hc⟩ := hq.updates (SuppliedLife.all E address disk _)
    have hheight := hstays (later ++ [i]) [] p' (by simp) (by rwa [← List.append_assoc])
    exact hgrows.trans (next_grows hio hc hn (hheight.trans hgrows.1.symm) hgrows.stored)

/-- All that a turn gets from its BFT core is the message `c`. -/
def Supply.coreOnly (c : CoreOutput) : Supply F := { Supply.all F with core := fun m => m = c }

/-- **The log is ahead of what is handed out**: in every run in which a status was handled, the log
is at the height of the engine and the file of the height is open and on the disk; whatever a turn
of the core hands out, wherever it stops, stands for the message of the core, and if this is a
proposal, a vote or a commit of the height, it is in the file by then; and the file only grows while
the engine stays at the height. -/
theorem write_ahead (hio : ∀ n, E.io n = .ok) (hon : E.walOn = true) (htexts : E.serde.Printed)
    (hl : Life E address disk is p) (hstatus : StatusHandled E address disk is) :
    (Synced p.state ∧ CurrentFile p.state.walState) ∧
    (∀ c, ∀ call ∈ (Exec.result (coreProcess E c) p.state).2.callsSince p.state,
      call.event.isOutput → Said E (.coreOnly c) call.event ∧ ∃ m, c.message = some m ∧
        (m.height p.state.eng = p.state.eng.height → ∃ text, m.Text E text ∧
          Recorded p.state.disk call.disk p.state.eng.height (m.tag, text) ∧
          (disk.Holds (fun _ _ => True) → ∃ recs, (m.tag, text) ∈ recs ∧
            call.disk.logs.lookup p.state.eng.height = some (encodeRecords recs)))) ∧
    ∀ later p', Life E address disk (is ++ later) p' →
      Stays E address disk is later p.state.eng.height → Grows p.state p'.state := by
  have hsync := hl.synced_of_statusHandled hio hstatus
  have hfile := hl.currentFile hio
  obtain ⟨-, -, -, hc⟩ := hl.updates (SuppliedLife.all E address disk is)
  refine ⟨⟨hsync, hfile⟩, fun c call hmem hout => ⟨?_, ?_⟩, fun later p' hl' hstays =>
    hl.grows hio hl' (hsync.stored hfile) hstays⟩
  · have hc' : Cached E (Supply.coreOnly c) p.state.eng := ⟨hc.proposal, hc.vote⟩
    have hspeaks := (coreProcess_speaks (K := Supply.coreOnly c) rfl hc' hl.votesBound).reached rfl
    exact (Speaks.of_moves hspeaks).onlyCalls.of_mem hmem
  · obtain ⟨m, s₁, hm, hands, hdisk⟩ := HandsOut.of_call hc hmem hout
    refine ⟨m, hm, fun hheight => ?_⟩
    obtain ⟨text, htext, hrecorded⟩ := hands.recorded hio hon htexts hsync hfile hheight
    rw [← hdisk] at hrecorded
    refine ⟨text, htext, hrecorded, fun holds => ?_⟩
    obtain ⟨b, recs, hb, hs, hmem⟩ := hrecorded
    obtain ⟨old, rfl, -⟩ := hl.holds hio (fun _ _ _ => trivial) holds _ _ hb
    exact ⟨old ++ recs, List.mem_append_right old hmem, by rw [hs, encodeRecords_append]⟩

/-- A vote of the node `[7]` at height `1`. -/
def ownVote : BftVote := ⟨.prevote, 1, 0, [1], [7]⟩

/-- The reference application with its log, which can log `ownVote`. -/
def voteLog : Env Block :=
  { Reference.readyLog with
    serde.bftVote := Reference.jsonOf
      (fun v => Reference.voteText (Vote.fromBftVote v v.voteType.toVoteType)) [ownVote] }

theorem voteLog_printed : voteLog.serde.Printed := by
  refine ⟨fun _ _ h => (nomatch h), fun v text h => ?_, fun _ _ h => (nomatch h)⟩
  change (if _ then some (Reference.voteText _) else none) = some text at h
  split_ifs at h
  obtain rfl := Option.some.inj h
  simp [Reference.voteText, Reference.jsonObject, Reference.brackets, Reference.ascii]

/-- The vote is in the file of height `1` when it is transmitted. -/
theorem write_ahead_vote : ∃ p call text,
    Life voteLog [7] Reference.disk (Reference.readyRun [7]) p ∧ p.state.eng.height = 1 ∧
      call ∈ (Exec.result (coreProcess voteLog (.vote ownVote)) p.state).2.callsSince p.state ∧
      call.event.isOutput ∧ Said voteLog (.coreOnly (.vote ownVote)) call.event ∧
      Recorded p.state.disk call.disk 1 (LOG_TYPE_VOTE, text) := by
  obtain ⟨p, hl, hf⟩ := Reference.exists_life voteLog [7] (Reference.readyRun [7])
    (fun p => decide (p.state.eng.height = 1) &&
      ((Exec.result (coreProcess voteLog (.vote ownVote)) p.state).2.callsSince p.state).any
        fun call => call.event.isOutput) (by decide +kernel)
  simp only [Bool.and_eq_true, decide_eq_true_eq, List.any_eq_true] at hf
  obtain ⟨hheight, call, hmem, hout⟩ := hf
  obtain ⟨p₁, hb, -⟩ := id hl
  have htext : (voteLog.serde.status.toString ⟨0, none, [Node.new [7]]⟩).isSome := by
    decide +kernel
  obtain ⟨-, hlogged, -⟩ := write_ahead (fun _ => rfl) rfl voteLog_printed hl
    ⟨[], _, [], p₁, rfl, ⟨p₁, hb, rfl⟩, htext⟩
  obtain ⟨hsaid, m, hm, hrecords⟩ := hlogged (.vote ownVote) call hmem hout
  obtain rfl := Option.some.inj hm
  obtain ⟨text, -, hrecorded, -⟩ := hrecords hheight.symm
  rw [hheight] at hrecorded
  exact ⟨p, call, text, hl, hheight, hmem, hout, hsaid, hrecorded⟩

end ConsensusBft

import ConsensusBft.Consensus.LogReference
import ConsensusBft.Consensus.NewHeight

/-!
# The format of the records

* `readRecord`, `replayMessage` : the two halves of a turn of `load_wal_log`, reading a record and
  handling what it stands for; `loadRecord_eq` puts them together.
* `LogOp E` : what is done to the log: a message is saved, or the height moves;
  `logged_of_next` : a turn does nothing else to it.
* `ReadsBack E bytes m` : the record `bytes` of `m` is read as `m`.
* `records_read_back_iff` : **exactly the records that hold a signed proposal without its block are
  not read back.**
-/

namespace ConsensusBft

open Exec (lift)

variable {F : Type} [Content F] {E : Env F} {S : Source F} {s s' : State F} {address : Address}
variable {disk : Disk} {is : List Input} {p p' : Process F} {i : Input}

/-! ### Reading -/

omit [Content F] in
/-- `from_slice` with its error mapped. -/
def fromJson {α : Type} (json : Json α) (name : String) (msg : Bytes) :
    Outcome ConsensusError α :=
  match json.fromSlice msg with
  | some a => .ok a
  | none => .error (.err (.deJsonErr name))

/-- The decoding steps of `load_wal_log`: what a record stands for, if its tag is known. -/
def readRecord (E : Env F) (record : UInt8 × Bytes) :
    Outcome ConsensusError (Option (LogMessage F)) :=
  let (msgType, msg) := record
  if msgType = LOG_TYPE_SIGNED_PROPOSAL then do
    let (signedProposal, block, hash) ← decodeLogged E msg
    return some (.signedProposal signedProposal block hash)
  else if msgType = LOG_TYPE_RAW_BYTES then do
    return some (.signedVote (← fromJson E.serde.signedVote "SignedVote" msg))
  else if msgType = LOG_TYPE_RICH_STATUS then do
    return some (.status (← fromJson E.serde.status "Status" msg))
  else if msgType = LOG_TYPE_BLOCK_TXS then do
    return some (.feed (← fromJson E.serde.feed "Feed" msg))
  else if msgType = LOG_TYPE_VERIFY_BLOCK_PESP then do
    return some (.verifyResp (← fromJson E.serde.verifyResp "VerifyResp" msg))
  else if msgType = LOG_TYPE_PROPOSAL then do
    return some (.bftProposal (← fromJson E.serde.bftProposal "BftProposal" msg))
  else if msgType = LOG_TYPE_VOTE then do
    return some (.bftVote (← fromJson E.serde.bftVote "BftVote" msg))
  else if msgType = LOG_TYPE_COMMIT then do
    return some (.bftCommit (← fromJson E.serde.bftCommit "BftCommit" msg))
  else .ok none

/-- What `load_wal_log` does with a message that it read from the record `bytes`.  No record is
read as a proposal without its block. -/
def replayMessage (E : Env F) (bytes : Bytes) : LogMessage F → EngineM F PUnit
  | .signedProposal signedProposal block hash => do
    modify fun s => { s with eng.blockOriginCache := s.eng.blockOriginCache.orInsert hash block }
    replayProposal E signedProposal block bytes
  | .bareProposal _ => pure ⟨⟩
  | .signedVote msg =>
    Exec.ifOk (handleSignedVote E msg false) fun vote => sendBft E (.vote vote) "BftVote"
  | .status msg =>
    Exec.ifOk (handleRichStatus E msg false) fun status => sendBft E (.status status) "BftStatus"
  | .feed msg => acceptFeed E msg "BftFeed"
  | .verifyResp msg => acceptVerdict E msg "BftVerifyResp"
  | .bftProposal proposal =>
    Exec.ifOk (handleProposal E proposal false) fun signedProposal => do
      let res ← callTransmit E (.signedProposal signedProposal)
      let _ ← orErr res fun _ => .sendMsgErr "SignedProposal"
  | .bftVote vote =>
    Exec.ifOk (handleVote E vote false) fun signedVote => do
      let res ← callTransmit E (.signedVote signedVote.rlpBytes)
      let _ ← orErr res fun _ => .sendMsgErr "SignedVote"
  | .bftCommit commit =>
    Exec.ifOk (handleCommit E commit true) fun commit => do
      let res ← callCommit E commit
      let _ ← orErr res fun _ => .sendMsgErr "Commit"

theorem loadJson_bind {α : Type} (json : Json α) (name : String) (msg : Bytes)
    (f : α → LogMessage F) (g : α → EngineM F PUnit) (hg : ∀ a, replayMessage E msg (f a) = g a) :
    (loadJson json name msg >>= g) =
      lift (fromJson json name msg >>= fun a => pure (some (f a))) >>= fun m =>
        m.elim (pure ⟨⟩) (replayMessage E msg) := by
  unfold loadJson fromJson
  cases json.fromSlice msg with
  | none => rfl
  | some a =>
    change g a = _
    rw [← hg]
    rfl

omit [Content F] in
/-- A chain of tests reads before it handles if each of its branches does. -/
theorem eq_bind_ite {α : Type} {c : Prop} [Decidable c] {x x' : EngineM F PUnit}
    {y y' : Outcome ConsensusError α} {g : α → EngineM F PUnit} (h : x = lift y >>= g)
    (h' : x' = lift y' >>= g) :
    (if c then x else x') = lift (if c then y else y') >>= g := by
  by_cases hc : c
  · rw [if_pos hc, if_pos hc, h]
  · rw [if_neg hc, if_neg hc, h']

/-- **A turn of `load_wal_log` reads a record and handles what it stands for.** -/
theorem loadRecord_eq (E : Env F) (record : UInt8 × Bytes) :
    loadRecord E record = lift (readRecord E record) >>= fun m =>
      m.elim (pure ⟨⟩) (replayMessage E record.2) := by
  obtain ⟨tag, msg⟩ := record
  unfold loadRecord readRecord
  dsimp only
  refine eq_bind_ite ?signedProposal <| eq_bind_ite ?signedVote <| eq_bind_ite ?status <|
    eq_bind_ite ?feed <| eq_bind_ite ?verifyResp <| eq_bind_ite ?proposal <|
    eq_bind_ite ?vote <| eq_bind_ite ?commit rfl
  case signedProposal =>
    unfold loadSignedProposal
    cases decodeLogged E msg <;> rfl
  all_goals exact loadJson_bind _ _ _ _ _ fun _ => rfl

/-! ### Writing -/

/-- An operation of the engine on its log. -/
inductive LogOp (F : Type) where
  /-- `save` of a message under a height. -/
  | save (height : UInt64) (m : LogMessage F) (bytes : Bytes)
  /-- `set_height`. -/
  | setHeight (height : UInt64)

namespace LogOp

/-- The operation. -/
def apply (E : Env F) (w : WalState) : LogOp F → WalState
  | .save height m bytes =>
    (Exec.result (Wal.save E.io E.overflowChecks height m.tag bytes) w).2
  | .setHeight height => (Exec.result (Wal.setHeight E.io height) w).2

/-- What is saved is the text of the message. -/
def Writes (E : Env F) : LogOp F → Prop
  | .save _ m bytes => m.Text E bytes
  | .setHeight _ => True

end LogOp

/-- Between two states, the log changed by these operations. -/
def Logged (E : Env F) (ops : List (LogOp F)) (s s' : State F) : Prop :=
  s'.walState = ops.foldl (LogOp.apply E) s.walState ∧ ∀ op ∈ ops, op.Writes E

theorem Logged.refl (s : State F) : Logged E [] s s := ⟨rfl, nofun⟩

theorem Logged.trans {ops ops' : List (LogOp F)} {s'' : State F} (h : Logged E ops s s')
    (h' : Logged E ops' s' s'') : Logged E (ops ++ ops') s s'' := by
  refine ⟨?_, fun op hop => ?_⟩
  · rw [h'.1, h.1, List.foldl_append]
  · rcases List.mem_append.1 hop with hop | hop
    · exact h.2 op hop
    · exact h'.2 op hop

theorem Logged.single {op : LogOp F} (hs : s'.walState = op.apply E s.walState)
    (hw : op.Writes E) : Logged E [op] s s' := by
  refine ⟨hs, fun op' hop => ?_⟩
  obtain rfl := List.mem_singleton.1 hop
  exact hw

theorem Move.logged (h : Move E S s s') : ∃ ops, Logged E ops s s' := by
  cases h with
  | save m bytes on given text =>
    exact ⟨[.save (m.height s.eng) m bytes], .single rfl text⟩
  | _ => exact ⟨[], .refl _⟩

theorem StatusLogged.logged {rs : Status} {w : WalState} (h : StatusLogged E s rs w) :
    ∃ ops, Logged E ops s (s.setWal w) := by
  cases h with
  | kept => exact ⟨[], .refl s⟩
  | saved on text => exact ⟨[.save rs.height (.status rs) _], .single rfl text⟩

theorem StatusEffect.logged {rs : Status} {needWal : Bool} {r : Outcome ConsensusError BftStatus}
    (h : StatusEffect E s rs needWal r s') : ∃ ops, Logged E ops s s' := by
  cases h with
  | refused logged _ => exact logged.logged
  | crashed logged _ _ =>
    obtain ⟨ops, hops⟩ := logged.logged
    exact ⟨ops, hops⟩
  | @entered _ w logged _ _ =>
    obtain ⟨ops, hops⟩ := logged.logged
    have hset : Logged E [.setHeight (rs.height + 1)] (s.setWal w)
        (s.enter rs (Exec.result (Wal.setHeight E.io (rs.height + 1)) w).2) := .single rfl trivial
    exact ⟨_, hops.trans hset⟩

theorem Advances.logged (h : Advances E S s s') : ∃ ops, Logged E ops s s' := by
  induction h with
  | refl => exact ⟨[], .refl s⟩
  | tail _ ha ih =>
    obtain ⟨ops, hops⟩ := ih
    obtain ⟨ops', hops'⟩ : ∃ ops, Logged E ops _ _ := by
      cases ha with
      | move hm => exact hm.logged
      | status rs needWal _ => exact (handleRichStatus_effect E _ rs needWal).logged
    exact ⟨ops ++ ops', hops.trans hops'⟩

/-- **A turn changes the log by saving messages and moving the height.** -/
theorem logged_of_next (hc : Cached E (Supply.all F) p.state.eng) (hn : next E i p = some p') :
    ∃ ops, Logged E ops p.state p'.state :=
  Advances.logged (next_advances (Supplied.all E p i).sourced hc hn)

/-! ### Reading what was written -/

/-- The record of a message is read as this message, and the record of a proposal without its
block as this proposal with a block. -/
def ReadsBack (E : Env F) (bytes : Bytes) : LogMessage F → Prop
  | .bareProposal sp => ∃ block hash, readRecord E (LOG_TYPE_SIGNED_PROPOSAL, bytes) =
      .ok (some (.signedProposal sp block hash))
  | m => readRecord E (m.tag, bytes) = .ok (some m)

/-- The message is a signed proposal that is logged without its block. -/
def LogMessage.IsBare : LogMessage F → Prop
  | .bareProposal _ => True
  | _ => False

/-- The replay decodes what a live engine decodes. -/
theorem decodeLogged_of_decodeProposal {bytes : Bytes} {x : SignedProposal × F × Hash}
    (h : decodeProposal E bytes = .ok x) : decodeLogged E bytes = .ok x := by
  unfold decodeProposal at h
  obtain ⟨⟨sp, block⟩, hextract, h⟩ := Outcome.bind_eq_ok.1 h
  obtain ⟨proposal, hsp, h⟩ := Outcome.bind_eq_ok.1 h
  obtain ⟨⟨height, b, hash⟩, hblock, h⟩ := Outcome.bind_eq_ok.1 h
  rw [Exec.mapErr_eq_ok] at hextract hsp hblock
  unfold decodeLogged
  refine Outcome.bind_eq_ok.2 ⟨_, hextract, Outcome.bind_eq_ok.2 ⟨_, Exec.mapErr_eq_ok.2 hsp,
    Outcome.bind_eq_ok.2 ⟨_, Exec.mapErr_eq_ok.2 hblock, ?_⟩⟩⟩
  dsimp only at h ⊢
  cases hdecode : Content.decode (F := F) b with
  | ok content =>
    rw [hdecode] at h
    exact h
  | error e =>
    rw [hdecode] at h
    exact nomatch h

/-- **A JSON text is not read as a signed proposal with its block.** -/
theorem decodeLogged_json
    (hrlp : ∀ b bytes n, b < 0xc0 → E.rlp.prototype (b :: bytes) ≠ .ok (.list n)) {text : Bytes}
    (htext : [123, 34, 112, 114, 111, 112, 111, 115, 97] <+: text)
    (x : SignedProposal × F × Hash) : decodeLogged E text ≠ .ok x := by
  intro h
  obtain ⟨rest, rfl⟩ := htext
  unfold decodeLogged at h
  obtain ⟨⟨one, two⟩, hextract, h⟩ := Outcome.bind_eq_ok.1 h
  obtain ⟨mid, hmid, -, hlen, rfl, -⟩ := extract_ok hextract
  have htake : ([123, 34, 112, 114, 111, 112, 111, 115, 97] ++ rest).take 8 =
      [123, 34, 112, 114, 111, 112, 111, 115] := rfl
  have hnine : 9 ≤ mid.toNat := by
    rw [hmid, htake]
    decide +kernel
  obtain ⟨n, hn⟩ := Nat.exists_eq_add_of_le hnine
  -- if the text is long enough for its first frame, this frame starts with a letter
  have hone : (([123, 34, 112, 114, 111, 112, 111, 115, 97] ++ rest).take mid.toNat).drop 8 =
      97 :: rest.take n := by
    rw [hn]
    exact congrArg (List.drop 8)
      (@List.take_length_add_append _ [123, 34, 112, 114, 111, 112, 111, 115, 97] rest n)
  obtain ⟨sp, hsp, -⟩ := Outcome.bind_eq_ok.1 h
  rw [Exec.mapErr_eq_ok, hone] at hsp
  exact hrlp 97 _ 2 (by decide) (SignedProposal.prototype_of_decode hsp)

theorem readsBack_of_not_bare (hserde : E.serde.Inverts) {m : LogMessage F} {bytes : Bytes}
    (htext : m.Text E bytes) (hm : ¬ m.IsBare) : ReadsBack E bytes m := by
  have fromJson_ok : ∀ {α : Type} {json : Json α} {name : String} {a : α}, json.Inverts →
      json.toString a = some bytes → fromJson json name bytes = .ok a := by
    intro α json name a hinv ha
    simp [fromJson, hinv a bytes ha]
  cases m with
  | bareProposal sp => exact absurd trivial hm
  | signedProposal sp block hash =>
    change (decodeLogged E bytes >>= _) = _
    rw [decodeLogged_of_decodeProposal htext.1]
    rfl
  | signedVote sv =>
    change (fromJson _ _ bytes >>= _) = _
    rw [fromJson_ok hserde.signedVote htext]
    rfl
  | status rs =>
    change (fromJson _ _ bytes >>= _) = _
    rw [fromJson_ok hserde.status htext]
    rfl
  | feed f =>
    change (fromJson _ _ bytes >>= _) = _
    rw [fromJson_ok hserde.feed htext]
    rfl
  | verifyResp vr =>
    change (fromJson _ _ bytes >>= _) = _
    rw [fromJson_ok hserde.verifyResp htext]
    rfl
  | bftProposal b =>
    change (fromJson _ _ bytes >>= _) = _
    rw [fromJson_ok hserde.bftProposal htext]
    rfl
  | bftVote v =>
    change (fromJson _ _ bytes >>= _) = _
    rw [fromJson_ok hserde.bftVote htext]
    rfl
  | bftCommit c =>
    change (fromJson _ _ bytes >>= _) = _
    rw [fromJson_ok hserde.bftCommit htext]
    rfl

/-- **The record of a message is read back if and only if it is not a signed proposal without its
block.** -/
theorem readsBack_iff (hserde : E.serde.Inverts)
    (hrlp : ∀ b bytes n, b < 0xc0 → E.rlp.prototype (b :: bytes) ≠ .ok (.list n))
    {m : LogMessage F} {bytes : Bytes} (htext : m.Text E bytes) :
    ReadsBack E bytes m ↔ ¬ m.IsBare := by
  refine ⟨fun hback hbare => ?_, readsBack_of_not_bare hserde htext⟩
  cases m with
  | bareProposal sp =>
    obtain ⟨block, hash, hread⟩ := hback
    obtain ⟨x, hx, -⟩ := Outcome.bind_eq_ok.1 (show (decodeLogged E bytes >>= _) = _ from hread)
    exact decodeLogged_json hrlp (hserde.signedProposal sp bytes htext) x hx
  | _ => exact hbare.elim

/-- **In every turn of every run, the log changes by saving messages and moving the height, and a
saved record is read back as its message if and only if it is not a signed proposal without its
block.** -/
theorem records_read_back_iff (hserde : E.serde.Inverts)
    (hrlp : ∀ b bytes n, b < 0xc0 → E.rlp.prototype (b :: bytes) ≠ .ok (.list n)) :
    EachInput E address disk is fun p i => ∀ p', next E i p = some p' →
      ∃ ops, Logged E ops p.state p'.state ∧ ∀ height m bytes, .save height m bytes ∈ ops →
        (ReadsBack E bytes m ↔ ¬ m.IsBare) := by
  intro is₁ i is₂ p _ hl p' hn
  obtain ⟨-, -, -, hc⟩ := hl.updates (SuppliedLife.all E address disk is₁)
  obtain ⟨ops, hops⟩ := logged_of_next hc hn
  exact ⟨ops, hops, fun height m bytes hmem => readsBack_iff hserde hrlp (hops.2 _ hmem)⟩

theorem records_read_back_ready :
    EachInput Reference.readyLog [7] Reference.disk (Reference.readyRun [7]) fun p i =>
      ∀ p', next Reference.readyLog i p = some p' →
        ∃ ops, Logged Reference.readyLog ops p.state p'.state ∧
          ∀ height m bytes, .save height m bytes ∈ ops →
            (ReadsBack Reference.readyLog bytes m ↔ ¬ m.IsBare) :=
  records_read_back_iff (Reference.logEnv_inverts _ _ _ _) Reference.prototype_ne_list

/-- A proposal of height `1`. -/
def loggedProposal : SignedProposal := Reference.signedProposal 1 0 [9] none [] [7]

/-- What the engine logs when it handles it. -/
def loggedText : Bytes := (Reference.signedProposalText loggedProposal).getD []

/-- **A signed proposal that is handled is logged as a text that the replay does not read.** -/
theorem handled_proposal_not_read_back :
    ∃ p, Life Reference.readyLog [7] Reference.disk (Reference.readyRun [7] ++
        [.external (.signedProposal (Reference.proposalBytes loggedProposal [9] [9]))]) p ∧
      (p.state.disk.logs.lookup 1).map (parseRecords 1000) =
        some [(LOG_TYPE_SIGNED_PROPOSAL, loggedText)] ∧
      (LogMessage.bareProposal loggedProposal).Text Reference.readyLog loggedText ∧
      ¬ ReadsBack Reference.readyLog loggedText (.bareProposal loggedProposal) := by
  obtain ⟨p, hl, hf⟩ := Reference.exists_life Reference.readyLog [7] (Reference.readyRun [7] ++
      [.external (.signedProposal (Reference.proposalBytes loggedProposal [9] [9]))])
    (fun p => decide ((p.state.disk.logs.lookup 1).map (parseRecords 1000) =
      some [(LOG_TYPE_SIGNED_PROPOSAL, loggedText)])) (by decide +kernel)
  have htext : (LogMessage.bareProposal loggedProposal).Text Reference.readyLog loggedText := by
    change Reference.signedProposalText loggedProposal = some loggedText
    decide +kernel
  refine ⟨p, hl, of_decide_eq_true hf, htext, fun hback => ?_⟩
  exact (readsBack_iff (Reference.logEnv_inverts _ _ _ _) Reference.prototype_ne_list htext).1
    hback trivial

end ConsensusBft

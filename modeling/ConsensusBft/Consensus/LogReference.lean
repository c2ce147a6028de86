import ConsensusBft.Consensus.Reference

/-!
# A reference application with a log

The reference application in a build with the log.  The serializers write the text that
`serde_json` writes; they read the texts of the messages that they are given.

* `Reference.jsonOf` : a serializer from a printer, which `from_slice` inverts.
* `Reference.logEnv` : the application with its log.
-/

namespace ConsensusBft

namespace Reference

/-! ### JSON texts -/

/-- The bytes of an ASCII text. -/
def ascii (s : String) : Bytes := s.toList.map fun c => c.toNat.toUInt8

/-- The elements of an array or of an object, between brackets. -/
def brackets (left right : String) (elements : List Bytes) : Bytes :=
  ascii left ++ (elements.intersperse (ascii ",")).flatten ++ ascii right

def jsonArray (elements : List Bytes) : Bytes := brackets "[" "]" elements

def jsonObject (fields : List (String × Bytes)) : Bytes :=
  brackets "\x7b" "\x7d" (fields.map fun f => ascii "\"" ++ ascii f.1 ++ ascii "\":" ++ f.2)

def jsonBytes (b : Bytes) : Bytes := jsonArray (b.map fun x => decimal x.toUInt64)

def jsonOption : Option UInt64 → Bytes
  | none => ascii "null"
  | some n => decimal n

def nodeText (node : Node) : Bytes :=
  jsonObject [("address", jsonBytes node.address),
    ("proposal_weight", decimal node.proposalWeight.toUInt64),
    ("vote_weight", decimal node.voteWeight.toUInt64)]

def statusText (rs : Status) : Bytes :=
  jsonObject [("height", decimal rs.height), ("interval", jsonOption rs.interval),
    ("authority_list", jsonArray (rs.authorityList.map nodeText))]

def voteText (v : Vote) : Bytes :=
  jsonObject [("vote_type", match v.voteType with
      | .prevote => ascii "\"Prevote\""
      | .precommit => ascii "\"Precommit\""),
    ("height", decimal v.height), ("round", decimal v.round), ("proposal", jsonBytes v.proposal),
    ("voter", jsonBytes v.voter)]

def signedVoteText (sv : SignedVote) : Bytes :=
  jsonObject [("vote", voteText sv.vote), ("signature", jsonBytes sv.signature)]

/-- The text of a proof.  The keys of its map are byte arrays, which are no keys of an object. -/
def proofText (proof : Proof) : Option Bytes :=
  if proof.precommitVotes.entries = [] then
    some (jsonObject [("block_hash", jsonBytes proof.blockHash), ("height", decimal proof.height),
      ("round", decimal proof.round), ("precommit_votes", jsonObject [])])
  else none

def signedProposalText (sp : SignedProposal) : Option Bytes :=
  (proofText sp.proposal.proof).map fun proof =>
    jsonObject [("proposal", jsonObject [("height", decimal sp.proposal.height),
        ("round", decimal sp.proposal.round), ("hash", jsonBytes sp.proposal.hash),
        ("proof", proof), ("lock_round", jsonOption sp.proposal.lockRound),
        ("lock_votes", jsonArray (sp.proposal.lockVotes.map signedVoteText)),
        ("proposer", jsonBytes sp.proposal.proposer)]),
      ("signature", jsonBytes sp.signature)]

def verifyRespText (vr : VerifyResp) : Bytes :=
  jsonObject [("is_pass", ascii (if vr.isPass then "true" else "false")),
    ("proposal", jsonBytes vr.proposal)]

/-! ### Serializers -/

/-- A serializer that writes what `print` prints, and reads the texts of the `known` messages. -/
def jsonOf {α : Type} [DecidableEq α] (print : α → Bytes) (known : List α) : Json α where
  toString a := if (known.find? fun b => print b = print a) = some a then some (print a) else none
  fromSlice text := known.find? fun a => print a = text

theorem jsonOf_inverts {α : Type} [DecidableEq α] (print : α → Bytes) (known : List α) :
    (jsonOf print known).Inverts := by
  intro a text h
  simp only [jsonOf] at h ⊢
  split_ifs at h with hfind
  obtain rfl := Option.some.inj h
  exact hfind

theorem json_inverts (α : Type) : (json α).Inverts := fun _ _ h => nomatch h

/-- The application of the node `address` with its log, for the given statuses, votes and verdicts.
No signed proposal is read from JSON. -/
def logEnv (address : Address) (statuses : List Status) (votes : List SignedVote)
    (verdicts : List VerifyResp) : Env Block :=
  { env address with
    walOn := true
    serde :=
      { verifyResp := jsonOf verifyRespText verdicts
        feed := json _
        signedProposal := ⟨signedProposalText, fun _ => none⟩
        signedVote := jsonOf signedVoteText votes
        status := jsonOf statusText statuses
        bftProposal := json _
        bftVote := json _
        bftCommit := json _ } }

/-- The application of the node `[7]` with its log, for the status that `readyRun` gives it. -/
def readyLog : Env Block := logEnv [7] [⟨0, none, [Node.new [7]]⟩] [] []

/-- The text of a signed proposal starts with the name of its first field. -/
theorem signedProposalText_prefix {sp : SignedProposal} {text : Bytes}
    (h : signedProposalText sp = some text) :
    [123, 34, 112, 114, 111, 112, 111, 115, 97] <+: text := by
  obtain ⟨proof, -, rfl⟩ := Option.map_eq_some_iff.1 h
  have hbrace : ascii "\x7b" = [123] := by decide
  have hquote : ascii "\"" = [34] := by decide
  have hname : ascii "proposal" = [112, 114, 111, 112, 111, 115, 97, 108] := by decide
  simp only [jsonObject, brackets, List.map_cons, List.map_nil, List.intersperse,
    List.flatten_cons, List.append_assoc, hbrace, hquote, hname]
  exact ⟨_, rfl⟩

theorem logEnv_inverts (address : Address) (statuses : List Status) (votes : List SignedVote)
    (verdicts : List VerifyResp) : (logEnv address statuses votes verdicts).serde.Inverts where
  verifyResp := jsonOf_inverts _ _
  feed := json_inverts _
  signedVote := jsonOf_inverts _ _
  status := jsonOf_inverts _ _
  bftProposal := json_inverts _
  bftVote := json_inverts _
  bftCommit := json_inverts _
  signedProposal _ _ h := signedProposalText_prefix h

/-- The reference reader takes nothing for a list that starts below `0xc0`. -/
theorem prototype_ne_list (b : UInt8) (bytes : Bytes) (n : ℕ) (hb : b < 0xc0) :
    Rlp.reader.prototype (b :: bytes) ≠ .ok (.list n) := by
  intro h
  have hlist : ∀ x y, Rlp.payloadInfo (b :: bytes) ≠ .ok (x, y, true) := by
    intro x y hinfo
    unfold Rlp.payloadInfo at hinfo
    have hle : b ≤ 0xbf := by
      rw [UInt8.le_iff_toNat_le, UInt8.lt_iff_toNat_lt] at *
      exact Nat.le_of_lt_succ hb
    simp only [hle, if_true, Bool.false_eq_true, if_false] at hinfo
    split at hinfo
    · cases hinfo
    · next h' n' isList' hshort =>
      split_ifs at hinfo
      obtain ⟨rfl, rfl, rfl⟩ := Prod.ext_iff.1 (Except.ok.inj hinfo)
      split_ifs at hshort <;> cases hshort
  simp only [Rlp.reader, reduceCtorEq, if_false] at h
  cases hinfo : Rlp.payloadInfo (b :: bytes) with
  | error e =>
    rw [hinfo] at h
    cases h
  | ok info =>
    obtain ⟨x, y, isList⟩ := info
    cases isList with
    | false =>
      rw [hinfo] at h
      cases h
    | true => exact hlist x y hinfo

end Reference

end ConsensusBft

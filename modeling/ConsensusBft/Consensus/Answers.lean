import ConsensusBft.Consensus.Reference
import ConsensusBft.Consensus.Speech

/-!
# Answers of the application

What the application is asked for a block or a verdict, it answers through the async queue.

* `next_answers` : what a turn takes from the queue and what it puts there.
* `answers_in_order` : **every answer is taken by one async turn, in the order of the questions**:
  none is lost, none is taken twice, whatever the turns in between do.
-/

namespace ConsensusBft

variable {F : Type} [Content F] {E : Env F} {address : Address} {disk : Disk} {is : List Input}
variable {i : Input} {p p' : Process F}

/-- **An async turn takes the head of the queue, no other turn takes anything**; the answers to the
calls of a turn are put at the end. -/
theorem next_answers (hc : Cached E (Supply.all F) p.state.eng) (hs : VotesBound p.state.eng)
    (h : next E i p = some p') : ∃ taken queue calls, p.state.asyncQueue = taken ++ queue ∧
      taken.length = [i].count .async ∧ p'.state.calls = p.state.calls ++ calls ∧
      p'.state.asyncQueue = queue ++ answers calls := by
  obtain ⟨m, s, ha, hm⟩ := attempt_of_next h
  obtain ⟨-, hcalls⟩ := ha.state
  have hspeaks := (attempt_speaks ha (Supplied.all E p i) hc hs).survive hm
  obtain ⟨calls, hl, -, hq⟩ := (Speaks.of_moves hspeaks).calls
  rw [hcalls] at hl
  cases ha with
  | async _ head => exact ⟨[_], _, calls, head, rfl, hl, hq⟩
  | _ => exact ⟨[], _, calls, rfl, rfl, hl, hq⟩

/-- **Every answer is taken once, in order**: what is in the queue are the answers after those that
the async turns took. -/
theorem answers_in_order (hl : Life E address disk is p) :
    is.count .async ≤ (answers p.state.calls).length ∧
      p.state.asyncQueue = (answers p.state.calls).drop (is.count .async) := by
  induction is using List.reverseRecOn generalizing p with
  | nil =>
    obtain ⟨p₀, hboot, hrun⟩ := hl
    obtain rfl := Option.some.inj hrun
    obtain ⟨-, hqueue, hcalls⟩ := boot_state hboot
    rw [hqueue, hcalls]
    exact ⟨Nat.zero_le _, rfl⟩
  | append_singleton is i ih =>
    obtain ⟨p₁, p₂, hl₁, hn, hl₂⟩ := hl.split
    obtain rfl := hl₂.unique hl
    obtain ⟨hle, hqueue⟩ := ih hl₁
    obtain ⟨-, -, -, hc⟩ := hl₁.updates (SuppliedLife.all E address disk is)
    obtain ⟨taken, queue, calls, hhead, htaken, hcalls, hqueue'⟩ :=
      next_answers hc hl₁.votesBound hn
    rw [hhead] at hqueue
    have hlen := congrArg List.length hqueue
    rw [List.length_append, List.length_drop, htaken] at hlen
    have hrest : queue = (answers p₁.state.calls).drop (is.count .async + [i].count .async) := by
      rw [← List.drop_drop, ← hqueue, ← htaken, List.drop_left]
    rw [List.count_append, hcalls, answers_append, List.length_append, hqueue', hrest,
      List.drop_append_of_le_length (by omega)]
    exact ⟨by omega, rfl⟩

/-- Two blocks are asked for, and one answer has been taken. -/
theorem answers_in_order_twice : ∃ p : Process Block,
    Life (Reference.env [7]) [7] Reference.disk
      [.core (.getProposalRequest 1), .core (.getProposalRequest 2), .async] p ∧
      p.state.asyncQueue = (answers p.state.calls).drop 1 := by
  obtain ⟨p, hl, -⟩ := Reference.exists_life (Reference.env [7]) [7]
    [.core (.getProposalRequest 1), .core (.getProposalRequest 2), .async] (fun _ => true)
    (by decide +kernel)
  exact ⟨p, hl, (answers_in_order hl).2⟩

end ConsensusBft

import Mathlib.Logic.Function.Iterate
import ShardedQuery.Execution.MergeBarrier

/-!
# A wait as a sequence of rounds

The waiting merge loops.  In each round it looks whether all sources have been received, then
whether it is cancelled, and then takes one report.  Other things may happen between two rounds, so
it is rounds that a run of the merge is made of.

* `Barrier.round` — one round.
* `Barrier.poll_eq_iterate_round` — a run of the waiting merge until it has to wait or is done is
  one round for each report and one more.
-/

namespace ShardedQuery.Barrier

/-- The merge at the end of its wait. -/
def finish (b : Barrier) (result : Except MergeError (List Row)) : Barrier :=
  { b with state := .finished result, cancelled := b.cancelled || givesUp result }

/-- One round of the waiting merge. -/
def round (b : Barrier) : Barrier :=
  match b.state with
  | .waiting received rows =>
    if b.sources ≤ received then b.finish (.ok rows)
    else if b.cancelled then b.finish (.error .cancelled)
    else
      match b.queue with
      | [] => if b.handles.isEmpty then b.finish (.error (.incomplete b.sources received)) else b
      | .ok batch :: rest =>
        { b with queue := rest, state := .waiting (received + 1) (rows ++ batch.rows) }
      | .error failure :: rest =>
        if failure.missingShard && b.ignoreMissing then
          { b with queue := rest, state := .waiting (received + 1) rows }
        else
          { b with queue := rest }.finish (.error (.sourceFailed failure.node failure.message))
  | _ => b

/-- A merge that does not wait, or whose wait is over, stays as it is. -/
theorem round_of_not_waiting {b : Barrier} (h : ∀ received rows, b.state ≠ .waiting received rows) :
    b.round = b := by
  unfold round
  cases hs : b.state with
  | waiting received rows => exact absurd hs (h received rows)
  | idle | discarded | finished result => rfl

theorem iterate_round_finish (b : Barrier) (result : Except MergeError (List Row)) (k : Nat) :
    round^[k] (b.finish result) = b.finish result :=
  Function.iterate_fixed rfl k

/-- The merge after a run that was to receive the reports of a queue. -/
def afterReceive (b : Barrier) : PollResult × List Outcome → Barrier
  | (.pending received rows, queue) => { b with queue, state := .waiting received rows }
  | (.finished result, queue) => { b with queue }.finish result

/-- Receiving the reports of a queue is one round for each of them and one more. -/
theorem afterReceive_receive (b : Barrier) (queue : List Outcome) (received : Nat)
    (rows : List Row) :
    b.afterReceive (b.receive queue received rows) =
      round^[queue.length + 1] { b with queue, state := .waiting received rows } := by
  induction queue generalizing received rows with
  | nil =>
    rw [List.length_nil, Function.iterate_one]
    by_cases hall : b.sources ≤ received
    · simp only [receive, round, if_pos hall]
      rfl
    by_cases hcancelled : b.cancelled = true
    · simp only [receive, round, if_neg hall, if_pos hcancelled]
      rfl
    by_cases hhandles : b.handles.isEmpty = true
    · simp only [receive, round, if_neg hall, if_neg hcancelled, if_pos hhandles]
      rfl
    · simp only [receive, round, if_neg hall, if_neg hcancelled, if_neg hhandles]
      rfl
  | cons outcome rest ih =>
    rw [List.length_cons, Function.iterate_succ_apply]
    by_cases hall : b.sources ≤ received
    · unfold receive
      simp only [round, if_pos hall, iterate_round_finish]
      rfl
    by_cases hcancelled : b.cancelled = true
    · unfold receive
      simp only [round, if_neg hall, if_pos hcancelled, iterate_round_finish]
      rfl
    cases outcome with
    | ok batch =>
      simp only [receive, round, if_neg hall, if_neg hcancelled]
      exact ih (received + 1) (rows ++ batch.rows)
    | error failure =>
      by_cases hignored : (failure.missingShard && b.ignoreMissing) = true
      · simp only [receive, round, if_neg hall, if_neg hcancelled, if_pos hignored]
        exact ih (received + 1) rows
      · simp only [receive, round, if_neg hall, if_neg hcancelled, if_neg hignored,
          iterate_round_finish]
        rfl

/-- **A run of the waiting merge is one round for each report and one more.** -/
theorem poll_eq_iterate_round (b : Barrier) : b.poll = round^[b.queue.length + 1] b := by
  cases hs : b.state with
  | waiting received rows =>
    have hsame : ({ b with queue := b.queue, state := .waiting received rows } : Barrier) = b := by
      rw [← hs]
    have hrun := b.afterReceive_receive b.queue received rows
    rw [hsame] at hrun
    rw [← hrun]
    unfold poll
    rw [hs]
    simp only
    cases b.receive b.queue received rows with
    | mk result queue => cases result <;> rfl
  | idle | discarded | finished result =>
    rw [Function.iterate_fixed (round_of_not_waiting fun _ _ h => nomatch hs.symm.trans h)]
    unfold poll
    rw [hs]

end ShardedQuery.Barrier

import ShardedQuery.Error
import ShardedQuery.Execution.TopN

/-!
# Waiting for the rows of several nodes

A merge gathers the rows of several sources and waits until each of them has reported.  Every source
holds a handle, with which it reports once; a handle may also be given up.  The wait ends early when
a source fails, when the sources that are left cannot complete it, or when it is cancelled.

* `Barrier` — the state: handles that are held, reports that have not been received, the tokens that
  cancel, and how far the wait is.
* `Barrier.poll` — what the waiting merge does when it gets to run.
* `Barrier.report`, `drop`, `cancelParent`, `cancelChild`, `wait`, `discard` — what happens from
  outside.
-/

namespace ShardedQuery

/-- The rows of one source, in the order it produced them. -/
structure Batch where
  node : String
  rows : List Row

structure SourceFailure where
  node : String
  message : String
  /-- The shard that the source was to read is gone. -/
  missingShard : Bool
deriving DecidableEq, Repr

/-- What a source reports. -/
abbrev Outcome := Except SourceFailure Batch

inductive WaitState where
  | idle
  | waiting (received : Nat) (rows : List Row)
  | discarded
  | finished (result : Except MergeError (List Row))

/-- A merge and its sources. -/
structure Barrier where
  sources : Nat
  /-- A source whose shard is gone counts as one without rows. -/
  ignoreMissing : Bool
  /-- The handles that are still held. -/
  handles : List Nat
  /-- The reports that have not been received, the oldest first. -/
  queue : List Outcome
  /-- The token that the sources share is cancelled. -/
  cancelled : Bool
  /-- The token of the whole query is cancelled. -/
  parentCancelled : Bool
  state : WaitState

/-- How a run of the waiting merge ends. -/
inductive PollResult where
  | pending (received : Nat) (rows : List Row)
  | finished (result : Except MergeError (List Row))

namespace Barrier

/-- A merge of so many sources, each with a handle.  Cancelling the query cancels it, too, also if
that has happened before. -/
def create (sources : Nat) (ignoreMissing parentCancelled : Bool) : Barrier where
  sources
  ignoreMissing
  handles := List.range sources
  queue := []
  cancelled := parentCancelled
  parentCancelled
  state := .idle

/-- Whether reports can still be delivered. -/
def isOpen (b : Barrier) : Bool :=
  match b.state with
  | .idle | .waiting .. => true
  | .discarded | .finished _ => false

/-! ### The waiting merge -/

/-- Receives reports from a queue.  Before each one it looks whether all have been received, and
then whether it is cancelled; an empty queue that no handle can fill any more ends the wait. -/
def receive (b : Barrier) : List Outcome → (received : Nat) → List Row → PollResult × List Outcome
  | queue, received, rows =>
    if b.sources ≤ received then (.finished (.ok rows), queue)
    else if b.cancelled then (.finished (.error .cancelled), queue)
    else
      match queue with
      | [] =>
        if b.handles.isEmpty then (.finished (.error (.incomplete b.sources received)), [])
        else (.pending received rows, [])
      | .ok batch :: rest => receive b rest (received + 1) (rows ++ batch.rows)
      | .error failure :: rest =>
        if failure.missingShard && b.ignoreMissing then receive b rest (received + 1) rows
        else (.finished (.error (.sourceFailed failure.node failure.message)), rest)

/-- Whether a result makes the merge give up its sources. -/
def givesUp : Except MergeError (List Row) → Bool
  | .error (.sourceFailed ..) | .error (.incomplete ..) => true
  | .error .cancelled | .ok _ => false

/-- The state after the waiting merge has run until it has to wait or is done. -/
def poll (b : Barrier) : Barrier :=
  match b.state with
  | .waiting received rows =>
    match b.receive b.queue received rows with
    | (.pending received rows, queue) => { b with queue, state := .waiting received rows }
    | (.finished result, queue) =>
      { b with queue, state := .finished result, cancelled := b.cancelled || givesUp result }
  | _ => b

/-! ### What happens from outside -/

/-- Reports through a handle, which is used up.  The answer is whether the report was delivered;
there is none if the handle is not held. -/
def report (b : Barrier) (handle : Nat) (outcome : Outcome) : Option Bool × Barrier :=
  if b.handles.contains handle then
    let b := { b with handles := b.handles.erase handle }
    if b.isOpen then (some true, { b with queue := b.queue ++ [outcome] }) else (some false, b)
  else (none, b)

/-- Gives up a handle without a report.  The answer is whether it was held. -/
def drop (b : Barrier) (handle : Nat) : Bool × Barrier :=
  (b.handles.contains handle, { b with handles := b.handles.erase handle })

/-- Cancels the whole query, and with it the sources. -/
def cancelParent (b : Barrier) : Barrier := { b with parentCancelled := true, cancelled := true }

/-- Cancels the sources; without sources there is nothing to cancel. -/
def cancelChild (b : Barrier) : Barrier := { b with cancelled := b.cancelled || 0 < b.sources }

/-- Starts to wait.  The answer is whether the merge was there to be used. -/
def wait (b : Barrier) : Bool × Barrier :=
  match b.state with
  | .idle => (true, { b with state := .waiting 0 [] })
  | _ => (false, b)

/-- Discards an unused merge.  The answer is whether there was one. -/
def discard (b : Barrier) : Bool × Barrier :=
  match b.state with
  | .idle => (true, { b with state := .discarded })
  | _ => (false, b)

end Barrier

end ShardedQuery

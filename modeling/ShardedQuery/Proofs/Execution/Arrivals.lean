import Mathlib.Data.List.Perm.Basic
import Mathlib.Data.List.Perm.Subperm
import ShardedQuery.Proofs.Execution.Rounds

/-!
# What has happened to a merge

Sources report and give up, and the wait is cancelled, at any time and in any order.  The state of a
merge agrees at each moment with what has happened to it.

* `Barrier.Event`, `Barrier.after` — what can happen, and the merge after it.
* `Barrier.History` — what has happened to a merge up to the end of its wait.
* `Barrier.Ends` — what each end of a wait says about the history.
* `Barrier.Accounts` — **the invariant**: the state of a merge agrees with its history.
* `Accounts.after`, `accounts_foldl` — every event keeps the invariant, and so does a run.
-/

namespace ShardedQuery.Barrier

/-! ### Events and histories -/

/-- What can happen to a merge and its sources. -/
inductive Event where
  | report (handle : Nat) (outcome : Outcome)
  | drop (handle : Nat)
  | cancelParent
  | cancelChild
  | wait
  | discard
  /-- The waiting merge does one round of its loop. -/
  | round
  /-- The waiting merge runs until it has to wait or is done. -/
  | poll

/-- The merge after an event. -/
def after (b : Barrier) : Event → Barrier
  | .report handle outcome => (b.report handle outcome).2
  | .drop handle => (b.drop handle).2
  | .cancelParent => b.cancelParent
  | .cancelChild => b.cancelChild
  | .wait => b.wait.2
  | .discard => b.discard.2
  | .round => b.round
  | .poll => b.poll

/-- What has happened to a merge up to the end of its wait. -/
structure History where
  /-- The reports that were delivered, each with its handle, in the order of their arrival. -/
  arrivals : List (Nat × Outcome) := []
  /-- The handles that were given up without a report. -/
  givenUp : List Nat := []
  /-- The wait was cancelled from outside. -/
  cancelled : Bool

/-- The history of a merge after an event.  What happens to a merge that is over is not recorded. -/
def History.record (h : History) (b : Barrier) (event : Event) : History :=
  if b.isOpen then
    match event with
    | .report handle outcome =>
      if handle ∈ b.handles then { h with arrivals := h.arrivals ++ [(handle, outcome)] }
      else h
    | .drop handle =>
      if handle ∈ b.handles then { h with givenUp := h.givenUp ++ [handle] } else h
    | .cancelParent => { h with cancelled := true }
    | .cancelChild => { h with cancelled := h.cancelled || 0 < b.sources }
    | .wait | .discard | .round | .poll => h
  else h

/-- A merge and its history after an event. -/
def step (s : Barrier × History) (event : Event) : Barrier × History :=
  (s.1.after event, s.2.record s.1 event)

/-- A merge and its history after some events in a row. -/
def run (sources : Nat) (ignoreMissing parentCancelled : Bool) (events : List Event) :
    Barrier × History :=
  events.foldl step (create sources ignoreMissing parentCancelled, { cancelled := parentCancelled })

/-! ### The end of a wait -/

/-- A failure ends the wait, but for a missing shard where these are ignored. -/
def isFatal (ignoreMissing : Bool) : Outcome → Bool
  | .ok _ => false
  | .error failure => !(failure.missingShard && ignoreMissing)

/-- What a source contributes: the rows of its batch in their order. -/
def rowsOf : Outcome → List Row
  | .ok batch => batch.rows
  | .error _ => []

/-- The rows of some arrivals, arrival by arrival. -/
def rowsOfAll (arrivals : List (Nat × Outcome)) : List Row :=
  arrivals.flatMap fun arrival => rowsOf arrival.2

/-- None of the arrivals ends the wait. -/
def Harmless (ignoreMissing : Bool) (arrivals : List (Nat × Outcome)) : Prop :=
  ∀ arrival ∈ arrivals, isFatal ignoreMissing arrival.2 = false

/-- What the end of a wait for the sources `0` to `sources - 1` says about the history of the merge
and about the token that the sources share. -/
inductive Ends (sources : Nat) (ignoreMissing : Bool) (h : History) (cancelled : Bool) :
    Except MergeError (List Row) → Prop where
  /-- Every source has reported, each once, and the rows are theirs in the order of arrival. -/
  | complete (once : (h.arrivals.map Prod.fst).Perm (List.range sources))
      (harmless : Harmless ignoreMissing h.arrivals) :
      Ends sources ignoreMissing h cancelled (.ok (rowsOfAll h.arrivals))
  /-- The failure is that of the first fatal outcome to arrive. -/
  | failed {before after : List (Nat × Outcome)} {handle : Nat} {failure : SourceFailure}
      (arrivals : h.arrivals = before ++ (handle, .error failure) :: after)
      (harmless : Harmless ignoreMissing before)
      (fatal : isFatal ignoreMissing (.error failure) = true) (token : cancelled = true) :
      Ends sources ignoreMissing h cancelled
        (.error (.sourceFailed failure.node failure.message))
  /-- All sources have reported or given up, and at least one has given up. -/
  | short (once : (h.arrivals.map Prod.fst ++ h.givenUp).Perm (List.range sources))
      (missing : h.arrivals.length < sources) (harmless : Harmless ignoreMissing h.arrivals)
      (token : cancelled = true) :
      Ends sources ignoreMissing h cancelled
        (.error (.incomplete sources h.arrivals.length))
  /-- The wait was cancelled from outside while a source had not been received, before any fatal
  outcome was. -/
  | cancelled {received pending : List (Nat × Outcome)} (outside : h.cancelled = true)
      (arrivals : h.arrivals = received ++ pending) (missing : received.length < sources)
      (harmless : Harmless ignoreMissing received) (token : cancelled = true) :
      Ends sources ignoreMissing h cancelled (.error .cancelled)

/-- The end of a wait stays what it is when the token is cancelled, too. -/
theorem Ends.of_cancelled {sources : Nat} {ignoreMissing : Bool} {h : History}
    {result : Except MergeError (List Row)} {c c' : Bool} (e : Ends sources ignoreMissing h c result)
    (hc : c = true → c' = true) : Ends sources ignoreMissing h c' result := by
  cases e with
  | complete once harmless => exact .complete once harmless
  | failed arrivals harmless fatal token => exact .failed arrivals harmless fatal (hc token)
  | short once missing harmless token => exact .short once missing harmless (hc token)
  | cancelled outside arrivals missing harmless token =>
    exact .cancelled outside arrivals missing harmless (hc token)

/-! ### The invariant -/

/-- The wait has received these arrivals; it may also not have begun. -/
def HasReceived (b : Barrier) (received : List (Nat × Outcome)) : Prop :=
  b.state = .waiting received.length (rowsOfAll received) ∨ b.state = .idle ∧ received = []

/-- A merge whose wait is not over agrees with its history: what has not been received is in the
queue, and every handle was used up by an arrival, was given up, or is still held. -/
structure Agrees (h : History) (b : Barrier) (received pending : List (Nat × Outcome)) : Prop where
  state : b.HasReceived received
  arrivals : h.arrivals = received ++ pending
  queue : b.queue = pending.map Prod.snd
  handles : (h.arrivals.map Prod.fst ++ h.givenUp ++ b.handles).Perm (List.range b.sources)
  cancelled : b.cancelled = h.cancelled
  harmless : Harmless b.ignoreMissing received

/-- **The invariant of a run**: the state of a merge agrees with its history. -/
inductive Accounts (h : History) (b : Barrier) : Prop where
  | isOpen {received pending : List (Nat × Outcome)} (agrees : Agrees h b received pending)
  | discarded (state : b.state = .discarded)
  | finished {result : Except MergeError (List Row)} (state : b.state = .finished result)
      (ends : Ends b.sources b.ignoreMissing h b.cancelled result)

variable {h : History} {b : Barrier} {received pending : List (Nat × Outcome)}

theorem HasReceived.isOpen (hs : b.HasReceived received) : b.isOpen = true := by
  unfold Barrier.isOpen
  rcases hs with hs | ⟨hs, -⟩ <;> rw [hs]

theorem accounts_create (sources : Nat) (ignoreMissing parentCancelled : Bool) :
    Accounts { cancelled := parentCancelled } (create sources ignoreMissing parentCancelled) :=
  have agrees : Agrees _ (create sources ignoreMissing parentCancelled) [] [] :=
    ⟨.inr ⟨rfl, rfl⟩, rfl, rfl, List.Perm.refl _, rfl, fun _ ha => nomatch ha⟩
  .isOpen agrees

/-! ### Merges that are over -/

theorem state_of_closed (hclosed : b.isOpen = false) :
    b.state = .discarded ∨ ∃ result, b.state = .finished result := by
  unfold Barrier.isOpen at hclosed
  cases hs : b.state with
  | discarded => exact .inl rfl
  | finished result => exact .inr ⟨result, rfl⟩
  | idle | waiting received rows =>
    rw [hs] at hclosed
    cases hclosed

/-- An event changes a merge that is over in its handles and its tokens at most, and never takes
back that the token is cancelled. -/
theorem after_of_closed (hclosed : b.isOpen = false) (event : Event) :
    (b.after event).state = b.state ∧ (b.after event).sources = b.sources ∧
      (b.after event).ignoreMissing = b.ignoreMissing ∧
      (b.cancelled = true → (b.after event).cancelled = true) := by
  have hstate := state_of_closed hclosed
  cases event with
  | report handle outcome =>
    by_cases hheld : handle ∈ b.handles
    · have hstill : ({ b with handles := b.handles.erase handle } : Barrier).isOpen = false :=
        hclosed
      simp [after, Barrier.report, hheld, hstill]
    · simp [after, Barrier.report, hheld]
  | drop handle => exact ⟨rfl, rfl, rfl, id⟩
  | cancelParent => exact ⟨rfl, rfl, rfl, fun _ => rfl⟩
  | cancelChild => exact ⟨rfl, rfl, rfl, fun hc => by simp [after, Barrier.cancelChild, hc]⟩
  | wait => rcases hstate with hs | ⟨result, hs⟩ <;> simp [after, Barrier.wait, hs]
  | discard => rcases hstate with hs | ⟨result, hs⟩ <;> simp [after, Barrier.discard, hs]
  | round => rcases hstate with hs | ⟨result, hs⟩ <;> simp [after, Barrier.round, hs]
  | poll => rcases hstate with hs | ⟨result, hs⟩ <;> simp [after, Barrier.poll, hs]

/-- Nothing that happens to a merge that is over says anything new about its sources. -/
theorem Accounts.after_of_closed (ha : Accounts h b) (hclosed : b.isOpen = false) (event : Event) :
    Accounts (h.record b event) (b.after event) := by
  obtain ⟨hstate, hsources, hignore, htoken⟩ := Barrier.after_of_closed hclosed event
  have hrecord : h.record b event = h := by simp [History.record, hclosed]
  rw [hrecord]
  cases ha with
  | isOpen agrees =>
    rw [agrees.state.isOpen] at hclosed
    cases hclosed
  | discarded state => exact .discarded (hstate.trans state)
  | finished state ends =>
    refine .finished (hstate.trans state) ?_
    rw [hsources, hignore]
    exact ends.of_cancelled htoken

/-! ### Events during a wait -/

section Open

variable (ha : Agrees h b received pending)

include ha

/-- A report is one more arrival, of a handle that is used up by it. -/
theorem Agrees.report (handle : Nat) (outcome : Outcome) :
    Accounts (h.record b (.report handle outcome)) (b.after (.report handle outcome)) := by
  have hopen := ha.state.isOpen
  by_cases hheld : handle ∈ b.handles
  · have hstill : ({ b with handles := b.handles.erase handle } : Barrier).isOpen = true := hopen
    have hrecord : h.record b (.report handle outcome) =
        { h with arrivals := h.arrivals ++ [(handle, outcome)] } := by
      simp [History.record, hopen, hheld]
    have hafter : b.after (.report handle outcome) =
        { b with handles := b.handles.erase handle, queue := b.queue ++ [outcome] } := by
      simp [after, Barrier.report, hheld, hstill]
    rw [hrecord, hafter]
    suffices agrees : Agrees _ _ received (pending ++ [(handle, outcome)]) from .isOpen agrees
    refine ⟨ha.state, ?_, ?_, ?_, ha.cancelled, ha.harmless⟩
    · simp [ha.arrivals]
    · simp [ha.queue]
    · have hused := (List.perm_cons_erase hheld).symm
      refine List.Perm.trans ?_ ha.handles
      refine List.Perm.trans ?_ (hused.append_left _)
      simp only [List.map_append, List.map_cons, List.map_nil, List.append_assoc,
        List.singleton_append]
      exact List.perm_middle.symm.append_left _
  · have hrecord : h.record b (.report handle outcome) = h := by
      simp [History.record, hheld]
    have hafter : b.after (.report handle outcome) = b := by
      simp [after, Barrier.report, hheld]
    rw [hrecord, hafter]
    exact .isOpen ha

/-- A handle that is given up is used up by that. -/
theorem Agrees.drop (handle : Nat) :
    Accounts (h.record b (.drop handle)) (b.after (.drop handle)) := by
  have hopen := ha.state.isOpen
  by_cases hheld : handle ∈ b.handles
  · have hrecord : h.record b (.drop handle) = { h with givenUp := h.givenUp ++ [handle] } := by
      simp [History.record, hopen, hheld]
    rw [hrecord]
    refine .isOpen ⟨ha.state, ha.arrivals, ha.queue, ?_, ha.cancelled, ha.harmless⟩
    have hused := (List.perm_cons_erase hheld).symm
    refine List.Perm.trans ?_ ha.handles
    refine List.Perm.trans ?_ (hused.append_left _)
    rw [List.append_assoc, List.append_assoc, List.append_assoc]
    exact List.Perm.refl _
  · have hrecord : h.record b (.drop handle) = h := by simp [History.record, hheld]
    have hafter : b.after (.drop handle) = b := by
      simp [after, Barrier.drop, List.erase_of_not_mem hheld]
    rw [hrecord, hafter]
    exact .isOpen ha

theorem Agrees.cancelParent :
    Accounts (h.record b .cancelParent) (b.after .cancelParent) := by
  have hrecord : h.record b .cancelParent = { h with cancelled := true } := by
    simp [History.record, ha.state.isOpen]
  rw [hrecord]
  exact .isOpen ⟨ha.state, ha.arrivals, ha.queue, ha.handles, rfl, ha.harmless⟩

theorem Agrees.cancelChild :
    Accounts (h.record b .cancelChild) (b.after .cancelChild) := by
  have hrecord : h.record b .cancelChild =
      { h with cancelled := h.cancelled || 0 < b.sources } := by
    simp [History.record, ha.state.isOpen]
  rw [hrecord]
  refine .isOpen ⟨ha.state, ha.arrivals, ha.queue, ha.handles, ?_, ha.harmless⟩
  exact congrArg (· || decide (0 < b.sources)) ha.cancelled

/-- Before the wait begins nothing has been received. -/
theorem Agrees.wait : Accounts h (b.after .wait) := by
  rcases ha.state with hs | ⟨hs, hnone⟩
  · have hafter : b.after .wait = b := by simp [after, Barrier.wait, hs]
    rw [hafter]
    exact .isOpen ha
  · have hafter : b.after .wait = { b with state := .waiting 0 [] } := by
      simp [after, Barrier.wait, hs]
    subst hnone
    rw [hafter]
    exact .isOpen ⟨.inl rfl, ha.arrivals, ha.queue, ha.handles, ha.cancelled, ha.harmless⟩

theorem Agrees.discard : Accounts h (b.after .discard) := by
  rcases ha.state with hs | ⟨hs, -⟩
  · have hafter : b.after .discard = b := by simp [after, Barrier.discard, hs]
    rw [hafter]
    exact .isOpen ha
  · have hafter : b.after .discard = { b with state := .discarded } := by
      simp [after, Barrier.discard, hs]
    rw [hafter]
    exact .discarded rfl

/-- Every source is accounted for: it was received, its report is in the queue, it gave up, or its
handle is still held. -/
theorem Agrees.length_add :
    received.length + pending.length + h.givenUp.length + b.handles.length = b.sources := by
  have hlength := ha.handles.length_eq
  rw [ha.arrivals] at hlength
  simp only [List.length_append, List.length_map, List.length_range] at hlength
  exact hlength

/-- An arrival that does not end the wait is received. -/
theorem Agrees.receive {arrival : Nat × Outcome} {rest : List (Nat × Outcome)}
    (hpending : pending = arrival :: rest)
    (hharmless : isFatal b.ignoreMissing arrival.2 = false) :
    Agrees h { b with
        queue := rest.map Prod.snd
        state := .waiting (received.length + 1) (rowsOfAll received ++ rowsOf arrival.2) }
      (received ++ [arrival]) rest := by
  refine ⟨.inl ?_, ?_, rfl, ha.handles, ha.cancelled, ?_⟩
  · simp [rowsOfAll]
  · rw [ha.arrivals, hpending, List.append_assoc, List.singleton_append]
  · intro a hmem
    rcases List.mem_append.mp hmem with hold | hnew
    · exact ha.harmless a hold
    · rw [List.mem_singleton.mp hnew]
      exact hharmless

/-- A wait that has received as many reports as there are sources has received them all: nothing is
left in the queue, and no handle was given up or is held. -/
theorem Agrees.round_complete (hs : b.state = .waiting received.length (rowsOfAll received))
    (hall : b.sources ≤ received.length) : Accounts h b.round := by
  have hlength := ha.length_add
  have hround : b.round = b.finish (.ok (rowsOfAll received)) := by
    simp [Barrier.round, hs, hall]
  have hpending : pending = [] := List.length_eq_zero_iff.mp (by omega)
  have hgivenUp : h.givenUp = [] := List.length_eq_zero_iff.mp (by omega)
  have hhandles : b.handles = [] := List.length_eq_zero_iff.mp (by omega)
  have harrivals : h.arrivals = received := by rw [ha.arrivals, hpending, List.append_nil]
  have honce := ha.handles
  rw [hgivenUp, hhandles, List.append_nil, List.append_nil] at honce
  have hharmless := ha.harmless
  rw [← harrivals] at hharmless
  rw [hround, ← harrivals]
  exact .finished rfl (.complete honce hharmless)

section Missing

variable (hs : b.state = .waiting received.length (rowsOfAll received))
  (hmissing : ¬ b.sources ≤ received.length)

include hs hmissing

theorem Agrees.round_cancelled (hcancelled : b.cancelled = true) : Accounts h b.round := by
  have hround : b.round = b.finish (.error .cancelled) := by
    simp [Barrier.round, hs, hmissing, hcancelled]
  have hlt : received.length < b.sources := by omega
  rw [hround]
  refine .finished rfl
    (.cancelled (ha.cancelled.symm.trans hcancelled) ha.arrivals hlt ha.harmless ?_)
  simp [Barrier.finish, hcancelled]

/-- An empty queue is waited for as long as a handle is held. -/
theorem Agrees.round_empty (hcancelled : ¬ b.cancelled = true) (hpending : pending = []) :
    Accounts h b.round := by
  have hqueue : b.queue = [] := by rw [ha.queue, hpending, List.map_nil]
  by_cases hhandles : b.handles = []
  · have harrivals : h.arrivals = received := by rw [ha.arrivals, hpending, List.append_nil]
    have hround : b.round = b.finish (.error (.incomplete b.sources received.length)) := by
      simp [Barrier.round, hs, hmissing, hcancelled, hqueue, hhandles]
    have honce := ha.handles
    rw [hhandles, List.append_nil] at honce
    have hharmless := ha.harmless
    rw [← harrivals] at hharmless hmissing
    rw [hround, ← harrivals]
    refine .finished rfl (.short honce ?_ hharmless ?_)
    · show h.arrivals.length < b.sources
      omega
    · simp [Barrier.finish, givesUp]
  · have hround : b.round = b := by
      simp [Barrier.round, hs, hmissing, hcancelled, hqueue, hhandles]
    rw [hround]
    exact .isOpen ha

/-- The oldest report in the queue is received, or it ends the wait. -/
theorem Agrees.round_arrival (hcancelled : ¬ b.cancelled = true) {arrival : Nat × Outcome}
    {rest : List (Nat × Outcome)} (hpending : pending = arrival :: rest) : Accounts h b.round := by
  obtain ⟨handle, outcome⟩ := arrival
  have hqueue : b.queue = outcome :: rest.map Prod.snd := by
    rw [ha.queue, hpending, List.map_cons]
  cases outcome with
  | ok batch =>
    have hround : b.round = { b with
        queue := rest.map Prod.snd
        state := .waiting (received.length + 1) (rowsOfAll received ++ batch.rows) } := by
      simp [Barrier.round, hs, hmissing, hcancelled, hqueue]
    rw [hround]
    exact .isOpen (ha.receive hpending rfl)
  | error failure =>
    by_cases hignored : failure.missingShard = true ∧ b.ignoreMissing = true
    · have hround : b.round = { b with
          queue := rest.map Prod.snd
          state := .waiting (received.length + 1) (rowsOfAll received) } := by
        simp [Barrier.round, hs, hmissing, hcancelled, hqueue, hignored]
      have hreceived := ha.receive hpending (by simp [isFatal, hignored])
      rw [show rowsOf (.error failure) = [] from rfl, List.append_nil] at hreceived
      rw [hround]
      exact .isOpen hreceived
    · have hround : b.round = { b with queue := rest.map Prod.snd }.finish
          (.error (.sourceFailed failure.node failure.message)) := by
        simp [Barrier.round, hs, hmissing, hcancelled, hqueue, hignored]
      have hfatal : isFatal b.ignoreMissing (.error failure) = true := by
        rw [← Bool.and_eq_true] at hignored
        simp only [isFatal, Bool.not_eq_true'] at hignored ⊢
        exact Bool.eq_false_iff.mpr hignored
      rw [hround]
      refine .finished rfl (.failed (ha.arrivals.trans (by rw [hpending])) ha.harmless hfatal ?_)
      simp [Barrier.finish, givesUp]

end Missing

/-- **A round of the loop keeps the invariant.** -/
theorem Agrees.round : Accounts h b.round := by
  rcases ha.state with hs | ⟨hs, -⟩
  · by_cases hall : b.sources ≤ received.length
    · exact ha.round_complete hs hall
    by_cases hcancelled : b.cancelled = true
    · exact ha.round_cancelled hs hall hcancelled
    cases hpending : pending with
    | nil => exact ha.round_empty hs hall hcancelled hpending
    | cons arrival rest => exact ha.round_arrival hs hall hcancelled hpending
  · have hidle : b.round = b := by simp [Barrier.round, hs]
    rw [hidle]
    exact .isOpen ha

end Open

theorem Accounts.round (ha : Accounts h b) : Accounts h b.round := by
  cases ha with
  | isOpen agrees => exact agrees.round
  | discarded state =>
    rw [round_of_not_waiting fun _ _ hs => nomatch state.symm.trans hs]
    exact .discarded state
  | finished state ends =>
    rw [round_of_not_waiting fun _ _ hs => nomatch state.symm.trans hs]
    exact .finished state ends

theorem Accounts.iterate_round (ha : Accounts h b) (k : Nat) : Accounts h (Barrier.round^[k] b) := by
  induction k generalizing b with
  | zero => exact ha
  | succ k ih =>
    rw [Function.iterate_succ_apply]
    exact ih ha.round

/-- **Every event keeps the invariant.** -/
theorem Accounts.after (ha : Accounts h b) (event : Event) :
    Accounts (h.record b event) (b.after event) := by
  cases hopen : b.isOpen with
  | false => exact ha.after_of_closed hopen event
  | true =>
    cases ha with
    | discarded state => simp [Barrier.isOpen, state] at hopen
    | finished state ends => simp [Barrier.isOpen, state] at hopen
    | isOpen agrees =>
      have hsame : ∀ e : Event, e = .wait ∨ e = .discard ∨ e = .round ∨ e = .poll →
          h.record b e = h := by
        rintro e (rfl | rfl | rfl | rfl) <;> simp [History.record]
      cases event with
      | report handle outcome => exact agrees.report handle outcome
      | drop handle => exact agrees.drop handle
      | cancelParent => exact agrees.cancelParent
      | cancelChild => exact agrees.cancelChild
      | wait =>
        rw [hsame _ (by simp)]
        exact agrees.wait
      | discard =>
        rw [hsame _ (by simp)]
        exact agrees.discard
      | round =>
        rw [hsame _ (by simp)]
        exact agrees.round
      | poll =>
        rw [hsame _ (by simp)]
        show Accounts h b.poll
        rw [poll_eq_iterate_round]
        exact (Accounts.isOpen agrees).iterate_round _

/-- **A run keeps the invariant.** -/
theorem accounts_foldl {s : Barrier × History} (ha : Accounts s.2 s.1) (events : List Event) :
    Accounts (events.foldl step s).2 (events.foldl step s).1 := by
  induction events generalizing s with
  | nil => exact ha
  | cons event events ih => exact ih (ha.after event)

end ShardedQuery.Barrier

import ShardedQuery.Proofs.Execution.Arrivals

/-!
# What the end of a wait says about the sources

What a wait ends with depends on the reports alone, in the order in which they arrived, unless it was
cancelled.

* `Barrier.after_sources`, `Barrier.foldl_step_finished` — what no event changes, and that no event
  reopens a wait that is over.
* `Barrier.poll_waiting` — when a merge that has run goes on waiting.
* `Barrier.verdict` — the end of a wait from the reports alone.
* `Barrier.run_ends` — **a wait ends as its history says**, whatever the order of events; no later
  event changes that; and a merge that has run goes on waiting only if nothing has ended its wait.
-/

namespace ShardedQuery.Barrier

variable {b : Barrier}

/-! ### Whole runs -/

/-- What a merge keeps in a run of its loop. -/
theorem iterate_round_sources (k : Nat) (b : Barrier) :
    (Barrier.round^[k] b).sources = b.sources ∧
      (Barrier.round^[k] b).ignoreMissing = b.ignoreMissing ∧
      (Barrier.round^[k] b).parentCancelled = b.parentCancelled := by
  induction k generalizing b with
  | zero => exact ⟨rfl, rfl, rfl⟩
  | succ k ih =>
    rw [Function.iterate_succ_apply, (ih _).1, (ih _).2.1, (ih _).2.2]
    unfold Barrier.round
    repeat' split
    all_goals exact ⟨rfl, rfl, rfl⟩

/-- The number of sources and what is ignored stay as they are, and the token of the whole query is
cancelled from outside only. -/
theorem after_sources (b : Barrier) (event : Event) :
    (b.after event).sources = b.sources ∧ (b.after event).ignoreMissing = b.ignoreMissing ∧
      ((b.after event).parentCancelled = true ↔
        b.parentCancelled = true ∨ event = .cancelParent) := by
  have hkept : ∀ b' : Barrier, event ≠ .cancelParent →
      b'.sources = b.sources ∧ b'.ignoreMissing = b.ignoreMissing ∧
        b'.parentCancelled = b.parentCancelled →
      b'.sources = b.sources ∧ b'.ignoreMissing = b.ignoreMissing ∧
        (b'.parentCancelled = true ↔ b.parentCancelled = true ∨ event = .cancelParent) := by
    rintro b' hother ⟨hsources, hignore, hparent⟩
    rw [hparent]
    exact ⟨hsources, hignore, by simp [hother]⟩
  cases event with
  | cancelParent => exact ⟨rfl, rfl, by simp [after, Barrier.cancelParent]⟩
  | report handle outcome =>
    refine hkept _ (by simp) ?_
    simp only [after, Barrier.report]
    repeat' split
    all_goals exact ⟨rfl, rfl, rfl⟩
  | drop | cancelChild => exact hkept _ (by simp) ⟨rfl, rfl, rfl⟩
  | wait =>
    refine hkept _ (by simp) ?_
    simp only [after, Barrier.wait]
    split <;> exact ⟨rfl, rfl, rfl⟩
  | discard =>
    refine hkept _ (by simp) ?_
    simp only [after, Barrier.discard]
    split <;> exact ⟨rfl, rfl, rfl⟩
  | round => exact hkept _ (by simp) (iterate_round_sources 1 b)
  | poll =>
    refine hkept _ (by simp) ?_
    rw [after, poll_eq_iterate_round]
    exact iterate_round_sources _ b

theorem foldl_step_sources (events : List Event) (s : Barrier × History) :
    (events.foldl step s).1.sources = s.1.sources ∧
      (events.foldl step s).1.ignoreMissing = s.1.ignoreMissing ∧
      ((events.foldl step s).1.parentCancelled = true ↔
        s.1.parentCancelled = true ∨ .cancelParent ∈ events) := by
  induction events generalizing s with
  | nil => exact ⟨rfl, rfl, by simp⟩
  | cons event events ih =>
    obtain ⟨hsources, hignore, hparent⟩ := after_sources s.1 event
    obtain ⟨ihsources, ihignore, ihparent⟩ := ih (step s event)
    refine ⟨ihsources.trans hsources, ihignore.trans hignore, ihparent.trans ?_⟩
    show (s.1.after event).parentCancelled = true ∨ _ ↔ _
    rw [hparent, List.mem_cons, or_assoc, eq_comm (a := event)]

/-- No event reopens a merge whose wait is over. -/
theorem foldl_step_finished {result : Except MergeError (List Row)} {s : Barrier × History}
    (hs : s.1.state = .finished result) (events : List Event) :
    (events.foldl step s).1.state = .finished result := by
  induction events generalizing s with
  | nil => exact hs
  | cons event events ih =>
    have hclosed : s.1.isOpen = false := by
      unfold Barrier.isOpen
      rw [hs]
    exact ih ((after_of_closed hclosed event).1.trans hs)

/-! ### A merge that goes on waiting -/

/-- A merge has to wait only while a report is missing and may still come, if it is not cancelled;
it has received every report by then. -/
theorem receive_pending {queue queue' : List Outcome} {n n' : Nat} {rows rows' : List Row}
    (hr : b.receive queue n rows = (.pending n' rows', queue')) :
    n' < b.sources ∧ b.cancelled = false ∧ b.handles ≠ [] ∧ queue' = [] := by
  induction queue generalizing n rows with
  | nil =>
    unfold receive at hr
    split at hr
    · cases hr
    rename_i hmissing
    split at hr
    · cases hr
    rename_i hcancelled
    simp only at hr
    split at hr
    · cases hr
    rename_i hhandles
    cases hr
    exact ⟨by omega, by simpa using hcancelled, by simpa using hhandles, rfl⟩
  | cons outcome rest ih =>
    unfold receive at hr
    split at hr
    · cases hr
    split at hr
    · cases hr
    cases outcome with
    | ok batch => exact ih hr
    | error failure =>
      simp only at hr
      split at hr
      · exact ih hr
      · cases hr

theorem poll_waiting {n : Nat} {rows : List Row} (hs : b.poll.state = .waiting n rows) :
    n < b.sources ∧ b.cancelled = false ∧ b.handles ≠ [] ∧
      b.poll = { b with queue := [], state := .waiting n rows } := by
  unfold poll at hs ⊢
  cases hstate : b.state with
  | waiting m rows₀ =>
    rw [hstate] at hs
    simp only at hs ⊢
    cases hr : b.receive b.queue m rows₀ with
    | mk result queue =>
      rw [hr] at hs
      cases result with
      | pending n' rows' =>
        cases hs
        obtain ⟨hmissing, hcancelled, hheld, rfl⟩ := receive_pending hr
        exact ⟨hmissing, hcancelled, hheld, rfl⟩
      | finished result => cases hs
  | idle | discarded | finished result =>
    rw [hstate] at hs
    simp only [hstate] at hs
    cases hs

/-! ### The end of a wait from the reports alone -/

/-- What a wait ends with that is not cancelled, by the reports that arrived: the first fatal one
decides, and without one their number. -/
def verdict (sources : Nat) (ignoreMissing : Bool) (arrivals : List (Nat × Outcome)) :
    Except MergeError (List Row) :=
  match arrivals.find? fun arrival => isFatal ignoreMissing arrival.2 with
  | some (_, .error failure) => .error (.sourceFailed failure.node failure.message)
  | _ =>
    if arrivals.length < sources then .error (.incomplete sources arrivals.length)
    else .ok (rowsOfAll arrivals)

theorem Harmless.find?_eq_none {ignoreMissing : Bool} {arrivals : List (Nat × Outcome)}
    (hh : Harmless ignoreMissing arrivals) :
    arrivals.find? (fun arrival => isFatal ignoreMissing arrival.2) = none :=
  List.find?_eq_none.mpr fun a hmem hfatal => by simp [hh a hmem] at hfatal

/-- What arrives after a fatal outcome is not looked at. -/
theorem find?_fatal_append {ignoreMissing : Bool} {seen later : List (Nat × Outcome)}
    (hseen : later = [] ∨ ∃ a ∈ seen, isFatal ignoreMissing a.2 = true) :
    seen.find? (fun arrival => isFatal ignoreMissing arrival.2) =
      (seen ++ later).find? (fun arrival => isFatal ignoreMissing arrival.2) := by
  rcases hseen with rfl | hfatal
  · rw [List.append_nil]
  · rw [← List.find?_isSome, Option.isSome_iff_exists] at hfatal
    obtain ⟨a, ha⟩ := hfatal
    rw [List.find?_append, ha, Option.some_or]

/-- **A wait that is not cancelled ends with the verdict on the reports**; those after the first
fatal one do not matter. -/
theorem Ends.eq_verdict {sources : Nat} {ignoreMissing cancelled : Bool} {h : History}
    {result : Except MergeError (List Row)} (e : Ends sources ignoreMissing h cancelled result)
    (hresult : result ≠ .error .cancelled) {seen later : List (Nat × Outcome)}
    (hsplit : h.arrivals = seen ++ later)
    (hseen : later = [] ∨ ∃ a ∈ seen, isFatal ignoreMissing a.2 = true) :
    result = verdict sources ignoreMissing seen := by
  have hfind := find?_fatal_append hseen
  rw [← hsplit] at hfind
  have hall : Harmless ignoreMissing h.arrivals → h.arrivals = seen := by
    intro hharmless
    rcases hseen with rfl | ⟨a, hmem, hfatal⟩
    · rw [hsplit, List.append_nil]
    · rw [hharmless a (by rw [hsplit]; exact List.mem_append_left _ hmem)] at hfatal
      cases hfatal
  unfold verdict
  cases e with
  | cancelled => exact absurd rfl hresult
  | complete once harmless =>
    have hlength := once.length_eq
    rw [List.length_map, List.length_range] at hlength
    rw [hfind, harmless.find?_eq_none, ← hall harmless]
    simp [hlength]
  | short once missing harmless token =>
    rw [hfind, harmless.find?_eq_none, ← hall harmless]
    simp [missing]
  | failed arrivals harmless fatal token =>
    rw [hfind, arrivals, List.find?_append, harmless.find?_eq_none, Option.none_or,
      List.find?_cons_of_pos (by exact fatal)]

/-! ### The end of a wait -/

/-- **A wait ends as the history of its sources says.**  Whatever happens in whatever order, let `s`
be the merge and its history then.

* If the wait is over, then its result says about the history what `Ends` states; unless it was
  cancelled, the result is the verdict on the reports in the order of their arrival, of which those
  after the first fatal one do not matter; and no later event changes the result.
* A merge that has just run goes on waiting only if it is not cancelled, no report that arrived ends
  the wait, and one is missing that a handle can still bring.
* The token of the whole query is cancelled only from outside. -/
theorem run_ends (sources : Nat) (ignoreMissing parentCancelled : Bool) (events : List Event) :
    let s := run sources ignoreMissing parentCancelled events
    (∀ result, s.1.state = .finished result →
      Ends sources ignoreMissing s.2 s.1.cancelled result ∧
      (result ≠ .error .cancelled → ∀ seen later, s.2.arrivals = seen ++ later →
        (later = [] ∨ ∃ a ∈ seen, isFatal ignoreMissing a.2 = true) →
        result = verdict sources ignoreMissing seen) ∧
      ∀ more, (run sources ignoreMissing parentCancelled (events ++ more)).1.state =
        .finished result) ∧
    (∀ received rows, s.1.poll.state = .waiting received rows →
      s.2.cancelled = false ∧ Harmless ignoreMissing s.2.arrivals ∧
        s.2.arrivals.length < sources ∧ s.1.handles ≠ []) ∧
    (s.1.parentCancelled = true ↔ parentCancelled = true ∨ .cancelParent ∈ events) := by
  intro s
  have haccounts : Accounts s.2 s.1 :=
    accounts_foldl (accounts_create sources ignoreMissing parentCancelled) events
  obtain ⟨hsources, hignore, hparent⟩ :
      s.1.sources = sources ∧ s.1.ignoreMissing = ignoreMissing ∧ _ := foldl_step_sources events _
  refine ⟨?_, ?_, hparent⟩
  · intro result hstate
    have hends : Ends sources ignoreMissing s.2 s.1.cancelled result := by
      cases haccounts with
      | isOpen agrees =>
        rcases agrees.state with hs | ⟨hs, -⟩ <;> cases hstate.symm.trans hs
      | discarded state => cases hstate.symm.trans state
      | finished state ends =>
        cases hstate.symm.trans state
        rwa [hsources, hignore] at ends
    refine ⟨hends, fun hresult seen later => hends.eq_verdict hresult, ?_⟩
    intro more
    unfold run
    rw [List.foldl_append]
    exact foldl_step_finished hstate more
  · intro received rows hstate
    obtain ⟨hmissing, hcancelled, hheld, hran⟩ := poll_waiting hstate
    -- the history stays the same while the merge runs
    have hpoll : Accounts s.2 s.1.poll := by
      rw [poll_eq_iterate_round]
      exact haccounts.iterate_round _
    cases hpoll with
    | discarded state => cases hstate.symm.trans state
    | finished state ends => cases hstate.symm.trans state
    | isOpen agrees =>
      have hpending := agrees.queue
      have hnone := agrees.cancelled
      have hlength := agrees.state
      have hharmless := agrees.harmless
      rw [hran] at hpending hnone hlength hharmless
      have harrivals := agrees.arrivals
      rw [List.map_eq_nil_iff.mp hpending.symm, List.append_nil] at harrivals
      have hreceived : received = s.2.arrivals.length := by
        rcases hlength with hs | ⟨hs, -⟩ <;> cases hs
        rw [harrivals]
      refine ⟨hnone.symm.trans hcancelled, ?_, ?_, hheld⟩
      · rw [harrivals, ← hignore]
        exact hharmless
      · rw [← hreceived, ← hsources]
        exact hmissing

/-- Two of three sources fail while the merge is not looking. -/
def twoFailures : List Event :=
  [.wait, .report 2 (.ok ⟨"n3", [[.int 7]]⟩), .report 0 (.error ⟨"n1", "disk full", false⟩),
    .report 1 (.error ⟨"n2", "timeout", false⟩), .poll]

theorem run_ends_twoFailures :
    Ends 3 false (run 3 false false twoFailures).2 true
        (.error (.sourceFailed "n1" "disk full")) ∧
      verdict 3 false [(2, .ok ⟨"n3", [[.int 7]]⟩), (0, .error ⟨"n1", "disk full", false⟩)] =
        .error (.sourceFailed "n1" "disk full") ∧
      (run 2 true false [.wait, .report 1 (.error ⟨"n2", "gone", true⟩)]).1.handles ≠ [] := by
  have hfinished := (run_ends 3 false false twoFailures).1
    (.error (.sourceFailed "n1" "disk full")) rfl
  have hverdict := hfinished.2.1 (by simp)
    [(2, .ok ⟨"n3", [[.int 7]]⟩), (0, .error ⟨"n1", "disk full", false⟩)]
    [(1, .error ⟨"n2", "timeout", false⟩)] rfl
    (.inr ⟨_, List.mem_cons_of_mem _ (List.mem_singleton.mpr rfl), rfl⟩)
  have hwaiting := (run_ends 2 true false
    [.wait, .report 1 (.error ⟨"n2", "gone", true⟩)]).2.1 1 [] rfl
  exact ⟨hfinished.1, hverdict.symm, hwaiting.2.2.2⟩

end ShardedQuery.Barrier

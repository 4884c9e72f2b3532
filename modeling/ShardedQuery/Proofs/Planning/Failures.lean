import ShardedQuery.Planning.Planner
import ShardedQuery.Proofs.Planning.Trees

/-!
# Failures of planning

A planning computation changes its progress step by step, and what it changed outlives a failure.
It matters therefore which steps can fail in which way.

* `FailsInternally` — a computation without state fails for internal reasons only.  Reading symbols
  from the columns of a phase and adding projections to a plan are such computations.
* `Planning.EndsIn` — what holds at the end of a computation, of its result or of its failure.
* `Environment.endsIn_allocateRouting` — a routing that is not found leaves the progress as it was.
-/

namespace ShardedQuery

variable {α β : Type}

/-! ### Internal failures -/

/-- Every failure of the computation is internal. -/
def FailsInternally (x : Except PlanningError α) : Prop :=
  ∀ e, x = .error e → e.kind = .internal

namespace FailsInternally

theorem ok (a : α) : FailsInternally (.ok a) := fun _ h => nomatch h

theorem bind {x : Except PlanningError α} {f : α → Except PlanningError β}
    (hx : FailsInternally x) (hf : ∀ a, FailsInternally (f a)) : FailsInternally (x >>= f) := by
  intro e h
  cases x with
  | error e' => exact hx e (by cases h; rfl)
  | ok a => exact hf a e h

theorem mapM {f : α → Except PlanningError β} {xs : List α}
    (h : ∀ x ∈ xs, FailsInternally (f x)) : FailsInternally (xs.mapM f) := by
  induction xs with
  | nil => exact ok []
  | cons x xs ih =>
    rw [List.mapM_cons]
    refine (h x List.mem_cons_self).bind fun y => ?_
    exact (ih fun x hx => h x (List.mem_cons_of_mem _ hx)).bind fun ys => ok _

end FailsInternally

/-- Only a symbol that is no column of the rows cannot be read from them. -/
theorem failsInternally_readFrom (inputs : List Symbol) (s : Symbol) :
    FailsInternally (s.readFrom inputs) := by
  induction s with
  | literal v | parameter n =>
    unfold Symbol.readFrom
    split <;> exact .ok _
  | reference c | input n =>
    unfold Symbol.readFrom
    split
    · exact .ok _
    · intro e h
      cases h
      rfl
  | call f args ih =>
    unfold Symbol.readFrom
    split
    · exact .ok _
    · rw [Symbol.readAllFrom_eq]
      exact (FailsInternally.mapM ih).bind fun as => .ok _

theorem failsInternally_readAllFrom (inputs symbols : List Symbol) :
    FailsInternally (Symbol.readAllFrom inputs symbols) := by
  rw [Symbol.readAllFrom_eq]
  exact .mapM fun s _ => failsInternally_readFrom inputs s

theorem failsInternally_ofCall (inputs : List Symbol) (mode : AggregateMode) (s : Symbol) :
    FailsInternally (Aggregation.ofCall inputs mode s) := by
  cases s with
  | call f args =>
    cases mode with
    | partialToFinal => exact (failsInternally_readFrom inputs _).bind fun a => .ok _
    | rowsToPartial | rowsToFinal =>
      exact (failsInternally_readAllFrom inputs args).bind fun as => .ok _
  | literal | reference | input | parameter =>
    intro e h
    cases h
    rfl

namespace Projection

variable (inputs : List Symbol)

theorem failsInternally_aggregationOf (aggregates : List Symbol) (mode : AggregateMode)
    (scope : Granularity) : FailsInternally (aggregationOf inputs aggregates mode scope) :=
  (FailsInternally.mapM fun s _ => failsInternally_ofCall inputs mode s).bind fun _ => .ok _

theorem failsInternally_groupOf (keys aggregates : List Symbol) (mode : AggregateMode)
    (scope : Granularity) : FailsInternally (groupOf inputs keys aggregates mode scope) :=
  (failsInternally_readAllFrom inputs keys).bind fun _ =>
    (FailsInternally.mapM fun s _ => failsInternally_ofCall inputs mode s).bind fun _ => .ok _

theorem failsInternally_filterOf (having : Symbol) : FailsInternally (filterOf inputs having) :=
  (failsInternally_readFrom inputs having).bind fun _ => .ok _

theorem failsInternally_arrange (order : Option OrderBy) (window : Window)
    (outputs : List Symbol) : FailsInternally (arrange inputs order window outputs) := by
  refine (failsInternally_readAllFrom inputs outputs).bind fun outputs => ?_
  cases order with
  | none => exact .ok _
  | some o => exact (failsInternally_readAllFrom inputs o.symbols).bind fun keys => .ok _

end Projection

/-- Nothing can be added to a count, and only to a count. -/
theorem Plan.failsInternally_addProjection (plan : Plan) (p : Projection) (window : Option Window)
    (order : Option ColumnOrder) : FailsInternally (plan.addProjection p window order) := by
  cases plan with
  | collect | merge => exact .ok _
  | count =>
    intro e h
    cases h
    rfl

/-! ### The end of a computation -/

namespace Planning

/-- What holds at the end of a computation: of a result and the progress then, or of a failure and
the progress that outlives it. -/
def EndsIn (x : Planning α) (p : Progress) (result : α → Progress → Prop)
    (failed : PlanningError → Progress → Prop) : Prop :=
  match x p with
  | .ok a q => result a q
  | .error e q => failed e q

variable {p : Progress} {result : α → Progress → Prop} {failed : PlanningError → Progress → Prop}

/-- The end of a computation can be looked at. -/
instance (x : Planning α) [∀ a q, Decidable (result a q)] [∀ e q, Decidable (failed e q)] :
    Decidable (EndsIn x p result failed) :=
  match h : x p with
  | .ok a q => decidable_of_iff (result a q) (by rw [EndsIn, h])
  | .error e q => decidable_of_iff (failed e q) (by rw [EndsIn, h])

namespace EndsIn

theorem pure {a : α} (h : result a p) : EndsIn (Pure.pure a) p result failed := h

theorem throw {e : PlanningError} (h : failed e p) :
    EndsIn (MonadExcept.throw e : Planning α) p result failed := h

theorem ofExcept {x : Except PlanningError α} (hresult : ∀ a, x = .ok a → result a p)
    (hfailed : ∀ e, x = .error e → failed e p) : EndsIn (Planning.ofExcept x) p result failed := by
  cases x with
  | ok a => exact hresult a rfl
  | error e => exact hfailed e rfl

/-- What holds at the end of the first of two computations tells where the second one starts. -/
theorem bind {x : Planning α} {f : α → Planning β} {middle : α → Progress → Prop}
    {failed' : PlanningError → Progress → Prop} {result : β → Progress → Prop}
    (hx : EndsIn x p middle failed') (hfailed : ∀ e q, failed' e q → failed e q)
    (hf : ∀ a q, middle a q → EndsIn (f a) q result failed) :
    EndsIn (x >>= f) p result failed := by
  unfold EndsIn at hx ⊢
  show match EStateM.bind x f p with
    | .ok a q => result a q
    | .error e q => failed e q
  unfold EStateM.bind
  cases hxp : x p with
  | ok a q =>
    rw [hxp] at hx
    exact hf a q hx
  | error e q =>
    rw [hxp] at hx
    exact hfailed e q hx

theorem mono {x : Planning α} {result' : α → Progress → Prop}
    {failed' : PlanningError → Progress → Prop} (hx : EndsIn x p result failed)
    (hresult : ∀ a q, result a q → result' a q) (hfailed : ∀ e q, failed e q → failed' e q) :
    EndsIn x p result' failed' := by
  unfold EndsIn at hx ⊢
  cases hxp : x p with
  | ok a q =>
    rw [hxp] at hx
    exact hresult a q hx
  | error e q =>
    rw [hxp] at hx
    exact hfailed e q hx

/-- Of a result, more may be known than what it is that the computation ends in. -/
theorem of_ok {x : Planning α} {result' : α → Progress → Prop} (hx : EndsIn x p result failed)
    (hresult : ∀ a q, x p = .ok a q → result a q → result' a q) :
    EndsIn x p result' fun _ _ => True := by
  unfold EndsIn at hx ⊢
  cases hxp : x p with
  | ok a q =>
    rw [hxp] at hx
    exact hresult a q hxp hx
  | error e q => trivial

end EndsIn

/-- A computation without state, of which any failure is possible. -/
theorem endsIn_ofExcept (x : Except PlanningError α) (p : Progress) :
    EndsIn (ofExcept x) p (fun _ q => q = p) (fun _ q => q = p) :=
  .ofExcept (fun _ _ => rfl) fun _ _ => rfl

theorem endsIn_of_failsInternally {x : Except PlanningError α} (h : FailsInternally x)
    (p : Progress) :
    EndsIn (ofExcept x) p (fun _ q => q = p) (fun e q => e.kind = .internal ∧ q = p) :=
  .ofExcept (fun _ _ => rfl) fun e he => ⟨h e he, rfl⟩

theorem endsIn_newPhase :
    EndsIn newPhase p (fun id q => id = p.nextPhase ∧ q.nextPhase = p.nextPhase + 1)
      (fun _ _ => False) :=
  ⟨rfl, rfl⟩

end Planning

/-- **A routing that is not found leaves the progress as it was**; finding one makes no phase. -/
theorem Environment.endsIn_allocateRouting (env : Environment) (table : Table)
    (filter : WhereClause) (p : Progress) :
    Planning.EndsIn (env.allocateRouting table filter) p
      (fun _ q => q.nextPhase = p.nextPhase) (fun _ q => q = p) := by
  have hget : Planning.EndsIn (get : Planning Progress) p (fun progress q => progress = p ∧ q = p)
      (fun _ _ => False) := ⟨rfl, rfl⟩
  unfold Environment.allocateRouting
  split
  · exact Planning.EndsIn.pure rfl
  · refine hget.bind (fun _ _ h => h.elim) ?_
    rintro _ _ ⟨rfl, rfl⟩
    dsimp only
    split
    · exact Planning.EndsIn.pure rfl
    · refine (Planning.endsIn_ofExcept _ _).bind (fun _ _ h => h) ?_
      rintro ⟨routing, random⟩ _ rfl
      exact rfl

/-! ### The special ways of planning -/

/-- The query is a plain count of a table of documents. -/
def Select.countsOn (q : Select) (table : Table) : Bool :=
  table.granularity = .doc && q.groupBy.isNone && q.having.isNone && q.isPlainCount

/-- The query groups a table of documents by keys whose groups are on one shard each. -/
def Select.groupsOn (q : Select) (table : Table) : Bool :=
  table.granularity = .doc && q.groupBy.any (table.groupsAreLocal q.filter)

/-- The one row of a count is in the window. -/
def Window.keepsFirst (w : Window) : Bool := w.offset = 0 && w.limit ≠ some 0

namespace Planning

/-- Only a plain count of a table of documents is looked at. -/
theorem count?_eq (env : Environment) (table : Table) (q : Select) :
    count? env table q =
      if q.countsOn table then do
        let window ← ofExcept (env.window q.limit q.offset)
        if !window.keepsFirst then
          return none
        if q.filter.hasVersions then
          throw .versionInvalid
        let routing ← env.allocateRouting table q.filter
        let id ← newPhase
        return some (.ofCount ⟨env.jobId, id, routing, q.filter, .sameNode⟩)
      else return none := by
  have hguard : (decide (table.granularity ≠ .doc) || q.groupBy.isSome || q.having.isSome ||
      !q.isPlainCount) = !q.countsOn table := by
    unfold Select.countsOn
    cases q.groupBy <;> cases q.having <;> simp
  have hcut : ∀ w : Window, (decide (0 < w.offset) || decide (w.limit = some 0)) =
      !w.keepsFirst := by
    intro w
    unfold Window.keepsFirst
    simp [Nat.pos_iff_ne_zero]
  unfold count?
  simp only [hguard, hcut]
  cases q.countsOn table <;> rfl

/-- What a count plan consists of. -/
theorem count?_eq_ok {env : Environment} {table : Table} {q : Select} {p p' : Progress} {plan : Plan}
    (h : count? env table q p = .ok (some plan) p') :
    ∃ (phase : CountPhase) (w : Window) (p₁ : Progress), plan = .ofCount phase ∧
      phase.filter = q.filter ∧ env.allocateRouting table q.filter p = .ok phase.routing p₁ ∧
      q.countsOn table = true ∧ env.window q.limit q.offset = .ok w ∧ w.keepsFirst = true := by
  rw [count?_eq] at h
  split at h
  · rename_i hcounts
    obtain ⟨w, _, hwindow, h⟩ := bind_eq_ok.mp h
    obtain ⟨hw, rfl⟩ := ofExcept_eq_ok.mp hwindow
    split at h
    · cases h
    · rename_i hkeeps
      split at h
      · exact absurd h throw_ne_ok
      · obtain ⟨routing, p₁, hrouting, h⟩ := bind_eq_ok.mp h
        obtain ⟨id, _, -, h⟩ := bind_eq_ok.mp h
        obtain ⟨hplan, -⟩ := pure_eq_ok.mp h
        cases hplan
        exact ⟨_, w, p₁, rfl, rfl, hrouting, hcounts, hw, by simpa using hkeeps⟩
  · cases h

/-- A grouping is looked at if all its groups are on one shard each. -/
theorem localGroups?_eq (env : Environment) (table : Table) (q : Select) :
    localGroups? env table q =
      if q.groupsOn table then
        if q.hasVersions then throw .versionInvalid
        else return some (← groupOnCollectors env table q)
      else return none := by
  unfold localGroups? Select.groupsOn
  cases q.groupBy with
  | none => simp
  | some keys =>
    have hguard : (decide (table.granularity ≠ .doc) || !table.groupsAreLocal q.filter keys) =
        !(decide (table.granularity = .doc) && table.groupsAreLocal q.filter keys) := by
      simp
    simp only [hguard, Option.any_some]
    by_cases hlocal : (decide (table.granularity = .doc) && table.groupsAreLocal q.filter keys) = true
    · simp only [hlocal]
      rfl
    · simp only [Bool.eq_false_iff.mpr hlocal]
      rfl

end Planning

/-! ### The planner -/

namespace Planning

variable {env : Environment} {p : Progress}

/-- A special way of planning that finds nothing unless it is allowed. -/
def tryIf (allowed : Bool) (x : Planning (Option Plan)) : Planning (Option Plan) :=
  if allowed then x else return none

/-- The plan that a special way of planning finds, else that of another way. -/
def orElse (x : Planning (Option Plan)) (y : Planning Plan) : Planning Plan := do
  match ← x with
  | some plan => return plan
  | none => y

/-- **A table is planned in one of three ways**, of which the general one comes last. -/
theorem plan_eq (env : Environment) (table : Table) (q : Select) :
    plan env (.table table q) =
      orElse (tryIf env.settings.countPushdown (count? env table q))
        (orElse (tryIf env.settings.reduceOnCollector (localGroups? env table q))
          (general env (.table table q))) := by
  unfold plan special? orElse tryIf
  cases env.settings.countPushdown <;> cases env.settings.reduceOnCollector <;>
    simp only [if_true, if_false, Bool.false_eq_true, pure_bind, bind_assoc]
  · congr 1
    funext plan?
    cases plan? <;> simp
  · congr 1
    funext plan?
    cases plan? <;> simp
  · congr 1
    funext plan?
    cases plan? with
    | some plan => simp
    | none =>
      simp only [bind_assoc]
      congr 1
      funext plan?
      cases plan? <;> simp

/-- A derived relation is planned in the general way. -/
theorem plan_derived (env : Environment) (name : String) (q : Select) :
    plan env (.derived name q) = general env (.derived name q) := by
  unfold plan special?
  simp only [pure_bind]

/-- What a special way of planning ends with: a plan, or none and no change. -/
def Tries (p : Progress) (result : Plan → Progress → Prop) (plan? : Option Plan) (q : Progress) :
    Prop :=
  match plan? with
  | some plan => result plan q
  | none => q = p

section Ways

variable {result : Plan → Progress → Prop} {failed : PlanningError → Progress → Prop}

theorem endsIn_tryIf (allowed : Bool) {x : Planning (Option Plan)}
    (hx : EndsIn x p (Tries p result) failed) :
    EndsIn (tryIf allowed x) p (Tries p result) failed := by
  unfold tryIf
  split
  · exact hx
  · exact EndsIn.pure rfl

theorem endsIn_orElse {x : Planning (Option Plan)} {y : Planning Plan}
    (hx : EndsIn x p (Tries p result) failed) (hy : EndsIn y p result failed) :
    EndsIn (orElse x y) p result failed := by
  refine hx.bind (fun _ _ h => h) fun plan? q hplan? => ?_
  cases plan? with
  | some plan => exact EndsIn.pure hplan?
  | none =>
    cases (show q = p from hplan?)
    exact hy

/-- **The planner ends as each of its three ways ends**, if the two special ones change nothing
where they find no plan. -/
theorem endsIn_plan_of {relation : Relation}
    (hcount : ∀ table query, relation = .table table query →
      EndsIn (count? env table query) p (Tries p result) failed)
    (hgroups : ∀ table query, relation = .table table query →
      EndsIn (localGroups? env table query) p (Tries p result) failed)
    (hgeneral : EndsIn (general env relation) p result failed) :
    EndsIn (plan env relation) p result failed := by
  cases relation with
  | derived name query =>
    rw [plan_derived]
    exact hgeneral
  | table table query =>
    rw [plan_eq]
    exact endsIn_orElse (endsIn_tryIf _ (hcount table query rfl))
      (endsIn_orElse (endsIn_tryIf _ (hgroups table query rfl)) hgeneral)

end Ways

end Planning

end ShardedQuery

import ShardedQuery.Proofs.Planning.FailureKinds
import ShardedQuery.Proofs.Symbol.Derivable

/-!
# Faults of trees

All that can go wrong when a tree is planned: a node does not find what it reads, LIMIT or OFFSET
have no values, or there is nothing to read from.

* `Plan.Grows` — a plan that takes one more projection, whatever it is.
* `Logical.IsDerivable` — a tree whose nodes find what they read.
* `Logical.Fault` — what stands in the way of planning a tree.
* `Logical.endsIn_build_fault` — **planning a tree fails only for what stands in its way**.
-/

namespace ShardedQuery

/-! ### What a tree needs -/

namespace Logical

/-- Every node finds what it reads among the columns of its source. -/
def IsDerivable : Logical → Prop
  | collect .. => True
  | aggregate s aggregates => s.IsDerivable ∧ ∀ a ∈ aggregates, a.AggregableFrom s.outputs
  | group s keys aggregates =>
    s.IsDerivable ∧ (∀ k ∈ keys, k.DerivableFrom s.outputs) ∧
      ∀ a ∈ aggregates, a.AggregableFrom s.outputs
  | filter s having => s.IsDerivable ∧ having.DerivableFrom s.outputs
  | order s o => s.IsDerivable ∧ ∀ k ∈ o.symbols, k.DerivableFrom s.outputs
  | limit s _ _ => s.IsDerivable
  | eval s outputs => s.IsDerivable ∧ ∀ k ∈ outputs, k.DerivableFrom s.outputs

/-- The limits and offsets of a tree. -/
def limits : Logical → List (Option Symbol × Option Symbol)
  | collect .. => []
  | aggregate s _ | group s _ _ | filter s _ | order s _ | eval s _ => s.limits
  | limit s n m => (n, m) :: s.limits

/-- What stands in the way of planning a tree. -/
inductive Fault (env : Environment) (t : Logical) (e : PlanningError) : Prop where
  /-- A node does not find what it reads. -/
  | underivable (h : ¬ t.IsDerivable) (he : e.kind = .internal)
  | window {limit offset : Option Symbol} (h : (limit, offset) ∈ t.limits)
      (he : env.window limit offset = .error e)
  | noTable (h : t.source.1.isTable = false) (he : e.kind = .unsupported)
  | routing {table : Table} {query : Select} (h : t.source.1 = .table table query)
      (he : env.CannotRoute table e)

/-- What stands in the way of a source stands in the way of the whole tree. -/
theorem Fault.lift {env : Environment} {s t : Logical} {e : PlanningError} (h : s.Fault env e)
    (hderivable : t.IsDerivable → s.IsDerivable) (hlimits : s.limits ⊆ t.limits)
    (hsource : t.source = s.source) : t.Fault env e := by
  cases h with
  | underivable h he => exact .underivable (fun ht => h (hderivable ht)) he
  | window h he => exact .window (hlimits h) he
  | noTable h he => exact .noTable (hsource ▸ h) he
  | routing h he => exact .routing (hsource ▸ h) he

end Logical

/-! ### Steps -/

/-- A plan that more projections can be added to. -/
def Plan.Grows (plan : Plan) : Prop := ∀ phase d, plan ≠ .count phase d

/-- The failures of a step that finds what it reads if `found` holds. -/
def PlanningError.IsMissing (found : Prop) (e : PlanningError) (_ : Progress) : Prop :=
  e.kind = .internal ∧ ¬ found

namespace Planning

open PlanningError (IsMissing)

variable {env : Environment} {plan : Plan} {found : Prop} {p : Progress}

/-- A computation that fails internally at most, and not at all if `found` holds. -/
theorem endsIn_found {α : Type} {x : Except PlanningError α} (hx : FailsInternally x)
    (hfound : found → ∃ a, x = .ok a) :
    EndsIn (ofExcept x) p (fun _ _ => True) (IsMissing found) := by
  refine .ofExcept (fun _ _ => trivial) fun e he => ⟨hx e he, fun h => ?_⟩
  obtain ⟨a, ha⟩ := hfound h
  rw [ha] at he
  cases he

theorem endsIn_addProjection (h : plan.Grows) (projection : Projection) (window : Option Window)
    (order : Option ColumnOrder) :
    EndsIn (ofExcept (plan.addProjection projection window order)) p
      (fun plan' _ => plan'.Grows) (fun _ _ => False) := by
  cases plan with
  | collect phase d => exact fun _ _ h => nomatch h
  | merge source phase d => exact fun _ _ h => nomatch h
  | count phase d => exact absurd rfl (h phase d)

theorem endsIn_merge (source : Plan) (toFinal : Projection) (width : Nat) (maxRows : Option Nat) :
    EndsIn (env.mergeOnHandler source toFinal width maxRows) p (fun plan' _ => plan'.Grows)
      (fun _ _ => False) :=
  fun _ _ h => nomatch h

/-- A projection over what is found is added. -/
theorem endsIn_project {x : Except PlanningError Projection} (hx : FailsInternally x)
    (hfound : found → ∃ projection, x = .ok projection) (h : plan.Grows) (window : Option Window)
    (order : Option ColumnOrder) :
    EndsIn (ofExcept (x >>= fun projection => plan.addProjection projection window order)) p
      (fun plan' _ => plan'.Grows) (IsMissing found) := by
  have hsplit : ofExcept (x >>= fun projection => plan.addProjection projection window order) =
      ofExcept x >>= fun projection => ofExcept (plan.addProjection projection window order) := by
    cases x <;> rfl
  rw [hsplit]
  refine (endsIn_found hx hfound).bind (fun _ _ h => h) fun projection q _ => ?_
  exact (endsIn_addProjection h projection window order).mono (fun _ _ h => h) fun _ _ h => h.elim

end Planning

namespace Logical

open Planning
open PlanningError (IsMissing)

variable {env : Environment} {plan : Plan} {p : Progress} (inputs : List Symbol)

theorem endsIn_inTiers {full toPartial toFinal : Except PlanningError Projection} {width : Nat}
    {maxRows : Option Nat} {found : Prop}
    (hfull : FailsInternally full) (hpartial : FailsInternally toPartial)
    (hfinal : FailsInternally toFinal) (hfullFound : found → ∃ f, full = .ok f)
    (hpartialFound : found → ∃ f, toPartial = .ok f) (hfinalFound : found → ∃ f, toFinal = .ok f)
    (h : plan.Grows) :
    EndsIn (inTiers env full toPartial toFinal width maxRows plan) p (fun plan' _ => plan'.Grows)
      (IsMissing found) := by
  unfold inTiers
  split
  · exact endsIn_project hfull hfullFound h none none
  · have hadd : ∀ f, FailsInternally (plan.addProjection f none none) := fun f =>
      plan.failsInternally_addProjection f none none
    have htiers : EndsIn (Planning.ofExcept do
          let toPartial ← toPartial
          let plan ← plan.addProjection toPartial none none
          let toFinal ← toFinal
          return (plan, toFinal)) p (fun _ _ => True) (IsMissing found) := by
      refine endsIn_found (hpartial.bind fun f => (hadd f).bind fun plan => hfinal.bind fun g =>
        .ok _) fun hfound => ?_
      obtain ⟨f, rfl⟩ := hpartialFound hfound
      obtain ⟨g, rfl⟩ := hfinalFound hfound
      cases plan with
      | collect | merge => exact ⟨_, rfl⟩
      | count phase d => exact absurd rfl (h phase d)
    refine htiers.bind (fun _ _ h => h) ?_
    rintro ⟨added, toFinal⟩ q -
    exact (endsIn_merge added toFinal width maxRows).mono (fun _ _ h => h) fun _ _ h => h.elim

section Aggregates

variable {aggregates : List Symbol}

theorem exists_aggregates {mode : AggregateMode} (hmode : mode ≠ .partialToFinal)
    (h : ∀ a ∈ aggregates, a.AggregableFrom inputs) :
    ∀ a ∈ aggregates, ∃ b, Aggregation.ofCall inputs mode a = .ok b :=
  fun a ha => Aggregation.exists_ofCall hmode (h a ha)

theorem endsIn_aggregateStep (h : plan.Grows) :
    EndsIn (aggregateStep env inputs aggregates plan) p (fun plan' _ => plan'.Grows)
      (IsMissing (∀ a ∈ aggregates, a.AggregableFrom inputs)) := by
  rw [aggregateStep_eq]
  refine endsIn_inTiers (Projection.failsInternally_aggregationOf _ _ _ _)
    (Projection.failsInternally_aggregationOf _ _ _ _)
    (Projection.failsInternally_aggregationOf _ _ _ _)
    (fun hfound => ?_) (fun hfound => ?_) (fun hfound => ?_) h
  · exact Projection.exists_aggregationOf _ (exists_aggregates inputs (by decide) hfound)
  · exact Projection.exists_aggregationOf _ (exists_aggregates inputs (by decide) hfound)
  · exact Projection.exists_aggregationOf _ fun a ha =>
      Aggregation.exists_ofCall_partial (hfound a ha) ha

theorem endsIn_groupStep {keys : List Symbol} (h : plan.Grows) :
    EndsIn (groupStep env inputs keys aggregates plan) p (fun plan' _ => plan'.Grows)
      (IsMissing ((∀ k ∈ keys, k.DerivableFrom inputs) ∧
        ∀ a ∈ aggregates, a.AggregableFrom inputs)) := by
  rw [groupStep_eq]
  refine endsIn_inTiers (Projection.failsInternally_groupOf _ _ _ _ _)
    (Projection.failsInternally_groupOf _ _ _ _ _) (Projection.failsInternally_groupOf _ _ _ _ _)
    (fun hfound => ?_) (fun hfound => ?_) (fun hfound => ?_) h
  · exact Projection.exists_groupOf _ hfound.1 (exists_aggregates inputs (by decide) hfound.2)
  · exact Projection.exists_groupOf _ hfound.1 (exists_aggregates inputs (by decide) hfound.2)
  · refine Projection.exists_groupOf _ (fun k hk => ?_) fun a ha => ?_
    · exact Symbol.derivableFrom_of_mem (List.mem_append_left _ hk)
    · exact Aggregation.exists_ofCall_partial (hfound.2 a ha) (List.mem_append_right _ ha)

end Aggregates

theorem endsIn_filterStep {having : Symbol} (h : plan.Grows) :
    EndsIn (Planning.ofExcept (filterStep inputs having plan)) p (fun plan' _ => plan'.Grows)
      (IsMissing (having.DerivableFrom inputs)) :=
  endsIn_project (Projection.failsInternally_filterOf inputs having) Projection.exists_filterOf h
    none none

theorem endsIn_orderStep {o : OrderBy} {window : Window} (h : plan.Grows) :
    EndsIn (Planning.ofExcept (orderStep inputs o window plan)) p (fun plan' _ => plan'.Grows)
      (IsMissing (∀ k ∈ o.symbols, k.DerivableFrom inputs)) := by
  unfold orderStep
  split
  · exact h
  · refine endsIn_project (Projection.failsInternally_arrange _ _ _ _) (fun hfound => ?_) h none _
    exact Projection.exists_arrange window (fun s hs => Symbol.derivableFrom_of_mem hs) hfound

theorem endsIn_limitStep {window : Window} (h : plan.Grows) :
    EndsIn (Planning.ofExcept (limitStep env inputs window plan)) p (fun plan' _ => plan'.Grows)
      (fun _ _ => False) := by
  unfold limitStep
  split
  · exact endsIn_addProjection h _ _ _
  · exact endsIn_addProjection h _ _ _

theorem endsIn_evalStep {outputs : List Symbol} (h : plan.Grows) :
    EndsIn (evalStep env inputs outputs plan) p (fun plan' _ => plan'.Grows)
      (IsMissing (∀ k ∈ outputs, k.DerivableFrom inputs)) := by
  have hadd : ∀ {plan : Plan}, plan.Grows → ∀ (eval : Projection) (order : Option ColumnOrder) q,
      EndsIn (Planning.ofExcept (plan.addProjection eval none order)) q (fun plan' _ => plan'.Grows)
        (IsMissing (∀ k ∈ outputs, k.DerivableFrom inputs)) := fun h eval order q =>
    (endsIn_addProjection h eval none order).mono (fun _ _ h => h) fun _ _ h => h.elim
  unfold evalStep
  refine (endsIn_found (Projection.failsInternally_arrange _ _ _ _) fun hfound =>
    Projection.exists_arrange .unbounded hfound fun s hs => absurd hs List.not_mem_nil).bind
      (fun _ _ h => h) ?_
  intro eval q _
  cases horder : plan.delivery.order with
  | none =>
    simp only [horder]
    exact hadd h eval none q
  | some sortedBy =>
    cases hremap : sortedBy.remap? inputs outputs with
    | some remapped =>
      simp only [horder, hremap]
      exact hadd h eval _ q
    | none =>
      simp only [horder, hremap]
      split
      · cases plan with
        | collect phase d => exact fun _ _ h => nomatch h
        | merge source phase d => exact fun _ _ h => nomatch h
        | count phase d => exact absurd rfl (h phase d)
      · refine (endsIn_merge plan _ _ none).bind (fun _ _ h => h.elim) fun merged q' hmerged => ?_
        exact hadd hmerged eval none q'

/-! ### Trees -/

/-- **Planning a tree fails only for what stands in its way.** -/
theorem endsIn_build_fault (t : Logical) (request : Request) (p : Progress) :
    EndsIn (t.build env request) p (fun plan _ => plan.Grows) (fun e _ => t.Fault env e) := by
  induction t generalizing request p with
  | collect relation toCollect clause =>
    cases relation with
    | derived name query => exact Fault.noTable rfl rfl
    | table table query =>
      refine (Environment.endsIn_allocateRouting_kind clause p).bind
        (fun e _ he => Fault.routing rfl he) fun routing q _ => ?_
      exact endsIn_newPhase.bind (fun _ _ h => h.elim) fun id q' _ => fun _ _ h => nomatch h
  | aggregate s aggregates ih =>
    refine (ih {} p).bind (fun e _ he => he.lift And.left (fun _ h => h) rfl) fun plan q hplan => ?_
    exact (endsIn_aggregateStep s.outputs hplan).mono (fun _ _ h => h) fun e _ he =>
      Fault.underivable (fun h => he.2 h.2) he.1
  | group s keys aggregates ih =>
    refine (ih {} p).bind (fun e _ he => he.lift And.left (fun _ h => h) rfl) fun plan q hplan => ?_
    exact (endsIn_groupStep s.outputs hplan).mono (fun _ _ h => h) fun e _ he =>
      Fault.underivable (fun h => he.2 h.2) he.1
  | filter s having ih =>
    refine (ih request p).bind (fun e _ he => he.lift And.left (fun _ h => h) rfl)
      fun plan q hplan => ?_
    exact (endsIn_filterStep s.outputs hplan).mono (fun _ _ h => h) fun e _ he =>
      Fault.underivable (fun h => he.2 h.2) he.1
  | order s o ih =>
    refine (ih { request with order := some o } p).bind
      (fun e _ he => he.lift And.left (fun _ h => h) rfl) fun plan q hplan => ?_
    exact (endsIn_orderStep s.outputs hplan).mono (fun _ _ h => h) fun e _ he =>
      Fault.underivable (fun h => he.2 h.2) he.1
  | limit s n m ih =>
    have hwindow : EndsIn (Planning.ofExcept (env.window n m)) p (fun _ _ => True)
        (fun e _ => (limit s n m).Fault env e) :=
      .ofExcept (fun _ _ => trivial) fun e he => Fault.window List.mem_cons_self he
    refine hwindow.bind (fun _ _ h => h) fun window q _ => ?_
    refine (ih { request with window := ⟨window.reach, 0⟩ } q).bind
      (fun e _ he => he.lift id (fun _ h => List.mem_cons_of_mem _ h) rfl) fun plan q' hplan => ?_
    exact (endsIn_limitStep s.outputs hplan).mono (fun _ _ h => h) fun _ _ h => h.elim
  | eval s outputs ih =>
    refine (ih request p).bind (fun e _ he => he.lift And.left (fun _ h => h) rfl)
      fun plan q hplan => ?_
    exact (endsIn_evalStep s.outputs hplan).mono (fun _ _ h => h) fun e _ he =>
      Fault.underivable (fun h => he.2 h.2) he.1

end Logical

end ShardedQuery

import ShardedQuery.Proofs.Planning.AggregateEntries
import ShardedQuery.Proofs.Planning.Trees

/-!
# What follows an aggregation

A plan that aggregates begins with one tier, or with two.  All that it does after that is row by row,
over the columns of the keys and of the aggregates.

* `Plan.stages` — the projections of the phases of a plan.
* `Plan.Starts` — a plan begins with some projections and goes on row by row.
* `Plan.Extends` — so does a plan where another one ends; this is what each step of a tree keeps.
* `Plan.ComputesOnce` — one tier computes every aggregate once, or each of two tiers does.
* `Logical.exists_extends_base` — **on top of its base the tree of a query works row by row**.
* `Logical.computesOnce_inTiers` — **an aggregation computes every aggregate once**.
-/

namespace ShardedQuery

/-! ### The phases of a plan -/

namespace Plan

/-- The symbols that the plan collects. -/
def collected : Plan → List Symbol
  | collect phase _ => phase.toCollect
  | merge source _ _ => source.collected
  | count .. => []

/-- The projections of each phase, those that rows go through first. -/
def stages : Plan → List (List Projection)
  | collect phase _ => [phase.projections]
  | merge source phase _ => source.stages ++ [phase.projections]
  | count .. => []

/-- The plan collects these symbols.  It begins with the phases `lower` and with the projections
`first` of the next phase, and goes on row by row. -/
structure Starts (columns : List Symbol) (lower : List (List Projection)) (first : List Projection)
    (plan : Plan) : Prop where
  columns : plan.collected = columns
  stages : ∃ rest more, plan.stages = lower ++ (first ++ rest) :: more ∧
    ∀ p ∈ rest ++ more.flatten, p.IsPlain

variable {plan plan' : Plan} {columns : List Symbol} {lower : List (List Projection)}
  {first : List Projection} {p : Projection}

theorem collected_addProjection {w : Option Window} {o : Option ColumnOrder}
    (h : plan.addProjection p w o = .ok plan') : plan'.collected = plan.collected := by
  cases plan with
  | collect | merge =>
    cases h
    rfl
  | count => cases h

/-- One more projection goes to the last phase. -/
theorem stages_addProjection {w : Option Window} {o : Option ColumnOrder}
    (h : plan.addProjection p w o = .ok plan') :
    ∃ below last, plan.stages = below ++ [last] ∧ plan'.stages = below ++ [last ++ [p]] := by
  cases plan with
  | collect phase d =>
    cases h
    exact ⟨[], phase.projections, rfl, rfl⟩
  | merge source phase d =>
    cases h
    exact ⟨source.stages, phase.projections, rfl, rfl⟩
  | count => cases h

/-- The plan goes on row by row where another one ends. -/
def Extends (plan source : Plan) : Prop :=
  ∀ columns lower first, source.Starts columns lower first → plan.Starts columns lower first

theorem Extends.refl (plan : Plan) : plan.Extends plan := fun _ _ _ => id

theorem Extends.trans {source : Plan} (h : plan'.Extends plan) (h' : plan.Extends source) :
    plan'.Extends source :=
  fun columns lower first hstarts => h columns lower first (h' columns lower first hstarts)

/-- One more projection that works row by row. -/
theorem extends_addProjection {w : Option Window} {o : Option ColumnOrder}
    (hadd : plan.addProjection p w o = .ok plan') (hp : p.IsPlain) : plan'.Extends plan := by
  intro columns lower first h
  refine ⟨(collected_addProjection hadd).trans h.columns, ?_⟩
  obtain ⟨rest, more, hstages, hplain⟩ := h.stages
  obtain ⟨below, last, hbelow, hadded⟩ := stages_addProjection hadd
  rw [hbelow] at hstages
  rw [hadded]
  have hplain' : ∀ q ∈ (rest ++ more.flatten) ++ [p], q.IsPlain :=
    List.forall_mem_append.mpr ⟨hplain, List.forall_mem_singleton.mpr hp⟩
  -- the last phase is the one that the plan starts with, or one of those after it
  rcases List.eq_nil_or_concat' more with rfl | ⟨more, top, rfl⟩
  · obtain ⟨rfl, hlast⟩ := List.append_inj' hstages rfl
    cases hlast
    exact ⟨rest ++ [p], [], by rw [List.append_assoc], by simpa using hplain'⟩
  · rw [← List.cons_append, ← List.append_assoc] at hstages
    obtain ⟨rfl, hlast⟩ := List.append_inj' hstages rfl
    cases hlast
    exact ⟨rest, more ++ [last ++ [p]], by simp, by simpa using hplain'⟩

/-- One more phase with such a projection. -/
theorem extends_mergeOnHandler {env : Environment} {width : Nat} {maxRows : Option Nat}
    {q q' : Progress} (hp : p.IsPlain)
    (hmerge : env.mergeOnHandler plan p width maxRows q = .ok plan' q') : plan'.Extends plan := by
  intro columns lower first h
  obtain ⟨phase, hphase, rfl⟩ := Engine.mergeOnHandler_eq hmerge
  obtain ⟨rest, more, hstages, hplain⟩ := h.stages
  refine ⟨h.columns, rest, more ++ [[p]], ?_, ?_⟩
  · show plan.stages ++ [phase.projections] = _
    rw [hstages, hphase]
    simp
  · rw [List.flatten_append, ← List.append_assoc]
    exact List.forall_mem_append.mpr ⟨hplain, List.forall_mem_singleton.mpr hp⟩

theorem extends_withDelivery (plan : Plan) (d : Delivery) : (plan.withDelivery d).Extends plan := by
  intro columns lower first h
  cases plan with
  | collect | merge | count => exact ⟨h.columns, h.stages⟩

/-- **Each of the aggregates is computed once**: by a single tier over the collected rows, or by a
lower tier over these and an upper one over its partial states.  All else works row by row. -/
inductive ComputesOnce (columns aggregates : List Symbol) (plan : Plan) : Prop where
  | oneTier {tier : Projection}
      (isTier : tier.IsTier .rowsToFinal (Aggregation.Computes columns) aggregates)
      (starts : plan.Starts columns [] [tier])
  | twoTiers {lower upper : Projection}
      (isLower : lower.IsTier .rowsToPartial (Aggregation.Computes columns) aggregates)
      (isUpper : upper.IsTier .partialToFinal (Aggregation.Merges columns lower) aggregates)
      (starts : plan.Starts columns [[lower]] [upper])

theorem ComputesOnce.extends {aggregates : List Symbol} {source : Plan}
    (h : source.ComputesOnce columns aggregates) (hplan : plan.Extends source) :
    plan.ComputesOnce columns aggregates := by
  cases h with
  | oneTier isTier starts => exact .oneTier isTier (hplan _ _ _ starts)
  | twoTiers isLower isUpper starts => exact .twoTiers isLower isUpper (hplan _ _ _ starts)

/-- If a plan starts with projections without aggregates, none of its projections calls one. -/
theorem Starts.isRowLevel (h : plan.Starts columns lower first)
    (hlower : ∀ stage ∈ lower, ∀ p ∈ stage, p.IsRowLevel) (hfirst : ∀ p ∈ first, p.IsRowLevel) :
    ∀ stage ∈ plan.stages, ∀ p ∈ stage, p.IsRowLevel := by
  obtain ⟨rest, more, hstages, hplain⟩ := h.stages
  intro stage hstage p hp
  rw [hstages] at hstage
  rcases List.mem_append.mp hstage with hstage | hstage
  · exact hlower stage hstage p hp
  · rcases List.mem_cons.mp hstage with rfl | hstage
    · rcases List.mem_append.mp hp with hp | hp
      · exact hfirst p hp
      · exact (hplain p (List.mem_append_left _ hp)).rowLevel
    · have hmem : p ∈ more.flatten := List.mem_flatten.mpr ⟨stage, hstage, hp⟩
      exact (hplain p (List.mem_append_right _ hmem)).rowLevel

theorem ComputesOnce.isRowLevel {aggregates : List Symbol}
    (h : plan.ComputesOnce columns aggregates) :
    ∀ stage ∈ plan.stages, ∀ p ∈ stage, p.IsRowLevel := by
  cases h with
  | oneTier isTier starts =>
    refine starts.isRowLevel (fun _ hstage => absurd hstage List.not_mem_nil) fun p hp => ?_
    rw [List.mem_singleton.mp hp]
    exact isTier.rowLevel
  | twoTiers isLower isUpper starts =>
    refine starts.isRowLevel (fun stage hstage p hp => ?_) fun p hp => ?_
    · rw [List.mem_singleton.mp hstage] at hp
      rw [List.mem_singleton.mp hp]
      exact isLower.rowLevel
    · rw [List.mem_singleton.mp hp]
      exact isUpper.rowLevel

end Plan

/-! ### Steps of a tree -/

namespace Logical

section Steps

variable {env : Environment} {inputs : List Symbol} {plan plan' : Plan} {p p' : Progress}

theorem extends_filterStep {having : Symbol} (hhaving : having.AggregatesAmong inputs)
    (h : filterStep inputs having plan = .ok plan') : plan'.Extends plan := by
  obtain ⟨f, hf, hadd⟩ := except_bind_eq_ok.mp h
  exact Plan.extends_addProjection hadd (Projection.isPlain_filterOf hhaving hf)

theorem extends_orderStep {o : OrderBy} {window : Window}
    (hinputs : ∀ s ∈ inputs, s.AggregatesAmong inputs)
    (horder : ∀ s ∈ o.symbols, s.AggregatesAmong inputs)
    (h : orderStep inputs o window plan = .ok plan') : plan'.Extends plan := by
  unfold orderStep at h
  split at h
  · cases h
    exact .refl plan
  · obtain ⟨sorted, hsorted, hadd⟩ := except_bind_eq_ok.mp h
    refine Plan.extends_addProjection hadd (Projection.isPlain_arrange hinputs ?_ hsorted)
    rintro _ ⟨⟩
    exact horder

theorem extends_limitStep {window : Window} (h : limitStep env inputs window plan = .ok plan') :
    plan'.Extends plan := by
  unfold limitStep at h
  split at h <;> exact Plan.extends_addProjection h (Projection.isPlain_topN _ _)

theorem extends_evalStep {outputs : List Symbol} (houtputs : ∀ s ∈ outputs, s.AggregatesAmong inputs)
    (h : evalStep env inputs outputs plan p = .ok plan' p') : plan'.Extends plan := by
  obtain ⟨eval, _, heval, h⟩ := Planning.bind_eq_ok.mp h
  have hplain : eval.IsPlain := by
    refine Projection.isPlain_arrange houtputs ?_ (Planning.ofExcept_eq_ok.mp heval).1
    rintro _ ⟨⟩
  cases horder : plan.delivery.order with
  | none =>
    simp only [horder] at h
    exact Plan.extends_addProjection (Planning.ofExcept_eq_ok.mp h).1 hplain
  | some sortedBy =>
    cases hremap : sortedBy.remap? inputs outputs with
    | some remapped =>
      simp only [horder, hremap] at h
      exact Plan.extends_addProjection (Planning.ofExcept_eq_ok.mp h).1 hplain
    | none =>
      simp only [horder, hremap] at h
      split at h
      · obtain ⟨added, hadd, hclear⟩ := except_bind_eq_ok.mp (Planning.ofExcept_eq_ok.mp h).1
        cases hclear
        exact (Plan.extends_withDelivery _ _).trans (Plan.extends_addProjection hadd hplain)
      · obtain ⟨merged, _, hmerge, h⟩ := Planning.bind_eq_ok.mp h
        exact (Plan.extends_addProjection (Planning.ofExcept_eq_ok.mp h).1 hplain).trans
          (Plan.extends_mergeOnHandler (Projection.isPlain_orderedTopN _ _ sortedBy) hmerge)

end Steps

/-! ### The layers of a tree -/

section Layers

variable {env : Environment} {q : Select} {t : Logical} {request : Request} {plan : Plan}
  {p p' : Progress}

theorem exists_extends_having (hhaving : ∀ s ∈ q.having, s.AggregatesAmong t.outputs)
    (h : (having q t).build env request p = .ok plan p') :
    ∃ request' source q', t.build env request' p = .ok source q' ∧ plan.Extends source := by
  rcases build_having_eq_ok h with ⟨-, hsource⟩ | ⟨having, source, hq, hsource, hstep⟩
  · exact ⟨request, plan, p', hsource, .refl plan⟩
  · exact ⟨request, source, p', hsource, extends_filterStep (hhaving having hq) hstep⟩

theorem exists_extends_ordered (houtputs : ∀ s ∈ t.outputs, s.AggregatesAmong t.outputs)
    (horder : ∀ o ∈ q.orderBy, ∀ s ∈ o.symbols, s.AggregatesAmong t.outputs)
    (h : (ordered q t).build env request p = .ok plan p') :
    ∃ request' source q', t.build env request' p = .ok source q' ∧ plan.Extends source := by
  rcases build_ordered_eq_ok h with ⟨-, hsource⟩ | ⟨o, source, hq, hsource, hstep⟩
  · exact ⟨request, plan, p', hsource, .refl plan⟩
  · exact ⟨_, source, p', hsource, extends_orderStep houtputs (horder o hq) hstep⟩

theorem exists_extends_limited (h : (limited q t).build env request p = .ok plan p') :
    ∃ request' source q', t.build env request' p = .ok source q' ∧ plan.Extends source := by
  rcases build_limited_eq_ok h with ⟨-, -, hsource⟩ | ⟨w, source, -, hsource, hstep⟩
  · exact ⟨request, plan, p', hsource, .refl plan⟩
  · exact ⟨_, source, p', hsource, extends_limitStep hstep⟩

theorem exists_extends_laidOut (houtputs : ∀ s ∈ q.outputs, s.AggregatesAmong t.outputs)
    (h : (laidOut q t).build env request p = .ok plan p') :
    ∃ request' source q', t.build env request' p = .ok source q' ∧ plan.Extends source := by
  rcases build_laidOut_eq_ok h with ⟨-, hsource⟩ | ⟨source, q', hsource, hstep⟩
  · exact ⟨request, plan, p', hsource, .refl plan⟩
  · exact ⟨request, source, q', hsource, extends_evalStep houtputs hstep⟩

/-- **On top of its base the tree of a query works row by row**, if all aggregates that are called
are columns of the base. -/
theorem exists_extends_base {r : Relation}
    (hcolumns : ∀ s ∈ (base r).outputs, s.AggregatesAmong (base r).outputs)
    (hsymbols : ∀ s ∈ r.query.symbols, s.AggregatesAmong (base r).outputs)
    (h : (ofRelation r).build env request p = .ok plan p') :
    ∃ request' source q', (base r).build env request' p = .ok source q' ∧ plan.Extends source := by
  rw [ofRelation_eq] at h
  obtain ⟨_, _, _, h, hlaidOut⟩ := exists_extends_laidOut (fun s hs => by
    rw [outputs_limited, outputs_ordered, outputs_having]
    exact hsymbols s (Select.output_mem_symbols hs)) h
  obtain ⟨_, _, _, h, hlimited⟩ := exists_extends_limited h
  obtain ⟨_, _, _, h, hordered⟩ := exists_extends_ordered (by rwa [outputs_having])
    (fun o ho s hs => by
      rw [outputs_having]
      exact hsymbols s (Select.orderBy_mem_symbols ho hs)) h
  obtain ⟨request', source, q', h, hhaving⟩ := exists_extends_having
    (fun s hs => hsymbols s (Select.having_mem_symbols hs)) h
  exact ⟨request', source, q', h, hlaidOut.trans (hlimited.trans (hordered.trans hhaving))⟩

end Layers

/-! ### Aggregations -/

section Tiers

variable {env : Environment} {phase : CollectPhase} {d : Delivery} {keys aggregates : List Symbol}
  {plan : Plan} {p p' : Progress}

/-- **An aggregation of collected rows computes each aggregate once**, in one step or in two. -/
theorem computesOnce_inTiers (h : Split.IsAggregable phase.toCollect keys aggregates)
    (hphase : phase.projections = []) {full toPartial toFinal : Except PlanningError Projection}
    {width : Nat} {maxRows : Option Nat}
    (hfull : ∀ f, full = .ok f → f.Aggregates phase.toCollect keys aggregates .rowsToFinal)
    (hpartial : ∀ f, toPartial = .ok f →
      f.Aggregates phase.toCollect keys aggregates .rowsToPartial)
    (hfinal : ∀ g, toFinal = .ok g →
      g.Aggregates (keys ++ aggregates) keys aggregates .partialToFinal)
    (hstep : inTiers env full toPartial toFinal width maxRows (.collect phase d) p = .ok plan p') :
    plan.ComputesOnce phase.toCollect aggregates := by
  have hnone : ∀ p ∈ ([] : List Projection), p.IsPlain := fun _ hp => absurd hp List.not_mem_nil
  rcases inTiers_eq_ok hstep with ⟨-, tier, htier, hadd⟩ |
    ⟨-, lower, upper, added, hlower, hupper, hadd, hmerge⟩
  · cases hadd
    refine .oneTier (h.isTier_computes (by decide) (hfull tier htier)) ⟨rfl, [], [], ?_, hnone⟩
    show [phase.projections ++ [tier]] = _
    rw [hphase]
    rfl
  · cases hadd
    obtain ⟨merge, hmerged, rfl⟩ := Engine.mergeOnHandler_eq hmerge
    refine .twoTiers (h.isTier_computes (by decide) (hpartial lower hlower))
      (h.isTier_merges (hpartial lower hlower) (hfinal upper hupper)) ⟨rfl, [], [], ?_, hnone⟩
    show [phase.projections ++ [lower]] ++ [merge.projections] = _
    rw [hphase, hmerged]
    rfl

end Tiers

end Logical

end ShardedQuery

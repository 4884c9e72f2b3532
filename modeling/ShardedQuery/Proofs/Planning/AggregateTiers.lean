import ShardedQuery.Proofs.Planning.AggregateStages
import ShardedQuery.Proofs.Planning.Derivability
import ShardedQuery.Proofs.Planning.WellFormed

/-!
# The aggregates of a plan

A query names aggregates in several clauses and in several places of each.  Its plan computes every
one of them once, whichever way of planning is taken, and then reads it from its column.

* `Select.isAggregable` — the aggregates of a query can be computed from what it fetches.
* `Planning.computesOnce_general`, `Planning.computesOnce_groupOnCollectors` — either way of planning
  computes them once.
* `Planning.plan_computesAggregatesOnce` — **aggregates are computed once**, and no projection calls
  one.
-/

namespace ShardedQuery

/-! ### Queries -/

namespace Select

variable {q : Select}

/-- The symbols of a query that reads rows call no aggregate. -/
theorem aggregatesAmong_of_readsRows (hrows : q.readsRows = true) {inputs : List Symbol} {s : Symbol}
    (hs : s ∈ q.symbols) : s.AggregatesAmong inputs := by
  have hempty : q.outermost = [] := by
    rw [readsRows, Bool.and_eq_true] at hrows
    exact List.isEmpty_iff.mp hrows.1
  intro a ha
  have hmem : a ∈ q.outermost := List.mem_flatMap.mpr ⟨s, hs, ha⟩
  rw [hempty] at hmem
  cases hmem

/-- It fetches nothing but its symbols. -/
theorem mem_symbols_of_mem_toCollectOf (hrows : q.readsRows = true) {s : Symbol}
    (hs : s ∈ Logical.toCollectOf q) : s ∈ q.symbols := by
  have hcollect : (Split.ofSelect q).toCollect = distinct q.outputs := by
    rw [readsRows, ← Split.isEmpty_aggregates] at hrows
    exact if_pos hrows
  unfold Logical.toCollectOf at hs
  cases ho : q.orderBy with
  | none =>
    simp only [ho, hcollect] at hs
    exact output_mem_symbols (mem_of_mem_distinct hs)
  | some o =>
    simp only [ho, hcollect] at hs
    split at hs
    · rcases List.mem_append.mp (mem_of_mem_distinct hs) with hs | hs
      · exact output_mem_symbols (mem_of_mem_distinct hs)
      · exact orderBy_mem_symbols ho hs
    · exact output_mem_symbols (mem_of_mem_distinct hs)

/-- The aggregates of a query can be computed from what it fetches. -/
theorem isAggregable (hkeys : ∀ k ∈ q.groupKeys, k.IsRowLevel) (hrows : q.readsRows = false) :
    Split.IsAggregable (Split.ofSelect q).toCollect q.groupKeys (Split.ofSelect q).aggregates where
  rowLevel := hkeys
  aggregate _ ha := Split.isAggregate_of_mem ha
  distinct := by
    show (Split.aggregatesOf q).Pairwise _
    rw [Split.aggregatesOf_eq]
    exact pairwise_distinct _
  fetched _ ha _ harg := Split.argument_fetched hrows ha harg

end Select

/-! ### Plans of queries -/

namespace Planning

variable {env : Environment} {table : Table} {q : Select} {p p' : Progress} {plan' : Plan}

/-- The base of a query with aggregates or groups computes each aggregate once. -/
theorem computesOnce_base (hkeys : ∀ k ∈ q.groupKeys, k.IsRowLevel) (hrows : q.readsRows = false)
    {request : Request}
    (h : (Logical.base (.table table q)).build env request p = .ok plan' p') :
    plan'.ComputesOnce (Split.ofSelect q).toCollect (Split.ofSelect q).aggregates := by
  have haggregable := q.isAggregable hkeys hrows
  have hcollects : Logical.toCollectOf (Relation.table table q).query =
      (Split.ofSelect q).toCollect := Split.toCollectOf_eq hrows
  cases hgroupBy : q.groupBy with
  | some keys =>
    have hgroupKeys : q.groupKeys = keys := by
      rw [Select.groupKeys, hgroupBy]
      rfl
    rw [hgroupKeys] at haggregable
    rw [Logical.base_of_groupBy (r := .table table q) hgroupBy, hcollects] at h
    obtain ⟨source, q₁, hsource, hstep⟩ := bind_eq_ok.mp h
    obtain ⟨phase, hphase, hcollect, -, -, -, rfl⟩ := Engine.collectStep_eq_ok hsource
    rw [← hcollect] at haggregable ⊢
    exact Logical.computesOnce_inTiers haggregable hphase
      (fun f hf => hcollect ▸ Projection.aggregates_groupOf hf)
      (fun f hf => hcollect ▸ Projection.aggregates_groupOf hf)
      (fun g hg => Projection.aggregates_groupOf hg) hstep
  | none =>
    have hgroupKeys : q.groupKeys = [] := by
      rw [Select.groupKeys, hgroupBy]
      rfl
    have haggregates : (Split.ofSelect q).aggregates ≠ [] := by
      rw [Select.readsRows, hgroupBy, ← Split.isEmpty_aggregates] at hrows
      exact List.isEmpty_eq_false_iff.mp (by simpa using hrows)
    rw [hgroupKeys] at haggregable
    rw [Logical.base_of_aggregates (r := .table table q) hgroupBy haggregates, hcollects] at h
    obtain ⟨source, q₁, hsource, hstep⟩ := bind_eq_ok.mp h
    obtain ⟨phase, hphase, hcollect, -, -, -, rfl⟩ := Engine.collectStep_eq_ok hsource
    rw [← hcollect] at haggregable ⊢
    exact Logical.computesOnce_inTiers haggregable hphase
      (fun f hf => hcollect ▸ Projection.aggregates_aggregationOf hf)
      (fun f hf => hcollect ▸ Projection.aggregates_aggregationOf hf)
      (fun g hg => Projection.aggregates_aggregationOf hg) hstep

/-- The general plan of a query that reads rows does nothing else but work row by row. -/
theorem starts_general (hrows : q.readsRows = true)
    (h : general env (.table table q) p = .ok plan' p') :
    plan'.Starts (Logical.toCollectOf q) [] [] := by
  have hbase : Logical.base (.table table q) =
      .collect (.table table q) (Logical.toCollectOf q) q.filter := Logical.base_of_readsRows hrows
  obtain ⟨request, source, q₁, hsource, hextends⟩ := Logical.exists_extends_base
    (r := .table table q) (fun s hs => by
      rw [hbase] at hs
      exact q.aggregatesAmong_of_readsRows hrows (q.mem_symbols_of_mem_toCollectOf hrows hs))
    (fun s hs => q.aggregatesAmong_of_readsRows hrows hs) h
  rw [hbase] at hsource
  obtain ⟨phase, hphase, hcollect, -, -, -, rfl⟩ := Engine.collectStep_eq_ok hsource
  refine hextends _ _ _ ⟨hcollect, [], [], ?_, fun _ hp => absurd hp List.not_mem_nil⟩
  show [phase.projections] = _
  rw [hphase]
  rfl

/-- The general plan of any other query computes each aggregate once. -/
theorem computesOnce_general (hkeys : ∀ k ∈ q.groupKeys, k.IsRowLevel) (hrows : q.readsRows = false)
    (h : general env (.table table q) p = .ok plan' p') :
    plan'.ComputesOnce (Split.ofSelect q).toCollect (Split.ofSelect q).aggregates := by
  have houtputs : (Logical.base (.table table q)).outputs =
      q.groupKeys ++ (Split.ofSelect q).aggregates := Logical.outputs_base_of_groups hrows
  obtain ⟨request, source, q₁, hsource, hextends⟩ := Logical.exists_extends_base
    (r := .table table q) (fun s hs => by
      rw [houtputs] at hs ⊢
      exact q.aggregatesAmong_column hkeys hs)
    (fun s hs => by
      rw [houtputs]
      exact q.aggregatesAmong_groups hs) h
  exact (computesOnce_base hkeys hrows hsource).extends hextends

/-- So does a plan that groups where the rows are read. -/
theorem computesOnce_groupOnCollectors (hkeys : ∀ k ∈ q.groupKeys, k.IsRowLevel)
    (hrows : q.readsRows = false) (h : groupOnCollectors env table q p = .ok plan' p') :
    plan'.ComputesOnce (Split.ofSelect q).toCollect (Split.ofSelect q).aggregates := by
  have hsymbols := fun s => q.aggregatesAmong_groups (s := s)
  have hgroups := fun s => q.aggregatesAmong_column hkeys (s := s)
  obtain ⟨phase, p₁, keys', ags, filters, w, arranged, -, hcollect, -, -, hread, hags, hfilters, -,
    hplan⟩ := groupOnCollectors_eq_ok h
  have htier : (Projection.group keys' ags .rowsToFinal .shard).IsTier .rowsToFinal
      (Aggregation.Computes (Split.ofSelect q).toCollect) (Split.ofSelect q).aggregates :=
    (q.isAggregable hkeys hrows).isTier_computes (by decide) ⟨rfl, hread, hags⟩
  have hfilter : ∀ f ∈ filters, f.IsPlain := by
    intro f hf
    obtain ⟨having, hmem, hhaving⟩ := exists_of_mem_right (forall₂_of_except_mapM hfilters) hf
    exact Projection.isPlain_filterOf
      (hsymbols having (Select.having_mem_symbols (Option.mem_toList.mp hmem))) hhaving
  have hordered : ∀ o, q.orderBy = some o → ∀ s ∈ o.symbols,
      s.AggregatesAmong (q.groupKeys ++ (Split.ofSelect q).aggregates) :=
    fun o ho s hs => hsymbols s (Select.orderBy_mem_symbols ho hs)
  have hstarts : ∀ d, arranged.IsPlain → (Plan.collect
      { phase with
        projections := (.group keys' ags .rowsToFinal .shard :: filters) ++ [arranged] } d).Starts
      (Split.ofSelect q).toCollect [] [.group keys' ags .rowsToFinal .shard] := by
    intro d harranged
    refine ⟨hcollect, filters ++ [arranged], [], rfl, ?_⟩
    rw [List.flatten_nil, List.append_nil]
    exact List.forall_mem_append.mpr ⟨hfilter, List.forall_mem_singleton.mpr harranged⟩
  rcases hplan with ⟨-, harranged, rfl⟩ | ⟨o, toFinal, q₁, ho, -, harranged, hfinal, hmerge⟩
  · have hplain := Projection.isPlain_arrange
      (fun s hs => hsymbols s (Select.output_mem_symbols hs)) hordered harranged
    exact .oneTier htier (hstarts _ hplain)
  · have hplain := Projection.isPlain_arrange hgroups hordered harranged
    have hlaidOut := Projection.isPlain_arrange
      (fun s hs => hsymbols s (Select.output_mem_symbols hs))
      (fun o' ho' => hordered o' (ho.trans ho')) hfinal
    exact Plan.ComputesOnce.extends (.oneTier htier (hstarts _ hplain))
      (Plan.extends_mergeOnHandler hlaidOut hmerge)

/-- **Aggregates are computed once, and never row by row.**  Let the keys of a query over a table
call no aggregate.

* The aggregates of the query are its outermost aggregate calls, those of the outputs first, then
  those of HAVING and of ORDER BY, each once and in order of first appearance.
* No projection of a plan has a symbol that calls an aggregate.
* A plan that is not a count computes each of the aggregates by exactly one entry: of a single tier,
  or of each of two tiers.  Without aggregates and groups it has no tier. -/
theorem plan_computesAggregatesOnce (table : Table) (q : Select)
    (hkeys : ∀ k ∈ q.groupKeys, k.IsRowLevel) :
    (Split.ofSelect q).aggregates = q.outermost.eraseDups ∧
    ∀ env p plan' p', plan env (.table table q) p = .ok plan' p' →
      (∀ stage ∈ plan'.stages, ∀ projection ∈ stage, projection.IsRowLevel) ∧
      ((∀ phase d, plan' ≠ .count phase d) →
        (q.readsRows = true → plan'.Starts (Logical.toCollectOf q) [] []) ∧
        (q.readsRows = false →
          plan'.ComputesOnce (Split.ofSelect q).toCollect (Split.ofSelect q).aggregates)) := by
  refine ⟨(Split.aggregatesOf_eq q).trans (distinct_eq_eraseDups _), fun env p plan' p' h => ?_⟩
  have hplan : (∃ phase, plan' = .ofCount phase) ∨
      (q.readsRows = true ∧ plan'.Starts (Logical.toCollectOf q) [] []) ∨
      (q.readsRows = false ∧
        plan'.ComputesOnce (Split.ofSelect q).toCollect (Split.ofSelect q).aggregates) := by
    rcases plan_eq_ok h with hcount | ⟨_, _, heq, hgroupBy, hgroups⟩ | hgeneral
    · exact .inl hcount
    · cases heq
      have hrows : q.readsRows = false := by
        rw [Select.readsRows, Option.isNone_eq_false_iff.mpr (Option.isSome_iff_ne_none.mpr hgroupBy),
          Bool.and_false]
      exact .inr (.inr ⟨hrows, computesOnce_groupOnCollectors hkeys hrows hgroups⟩)
    · cases hrows : q.readsRows with
      | true => exact .inr (.inl ⟨rfl, starts_general hrows hgeneral⟩)
      | false => exact .inr (.inr ⟨rfl, computesOnce_general hkeys hrows hgeneral⟩)
  rcases hplan with ⟨phase, rfl⟩ | ⟨hrows, hstarts⟩ | ⟨hrows, honce⟩
  · exact ⟨fun _ hstage => absurd hstage List.not_mem_nil, fun hcount => absurd rfl (hcount _ _)⟩
  · refine ⟨hstarts.isRowLevel (fun _ hstage => absurd hstage List.not_mem_nil)
      fun _ hp => absurd hp List.not_mem_nil, fun _ => ⟨fun _ => hstarts, fun hgroups => ?_⟩⟩
    rw [hrows] at hgroups
    cases hgroups
  · refine ⟨honce.isRowLevel, fun _ => ⟨fun hreads => ?_, fun _ => honce⟩⟩
    rw [hrows] at hreads
    cases hreads

/-- An aggregate in two clauses and another one in a third, over two nodes: two tiers, each with one
entry for either of them. -/
theorem plan_computesAggregatesOnce_twoNodes :
    let average : Symbol := .call "avg" [load]
    let count : Symbol := .call "count" []
    let q : Select :=
      { outputs := [load, .call "round" [average]]
        groupBy := some [load]
        having := some (.call "op_>" [count, .ofInt 1])
        orderBy := some (.descending average) }
    ((Split.ofSelect q).aggregates == [average, count]) = true ∧
      (Split.ofSelect q).aggregates = q.outermost.eraseDups ∧
      ∃ plan' p', plan twoNodes (.table (.ofNodes "sys" "nodes") q) (.start 0) = .ok plan' p' ∧
        plan'.phaseIds.length = 2 ∧
        (∀ stage ∈ plan'.stages, ∀ projection ∈ stage, projection.IsRowLevel) ∧
        plan'.ComputesOnce (Split.ofSelect q).toCollect (Split.ofSelect q).aggregates := by
  intro average count q
  have hkeys : ∀ k ∈ q.groupKeys, k.IsRowLevel := by decide
  obtain ⟨haggregates, hplan⟩ := plan_computesAggregatesOnce (.ofNodes "sys" "nodes") q hkeys
  obtain ⟨plan', p', h, hids⟩ : ∃ plan' p',
      plan twoNodes (.table (.ofNodes "sys" "nodes") q) (.start 0) = .ok plan' p' ∧
        plan'.phaseIds.length = 2 := exists_of_succeedsWith (by decide +kernel)
  obtain ⟨hrowLevel, htiers⟩ := hplan twoNodes (.start 0) plan' p' h
  have hcount : ∀ phase d, plan' ≠ .count phase d := by
    rintro phase d rfl
    cases hids
  have honce := (htiers hcount).2 (by decide +kernel)
  exact ⟨by decide +kernel, haggregates, plan', p', h, hids, hrowLevel, honce⟩

end Planning

end ShardedQuery

import ShardedQuery.Proofs.Planning.Stages

/-!
# Trees of queries

The tree of a query is a base, which reads records or groups them, and on top of it HAVING, ORDER
BY, LIMIT and the outputs.

* `Logical.base`, `Logical.ofRelation_eq` — the base of a tree, and the tree over it.
* `Logical.build_having_eq_ok` and its siblings — what each layer makes of the plan below it.
* `Logical.inTiers` — an aggregation in one step or in two.
* `Logical.reads_build` — a plan of a tree reads by the routing of its table, with its filter.
-/

namespace ShardedQuery

/-! ### The shape of a tree -/

namespace Logical

/-- The part of the tree of a query that reads the relation and groups what it reads. -/
def base (relation : Relation) : Logical :=
  let q := relation.query
  let aggregates := (Split.ofSelect q).aggregates
  let tree := collect relation (toCollectOf q) q.filter
  match q.groupBy with
  | some keys => group tree keys aggregates
  | none => if aggregates.isEmpty then tree else aggregate tree aggregates

section Base

variable {r : Relation}

theorem base_of_groupBy {keys : List Symbol} (h : r.query.groupBy = some keys) :
    base r = group (collect r (toCollectOf r.query) r.query.filter) keys
      (Split.ofSelect r.query).aggregates := by
  unfold base
  simp only [h]

theorem base_of_aggregates (h : r.query.groupBy = none)
    (haggregates : (Split.ofSelect r.query).aggregates ≠ []) :
    base r = aggregate (collect r (toCollectOf r.query) r.query.filter)
      (Split.ofSelect r.query).aggregates := by
  unfold base
  simp only [h, List.isEmpty_eq_false_iff.mpr haggregates]
  rfl

theorem base_of_rows (h : r.query.groupBy = none)
    (haggregates : (Split.ofSelect r.query).aggregates = []) :
    base r = collect r (toCollectOf r.query) r.query.filter := by
  unfold base
  simp only [h, haggregates]
  rfl

/-- Groups have their keys and their aggregates as columns. -/
theorem outputs_base (h : (Split.ofSelect r.query).aggregates ≠ [] ∨
    r.query.groupBy ≠ none) : (base r).outputs =
      r.query.groupKeys ++ (Split.ofSelect r.query).aggregates := by
  unfold Select.groupKeys
  cases hkeys : r.query.groupBy with
  | some keys =>
    rw [base_of_groupBy hkeys]
    rfl
  | none =>
    rw [base_of_aggregates hkeys (h.resolve_right fun hne => hne hkeys)]
    rfl

end Base

/-- A tree with HAVING on top. -/
def having (q : Select) (t : Logical) : Logical := q.having.elim t (filter t)

/-- A tree with ORDER BY on top. -/
def ordered (q : Select) (t : Logical) : Logical := q.orderBy.elim t (order t)

/-- A tree with LIMIT and OFFSET on top. -/
def limited (q : Select) (t : Logical) : Logical :=
  if q.limit.isSome || q.offset.isSome then limit t q.limit q.offset else t

/-- A tree with the outputs on top. -/
def laidOut (q : Select) (t : Logical) : Logical :=
  if t.outputs == q.outputs then t else eval t q.outputs

theorem ofRelation_eq (relation : Relation) :
    let q := relation.query
    ofRelation relation = laidOut q (limited q (ordered q (having q (base relation)))) := rfl

theorem outputs_having (q : Select) (t : Logical) : (having q t).outputs = t.outputs := by
  unfold having
  cases q.having <;> rfl

theorem outputs_ordered (q : Select) (t : Logical) : (ordered q t).outputs = t.outputs := by
  unfold ordered
  cases q.orderBy <;> rfl

theorem outputs_limited (q : Select) (t : Logical) : (limited q t).outputs = t.outputs := by
  unfold limited
  split <;> rfl

section Layers

variable {env : Environment} {q : Select} {t : Logical} {request : Request} {plan : Plan}
  {p p' : Progress}

theorem build_having_eq_ok (h : (having q t).build env request p = .ok plan p') :
    (q.having = none ∧ t.build env request p = .ok plan p') ∨
    ∃ having source, q.having = some having ∧ t.build env request p = .ok source p' ∧
      filterStep t.outputs having source = .ok plan := by
  unfold having at h
  cases hq : q.having with
  | none =>
    rw [hq] at h
    exact .inl ⟨rfl, h⟩
  | some having =>
    rw [hq] at h
    obtain ⟨source, q₁, hsource, hstep⟩ := Planning.bind_eq_ok.mp h
    obtain ⟨hfilter, rfl⟩ := Planning.ofExcept_eq_ok.mp hstep
    exact .inr ⟨having, source, rfl, hsource, hfilter⟩

/-- What is below is asked for the order. -/
theorem build_ordered_eq_ok (h : (ordered q t).build env request p = .ok plan p') :
    (q.orderBy = none ∧ t.build env request p = .ok plan p') ∨
    ∃ o source, q.orderBy = some o ∧ t.build env { request with order := some o } p =
      .ok source p' ∧ orderStep t.outputs o request.window source = .ok plan := by
  unfold ordered at h
  cases hq : q.orderBy with
  | none =>
    rw [hq] at h
    exact .inl ⟨rfl, h⟩
  | some o =>
    rw [hq] at h
    obtain ⟨source, q₁, hsource, hstep⟩ := Planning.bind_eq_ok.mp h
    obtain ⟨horder, rfl⟩ := Planning.ofExcept_eq_ok.mp hstep
    exact .inr ⟨o, source, rfl, hsource, horder⟩

/-- What is below is asked for the rows that the cut reaches. -/
theorem build_limited_eq_ok (h : (limited q t).build env request p = .ok plan p') :
    (q.limit = none ∧ q.offset = none ∧ t.build env request p = .ok plan p') ∨
    ∃ w source, env.window q.limit q.offset = .ok w ∧
      t.build env { request with window := ⟨w.reach, 0⟩ } p = .ok source p' ∧
      limitStep env t.outputs w source = .ok plan := by
  unfold limited at h
  split at h
  · obtain ⟨w, q₁, hw, h⟩ := Planning.bind_eq_ok.mp h
    obtain ⟨hwindow, rfl⟩ := Planning.ofExcept_eq_ok.mp hw
    obtain ⟨source, q₂, hsource, hstep⟩ := Planning.bind_eq_ok.mp h
    obtain ⟨hlimit, rfl⟩ := Planning.ofExcept_eq_ok.mp hstep
    exact .inr ⟨w, source, hwindow, hsource, hlimit⟩
  · rename_i hnone
    obtain ⟨hlimit, hoffset⟩ : q.limit = none ∧ q.offset = none := by
      simpa [Option.isSome_iff_ne_none] using hnone
    exact .inl ⟨hlimit, hoffset, h⟩

theorem build_laidOut_eq_ok (h : (laidOut q t).build env request p = .ok plan p') :
    ((t.outputs == q.outputs) = true ∧ t.build env request p = .ok plan p') ∨
    ∃ source q₁, t.build env request p = .ok source q₁ ∧
      evalStep env t.outputs q.outputs source q₁ = .ok plan p' := by
  unfold laidOut at h
  split at h
  · rename_i hsame
    exact .inl ⟨hsame, h⟩
  · exact .inr (Planning.bind_eq_ok.mp h)

end Layers

/-! ### Aggregation in two tiers -/

/-- A plan with an aggregation: a full one if all rows are on the handler, else a partial one where
the rows are and a final one on the handler. -/
def inTiers (env : Environment) (full toPartial toFinal : Except PlanningError Projection)
    (width : Nat) (maxRows : Option Nat) (plan : Plan) : Planning Plan :=
  if env.onHandler plan.delivery.nodes then
    Planning.ofExcept do plan.addProjection (← full) none none
  else do
    let (plan, toFinal) ← Planning.ofExcept do
      let toPartial ← toPartial
      let plan ← plan.addProjection toPartial none none
      let toFinal ← toFinal
      return (plan, toFinal)
    env.mergeOnHandler plan toFinal width maxRows

theorem aggregateStep_eq (env : Environment) (inputs aggregates : List Symbol) :
    aggregateStep env inputs aggregates =
      inTiers env (Projection.aggregationOf inputs aggregates .rowsToFinal .cluster)
        (Projection.aggregationOf inputs aggregates .rowsToPartial .cluster)
        (Projection.aggregationOf aggregates aggregates .partialToFinal .cluster) aggregates.length
        (some 1) := rfl

theorem groupStep_eq (env : Environment) (inputs keys aggregates : List Symbol) :
    groupStep env inputs keys aggregates =
      inTiers env (Projection.groupOf inputs keys aggregates .rowsToFinal .cluster)
        (Projection.groupOf inputs keys aggregates .rowsToPartial .shard)
        (Projection.groupOf (keys ++ aggregates) keys aggregates .partialToFinal .cluster)
        (keys ++ aggregates).length none := rfl

section Tiers

variable {env : Environment} {full toPartial toFinal : Except PlanningError Projection}
  {width : Nat} {maxRows : Option Nat} {plan plan' : Plan} {p p' : Progress}

theorem inTiers_eq_ok (h : inTiers env full toPartial toFinal width maxRows plan p = .ok plan' p') :
    (env.onHandler plan.delivery.nodes = true ∧
      ∃ f, full = .ok f ∧ plan.addProjection f none none = .ok plan') ∨
    env.onHandler plan.delivery.nodes = false ∧
      ∃ f g added, toPartial = .ok f ∧ toFinal = .ok g ∧
        plan.addProjection f none none = .ok added ∧
        env.mergeOnHandler added g width maxRows p = .ok plan' p' := by
  unfold inTiers at h
  split at h
  · rename_i hhandler
    obtain ⟨f, hf, hadd⟩ := except_bind_eq_ok.mp (Planning.ofExcept_eq_ok.mp h).1
    exact .inl ⟨hhandler, f, hf, hadd⟩
  · rename_i hspread
    rw [Bool.not_eq_true] at hspread
    obtain ⟨⟨_, _⟩, q, htiers, hmerge⟩ := Planning.bind_eq_ok.mp h
    obtain ⟨hrest, rfl⟩ := Planning.ofExcept_eq_ok.mp htiers
    obtain ⟨f, hf, hrest⟩ := except_bind_eq_ok.mp hrest
    obtain ⟨added, hadd, hrest⟩ := except_bind_eq_ok.mp hrest
    obtain ⟨g, hg, hrest⟩ := except_bind_eq_ok.mp hrest
    cases hrest
    exact .inr ⟨hspread, _, _, _, hf, hg, hadd, hmerge⟩

end Tiers

/-! ### What is read -/

/-- What a tree reads from, and by which filter. -/
def source : Logical → Relation × WhereClause
  | collect relation _ clause => (relation, clause)
  | aggregate s _ | group s _ _ | filter s _ | order s _ | limit s _ _ | eval s _ => s.source

theorem source_having (q : Select) (t : Logical) : (having q t).source = t.source := by
  unfold having
  cases q.having <;> rfl

theorem source_ordered (q : Select) (t : Logical) : (ordered q t).source = t.source := by
  unfold ordered
  cases q.orderBy <;> rfl

theorem source_limited (q : Select) (t : Logical) : (limited q t).source = t.source := by
  unfold limited
  split <;> rfl

theorem source_laidOut (q : Select) (t : Logical) : (laidOut q t).source = t.source := by
  unfold laidOut
  split <;> rfl

theorem source_base (relation : Relation) :
    (base relation).source = (relation, relation.query.filter) := by
  unfold base
  cases hkeys : relation.query.groupBy with
  | some keys =>
    simp only [hkeys]
    rfl
  | none =>
    simp only [hkeys]
    split <;> rfl

theorem source_ofRelation (relation : Relation) :
    (ofRelation relation).source = (relation, relation.query.filter) := by
  rw [ofRelation_eq, source_laidOut, source_limited, source_ordered, source_having, source_base]

section Reads

variable {env : Environment} {plan plan' : Plan} {p p' : Progress}
  {inputs keys aggregates : List Symbol}

theorem reads_mergeOnHandler {toFinal : Projection} {width : Nat} {maxRows : Option Nat}
    (h : env.mergeOnHandler plan toFinal width maxRows p = .ok plan' p') :
    plan'.reads = plan.reads := by
  obtain ⟨phase, -, rfl⟩ := Engine.mergeOnHandler_eq h
  rfl

theorem reads_inTiers {full toPartial toFinal : Except PlanningError Projection} {width : Nat}
    {maxRows : Option Nat}
    (h : inTiers env full toPartial toFinal width maxRows plan p = .ok plan' p') :
    plan'.reads = plan.reads := by
  rcases inTiers_eq_ok h with ⟨-, f, -, hadd⟩ | ⟨-, f, g, added, -, -, hadd, hmerge⟩
  · exact Plan.reads_addProjection hadd
  · exact (reads_mergeOnHandler hmerge).trans (Plan.reads_addProjection hadd)

theorem reads_filterStep {having : Symbol} (h : filterStep inputs having plan = .ok plan') :
    plan'.reads = plan.reads := by
  obtain ⟨q, -, hadd⟩ := except_bind_eq_ok.mp h
  exact Plan.reads_addProjection hadd

theorem reads_orderStep {o : OrderBy} {w : Window}
    (h : orderStep inputs o w plan = .ok plan') : plan'.reads = plan.reads := by
  unfold orderStep at h
  split at h
  · cases h
    rfl
  · obtain ⟨q, -, hadd⟩ := except_bind_eq_ok.mp h
    exact Plan.reads_addProjection hadd

theorem reads_limitStep {w : Window} (h : limitStep env inputs w plan = .ok plan') :
    plan'.reads = plan.reads := by
  unfold limitStep at h
  split at h <;> exact Plan.reads_addProjection h

theorem reads_evalStep {outputs : List Symbol}
    (h : evalStep env inputs outputs plan p = .ok plan' p') : plan'.reads = plan.reads := by
  obtain ⟨eval, _, -, h⟩ := Planning.bind_eq_ok.mp h
  cases horder : plan.delivery.order with
  | none =>
    simp only [horder] at h
    exact Plan.reads_addProjection (Planning.ofExcept_eq_ok.mp h).1
  | some sortedBy =>
    cases hremap : sortedBy.remap? inputs outputs with
    | some remapped =>
      simp only [horder, hremap] at h
      exact Plan.reads_addProjection (Planning.ofExcept_eq_ok.mp h).1
    | none =>
      simp only [horder, hremap] at h
      split at h
      · obtain ⟨added, hadd, hclear⟩ := except_bind_eq_ok.mp (Planning.ofExcept_eq_ok.mp h).1
        cases hclear
        exact (Plan.reads_withDelivery _ _).trans (Plan.reads_addProjection hadd)
      · obtain ⟨merged, _, hmerge, h⟩ := Planning.bind_eq_ok.mp h
        exact (Plan.reads_addProjection (Planning.ofExcept_eq_ok.mp h).1).trans
          (reads_mergeOnHandler hmerge)

/-- **A plan of a tree reads by the routing of its table, with its filter.** -/
theorem reads_build {t : Logical} {request : Request}
    (h : t.build env request p = .ok plan p') :
    ∃ table query routing q, t.source.1 = .table table query ∧
      env.allocateRouting table t.source.2 p = .ok routing q ∧ plan.reads = (routing, t.source.2) := by
  induction t generalizing request plan p' with
  | collect relation toCollect clause =>
    cases relation with
    | derived name query => exact absurd h Planning.throw_ne_ok
    | table table query =>
      obtain ⟨routing, q, hrouting, h⟩ := Planning.bind_eq_ok.mp h
      obtain ⟨id, q', -, h⟩ := Planning.bind_eq_ok.mp h
      obtain ⟨rfl, -⟩ := Planning.pure_eq_ok.mp h
      exact ⟨table, query, routing, q, rfl, hrouting, rfl⟩
  | aggregate s aggregates ih =>
    obtain ⟨plan₀, q, hsource, hstep⟩ := Planning.bind_eq_ok.mp h
    rw [reads_inTiers (aggregateStep_eq .. ▸ hstep)]
    exact ih hsource
  | group s keys aggregates ih =>
    obtain ⟨plan₀, q, hsource, hstep⟩ := Planning.bind_eq_ok.mp h
    rw [reads_inTiers (groupStep_eq .. ▸ hstep)]
    exact ih hsource
  | filter s having ih =>
    obtain ⟨plan₀, q, hsource, hstep⟩ := Planning.bind_eq_ok.mp h
    rw [reads_filterStep (Planning.ofExcept_eq_ok.mp hstep).1]
    exact ih hsource
  | order s o ih =>
    obtain ⟨plan₀, q, hsource, hstep⟩ := Planning.bind_eq_ok.mp h
    rw [reads_orderStep (Planning.ofExcept_eq_ok.mp hstep).1]
    exact ih hsource
  | limit s n m ih =>
    obtain ⟨w, q₀, hwindow, h⟩ := Planning.bind_eq_ok.mp h
    obtain ⟨-, rfl⟩ := Planning.ofExcept_eq_ok.mp hwindow
    obtain ⟨plan₀, q, hsource, hstep⟩ := Planning.bind_eq_ok.mp h
    rw [reads_limitStep (Planning.ofExcept_eq_ok.mp hstep).1]
    exact ih hsource
  | eval s outputs ih =>
    obtain ⟨plan₀, q, hsource, hstep⟩ := Planning.bind_eq_ok.mp h
    rw [reads_evalStep hstep]
    exact ih hsource

/-- The general plan of a table reads by the routing of the table, with the filter of the query. -/
theorem reads_general {table : Table} {query : Select}
    (h : Planning.general env (.table table query) p = .ok plan p') :
    ∃ routing q, env.allocateRouting table query.filter p = .ok routing q ∧
      plan.reads = (routing, query.filter) := by
  obtain ⟨_, _, routing, q, hsource, hrouting, hreads⟩ :=
    reads_build (show (ofRelation (.table table query)).build env {} p = .ok plan p' from h)
  rw [source_ofRelation] at hsource hrouting hreads
  cases hsource
  exact ⟨routing, q, hrouting, hreads⟩

/-- The nodes that the general plan of a table reads. -/
theorem readNodes_general {table : Table} {query : Select}
    (h : Planning.general env (.table table query) p = .ok plan p') :
    ∃ routing q, env.allocateRouting table query.filter p = .ok routing q ∧
      plan.readNodes = routing.nodes := by
  obtain ⟨routing, q, hrouting, hreads⟩ := reads_general h
  exact ⟨routing, q, hrouting, by rw [Plan.readNodes_eq, hreads]⟩

end Reads

end Logical

end ShardedQuery

import ShardedQuery.Proofs.Planning.LocalGroups
import ShardedQuery.Proofs.Planning.PhaseIds
import ShardedQuery.Proofs.Planning.Widths

/-!
# Well-formed plans

The width of the rows of a plan, the columns its projections read and the order its rows are in are
kept apart from each other, and have to stay in step as a plan grows.

* `Plan.WellFormed` — every projection reads columns that are there, and a merge is over the rows of
  several nodes, on the handler, and the last one.
* `Plan.IsSound` — the invariant: the plan is well formed, has rows of a known width, and its order is
  one of its columns.  Aggregation may leave an order behind that is none, but not across nodes.
* `Logical.isSound_build` — **every plan of a tree is sound**.
* `Planning.plan_isWellFormed` — **every plan is well formed and has the width of its outputs**.
-/

namespace ShardedQuery

namespace Plan

/-- A plan that fits together.  It is a collect phase, or a merge phase over a collect phase. -/
inductive WellFormed (env : Environment) : Plan → Prop where
  /-- The projections of a collect phase begin with the symbols that it collects. -/
  | collect {phase : CollectPhase} {d : Delivery} (nodes : d.nodes = phase.nodes)
      (chain : Projection.Chain phase.toCollect.length phase.projections d.width) :
      WellFormed env (.collect phase d)
  /-- A merge phase gathers the rows of all nodes of a collect phase, which are not all on the
  handler.  Its projections begin with the columns of these rows; the rows that it gives are on the
  handler, and no cut is left to be made. -/
  | merge {source : CollectPhase} {sourceDelivery : Delivery} {phase : MergePhase} {d : Delivery}
      (wellFormed : WellFormed env (.collect source sourceDelivery))
      (spread : env.onHandler sourceDelivery.nodes = false) (distinct : sourceDelivery.nodes.Nodup)
      (sources : phase.sources = sourceDelivery.nodes.length) (positive : 1 ≤ phase.sources)
      (runsOn : phase.runsOn = [env.handler])
      (columns : phase.inputColumns = Symbol.inputColumns sourceDelivery.width)
      (chain : Projection.Chain phase.inputColumns.length phase.projections d.width)
      (nodes : d.nodes = [env.handler]) (window : d.window = .unbounded) :
      WellFormed env (.merge (.collect source sourceDelivery) phase d)

variable {env : Environment} {plan plan' : Plan} {m n : Nat} {p : Projection}
  {window : Option Window} {order : Option ColumnOrder}

/-- One more projection that fits.  A cut after a merge is made there and then. -/
theorem WellFormed.addProjection (h : plan.WellFormed env)
    (hadd : plan.addProjection p window order = .ok plan')
    (htakes : p.Takes plan.delivery.width n)
    (hwindow : env.onHandler plan.delivery.nodes = true → ∀ w ∈ window, w = .unbounded) :
    plan'.WellFormed env ∧ plan'.delivery.width = n := by
  have hwidth : plan'.delivery.width = n := by
    rw [delivery_addProjection hadd]
    exact htakes.width
  refine ⟨?_, hwidth⟩
  cases h with
  | collect nodes chain =>
    cases hadd
    refine .collect nodes ?_
    rw [show (Delivery.project _ _ _ _).width = n from hwidth]
    exact chain.snoc htakes
  | merge wellFormed spread distinct sources positive runsOn columns chain nodes hcut =>
    cases hadd
    refine .merge wellFormed spread distinct sources positive runsOn columns ?_ nodes ?_
    · rw [show (Delivery.project _ _ _ _).width = n from hwidth]
      exact chain.snoc htakes
    · cases window with
      | none => exact hcut
      | some w => exact hwindow (nodes ▸ env.onHandler_handler) w rfl

/-- **The invariant of a plan that grows**: it is well formed, its rows are of a width, and they are in
an order by their columns where they are on several nodes or the order is `exact` anyway. -/
structure IsSound (env : Environment) (exact : Prop) (n : Nat) (plan : Plan) : Prop where
  wellFormed : plan.WellFormed env
  width : plan.delivery.width = n
  order : exact ∨ env.onHandler plan.delivery.nodes = false →
    ∀ o ∈ plan.delivery.order, o.FitsIn n

variable {exact : Prop}

theorem IsSound.addProjection (h : plan.IsSound env exact m)
    (hadd : plan.addProjection p window order = .ok plan') (htakes : p.Takes m n)
    (hwindow : env.onHandler plan.delivery.nodes = true → ∀ w ∈ window, w = .unbounded)
    (horder : exact ∨ env.onHandler plan.delivery.nodes = false →
      ∀ o ∈ order.or plan.delivery.order, o.FitsIn n) : plan'.IsSound env exact n := by
  have hplan' := h.wellFormed.addProjection hadd (by rw [h.width]; exact htakes) hwindow
  refine ⟨hplan'.1, hplan'.2, ?_⟩
  rw [delivery_addProjection hadd]
  exact horder

theorem IsSound.mono {exact' : Prop} (h : plan.IsSound env exact n) (hexact : exact' → exact) :
    plan.IsSound env exact' n :=
  ⟨h.wellFormed, h.width, fun ho => h.order (ho.imp_left hexact)⟩

/-- Rows that are known to be in no order are in one of their columns. -/
theorem IsSound.of_order_eq_none (hplan : plan.WellFormed env) (hwidth : plan.delivery.width = n)
    (hnone : plan.delivery.order = none) : plan.IsSound env exact n := by
  refine ⟨hplan, hwidth, fun _ o ho => ?_⟩
  rw [hnone] at ho
  cases ho

theorem WellFormed.clearOrder (h : plan.WellFormed env) : plan.clearOrder.WellFormed env := by
  cases h with
  | collect nodes chain => exact .collect nodes chain
  | merge wellFormed spread distinct sources positive runsOn columns chain nodes window =>
    exact .merge wellFormed spread distinct sources positive runsOn columns chain nodes window

/-- A merge on the handler of rows that are not all there. -/
theorem WellFormed.mergeOnHandler (h : plan.WellFormed env)
    (hspread : env.onHandler plan.delivery.nodes = false) (htakes : p.Takes plan.delivery.width n)
    {maxRows : Option Nat} {q q' : Progress}
    (hmerge : env.mergeOnHandler plan p n maxRows q = .ok plan' q') :
    plan'.WellFormed env ∧ plan'.delivery.width = n ∧ plan'.delivery.order = none := by
  obtain ⟨id, q₁, -, hmerge⟩ := Planning.bind_eq_ok.mp hmerge
  obtain ⟨rfl, -⟩ := Planning.pure_eq_ok.mp hmerge
  refine ⟨?_, rfl, rfl⟩
  cases h with
  | merge _ _ _ _ _ _ _ _ nodes _ =>
    have honHandler := env.onHandler_handler
    rw [← nodes] at honHandler
    exact absurd (honHandler.symm.trans hspread) (by decide)
  | @collect phase d nodes chain =>
    have hpositive : 1 ≤ d.nodes.length := by
      cases hnodes : d.nodes with
      | nil =>
        have hnone : env.onHandler d.nodes = true := congrArg env.onHandler hnodes
        exact absurd (hnone.symm.trans hspread) (by decide)
      | cons node rest => exact Nat.succ_pos _
    have hdistinct : d.nodes.Nodup := by
      rw [nodes]
      exact Std.TreeMap.nodup_keys
    refine .merge (.collect nodes chain) hspread hdistinct rfl hpositive rfl rfl ?_ ?_ rfl
    · rw [← List.nil_append [p]]
      refine Projection.Chain.nil.snoc ?_
      exact (Symbol.length_inputColumns d.width).symm ▸ htakes
    · rfl

end Plan

/-! ### One step -/

namespace Logical

variable {env : Environment} {exact : Prop} {plan plan' : Plan} {n : Nat} {inputs : List Symbol}
  {p p' : Progress}

theorem isSound_collectStep {relation : Relation} {toCollect : List Symbol} {clause : WhereClause}
    {request : Request} (h : collectStep env relation toCollect clause request p = .ok plan p') :
    plan.IsSound env exact toCollect.length := by
  cases relation with
  | derived name query => exact absurd h Planning.throw_ne_ok
  | table table query =>
    obtain ⟨phase, hprojections, hcollect, -, -, -, rfl⟩ := Engine.collectStep_eq_ok h
    refine ⟨.collect rfl ?_, rfl, fun _ o ho => ?_⟩
    · rw [hprojections, hcollect]
      exact .nil
    · obtain ⟨ob, -, ho⟩ := Option.bind_eq_some_iff.mp ho
      exact ColumnOrder.fitsIn_ofOrderBy? ho

/-- An aggregation gives rows of a new width, and keeps at most the order that there was. -/
theorem isSound_inTiers {full toPartial toFinal : Except PlanningError Projection} {width : Nat}
    {maxRows : Option Nat} (hplan : plan.IsSound env False n)
    (hfull : ∀ f, full = .ok f → f.Takes n width)
    (hpartial : ∀ f, toPartial = .ok f → f.Takes n width)
    (hfinal : ∀ f, toFinal = .ok f → f.Takes width width)
    (h : inTiers env full toPartial toFinal width maxRows plan p = .ok plan' p') :
    plan'.IsSound env (plan.delivery.order = none) width := by
  have hadded : ∀ f, f.Takes n width → ∀ added, plan.addProjection f none none = .ok added →
      added.WellFormed env ∧ added.delivery.width = width := by
    intro f hf added hadd
    refine hplan.wellFormed.addProjection hadd ?_ (fun _ w hw => nomatch hw)
    rw [hplan.width]
    exact hf
  rcases inTiers_eq_ok h with ⟨honHandler, f, hf, hadd⟩ |
    ⟨hspread, f, g, added, hf, hg, hadd, hmerge⟩
  · obtain ⟨hwellFormed, hwidth⟩ := hadded f (hfull f hf) plan' hadd
    refine ⟨hwellFormed, hwidth, ?_⟩
    rw [Plan.delivery_addProjection hadd]
    rintro (hnone | hspread) o ho
    · rw [show (plan.delivery.project f none none).order = _ from hnone] at ho
      cases ho
    · exact absurd (honHandler.symm.trans hspread) (by decide)
  · obtain ⟨hwellFormed, hwidth⟩ := hadded f (hpartial f hf) added hadd
    have hspread' : env.onHandler added.delivery.nodes = false := by
      rw [Plan.delivery_addProjection hadd]
      exact hspread
    obtain ⟨hmerged, hwidth, hnone⟩ :=
      hwellFormed.mergeOnHandler hspread' (hwidth.symm ▸ hfinal g hg) hmerge
    exact .of_order_eq_none hmerged hwidth hnone

theorem isSound_filterStep {having : Symbol} (hplan : plan.IsSound env exact inputs.length)
    (h : filterStep inputs having plan = .ok plan') : plan'.IsSound env exact inputs.length := by
  obtain ⟨f, hf, hadd⟩ := except_bind_eq_ok.mp h
  exact hplan.addProjection hadd (Projection.takes_filterOf hf) (fun _ w hw => nomatch hw)
    hplan.order

theorem isSound_orderStep {o : OrderBy} {window : Window}
    (hplan : plan.IsSound env exact inputs.length)
    (h : orderStep inputs o window plan = .ok plan') : plan'.IsSound env exact inputs.length := by
  unfold orderStep at h
  split at h
  · cases h
    exact hplan
  · rename_i hnone
    obtain ⟨sorted, hsorted, hadd⟩ := except_bind_eq_ok.mp h
    refine hplan.addProjection hadd (Projection.takes_arrange hsorted)
      (fun _ w hw => nomatch hw) ?_
    intro _ order horder
    rw [hnone, Option.or_none] at horder
    exact ColumnOrder.fitsIn_ofOrderBy? horder

theorem isSound_limitStep {window : Window} (hplan : plan.IsSound env exact inputs.length)
    (h : limitStep env inputs window plan = .ok plan') : plan'.IsSound env exact inputs.length := by
  unfold limitStep at h
  split at h
  · refine hplan.addProjection h (Projection.takes_topN _ _) ?_ hplan.order
    rintro _ w ⟨⟩
    rfl
  · rename_i hspread
    exact hplan.addProjection h (Projection.takes_topN _ _)
      (fun honHandler => absurd honHandler hspread) hplan.order

/-- Laying out keeps an order that is found in the outputs, and drops any other. -/
theorem isSound_evalStep {outputs : List Symbol} (hplan : plan.IsSound env exact inputs.length)
    (h : evalStep env inputs outputs plan p = .ok plan' p') :
    plan'.IsSound env exact outputs.length := by
  obtain ⟨eval, _, heval, h⟩ := Planning.bind_eq_ok.mp h
  have htakes := Projection.takes_arrange (Planning.ofExcept_eq_ok.mp heval).1
  cases horder : plan.delivery.order with
  | none =>
    simp only [horder] at h
    refine hplan.addProjection (Planning.ofExcept_eq_ok.mp h).1 htakes
      (fun _ w hw => nomatch hw) ?_
    intro _ o ho
    rw [horder] at ho
    cases ho
  | some sortedBy =>
    cases hremap : sortedBy.remap? inputs outputs with
    | some remapped =>
      simp only [horder, hremap] at h
      refine hplan.addProjection (Planning.ofExcept_eq_ok.mp h).1 htakes
        (fun _ w hw => nomatch hw) ?_
      intro hexact o ho
      cases ho
      exact (hplan.order hexact sortedBy horder).remap? hremap
    | none =>
      simp only [horder, hremap] at h
      split at h
      · obtain ⟨added, hadd, hclear⟩ := except_bind_eq_ok.mp (Planning.ofExcept_eq_ok.mp h).1
        cases hclear
        have hadded := hplan.wellFormed.addProjection hadd (by rw [hplan.width]; exact htakes)
          (fun _ w hw => nomatch hw)
        refine .of_order_eq_none hadded.1.clearOrder ?_ ?_
        · rw [Plan.clearOrder, Plan.delivery_withDelivery]
          exact hadded.2
        · rw [Plan.clearOrder, Plan.delivery_withDelivery]
      · rename_i hspread
        rw [Bool.not_eq_true] at hspread
        obtain ⟨merged, _, hmerge, h⟩ := Planning.bind_eq_ok.mp h
        -- across nodes the order is one of the columns, so that a merge can sort by it
        have hsorted := hplan.order (.inr hspread) sortedBy horder
        rw [← hplan.width] at hsorted
        obtain ⟨hmerged, hwidth, hnone⟩ :=
          hplan.wellFormed.mergeOnHandler hspread (Projection.takes_orderedTopN _ hsorted) hmerge
        have hsound : merged.IsSound env exact inputs.length :=
          .of_order_eq_none hmerged (hwidth.trans hplan.width) hnone
        refine hsound.addProjection (Planning.ofExcept_eq_ok.mp h).1 htakes
          (fun _ w hw => nomatch hw) ?_
        intro _ o ho
        rw [hnone] at ho
        cases ho

/-! ### Trees -/

/-- The tree is a leaf. -/
def IsLeaf : Logical → Prop
  | collect .. => True
  | aggregate .. | group .. | filter .. | order .. | limit .. | eval .. => False

/-- Nothing stands between an aggregation and the leaf of the tree, as in the tree of a query. -/
def AggregatesLeaf : Logical → Prop
  | collect .. => True
  | aggregate s _ | group s _ _ => s.IsLeaf
  | filter s _ | order s _ | limit s _ _ | eval s _ => s.AggregatesLeaf

/-- A leaf that nothing is asked of names no order and no bound. -/
theorem exists_of_isLeaf {t : Logical} (ht : t.IsLeaf) (h : t.build env {} p = .ok plan p') :
    ∃ phase width, plan = .ofCollect phase {} width none none := by
  cases t with
  | collect relation toCollect clause =>
    cases relation with
    | derived name query => exact absurd h Planning.throw_ne_ok
    | table table query =>
      obtain ⟨phase, -, -, -, -, -, rfl⟩ := Engine.collectStep_eq_ok h
      exact ⟨phase, toCollect.length, rfl⟩
  | aggregate | group | filter | order | limit | eval => cases ht

theorem order_of_isLeaf {t : Logical} (ht : t.IsLeaf) (h : t.build env {} p = .ok plan p') :
    plan.delivery.order = none := by
  obtain ⟨phase, width, rfl⟩ := exists_of_isLeaf ht h
  rfl

/-- **Every plan of a tree is sound**, and its rows are as wide as the outputs of the tree. -/
theorem isSound_build {t : Logical} {request : Request}
    (h : t.build env request p = .ok plan p') :
    plan.IsSound env t.AggregatesLeaf t.outputs.length := by
  induction t generalizing request plan p p' with
  | collect relation toCollect clause => exact isSound_collectStep h
  | aggregate s aggregates ih =>
    obtain ⟨plan₀, q, hsource, hstep⟩ := Planning.bind_eq_ok.mp h
    exact (isSound_inTiers ((ih hsource).mono False.elim)
      (fun _ hf => Projection.takes_aggregationOf hf)
      (fun _ hf => Projection.takes_aggregationOf hf)
      (fun _ hf => Projection.takes_aggregationOf hf) (aggregateStep_eq .. ▸ hstep)).mono
      fun hleaf => order_of_isLeaf hleaf hsource
  | group s keys aggregates ih =>
    obtain ⟨plan₀, q, hsource, hstep⟩ := Planning.bind_eq_ok.mp h
    exact (isSound_inTiers ((ih hsource).mono False.elim)
      (fun _ hf => Projection.takes_groupOf hf) (fun _ hf => Projection.takes_groupOf hf)
      (fun _ hf => Projection.takes_groupOf hf) (groupStep_eq .. ▸ hstep)).mono
      fun hleaf => order_of_isLeaf hleaf hsource
  | filter s having ih =>
    obtain ⟨plan₀, q, hsource, hstep⟩ := Planning.bind_eq_ok.mp h
    exact isSound_filterStep (ih hsource) (Planning.ofExcept_eq_ok.mp hstep).1
  | order s o ih =>
    obtain ⟨plan₀, q, hsource, hstep⟩ := Planning.bind_eq_ok.mp h
    exact isSound_orderStep (ih hsource) (Planning.ofExcept_eq_ok.mp hstep).1
  | limit s n m ih =>
    obtain ⟨w, q₀, -, h⟩ := Planning.bind_eq_ok.mp h
    obtain ⟨plan₀, q, hsource, hstep⟩ := Planning.bind_eq_ok.mp h
    exact isSound_limitStep (ih hsource) (Planning.ofExcept_eq_ok.mp hstep).1
  | eval s outputs ih =>
    obtain ⟨plan₀, q, hsource, hstep⟩ := Planning.bind_eq_ok.mp h
    exact isSound_evalStep (ih hsource) hstep

theorem aggregatesLeaf_ofRelation (relation : Relation) :
    (ofRelation relation).AggregatesLeaf := by
  have hbase : (base relation).AggregatesLeaf := by
    unfold base
    dsimp only
    split
    · trivial
    · split <;> trivial
  have hhaving : ∀ t : Logical, t.AggregatesLeaf → (having relation.query t).AggregatesLeaf := by
    intro t ht
    unfold having
    cases relation.query.having <;> exact ht
  have hordered : ∀ t : Logical, t.AggregatesLeaf → (ordered relation.query t).AggregatesLeaf := by
    intro t ht
    unfold ordered
    cases relation.query.orderBy <;> exact ht
  have hlimited : ∀ t : Logical, t.AggregatesLeaf → (limited relation.query t).AggregatesLeaf := by
    intro t ht
    unfold limited
    split <;> exact ht
  rw [ofRelation_eq]
  unfold laidOut
  split <;> exact hlimited _ (hordered _ (hhaving _ hbase))

/-- The tree of a query has as many outputs as the query. -/
theorem length_outputs_ofRelation (relation : Relation) :
    (ofRelation relation).outputs.length = relation.query.outputs.length := by
  rw [ofRelation_eq]
  unfold laidOut
  split
  · rename_i hsame
    exact ((Symbol.list_beq_iff _ _).mp hsame).length_eq
  · rfl

end Logical

/-! ### Plans of queries -/

namespace Planning

variable {env : Environment} {table : Table} {query : Select} {p p' : Progress} {plan' : Plan}

/-- **Grouping where the rows are read gives a sound plan**, as wide as the outputs of the query. -/
theorem isSound_groupOnCollectors (h : groupOnCollectors env table query p = .ok plan' p') :
    plan'.IsSound env True query.outputs.length := by
  obtain ⟨phase, p₁, keys', ags, filters, w, arranged, -, hcollect, -, -, hkeys, hags, hfilters, -,
    hplan⟩ := groupOnCollectors_eq_ok h
  have hgroup : Projection.groupOf (Split.ofSelect query).toCollect query.groupKeys
      (Split.ofSelect query).aggregates .rowsToFinal .shard =
        .ok (.group keys' ags .rowsToFinal .shard) := by
    rw [Projection.groupOf, hkeys, hags]
    rfl
  have hfirst := Projection.takes_groupOf hgroup
  rw [← hcollect] at hfirst
  have hfilter : ∀ f ∈ filters, f.Takes (query.groupKeys ++ (Split.ofSelect query).aggregates).length
      (query.groupKeys ++ (Split.ofSelect query).aggregates).length := by
    intro f hf
    obtain ⟨having, -, hhaving⟩ := exists_of_mem_right (forall₂_of_except_mapM hfilters) hf
    exact Projection.takes_filterOf hhaving
  have hchain := (Projection.Chain.nil.snoc hfirst).append hfilter
  rcases hplan with ⟨-, harranged, rfl⟩ | ⟨o, toFinal, q₁, ho, hspread, harranged, hfinal, hmerge⟩
  · refine ⟨.collect rfl (hchain.snoc (Projection.takes_arrange harranged)), rfl, ?_⟩
    intro _ order horder
    obtain ⟨ob, -, horder⟩ := Option.bind_eq_some_iff.mp horder
    exact ColumnOrder.fitsIn_ofOrderBy? horder
  · have hcollected := hchain.snoc (Projection.takes_arrange harranged)
    obtain ⟨hmerged, hwidth, hnone⟩ := Plan.WellFormed.mergeOnHandler (.collect rfl hcollected)
      hspread (Projection.takes_arrange hfinal) hmerge
    exact .of_order_eq_none hmerged hwidth hnone

/-- **Where a plan comes from**: it is a count, or the groups are computed where the rows are read, or
it is planned by way of its tree. -/
theorem plan_eq_ok {relation : Relation} (h : plan env relation p = .ok plan' p') :
    (∃ phase, plan' = .ofCount phase) ∨
    (∃ table query, relation = .table table query ∧ query.groupBy ≠ none ∧
      groupOnCollectors env table query p = .ok plan' p') ∨
    general env relation p = .ok plan' p' := by
  have hends : EndsIn (plan env relation) p (fun plan q => (∃ phase, plan = .ofCount phase) ∨
      (∃ table query, relation = .table table query ∧ query.groupBy ≠ none ∧
        groupOnCollectors env table query p = .ok plan q) ∨
      general env relation p = .ok plan q) (fun _ _ => True) := by
    refine endsIn_plan_of ?_ ?_ ?_
    · rintro table query rfl
      refine (endsIn_count? table query).of_ok fun plan? q hq hplan? => ?_
      cases plan? with
      | none => exact hplan?
      | some plan =>
        obtain ⟨phase, _, _, rfl, -⟩ := count?_eq_ok hq
        exact .inl ⟨phase, rfl⟩
    · rintro table query rfl
      refine (endsIn_localGroups? table query).of_ok fun plan? q hq hplan? => ?_
      cases plan? with
      | none => exact hplan?
      | some plan =>
        obtain ⟨keys, hkeys, -, hgroups⟩ := localGroups?_eq_ok hq
        exact .inr (.inl ⟨table, query, rfl, by rw [hkeys]; exact Option.some_ne_none keys,
          hgroups⟩)
    · exact (Logical.endsIn_build (Logical.ofRelation relation) {} p).of_ok
        fun plan q hq _ => .inr (.inr hq)
  unfold EndsIn at hends
  rw [h] at hends
  exact hends

/-- **A plan is a count, or it is sound** and as wide as the outputs of the query. -/
theorem isSound_plan {relation : Relation} (h : plan env relation p = .ok plan' p') :
    (∃ phase, plan' = .ofCount phase) ∨ plan'.IsSound env True relation.query.outputs.length := by
  rcases plan_eq_ok h with hcount | ⟨table, query, rfl, -, hgroups⟩ | hgeneral
  · exact .inl hcount
  · exact .inr (isSound_groupOnCollectors hgroups)
  · have hsound := Logical.isSound_build
      (show (Logical.ofRelation relation).build env {} p = .ok plan' p' from hgeneral)
    rw [Logical.length_outputs_ofRelation] at hsound
    exact .inr (hsound.mono fun _ => Logical.aggregatesLeaf_ofRelation relation)

/-- **Every plan is well formed.**

* The plan of any tree, for whatever its consumer asks, is well formed and as wide as the outputs of
  the tree; and where its rows are on several nodes, they are in an order by their columns, if in any.
* The plan of a relation that is not a count is well formed and as wide as the outputs of the query;
  its rows are in an order by their columns, if in any, wherever they are. -/
theorem plan_isWellFormed (env : Environment) :
    (∀ (t : Logical) request p plan' p', t.build env request p = .ok plan' p' →
      plan'.WellFormed env ∧ plan'.delivery.width = t.outputs.length ∧
      (env.onHandler plan'.delivery.nodes = false →
        ∀ o ∈ plan'.delivery.order, o.FitsIn plan'.delivery.width)) ∧
    ∀ relation p plan' p', plan env relation p = .ok plan' p' →
      (∀ phase d, plan' ≠ .count phase d) →
      plan'.WellFormed env ∧ plan'.delivery.width = relation.query.outputs.length ∧
      ∀ o ∈ plan'.delivery.order, o.FitsIn plan'.delivery.width := by
  constructor
  · intro t request p plan' p' h
    have hsound := Logical.isSound_build h
    refine ⟨hsound.wellFormed, hsound.width, fun hspread => ?_⟩
    rw [hsound.width]
    exact hsound.order (.inr hspread)
  · intro relation p plan' p' h hcount
    rcases isSound_plan h with ⟨phase, rfl⟩ | hsound
    · exact absurd rfl (hcount _ _)
    · refine ⟨hsound.wellFormed, hsound.width, ?_⟩
      rw [hsound.width]
      exact hsound.order (.inl trivial)

/-- A grouping in two phases, planned where the rows are and by way of its tree. -/
theorem plan_isWellFormed_topCity :
    let env := twoShards cityIndex
    let grouping : Relation := .table ((Table.ofDocuments "doc" "t").withClusteredBy "city") topCity
    (∃ plan' p', plan env grouping (.start 0) = .ok plan' p' ∧
      plan'.WellFormed env ∧ plan'.phaseIds.length = 2 ∧ plan'.delivery.width = 1) ∧
    ∃ plan' p', (Logical.ofRelation grouping).build env {} (.start 0) = .ok plan' p' ∧
      plan'.WellFormed env ∧ plan'.delivery.width = 1 := by
  intro env grouping
  obtain ⟨hbuild, hplan⟩ := plan_isWellFormed env
  obtain ⟨plan₁, p₁, h₁, hids⟩ : ∃ plan₁ p₁, plan env grouping (.start 0) = .ok plan₁ p₁ ∧
      plan₁.phaseIds.length = 2 := exists_of_succeedsWith (by decide +kernel)
  obtain ⟨plan₂, p₂, h₂, -⟩ : ∃ plan₂ p₂,
      (Logical.ofRelation grouping).build env {} (.start 0) = .ok plan₂ p₂ ∧ True :=
    exists_of_succeedsWith (by decide +kernel)
  have hcount : ∀ phase d, plan₁ ≠ .count phase d := by
    rintro phase d rfl
    cases hids
  obtain ⟨hwellFormed, hwidth, -⟩ := hplan grouping (.start 0) plan₁ p₁ h₁ hcount
  obtain ⟨hwellFormed', hwidth', -⟩ := hbuild (Logical.ofRelation grouping) {} (.start 0) plan₂ p₂ h₂
  exact ⟨⟨plan₁, p₁, h₁, hwellFormed, hids, hwidth⟩, plan₂, p₂, h₂, hwellFormed',
    hwidth'.trans (Logical.length_outputs_ofRelation grouping)⟩

end Planning

end ShardedQuery

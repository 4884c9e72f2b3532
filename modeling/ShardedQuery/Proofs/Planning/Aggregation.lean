import ShardedQuery.Proofs.Planning.Collecting
import ShardedQuery.Proofs.Semantics.Tiers

/-!
# Queries with aggregates

Aggregates and groups are computed in one tier if all records are on the handler, and in two if not:
partial states where the records are, and final values on the handler.  Either way the base of the
tree gives the rows of the groups on the handler, and the rest of the tree works on these.

* `Engine.sourced_aggregateStep`, `Engine.sourced_groupStep` — the rows of the groups, on the
  handler.
* `Select.aggregatesAmong_groups` — what a query calls is a column of its groups.
* `Select.IsAggregated` — a query with aggregates or a grouping that can be computed in tiers.
* `Engine.groupsOf` — the groups of a query: one for each value of the keys, or a single one.
* `Planning.aggregated_answers` — **the general plan delivers the answer over the groups**, wherever
  the records are.
-/

namespace ShardedQuery

namespace Engine

variable {E : Engine} {env : Environment} {placement : Placement} {plan : Plan} {p p' : Progress}

/-- Rows of all places in one batch on the handler are a base. -/
theorem sourced_of_single {outputs : List Symbol} {items : List Scope} {request : Request}
    (hlays : E.Lays placement plan outputs fun yss => ∃ zs : List Scope, zs.Perm items ∧ yss = [zs])
    (hwidth : plan.delivery.width = outputs.length) (horder : plan.delivery.order = none)
    (hwindow : plan.delivery.window = .unbounded)
    (hhandler : env.onHandler plan.delivery.nodes = true) :
    E.Sourced env placement plan outputs items request := by
  refine .onHandler ⟨hlays.imp fun yss hyss => ?_, hwidth, fun c hc => ?_, fun _ => .inl rfl⟩ horder
    hwindow hhandler
  · obtain ⟨zs, hperm, rfl⟩ := hyss
    refine ⟨covers_of_perm ?_, fun ys _ => E.pairwise_leOf_none ys, fun _ => ⟨zs, rfl⟩⟩
    rwa [List.flatten_cons, List.flatten_nil, List.append_nil]
  · rw [horder] at hc
    cases hc

section Tiers

variable {phase : CollectPhase} {width : Nat} {maxRows : Option Nat} {request : Request}
  (hphase : phase.projections = [])

include hphase

/-- A single node gives all matching records. -/
theorem lays_collect_single (hnodes : phase.nodes.length ≤ 1) (d : Delivery) :
    E.Lays placement (.collect phase d) phase.toCollect fun yss => ∃ rs : List Record,
      rs.Perm (E.matchingRecords placement phase.filter phase.nodes) ∧
        yss = [rs.map Record.scope] := by
  refine (lays_collect hphase d).imp fun yss hyss => ?_
  obtain ⟨rss, rfl, hperm, hlen, -⟩ := hyss
  obtain ⟨shards, hshards⟩ := placement.single_inputs phase.nodes hnodes
  rw [hshards] at hlen
  obtain ⟨rs, rfl⟩ := List.length_eq_one_iff.mp hlen
  rw [List.flatten_cons, List.flatten_nil, List.append_nil] at hperm
  exact ⟨rs, hperm, rfl⟩

/-- One step over all matching records on the handler. -/
theorem sourced_of_oneTier {full : Projection} {outputs : List Symbol} {items : List Scope}
    (hhandler : env.onHandler phase.nodes = true)
    (hadd : (Plan.ofCollect phase .unbounded width maxRows none).addProjection full none none =
      .ok plan) (hfull : full.IsJoinable) (hwidth : plan.delivery.width = outputs.length)
    (hstep : ∀ (rs : List Record) (out : List E.Tuple),
      rs.Perm (E.matchingRecords placement phase.filter phase.nodes) →
        E.Step full (E.rowsAt phase.toCollect (rs.map Record.scope)) out →
          ∃ zs : List Scope, zs.Perm items ∧ out = E.rowsAt outputs zs) :
    E.Sourced env placement plan outputs items request := by
  have hdelivery := Plan.delivery_addProjection hadd
  refine sourced_of_single ?_ hwidth (by rw [hdelivery]; rfl) (by rw [hdelivery]; rfl)
    (by rw [hdelivery]; exact hhandler)
  refine ((lays_collect_single hphase (length_le_one_of_onHandler hhandler) _).addProjection
    hadd hfull (fun _ zs => zs.Perm items) ?_).imp fun zss hzss => ?_
  · rintro _ ⟨rs, hperm, rfl⟩ ys hys out hout
    rw [List.mem_singleton.mp hys] at hout
    obtain ⟨zs, hzs, hout⟩ := hstep rs out hperm hout
    exact ⟨zs, hout, hzs⟩
  · obtain ⟨_, ⟨rs, -, rfl⟩, hzss⟩ := hzss
    cases hzss with
    | cons hzs hnil =>
      cases hnil
      exact ⟨_, hzs, rfl⟩

/-- **Aggregates over all matching records**, in one tier or in two. -/
theorem sourced_aggregateStep {aggregates : List Symbol} (h : Split.IsGroupable [] aggregates)
    (hstep : Logical.aggregateStep env phase.toCollect aggregates
      (.ofCollect phase .unbounded width maxRows none) p = .ok plan p') :
    E.Sourced env placement plan aggregates
      [E.groupScope (E.matchingRecords placement phase.filter phase.nodes)] request := by
  rw [Logical.aggregateStep_eq] at hstep
  rcases Logical.inTiers_eq_ok hstep with
    ⟨hhandler, full, hfull, hadd⟩ |
    ⟨-, toPartial, toFinal, added, hpartial, hfinal, hadd, hmerge⟩
  · obtain ⟨ags, hags, rfl⟩ := aggregationOf_eq_ok hfull
    have hwidth : ags.length = aggregates.length := (forall₂_of_except_mapM hags).length_eq.symm
    refine sourced_of_oneTier hphase hhandler hadd rfl
      (by rw [Plan.delivery_addProjection hadd]; exact hwidth) fun rs out hperm hout => ?_
    refine ⟨_, List.Perm.refl _, ?_⟩
    rw [step_aggregation_rowsToFinal h hags hout, tuple_over_perm h.aggregate hperm]
    rfl
  · obtain ⟨ags, hags, rfl⟩ := aggregationOf_eq_ok hpartial
    obtain ⟨ags', hags', rfl⟩ := aggregationOf_eq_ok hfinal
    obtain ⟨merge, hmergephase, rfl⟩ := mergeOnHandler_eq hmerge
    refine sourced_of_single ?_ rfl rfl rfl (beq_self_eq_true env.handler)
    intro bs hbs
    obtain ⟨batches, arrived, ys, hbatches, harrived, hout, rfl⟩ := E.emits_merge hmergephase hbs
    obtain ⟨bare, hbare, hsteps⟩ := E.emits_addProjection hadd rfl hbatches
    obtain ⟨_, rfl, rss, rfl, hperm, -, -⟩ := lays_collect hphase _ bare hbare
    have hstates : batches = rss.map fun rs => [E.pieceRow aggregates ([], rs)] := by
      rw [List.forall₂_map_left_iff, List.forall₂_map_left_iff] at hsteps
      exact eq_map_of_forall₂
        (hsteps.imp fun rs out hout => step_aggregation_rowsToPartial h hags hout)
    rw [hstates] at harrived
    obtain ⟨rss', hrss', rfl⟩ := exists_perm_of_perm_map harrived
    have hflat : (rss'.map fun rs => [E.pieceRow aggregates ([], rs)]).flatten =
        rss'.map fun rs => E.pieceRow aggregates ([], rs) := by
      rw [← List.flatMap_def, ← List.map_eq_flatMap]
    rw [hflat] at hout
    refine ⟨[[E.groupScope (E.matchingRecords placement phase.filter phase.nodes)]], ?_, _,
      List.Perm.refl _, rfl⟩
    rw [step_aggregation_partialToFinal h hags' hout,
      tuple_over_perm h.aggregate (hrss'.flatten.trans hperm)]
    rfl

/-- **Aggregates over the groups of the matching records**, in one tier or in two. -/
theorem sourced_groupStep (hunordered : phase.orderBy = none) {keys aggregates : List Symbol}
    (h : Split.IsGroupable keys aggregates)
    (hstep : Logical.groupStep env phase.toCollect keys aggregates
      (.ofCollect phase .unbounded width maxRows none) p = .ok plan p') :
    E.Sourced env placement plan (keys ++ aggregates)
      ((E.groups keys (E.matchingRecords placement phase.filter phase.nodes)).map E.groupScope)
      request := by
  rw [Logical.groupStep_eq] at hstep
  rcases Logical.inTiers_eq_ok hstep with
    ⟨hhandler, full, hfull, hadd⟩ |
    ⟨-, toPartial, toFinal, added, hpartial, hfinal, hadd, hmerge⟩
  · obtain ⟨keys', ags, hkeys, hags, rfl⟩ := groupOf_eq_ok hfull
    have hwidth : keys'.length + ags.length = (keys ++ aggregates).length := by
      rw [List.length_append, length_of_readAllFrom hkeys, (forall₂_of_except_mapM hags).length_eq]
    refine sourced_of_oneTier hphase hhandler hadd rfl
      (by rw [Plan.delivery_addProjection hadd]; exact hwidth) fun rs out hperm hout => ?_
    exact step_group_rowsToFinal h hkeys hags hout hperm
  · obtain ⟨keys', ags, hkeys, hags, rfl⟩ := groupOf_eq_ok hpartial
    obtain ⟨keys'', ags', hkeys', hags', rfl⟩ := groupOf_eq_ok hfinal
    obtain ⟨merge, hmergephase, rfl⟩ := mergeOnHandler_eq hmerge
    refine sourced_of_single ?_ rfl rfl rfl (beq_self_eq_true env.handler)
    intro bs hbs
    obtain ⟨batches, arrived, ys, hbatches, harrived, hout, rfl⟩ := E.emits_merge hmergephase hbs
    cases hadd
    have hprojections : phase.projections ++ [.group keys' ags .rowsToPartial .shard] =
        [.group keys' ags .rowsToPartial .shard] := by rw [hphase, List.nil_append]
    obtain ⟨pss, ⟨hpieces, hne⟩, rfl⟩ := emits_perShard (f := E.pieceRow aggregates)
      (Q := fun shards ps => E.Pieces keys shards.flatten ps ∧ ∀ p ∈ ps, p.2 ≠ []) hbatches rfl
      hprojections hunordered ⟨.nil, fun _ hp => absurd hp List.not_mem_nil⟩
      (fun as bs zs ws has hbs => ⟨by rw [List.flatten_append]; exact has.1.append hbs.1,
        fun p hp => (List.mem_append.mp hp).elim (has.2 p) (hbs.2 p)⟩)
      (fun rs out hout => by
        obtain ⟨ps, hps, hne, rfl⟩ := step_group_rowsToPartial h hkeys hags hout
        exact ⟨ps, ⟨by rwa [List.flatten_cons, List.flatten_nil, List.append_nil], hne⟩, rfl⟩)
    obtain ⟨pss', hpss', rfl⟩ := exists_perm_of_perm_map harrived
    rw [← List.map_flatten] at hout
    rw [flatten_flatMap_keptShards] at hpieces
    obtain ⟨zs, hzs, rfl⟩ := step_group_partialToFinal h hkeys' hags'
      (hpieces.perm_right hpss'.flatten)
      (fun p hp => hne p (hpss'.flatten.mem_iff.mp hp)) hout
    exact ⟨[zs], rfl, zs, hzs, rfl⟩

end Tiers

end Engine

/-! ### Queries -/

/-- All aggregates that a query calls are columns of its groups. -/
theorem Select.aggregatesAmong_groups {q : Select} {s : Symbol} (hs : s ∈ q.symbols) :
    s.AggregatesAmong (q.groupKeys ++ (Split.ofSelect q).aggregates) := by
  intro a ha
  obtain ⟨b, hb, hba⟩ := Split.exists_mem_aggregates hs ha
  exact ⟨b, List.mem_append_right _ hb, hba⟩

/-- So are those that the columns of the groups call. -/
theorem Select.aggregatesAmong_column {q : Select} (hkeys : ∀ k ∈ q.groupKeys, k.IsRowLevel)
    {s : Symbol} (hs : s ∈ q.groupKeys ++ (Split.ofSelect q).aggregates) :
    s.AggregatesAmong (q.groupKeys ++ (Split.ofSelect q).aggregates) := by
  rcases List.mem_append.mp hs with hk | hagg
  · exact .of_isRowLevel (hkeys s hk)
  · obtain ⟨f, args, rfl, hf⟩ :=
      Symbol.exists_call_of_isAggregate (Split.isAggregate_of_mem hagg)
    intro a ha
    rw [Symbol.outermost_call_of_aggregate hf, List.mem_singleton] at ha
    exact ⟨_, hs, by rw [ha]; exact Symbol.beq_refl _⟩

/-- A query with aggregates or a grouping.  Its keys call no aggregate, its aggregate calls are not
nested, and its functions are named in lower case. -/
structure Select.IsAggregated (q : Select) : Prop where
  aggregated : (Split.ofSelect q).aggregates ≠ [] ∨ q.groupBy ≠ none
  keys : ∀ k ∈ q.groupKeys, k.IsRowLevel
  unnested : ∀ s ∈ q.symbols, s.IsUnnested
  lowercase : ∀ s ∈ q.groupKeys ++ q.symbols, s.IsLowercase

/-- The groups of a query over some records: one for each value of the keys, or without a grouping a
single one of all records. -/
def Engine.groupsOf (E : Engine) (q : Select) (rs : List Record) : List Scope :=
  match q.groupBy with
  | some keys => (E.groups keys rs).map E.groupScope
  | none => [E.groupScope rs]

namespace Select.IsAggregated

variable {q : Select} (h : q.IsAggregated)

include h

theorem isGroupable : Split.IsGroupable q.groupKeys (Split.ofSelect q).aggregates where
  rowLevel := h.keys
  lowercase s hs := by
    rcases List.mem_append.mp hs with hs | hs
    · exact h.lowercase s (List.mem_append_left _ hs)
    · obtain ⟨t, ht, hst⟩ := Split.mem_aggregates hs
      exact (Symbol.outermost_spec hst).2.1 (h.lowercase t (List.mem_append_right _ ht))
  aggregate _ ha := Split.isAggregate_of_mem ha
  unnested a ha := by
    obtain ⟨t, ht, hat⟩ := Split.mem_aggregates ha
    exact (Symbol.outermost_spec hat).2.2 (h.unnested t ht)

/-- The symbols of the query can be computed from the rows of the groups. -/
theorem readable {s : Symbol} (hs : s ∈ q.symbols) :
    s.ReadableFrom (q.groupKeys ++ (Split.ofSelect q).aggregates) where
  lowercase := h.lowercase s (List.mem_append_right _ hs)
  aggregates := aggregatesAmong_groups hs

/-- So can the columns of these rows. -/
theorem readable_column {s : Symbol} (hs : s ∈ q.groupKeys ++ (Split.ofSelect q).aggregates) :
    s.ReadableFrom (q.groupKeys ++ (Split.ofSelect q).aggregates) where
  lowercase := h.isGroupable.lowercase s hs
  aggregates := aggregatesAmong_column h.keys hs

theorem outputs_base (table : Table) : (Logical.base (.table table q)).outputs =
    q.groupKeys ++ (Split.ofSelect q).aggregates :=
  Logical.outputs_base h.aggregated

/-- **The base of the tree gives the rows of the groups.** -/
theorem sourced_base {E : Engine} {env : Environment} {placement : Placement} {plan : Plan}
    {p p' p₁ : Progress} {table : Table} {request : Request} {routing : Routing}
    (hrouting : env.allocateRouting table q.filter p = .ok routing p₁)
    (hbuild : (Logical.base (.table table q)).build env request p = .ok plan p') :
    E.Sourced env placement plan (Logical.base (.table table q)).outputs
      (E.groupsOf q (E.matchingRecords placement q.filter routing.nodes)) request := by
  have hgroupable := h.isGroupable
  rw [h.outputs_base]
  unfold Engine.groupsOf
  cases hkeys : q.groupBy with
  | some keys =>
    rw [Logical.base_of_groupBy (r := .table table q) hkeys,
      show (Relation.table table q).query = q from rfl] at hbuild
    rw [Select.groupKeys, hkeys] at hgroupable
    obtain ⟨source, q₁, hsource, hstep⟩ := Planning.bind_eq_ok.mp hbuild
    obtain ⟨phase, hphase, hcollect, hfilter, hasked, ⟨q', hallocated⟩, rfl⟩ :=
      Engine.collectStep_eq_ok hsource
    rw [hrouting] at hallocated
    cases hallocated
    rw [Select.groupKeys, hkeys, ← hfilter]
    exact Engine.sourced_groupStep hphase hasked hgroupable (by rw [hcollect]; exact hstep)
  | none =>
    rw [Logical.base_of_aggregates (r := .table table q) hkeys
      (h.aggregated.resolve_right fun hne => hne hkeys),
      show (Relation.table table q).query = q from rfl] at hbuild
    rw [Select.groupKeys, hkeys] at hgroupable
    obtain ⟨source, q₁, hsource, hstep⟩ := Planning.bind_eq_ok.mp hbuild
    obtain ⟨phase, hphase, hcollect, hfilter, hasked, ⟨q', hallocated⟩, rfl⟩ :=
      Engine.collectStep_eq_ok hsource
    rw [hrouting] at hallocated
    cases hallocated
    rw [Select.groupKeys, hkeys, ← hfilter]
    exact Engine.sourced_aggregateStep hphase hgroupable (by rw [hcollect]; exact hstep)

end Select.IsAggregated

namespace Planning

variable {env : Environment} {table : Table} {q : Select} {p p' p₁ : Progress} {plan : Plan}
  {routing : Routing}

/-- The general plan delivers the answer over the groups of the records that its routing reads. -/
theorem general_answers_groups (E : Engine) (hq : q.IsAggregated)
    (hrouting : env.allocateRouting table q.filter p = .ok routing p₁)
    (hplan : general env (.table table q) p = .ok plan p') (placement : Placement)
    (hle : PreorderOn (E.leOf q.orderBy)
      (E.groupsOf q (E.matchingRecords placement q.filter routing.nodes))) :
    ∃ w, env.window q.limit q.offset = .ok w ∧ ∀ rows, E.Delivers placement plan rows →
      E.Answers q w (E.groupsOf q (E.matchingRecords placement q.filter routing.nodes)) rows :=
  Engine.answers_of_build (fun _ _ _ hbuild => hq.sourced_base hrouting hbuild)
    (fun s hs => by rw [hq.outputs_base]; exact hq.readable hs)
    (fun s hs => by rw [hq.outputs_base] at hs ⊢; exact hq.readable_column hs)
    (hle.mono fun x hx => (List.mem_filter.mp hx).1) hplan

/-- **The general plan of a query with aggregates delivers the answer over the groups.**  This holds
for every cluster and every placement of the records on the nodes that are read, whether the groups
are computed in one tier or in two, if the values to sort by are totally preordered. -/
theorem aggregated_answers (E : Engine) (hq : q.IsAggregated)
    (hplan : general env (.table table q) p = .ok plan p') (placement : Placement)
    (hle : PreorderOn (E.leOf q.orderBy)
      (E.groupsOf q (E.matchingRecords placement q.filter plan.readNodes))) :
    ∃ w, env.window q.limit q.offset = .ok w ∧ (∃ rows, E.Delivers placement plan rows) ∧
      ∀ rows, E.Delivers placement plan rows → E.Answers q w
        (E.groupsOf q (E.matchingRecords placement q.filter plan.readNodes)) rows := by
  obtain ⟨routing, p₁, hrouting, hnodes⟩ := Logical.readNodes_general hplan
  rw [hnodes] at hle ⊢
  obtain ⟨w, hwindow, hanswers⟩ := general_answers_groups E hq hrouting hplan placement hle
  exact ⟨w, hwindow, E.exists_delivers placement plan, hanswers⟩

/-- The number of nodes for each value of a column, the most frequent value first. -/
def countByLoad : Select where
  outputs := [load, .call "count" []]
  groupBy := some [load]
  orderBy := some (.descending (.call "count" []))

/-- The values of the column on two nodes, each of which has some records of one group.  The window
leaves all rows. -/
theorem aggregated_answers_countByLoad :
    let placement : Placement := fun node =>
      if node = "n1" then [[.ofInt 5], [.ofInt 2]] else [[.ofInt 5]]
    countByLoad.IsAggregated ∧ ∃ plan p',
      general twoNodes (.table (.ofNodes "sys" "nodes") countByLoad) (.start 0) = .ok plan p' ∧
      plan.readNodes = ["n1", "n2"] ∧
      twoNodes.window countByLoad.limit countByLoad.offset = .ok .unbounded ∧
      (∃ rows, Engine.counting.Delivers placement plan rows) ∧
      ∀ rows, Engine.counting.Delivers placement plan rows →
        Engine.counting.Answers countByLoad .unbounded (Engine.counting.groupsOf countByLoad
          (Engine.counting.matchingRecords placement {} plan.readNodes)) rows := by
  intro placement
  have hq : countByLoad.IsAggregated :=
    ⟨.inr (by simp [countByLoad]), by decide, by decide +kernel, by decide +kernel⟩
  obtain ⟨plan, p', hplan, hnodes⟩ : ∃ plan p',
      general twoNodes (.table (.ofNodes "sys" "nodes") countByLoad) (.start 0) = .ok plan p' ∧
        plan.readNodes = ["n1", "n2"] := exists_of_succeedsWith (by decide +kernel)
  have hall : twoNodes.window countByLoad.limit countByLoad.offset = .ok .unbounded :=
    twoNodes.window_none
  have hle : PreorderOn (Engine.counting.leOf countByLoad.orderBy)
      (Engine.counting.groupsOf countByLoad
        (Engine.counting.matchingRecords placement {} plan.readNodes)) := by
    rw [hnodes]
    decide +kernel
  obtain ⟨w, hwindow, hanswers⟩ := aggregated_answers Engine.counting hq hplan placement hle
  cases hall.symm.trans hwindow
  exact ⟨hq, plan, p', hplan, hnodes, hall, hanswers⟩

end Planning

end ShardedQuery

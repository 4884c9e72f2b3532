import ShardedQuery.Planning.LocalGroups
import ShardedQuery.Proofs.Planning.Aggregation

/-!
# Groups that lie on one shard each

If all records of a group are on one shard, the shards can compute final groups.  The planner does
so when a table is grouped by the column it is clustered by or by its primary key, and then filters,
sorts and cuts the groups where they are.

* `Engine.IsLocal` — equal values of the keys occur on one shard only.
* `Engine.perm_groups_flatten` — the groups of such shards are those of all records.
* `Engine.lays_localGroups` — final groups on each shard are the groups of all records.
* `Planning.localGroups_answers` — **the plan that groups where the records are delivers the answer
  over the groups**, as the general plan does.
-/

namespace ShardedQuery

namespace Engine

variable (E : Engine)

/-- Equal values of the keys occur on one shard only. -/
def IsLocal (keys : List Symbol) (shards : List (List Record)) : Prop :=
  shards.Pairwise fun rs rs' => ∀ r ∈ rs, ∀ r' ∈ rs', E.keyOf keys r ≠ E.keyOf keys r'

instance (keys : List Symbol) (shards : List (List Record)) :
    Decidable (E.IsLocal keys shards) := by
  unfold IsLocal
  infer_instance

variable {E} {env : Environment} {placement : Placement} {plan plan' : Plan} {p p' : Progress}
  {keys aggregates inputs outputs : List Symbol}

theorem IsLocal.filter {shards : List (List Record)} (h : E.IsLocal keys shards)
    (keep : Record → Bool) : E.IsLocal keys (shards.map (·.filter keep)) := by
  rw [IsLocal, List.pairwise_map]
  exact h.imp fun hne r hr r' hr' => hne r (List.mem_filter.mp hr).1 r' (List.mem_filter.mp hr').1

/-- A group lies in the part of the records that has its value of the keys. -/
theorem groupAt_append_left {rs rs' : List Record} {k : List Literal}
    (h : ∀ r ∈ rs', E.keyOf keys r ≠ k) : E.groupAt keys (rs ++ rs') k = E.groupAt keys rs k := by
  have hnone : E.groupAt keys rs' k = [] :=
    List.filter_eq_nil_iff.mpr fun r hr => by simpa using h r hr
  rw [groupAt, List.filter_append, show rs'.filter _ = [] from hnone, List.append_nil]
  rfl

theorem groupAt_append_right {rs rs' : List Record} {k : List Literal}
    (h : ∀ r ∈ rs, E.keyOf keys r ≠ k) : E.groupAt keys (rs ++ rs') k = E.groupAt keys rs' k := by
  have hnone : E.groupAt keys rs k = [] :=
    List.filter_eq_nil_iff.mpr fun r hr => by simpa using h r hr
  rw [groupAt, List.filter_append, show rs.filter _ = [] from hnone, List.nil_append]
  rfl

/-- Records without a common value of the keys are grouped apart. -/
theorem perm_groups_append {rs rs' : List Record}
    (h : ∀ r ∈ rs, ∀ r' ∈ rs', E.keyOf keys r ≠ E.keyOf keys r') :
    (E.groups keys (rs ++ rs')).Perm (E.groups keys rs ++ E.groups keys rs') := by
  have hdedup : ((rs ++ rs').map (E.keyOf keys)).dedup.Perm
      ((rs.map (E.keyOf keys)).dedup ++ (rs'.map (E.keyOf keys)).dedup) := by
    refine (List.perm_ext_iff_of_nodup (List.nodup_dedup _) ?_).mpr fun k => ?_
    · rw [List.nodup_append]
      refine ⟨List.nodup_dedup _, List.nodup_dedup _, fun k hk k' hk' => ?_⟩
      obtain ⟨r, hr, rfl⟩ := List.mem_map.mp (List.mem_dedup.mp hk)
      obtain ⟨r', hr', rfl⟩ := List.mem_map.mp (List.mem_dedup.mp hk')
      exact h r hr r' hr'
    · rw [List.mem_dedup, List.map_append, List.mem_append, List.mem_append, List.mem_dedup,
        List.mem_dedup]
  refine (hdedup.map _).trans (List.Perm.of_eq ?_)
  rw [List.map_append, groups, groups]
  refine congrArg₂ (· ++ ·) (List.map_congr_left fun k hk => ?_)
    (List.map_congr_left fun k hk => ?_)
  · obtain ⟨r, hr, rfl⟩ := List.mem_map.mp (List.mem_dedup.mp hk)
    exact groupAt_append_left fun r' hr' => (h r hr r' hr').symm
  · obtain ⟨r', hr', rfl⟩ := List.mem_map.mp (List.mem_dedup.mp hk)
    exact groupAt_append_right fun r hr => h r hr r' hr'

/-- **The groups of shards without a common value of the keys are those of all records.** -/
theorem perm_groups_flatten {shards : List (List Record)} (h : E.IsLocal keys shards) :
    (E.groups keys shards.flatten).Perm (shards.flatMap (E.groups keys)) := by
  induction shards with
  | nil => exact List.Perm.refl _
  | cons rs shards ih =>
    obtain ⟨hrs, hshards⟩ := List.pairwise_cons.mp h
    rw [List.flatten_cons, List.flatMap_cons]
    refine (perm_groups_append fun r hr r' hr' => ?_).trans ((ih hshards).append_left _)
    obtain ⟨rs', hrs', hmem⟩ := List.mem_flatten.mp hr'
    exact hrs rs' hrs' r hr r' hmem

theorem flatMap_keptShards (placement : Placement) (clause : WhereClause) (nodes : List String) :
    (placement.inputs nodes).flatMap (E.keptShards clause) =
      (nodes.flatMap placement).map (·.filter (E.matching clause)) := by
  cases nodes with
  | nil => rfl
  | cons node nodes =>
    rw [Placement.inputs, if_neg (by simp), List.flatMap_map, List.map_flatMap]
    rfl

/-- **Final groups on each shard are the groups of all matching records.** -/
theorem lays_localGroups {phase : CollectPhase} {d : Delivery} {keys' : List Symbol}
    {ags : List Aggregation} (h : Split.IsGroupable keys aggregates)
    (hkeys : Symbol.readAllFrom phase.toCollect keys = .ok keys')
    (hags : aggregates.mapM (Aggregation.ofCall phase.toCollect .rowsToFinal) = .ok ags)
    (hphase : phase.projections = [.group keys' ags .rowsToFinal .shard])
    (horder : phase.orderBy = none) (hlocal : E.IsLocal keys (phase.nodes.flatMap placement)) :
    E.Lays placement (.collect phase d) (keys ++ aggregates) (Spread (E.leOf none) none
      ((E.groups keys (E.matchingRecords placement phase.filter phase.nodes)).map E.groupScope)
      phase.nodes.length) := by
  intro bs hbs
  obtain ⟨zss, hzss, rfl⟩ := emits_perShard (f := E.tuple (keys ++ aggregates))
    (Q := fun shards zs => zs.Perm ((shards.flatMap (E.groups keys)).map E.groupScope)) hbs rfl
    hphase horder (List.Perm.refl _)
    (fun as bs zs ws has hbs => by
      rw [List.flatMap_append, List.map_append]
      exact has.append hbs)
    (fun rs out hout => by
      obtain ⟨zs, hzs, rfl⟩ := step_group_rowsToFinal h hkeys hags hout (List.Perm.refl rs)
      exact ⟨zs, by rwa [List.flatMap_singleton], rfl⟩)
  have hall : zss.flatten.Perm
      ((E.groups keys (E.matchingRecords placement phase.filter phase.nodes)).map
        E.groupScope) := by
    rw [← flatten_flatMap_keptShards]
    refine hzss.trans ((perm_groups_flatten ?_).symm.map _)
    rw [flatMap_keptShards]
    exact hlocal.filter _
  refine ⟨zss, rfl, covers_of_perm hall, fun ys _ => E.pairwise_leOf_none ys, fun hnodes => ?_⟩
  obtain ⟨shards, hshards⟩ := placement.single_inputs phase.nodes hnodes
  have hlen := (show List.Forall₂ (E.Reads phase) _ _ from hbs).length_eq
  rw [hshards, List.length_map] at hlen
  exact List.length_eq_one_iff.mp hlen.symm

/-- Rows that are sorted if there is an order, cut, and laid out as the outputs. -/
theorem lays_arrange {items : List Scope} {o : Option OrderBy} {keep : Option Nat} {nodes : Nat}
    {arranged : Projection} {window : Option Window} {order : Option ColumnOrder}
    (h : E.Lays placement plan inputs (Spread (E.leOf none) none items nodes))
    (hle : PreorderOn (E.leOf o) items) (hread : ∀ s ∈ outputs, s.ReadableFrom inputs)
    (horder : ∀ ob, o = some ob → ∀ s ∈ ob.symbols, s.ReadableFrom inputs)
    (harranged : Projection.arrange inputs o ⟨keep, 0⟩ outputs = .ok arranged)
    (hadd : plan.addProjection arranged window order = .ok plan') :
    E.Lays placement plan' outputs (Spread (E.leOf o) keep items nodes) := by
  cases o with
  | some ob =>
    obtain ⟨outs, ks, houts, hks, rfl⟩ := arrange_orderedTopN harranged
    exact lays_orderedTopN h hle (E.project_readAllFrom hread houts) (horder ob rfl) hks hadd
  | none =>
    obtain ⟨outs, houts, harranged⟩ := except_bind_eq_ok.mp harranged
    have hproject := E.project_readAllFrom hread houts
    have hstep : arranged.IsJoinable ∧ ∀ ys out, E.Step arranged (E.rowsAt inputs ys) out →
        out = E.rowsAt outputs (Window.first keep ys) := by
      cases keep with
      | none =>
        cases harranged
        exact ⟨rfl, fun ys out hout => step_eval hproject hout⟩
      | some n =>
        cases harranged
        exact ⟨rfl, fun ys out hout => step_topN hproject hout⟩
    refine (h.addProjection hadd hstep.1 (fun ys zs => zs = Window.first keep ys)
      fun yss _ ys _ out hout => ⟨_, hstep.2 ys out hout, rfl⟩).imp fun zss hzss => ?_
    obtain ⟨yss, hspread, hfirst⟩ := hzss
    refine Spread.of_forall₂ (covers_of_perm hspread.covers.perm_of_none) hspread.single hle
      (hfirst.imp fun ys zs hzs => ?_)
    rw [hzs]
    exact ⟨covers_first (E.pairwise_leOf_none ys), E.pairwise_leOf_none _⟩

/-- The groups that HAVING keeps. -/
def keptGroups (E : Engine) (q : Select) (rs : List Record) : List Scope :=
  ((E.groups q.groupKeys rs).map E.groupScope).filter (E.kept q)

/-- Final groups on each shard, of which HAVING keeps some. -/
theorem lays_localGroups_having {q : Select} {phase : CollectPhase} {keys' : List Symbol}
    {ags : List Aggregation} {filters : List Projection}
    (h : Split.IsGroupable q.groupKeys aggregates)
    (hhaving : ∀ s, q.having = some s → s.ReadableFrom (q.groupKeys ++ aggregates))
    (hkeys : Symbol.readAllFrom phase.toCollect q.groupKeys = .ok keys')
    (hags : aggregates.mapM (Aggregation.ofCall phase.toCollect .rowsToFinal) = .ok ags)
    (hfilters :
      q.having.toList.mapM (Projection.filterOf (q.groupKeys ++ aggregates)) = .ok filters)
    (horder : phase.orderBy = none)
    (hlocal : E.IsLocal q.groupKeys (phase.nodes.flatMap placement)) (d : Delivery) :
    E.Lays placement
      (.collect { phase with projections := .group keys' ags .rowsToFinal .shard :: filters } d)
      (q.groupKeys ++ aggregates) (Spread (E.leOf none) none
        (E.keptGroups q (E.matchingRecords placement phase.filter phase.nodes))
        phase.nodes.length) := by
  let grouped : Plan := .collect
    { phase with projections := [.group keys' ags .rowsToFinal .shard] }
    ⟨phase.nodes, none, .unbounded, (q.groupKeys ++ aggregates).length, none⟩
  have hgrouped : E.Arranged placement grouped (q.groupKeys ++ aggregates)
      ((E.groups q.groupKeys (E.matchingRecords placement phase.filter phase.nodes)).map
        E.groupScope) none none :=
    ⟨lays_localGroups h hkeys hags rfl horder hlocal, rfl, fun c hc => (nomatch hc),
      fun _ => .inl rfl⟩
  unfold keptGroups kept
  cases hq : q.having with
  | none =>
    rw [hq] at hfilters
    cases hfilters
    have hall : (((E.groups q.groupKeys (E.matchingRecords placement phase.filter phase.nodes)).map
        E.groupScope).filter fun x => Option.all (E.holds x) none) = _ :=
      List.filter_eq_self.mpr fun _ _ => rfl
    rw [hall]
    exact hgrouped.lays.withDelivery d
  | some having =>
    rw [hq] at hfilters
    obtain ⟨f, hf, hfilters⟩ := except_bind_eq_ok.mp hfilters
    cases hfilters
    have hstep : Logical.filterStep (q.groupKeys ++ aggregates) having grouped =
        grouped.addProjection f none none := by
      unfold Logical.filterStep
      rw [hf]
      rfl
    exact ((hgrouped.filterStep (hhaving having hq) hstep).1.lays).withDelivery d

end Engine

namespace Planning

variable {env : Environment} {table : Table} {q : Select} {p p' : Progress} {plan : Plan}

/-- HAVING is a filter, if there is one. -/
theorem having_eq_ok {α : Type} {groups : List Symbol} {having : Option Symbol}
    {rest : List Projection → Except PlanningError α} {a : α}
    (h : (do
      let filter ←
        match having with
        | some having => do pure [← Projection.filterOf groups having]
        | none => pure []
      rest filter) = .ok a) :
    ∃ filters, having.toList.mapM (Projection.filterOf groups) = .ok filters ∧
      rest filters = .ok a := by
  cases having with
  | none => exact ⟨[], rfl, h⟩
  | some having =>
    obtain ⟨f, hf, h⟩ := except_bind_eq_ok.mp h
    obtain ⟨_, hone, h⟩ := except_bind_eq_ok.mp h
    cases hone
    refine ⟨[f], ?_, h⟩
    rw [Option.toList_some, List.mapM_cons, hf]
    rfl

/-- What a plan that groups where the records are consists of. -/
theorem groupOnCollectors_eq_ok (h : groupOnCollectors env table q p = .ok plan p') :
    let split := Split.ofSelect q
    let groups := q.groupKeys ++ split.aggregates
    let order := q.orderBy.bind fun o => ColumnOrder.ofOrderBy? o q.outputs
    ∃ (phase : CollectPhase) (p₁ : Progress) (keys' : List Symbol) (ags : List Aggregation)
      (filters : List Projection) (w : Window) (arranged : Projection),
      env.allocateRouting table q.filter p = .ok phase.routing p₁ ∧
      phase.toCollect = split.toCollect ∧ phase.filter = q.filter ∧ phase.orderBy = none ∧
      Symbol.readAllFrom split.toCollect q.groupKeys = .ok keys' ∧
      split.aggregates.mapM (Aggregation.ofCall split.toCollect .rowsToFinal) = .ok ags ∧
      q.having.toList.mapM (Projection.filterOf groups) = .ok filters ∧
      env.window q.limit q.offset = .ok w ∧
      let collected := fun width order => Plan.ofCollect
        { phase with
          projections := (.group keys' ags .rowsToFinal .shard :: filters) ++ [arranged] }
        w width w.reach order
      ((order = none → q.orderBy = none ∨ env.onHandler phase.nodes = true) ∧
        Projection.arrange groups q.orderBy ⟨w.reach, 0⟩ q.outputs = .ok arranged ∧
        plan = collected q.outputs.length order) ∨
      ∃ o toFinal q₁, q.orderBy = some o ∧ env.onHandler phase.nodes = false ∧
        Projection.arrange groups q.orderBy ⟨w.reach, 0⟩ groups = .ok arranged ∧
        Projection.arrange groups (some o) w q.outputs = .ok toFinal ∧
        env.mergeOnHandler (collected groups.length (ColumnOrder.ofOrderBy? o groups)) toFinal
          q.outputs.length none q₁ = .ok plan p' := by
  intro split groups order
  unfold groupOnCollectors at h
  obtain ⟨⟨projections, w⟩, p₀, hfirst, h⟩ := bind_eq_ok.mp h
  obtain ⟨hparts, rfl⟩ := ofExcept_eq_ok.mp hfirst
  obtain ⟨_, -, hparts⟩ := except_bind_eq_ok.mp hparts
  obtain ⟨group, hgroup, hparts⟩ := except_bind_eq_ok.mp hparts
  obtain ⟨keys', ags, hkeys, hags, rfl⟩ := Engine.groupOf_eq_ok hgroup
  obtain ⟨filters, hfilters, hparts⟩ := having_eq_ok hparts
  obtain ⟨window, hwindow, hparts⟩ := except_bind_eq_ok.mp hparts
  cases hparts
  obtain ⟨routing, p₁, hrouting, h⟩ := bind_eq_ok.mp h
  obtain ⟨arranged, p₂, harranged, h⟩ := bind_eq_ok.mp h
  obtain ⟨id, p₃, -, h⟩ := bind_eq_ok.mp h
  have harranged := (ofExcept_eq_ok.mp harranged).1
  refine ⟨⟨env.jobId, id, routing, table.granularity, split.toCollect, [], q.filter, .broadcast,
    none, env.session.user⟩, p₁, keys', ags, filters, w, arranged, hrouting, rfl, rfl, rfl, hkeys,
    hags, hfilters, hwindow, ?_⟩
  intro collected
  cases hmerge : (if order.isNone && !env.onHandler routing.nodes then q.orderBy else none) with
  | none =>
    simp only [order] at hmerge
    simp only [hmerge] at h harranged
    refine .inl ⟨fun hnone => ?_, harranged, (pure_eq_ok.mp h).1.symm⟩
    by_cases hhandler : env.onHandler routing.nodes = true
    · exact .inr hhandler
    · rw [if_pos] at hmerge
      · exact .inl hmerge
      · rw [show q.orderBy.bind _ = none from hnone]
        simpa using hhandler
  | some o =>
    simp only [order] at hmerge
    simp only [hmerge] at h harranged
    obtain ⟨toFinal, q₁, hfinal, h⟩ := bind_eq_ok.mp h
    have ho : q.orderBy = some o ∧ env.onHandler routing.nodes = false := by
      split at hmerge
      · rename_i hspread
        rw [Bool.and_eq_true, Bool.not_eq_true'] at hspread
        exact ⟨hmerge, hspread.2⟩
      · cases hmerge
    exact .inr ⟨o, toFinal, q₁, ho.1, ho.2, harranged, (ofExcept_eq_ok.mp hfinal).1, h⟩

/-- **A plan that groups where the records are is prepared for the answer over the groups.** -/
theorem prepared_groupOnCollectors {E : Engine} (placement : Placement) (hq : q.IsAggregated)
    (h : groupOnCollectors env table q p = .ok plan p') :
    ∃ routing p₁ w, env.allocateRouting table q.filter p = .ok routing p₁ ∧
      plan.readNodes = routing.nodes ∧ env.window q.limit q.offset = .ok w ∧
      (E.IsLocal q.groupKeys (routing.nodes.flatMap placement) →
        PreorderOn (E.leOf q.orderBy)
          (E.keptGroups q (E.matchingRecords placement q.filter routing.nodes)) →
        E.Prepared env placement plan q.outputs
          (E.keptGroups q (E.matchingRecords placement q.filter routing.nodes)) q.orderBy w) := by
  obtain ⟨phase, p₁, keys', ags, filters, w, arranged, hrouting, hcollect, hfilter, hunordered,
    hkeys, hags, hfilters, hwindow, hplan⟩ := groupOnCollectors_eq_ok h
  have hw := Environment.window_isSmall hwindow
  rw [← hcollect] at hkeys hags
  have houtputs : ∀ s ∈ q.outputs, s.ReadableFrom (q.groupKeys ++ (Split.ofSelect q).aggregates) :=
    fun s hs => hq.readable (Select.output_mem_symbols hs)
  have horder : ∀ o, q.orderBy = some o → ∀ s ∈ o.symbols,
      s.ReadableFrom (q.groupKeys ++ (Split.ofSelect q).aggregates) :=
    fun o ho s hs => hq.readable (Select.orderBy_mem_symbols ho hs)
  -- the rows of the groups after they are arranged, whatever the delivery says
  have harrange : ∀ (outputs : List Symbol) (d : Delivery),
      (∀ s ∈ outputs, s.ReadableFrom (q.groupKeys ++ (Split.ofSelect q).aggregates)) →
      Projection.arrange (q.groupKeys ++ (Split.ofSelect q).aggregates) q.orderBy ⟨w.reach, 0⟩
        outputs = .ok arranged →
      E.IsLocal q.groupKeys (phase.nodes.flatMap placement) →
      PreorderOn (E.leOf q.orderBy)
        (E.keptGroups q (E.matchingRecords placement q.filter phase.nodes)) →
      E.Lays placement (.collect { phase with
          projections := (.group keys' ags .rowsToFinal .shard :: filters) ++ [arranged] } d)
        outputs (Engine.Spread (E.leOf q.orderBy) w.reach
          (E.keptGroups q (E.matchingRecords placement q.filter phase.nodes))
          phase.nodes.length) := by
    intro outputs d hread harranged hlocal hle
    have hgrouped := Engine.lays_localGroups_having hq.isGroupable
      (fun s hs => hq.readable (Select.having_mem_symbols hs)) hkeys hags hfilters hunordered hlocal
      d
    have hadd : (Plan.collect { phase with
        projections := .group keys' ags .rowsToFinal .shard :: filters } d).addProjection arranged
          none none = .ok _ := rfl
    rw [← hfilter] at hle ⊢
    exact (Engine.lays_arrange hgrouped hle hread horder harranged hadd).withDelivery d
  rcases hplan with ⟨hunselected, harranged, rfl⟩ | ⟨o, toFinal, q₁, ho, -, harranged, hfinal, hmerge⟩
  · refine ⟨phase.routing, p₁, w, hrouting, rfl, hwindow, fun hlocal hle => ?_⟩
    refine .pending ⟨harrange q.outputs _ houtputs harranged hlocal hle, rfl, fun c hc => ?_,
      fun hnone => ?_⟩ rfl
    · obtain ⟨ob, hob, hc⟩ := Option.bind_eq_some_iff.mp hc
      exact ⟨ob, hob, ColumnOrder.foundIn_of_ofOrderBy? hc⟩
    · exact (hunselected hnone).imp_right Engine.length_le_one_of_onHandler
  · refine ⟨phase.routing, p₁, w, hrouting, ?_, hwindow, fun hlocal hle => ?_⟩
    · rw [Plan.readNodes_eq, Logical.reads_mergeOnHandler hmerge]
      rfl
    have hlays := fun d => harrange _ d (fun s hs => hq.readable_column hs) harranged hlocal hle
    obtain ⟨outs, keys, houts, hks, rfl⟩ := Engine.arrange_orderedTopN hfinal
    rw [ho] at hlays hle ⊢
    obtain ⟨hmerged, hdelivery⟩ := Engine.lays_mergeSorted (hlays _) hle hw
      (E.project_readAllFrom houtputs houts) (E.le_readAllFrom (horder o ho) hks) hmerge
    refine .exact hmerged ?_ ?_ <;> rw [hdelivery]
    exact beq_self_eq_true env.handler

end Planning

/-! ### Eligible queries -/

theorem Symbol.exists_reference_of_isColumn {s : Symbol} {column : String}
    (h : s.isColumn column = true) : ∃ c, s = .reference c ∧ c.name = column := by
  cases s with
  | reference c => exact ⟨c, rfl, eq_of_beq h⟩
  | _ => cases h

/-- A single key is the column that the table is clustered by. -/
theorem Table.clusteredBy_of_groupsAreLocal {table : Table} {clause : WhereClause} {key : Symbol}
    (h : table.groupsAreLocal clause [key] = true) :
    ∃ c, key = .reference c ∧ table.clusteredBy = some c.name := by
  have hclustered := (Bool.and_eq_true_iff.mp h).1
  cases hcolumn : table.clusteredBy with
  | none =>
    rw [hcolumn] at hclustered
    cases hclustered
  | some column =>
    rw [hcolumn] at hclustered
    obtain ⟨c, hc, rfl⟩ := Symbol.exists_reference_of_isColumn hclustered
    exact ⟨c, hc, rfl⟩

/-- A table whose groups lie on one shard each is grouped by columns. -/
theorem Table.exists_reference_of_groupsAreLocal {table : Table} {clause : WhereClause}
    {keys : List Symbol} (h : table.groupsAreLocal clause keys = true) {k : Symbol}
    (hk : k ∈ keys) : ∃ c, k = .reference c := by
  match keys, h with
  | [], h => cases h
  | [key], h =>
    obtain ⟨c, hc, -⟩ := Table.clusteredBy_of_groupsAreLocal h
    exact ⟨c, (List.mem_singleton.mp hk).trans hc⟩
  | key :: key' :: keys, h =>
    obtain ⟨hlen, hall⟩ := Bool.and_eq_true_iff.mp h
    obtain ⟨i, hi, rfl⟩ := List.getElem_of_mem hk
    have hi' : i < table.primaryKey.length := by rwa [← eq_of_beq hlen]
    have hzip := List.all_eq_true.mp hall ((key :: key' :: keys)[i], table.primaryKey[i])
      (List.mem_iff_getElem.mpr ⟨i, by rw [List.length_zip]; omega, List.getElem_zip⟩)
    obtain ⟨c, hc, -⟩ := Symbol.exists_reference_of_isColumn hzip
    exact ⟨c, hc⟩

namespace Planning

variable {env : Environment} {table : Table} {q : Select} {p p' : Progress} {plan : Plan}

theorem localGroups?_eq_ok (h : localGroups? env table q p = .ok (some plan) p') :
    ∃ keys, q.groupBy = some keys ∧ table.groupsAreLocal q.filter keys = true ∧
      groupOnCollectors env table q p = .ok plan p' := by
  unfold localGroups? at h
  cases hkeys : q.groupBy with
  | none =>
    rw [hkeys] at h
    cases h
  | some keys =>
    rw [hkeys] at h
    dsimp only at h
    split at h
    · cases h
    · rename_i heligible
      split at h
      · exact absurd h throw_ne_ok
      · obtain ⟨_, q₁, hplan, h⟩ := bind_eq_ok.mp h
        obtain ⟨hsome, rfl⟩ := pure_eq_ok.mp h
        cases hsome
        have heligible : table.granularity = .doc ∧ table.groupsAreLocal q.filter keys = true := by
          simpa using heligible
        exact ⟨keys, rfl, heligible.2, hplan⟩

/-- **The plan that groups where the records are delivers the answer over the groups**, if the
records of each group are on one shard.  This holds for every cluster and every such placement, if
the values to sort by are totally preordered.  The general plan reads the same nodes and delivers an
answer over the same groups. -/
theorem localGroups_answers (E : Engine) (hunnested : ∀ s ∈ q.symbols, s.IsUnnested)
    (hlowercase : ∀ s ∈ q.symbols, s.IsLowercase)
    (hplan : localGroups? env table q p = .ok (some plan) p') (placement : Placement)
    (hlocal : E.IsLocal q.groupKeys (plan.readNodes.flatMap placement))
    (hle : PreorderOn (E.leOf q.orderBy)
      (E.groupsOf q (E.matchingRecords placement q.filter plan.readNodes))) :
    ∃ w, env.window q.limit q.offset = .ok w ∧ (∃ rows, E.Delivers placement plan rows) ∧
      (∀ rows, E.Delivers placement plan rows → E.Answers q w
        (E.groupsOf q (E.matchingRecords placement q.filter plan.readNodes)) rows) ∧
      ∀ plan₀ p₀, general env (.table table q) p = .ok plan₀ p₀ →
        plan₀.readNodes = plan.readNodes ∧
        ∀ rows, E.Delivers placement plan₀ rows → E.Answers q w
          (E.groupsOf q (E.matchingRecords placement q.filter plan.readNodes)) rows := by
  obtain ⟨keys, hkeys, heligible, hplan⟩ := localGroups?_eq_ok hplan
  have hcolumn : ∀ k ∈ q.groupKeys, ∃ c, k = .reference c := by
    rw [Select.groupKeys, hkeys]
    exact fun k hk => Table.exists_reference_of_groupsAreLocal heligible hk
  have hq : q.IsAggregated := by
    refine ⟨.inr (by simp [hkeys]), fun k hk => ?_, hunnested, fun s hs => ?_⟩
    · obtain ⟨c, rfl⟩ := hcolumn k hk
      rfl
    · rcases List.mem_append.mp hs with hs | hs
      · obtain ⟨c, rfl⟩ := hcolumn s hs
        rfl
      · exact hlowercase s hs
  obtain ⟨routing, p₁, w, hrouting, hnodes, hwindow, hprepared⟩ :=
    prepared_groupOnCollectors (E := E) placement hq hplan
  rw [hnodes] at hlocal hle ⊢
  have hgroups : ∀ rs, E.groupsOf q rs = (E.groups q.groupKeys rs).map E.groupScope := by
    intro rs
    rw [Engine.groupsOf, Select.groupKeys, hkeys]
    rfl
  refine ⟨w, hwindow, E.exists_delivers placement plan, fun rows hrows => ?_, fun plan₀ p₀ h₀ => ?_⟩
  · rw [hgroups] at hle ⊢
    have hkept : PreorderOn (E.leOf q.orderBy)
        (E.keptGroups q (E.matchingRecords placement q.filter routing.nodes)) :=
      hle.mono fun x hx => (List.mem_filter.mp hx).1
    obtain ⟨_, ⟨zs, hperm, hsorted, rfl⟩, rfl⟩ := (hprepared hlocal hkept).delivers hkept
      (Environment.window_isSmall hwindow) hrows
    exact ⟨zs, hperm, hsorted, rfl⟩
  · obtain ⟨routing₀, q₀, hrouting₀, hnodes₀⟩ := Logical.readNodes_general h₀
    rw [hrouting] at hrouting₀
    cases hrouting₀
    obtain ⟨w₀, hwindow₀, hanswers⟩ := general_answers_groups E hq hrouting h₀ placement hle
    rw [hwindow] at hwindow₀
    cases hwindow₀
    exact ⟨hnodes₀, hanswers⟩

/-- An index of two shards. -/
def cityIndex : Index where
  name := "t"
  shards := 2
  slots := 2
  partitionSize := 1
  hash := .murmur3
  policy := .floorMod
  shards_pos := Nat.zero_lt_two
  shards_dvd := Nat.dvd_refl _
  slots_pos := Nat.zero_lt_two
  partitionSize_pos := Nat.zero_lt_one

/-- The two nodes with an index of two shards, one on each. -/
def twoShards (index : Index) : Environment :=
  let first := (ShardTable.mk ∅).add 0 ⟨some "n1", true, .started⟩
  let shards := first.add 1 ⟨some "n2", true, .started⟩
  { twoNodes with cluster := twoNodes.cluster.withIndex index "t" shards }

/-- A column that the table of this index is clustered by. -/
def city : Symbol := .reference ⟨"doc.t", "city", .string⟩

/-- The value of the column that most records have. -/
def topCity : Select where
  outputs := [city]
  groupBy := some [city]
  orderBy := some (.descending (.call "count" []))
  limit := some (.ofInt 1)

/-- The most frequent value of a column over two shards, where the count is not an output.  The
window is the first row. -/
theorem localGroups_answers_topCity :
    let placement : Placement := fun node =>
      if node = "n1" then [[.ofInt 5, .ofInt 2, .ofInt 5]] else [[.ofInt 3]]
    let table := (Table.ofDocuments "doc" "t").withClusteredBy "city"
    ∃ plan p', localGroups? (twoShards cityIndex) table topCity (.start 0) = .ok (some plan) p' ∧
      plan.readNodes = ["n1", "n2"] ∧
      (twoShards cityIndex).window topCity.limit topCity.offset = .ok ⟨some 1, 0⟩ ∧
      (∃ rows, Engine.counting.Delivers placement plan rows) ∧
      (∀ rows, Engine.counting.Delivers placement plan rows →
        Engine.counting.Answers topCity ⟨some 1, 0⟩ (Engine.counting.groupsOf topCity
          (Engine.counting.matchingRecords placement {} plan.readNodes)) rows) ∧
      ∀ plan₀ p₀, general (twoShards cityIndex) (.table table topCity) (.start 0) = .ok plan₀ p₀ →
        plan₀.readNodes = plan.readNodes ∧
        ∀ rows, Engine.counting.Delivers placement plan₀ rows →
          Engine.counting.Answers topCity ⟨some 1, 0⟩ (Engine.counting.groupsOf topCity
            (Engine.counting.matchingRecords placement {} plan.readNodes)) rows := by
  intro placement table
  obtain ⟨_, p', hplan, plan, rfl, hnodes⟩ : ∃ plan? p',
      localGroups? (twoShards cityIndex) table topCity (.start 0) = .ok plan? p' ∧
        ∃ plan ∈ plan?, plan.readNodes = ["n1", "n2"] := exists_of_succeedsWith (by decide +kernel)
  have hfirst : (twoShards cityIndex).window topCity.limit topCity.offset = .ok ⟨some 1, 0⟩ := rfl
  have hlocal :
      Engine.counting.IsLocal topCity.groupKeys (plan.readNodes.flatMap placement) := by
    rw [hnodes]
    decide +kernel
  have hle : PreorderOn (Engine.counting.leOf topCity.orderBy) (Engine.counting.groupsOf topCity
      (Engine.counting.matchingRecords placement {} plan.readNodes)) := by
    rw [hnodes]
    decide +kernel
  obtain ⟨w, hwindow, hanswers⟩ := localGroups_answers Engine.counting (by decide +kernel)
    (by decide +kernel) hplan placement hlocal hle
  cases hfirst.symm.trans hwindow
  exact ⟨plan, p', hplan, hnodes, hfirst, hanswers⟩

end Planning

end ShardedQuery

import Mathlib.Algebra.GroupWithZero.Nat
import ShardedQuery.Proofs.Planning.Aggregation
import ShardedQuery.Proofs.Planning.Failures
import ShardedQuery.Proofs.Planning.LocalGroups

/-!
# Counting with and without reading

A query that is answered from the counts of the shards can be planned by way of its tree as well.
Then the count is an aggregate of the rows that are read, in one tier or in two; and ORDER BY, LIMIT
and the outputs find a single row to work on.

* `Engine.CountsRows` — what the aggregate function `count` of an engine has to do.
* `Engine.HasCount` — a row with a certain cell wherever its symbols count all rows.
* `Engine.Counted` — **the invariant of the tree**: a single row on the handler that has the count.
* `Planning.general_counts` — the general plan reads what the count plan reads, and delivers the sum
  of the numbers of records that the count plan finds on its nodes.
-/

namespace ShardedQuery

/-- The call that counts all rows. -/
def Symbol.countAll : Symbol := .call "count" []

theorem Symbol.eq_countAll {s : Symbol} (h : (s == countAll) = true) : s = countAll := by
  obtain ⟨args, rfl, hargs⟩ := (call_beq_iff "count" [] s).mp (beq_symm h)
  cases hargs
  rfl

/-- The call is read from a column that counts all rows, if there is one. -/
theorem Symbol.readFrom_countAll {inputs : List Symbol} {t : Symbol} (hcount : countAll ∈ inputs)
    (h : countAll.readFrom inputs = .ok t) :
    ∃ i : Nat, inputs[i]? = some countAll ∧ t = .input i := by
  obtain ⟨j, hj⟩ := position?_isSome hcount (beq_refl _)
  rcases readFrom_eq_ok h with ⟨i, hi, rfl⟩ | ⟨hnone, -⟩
  · obtain ⟨s, hs, hcounts⟩ := position?_eq_some hi
    rw [eq_countAll hcounts] at hs
    exact ⟨i, hs, rfl⟩
  · rw [hj] at hnone
    cases hnone

/-- A query that is counted without reading has neither GROUP BY nor HAVING, and the count as its
only output. -/
theorem Select.parts_of_countsOn {q : Select} {table : Table} (h : q.countsOn table = true) :
    q.groupBy = none ∧ q.having = none ∧ q.outputs = [.countAll] := by
  unfold countsOn isPlainCount at h
  simp only [Bool.and_eq_true, Option.isNone_iff_eq_none] at h
  obtain ⟨⟨⟨-, hkeys⟩, hhaving⟩, hcount⟩ := h
  refine ⟨hkeys, hhaving, ?_⟩
  split at hcount
  · rename_i f houtputs
    rw [houtputs, eq_of_beq hcount]
    rfl
  · cases hcount

theorem Select.outputs_of_countsOn {q : Select} {table : Table} (h : q.countsOn table = true) :
    q.outputs = [.countAll] :=
  (parts_of_countsOn h).2.2

theorem Window.cut_singleton {α : Type} {w : Window} (h : w.keepsFirst = true) (x : α) :
    w.cut [x] = [x] := by
  obtain ⟨limit, offset⟩ := w
  obtain ⟨rfl, hlimit⟩ : offset = 0 ∧ limit ≠ some 0 := by simpa [keepsFirst] using h
  match limit, hlimit with
  | none, _ => rfl
  | some (n + 1), _ => simp [cut]

/-- A request for the rows that a window depends on keeps the first row as the window does. -/
theorem Window.keepsFirst_reach {w : Window} (h : w.keepsFirst = true) :
    (Window.mk w.reach 0).keepsFirst = true := by
  obtain ⟨limit, offset⟩ := w
  obtain ⟨rfl, hlimit⟩ : offset = 0 ∧ limit ≠ some 0 := by simpa [keepsFirst] using h
  match limit, hlimit with
  | none, _ => rfl
  | some (n + 1), _ => simp [keepsFirst, reach, maxCount]

namespace Engine

variable (E : Engine)

/-- The engine counts rows: the states of single rows add up to a state that has their number as its
value. -/
def CountsRows : Prop :=
  ∀ n : Nat, E.finish "count" (n • E.absorb "count" []) = .int (Int64.ofNat n)

/-- The number of the records on a node that a filter keeps. -/
def matchesOn (placement : Placement) (clause : WhereClause) (node : String) : Nat :=
  (placement node).flatten.countP (E.matching clause)

variable {E} {env : Environment} {placement : Placement} {plan plan' : Plan} {p p' : Progress}
  {inputs outputs aggregates : List Symbol} {n : Nat} {w : Window}

/-- The matching records of several nodes are counted node by node. -/
theorem length_matchingRecords (placement : Placement) (clause : WhereClause)
    (nodes : List String) :
    (E.matchingRecords placement clause nodes).length =
      (nodes.map (E.matchesOn placement clause)).sum := by
  induction nodes with
  | nil => rfl
  | cons node nodes ih =>
    have hrecords : placement.records (node :: nodes) =
        (placement node).flatten ++ placement.records nodes := by
      rw [Placement.records, List.flatMap_cons, List.flatten_append]
      rfl
    rw [List.map_cons, List.sum_cons, ← ih, matchingRecords, hrecords, List.filter_append,
      List.length_append, ← List.countP_eq_length_filter]
    rfl

/-! ### Rows with a count -/

/-- A row of some symbols has a certain cell wherever they count all rows. -/
structure HasCount (cell : E.Cell) (outputs : List Symbol) (row : E.Tuple) : Prop where
  width : row.length = outputs.length
  cell : ∀ i : Nat, outputs[i]? = some .countAll → row[i]? = some cell

/-- A row of nothing but the count. -/
theorem HasCount.eq_singleton {cell : E.Cell} {row : E.Tuple}
    (h : HasCount cell [.countAll] row) : row = [cell] := by
  obtain ⟨c, rfl⟩ := List.length_eq_one_iff.mp h.width
  cases h.cell 0 rfl
  rfl

/-- A row with the count that is laid out anew has it wherever the new symbols count all rows. -/
theorem HasCount.project {cell : E.Cell} {row : E.Tuple} {outs : List Symbol}
    (h : HasCount cell inputs row) (hcount : .countAll ∈ inputs)
    (houts : Symbol.readAllFrom inputs outputs = .ok outs) :
    HasCount cell outputs (E.project outs row) where
  width := by rw [Engine.project, List.length_map, length_of_readAllFrom houts]
  cell i hi := by
    rw [Symbol.readAllFrom_eq] at houts
    obtain ⟨t, ht, hread⟩ := exists_getElem?_of_forall₂ (forall₂_of_except_mapM houts) hi
    obtain ⟨k, hk, rfl⟩ := Symbol.readFrom_countAll hcount hread
    rw [Engine.project, List.getElem?_map, ht, Option.map_some, cellOf, h.cell k hk,
      Option.getD_some]

/-- The row of an aggregation has the cell of the count wherever the aggregates count all rows. -/
theorem hasCount_aggregate {mode : AggregateMode} {ags : List Aggregation} {rows : List E.Tuple}
    {cell : E.Cell} (hags : aggregates.mapM (Aggregation.ofCall inputs mode) = .ok ags)
    (hcell : ∀ ag, Aggregation.ofCall inputs mode .countAll = .ok ag →
      E.aggregate mode rows ag = cell) :
    HasCount cell aggregates (ags.map (E.aggregate mode rows)) where
  width := by rw [List.length_map, (forall₂_of_except_mapM hags).length_eq]
  cell i hi := by
    obtain ⟨ag, hag, hof⟩ := exists_getElem?_of_forall₂ (forall₂_of_except_mapM hags) hi
    rw [List.getElem?_map, hag, Option.map_some, hcell ag hof]

/-- The state of a count is that of one row, as often as there are rows. -/
theorem foldRows_countAll (rows : List E.Tuple) :
    E.foldRows ⟨"count", []⟩ rows = rows.length • E.absorb "count" [] := by
  show (rows.map fun _ => E.absorb "count" []).sum = _
  rw [List.map_const', List.sum_replicate]

/-- The states of partial counts add up to the state of all their rows. -/
theorem mergeStates_counts {i : Nat} {ns : List Nat} {rows : List E.Tuple}
    (h : List.Forall₂
      (fun n row => row[i]? = some (.state "count" (n • E.absorb "count" []))) ns rows) :
    E.mergeStates ⟨"count", [.input i]⟩ rows = ns.sum • E.absorb "count" [] := by
  induction h with
  | nil => rw [List.sum_nil, zero_nsmul]; rfl
  | @cons n row ns rows hrow _ ih =>
    have hstate : (row[i]?).elim 0 (Cell.stateOf "count") = n • E.absorb "count" [] := by
      rw [hrow]
      rfl
    rw [List.sum_cons, add_nsmul, ← ih, ← hstate]
    rfl

/-! ### The tree over a count -/

variable (E) in
/-- The plan gives a single row on the handler, which has a number wherever the symbols count all
rows. -/
structure Counted (env : Environment) (placement : Placement) (plan : Plan) (outputs : List Symbol)
    (n : Nat) : Prop where
  emits : ∀ bs, E.Emits placement plan bs →
    ∃ row, bs = [[row]] ∧ HasCount (.value (.int (Int64.ofNat n))) outputs row
  handler : env.onHandler plan.delivery.nodes = true
  window : plan.delivery.window = .unbounded

section Base

variable {phase : CollectPhase} {width : Nat} {maxRows : Option Nat}

/-- The partial counts of the nodes, as they arrive. -/
theorem hasCount_partial {ags : List Aggregation} {rss : List (List Record)}
    {batches arrived : List (List E.Tuple)} {g : Granularity}
    (hags : aggregates.mapM (Aggregation.ofCall inputs .rowsToPartial) = .ok ags)
    (hsteps : List.Forall₂ (E.Step (.aggregation ags .rowsToPartial g))
      (rss.map fun rs => E.rowsAt inputs (rs.map Record.scope)) batches)
    (harrived : arrived.Perm batches) :
    ∃ rss' : List (List Record), rss'.Perm rss ∧ List.Forall₂
      (fun n row => HasCount (.state "count" (n • E.absorb "count" [])) aggregates row)
      (rss'.map List.length) arrived.flatten := by
  have hbatches : List.Forall₂ (fun (b : List E.Tuple) (rs : List Record) => ∃ row, b = [row] ∧
      HasCount (.state "count" (rs.length • E.absorb "count" [])) aggregates row) batches rss := by
    rw [List.forall₂_map_left_iff] at hsteps
    refine (hsteps.imp fun rs b hb => ⟨_, hb, hasCount_aggregate hags fun ag hag => ?_⟩).flip
    cases hag
    show Cell.state "count" _ = _
    rw [foldRows_countAll, rowsAt, List.length_map, List.length_map]
  obtain ⟨rss', hrows, hperm⟩ := List.perm_comp_forall₂ harrived hbatches
  refine ⟨rss', hperm, ?_⟩
  clear harrived hsteps hbatches hperm
  induction hrows with
  | nil => exact .nil
  | cons hb _ ih =>
    obtain ⟨row, rfl, hrow⟩ := hb
    exact .cons hrow ih

/-- **An aggregation of all matching records counts them**, in one tier or in two. -/
theorem counted_aggregateStep (hE : E.CountsRows) (hphase : phase.projections = [])
    (hcount : .countAll ∈ aggregates)
    (hstep : Logical.aggregateStep env phase.toCollect aggregates
      (.ofCollect phase .unbounded width maxRows none) p = .ok plan p') :
    E.Counted env placement plan aggregates
      (E.matchingRecords placement phase.filter phase.nodes).length := by
  rw [Logical.aggregateStep_eq] at hstep
  rcases Logical.inTiers_eq_ok hstep with
    ⟨hhandler, full, hfull, hadd⟩ |
    ⟨-, toPartial, toFinal, added, hpartial, hfinal, hadd, hmerge⟩
  · obtain ⟨ags, hags, rfl⟩ := aggregationOf_eq_ok hfull
    have hdelivery := Plan.delivery_addProjection hadd
    refine ⟨fun bs hbs => ?_, by rw [hdelivery]; exact hhandler, by rw [hdelivery]; rfl⟩
    obtain ⟨bare, hbare, hsteps⟩ := E.emits_addProjection hadd rfl hbs
    obtain ⟨_, rfl, rs, hperm, rfl⟩ :=
      lays_collect_single hphase (length_le_one_of_onHandler hhandler) _ bare hbare
    cases hsteps with
    | cons hout hnil =>
      cases hnil
      refine ⟨_, congrArg (fun out => [out]) hout, hasCount_aggregate hags fun ag hag => ?_⟩
      cases hag
      show Cell.value (E.finish "count" (E.foldRows ⟨"count", []⟩ _)) = _
      rw [foldRows_countAll, hE, rowsAt, List.length_map, List.length_map, hperm.length_eq]
  · obtain ⟨ags, hags, rfl⟩ := aggregationOf_eq_ok hpartial
    obtain ⟨ags', hags', rfl⟩ := aggregationOf_eq_ok hfinal
    obtain ⟨merge, hmergephase, rfl⟩ := mergeOnHandler_eq hmerge
    refine ⟨fun bs hbs => ?_, env.onHandler_handler, rfl⟩
    obtain ⟨batches, arrived, ys, hbatches, harrived, hout, rfl⟩ := E.emits_merge hmergephase hbs
    obtain ⟨bare, hbare, hsteps⟩ := E.emits_addProjection hadd rfl hbatches
    obtain ⟨_, rfl, rss, rfl, hperm, -, -⟩ := lays_collect hphase _ bare hbare
    rw [List.map_map] at hsteps
    obtain ⟨rss', hrss', hrows⟩ := hasCount_partial hags hsteps harrived
    refine ⟨_, congrArg (fun out => [out]) hout, hasCount_aggregate hags' fun ag hag => ?_⟩
    obtain ⟨t, ht, hag⟩ := except_bind_eq_ok.mp hag
    cases hag
    obtain ⟨i, hi, rfl⟩ := Symbol.readFrom_countAll hcount ht
    show Cell.value (E.finish "count" (E.mergeStates ⟨"count", [.input i]⟩ _)) = _
    rw [mergeStates_counts (hrows.imp fun n row hrow => hrow.cell i hi), hE,
      ← List.length_flatten, (hrss'.flatten.trans hperm).length_eq]

end Base

namespace Counted

/-- **A projection that lays out a single row keeps the count.** -/
theorem addProjection {q : Projection} {outs : List Symbol} {window : Option Window}
    {order : Option ColumnOrder} (h : E.Counted env placement plan inputs n)
    (hadd : plan.addProjection q window order = .ok plan') (hq : q.IsJoinable)
    (hwindow : window.getD .unbounded = .unbounded)
    (hstep : ∀ row out, E.Step q [row] out → out = [E.project outs row])
    (hproject : ∀ (cell : E.Cell) (row : E.Tuple), HasCount cell inputs row →
      HasCount cell outputs (E.project outs row)) :
    E.Counted env placement plan' outputs n := by
  have hdelivery := Plan.delivery_addProjection hadd
  refine ⟨fun bs' hbs' => ?_, by rw [hdelivery]; exact h.handler, ?_⟩
  · obtain ⟨bs, hbs, hsteps⟩ := E.emits_addProjection hadd hq hbs'
    obtain ⟨row, rfl, hrow⟩ := h.emits bs hbs
    cases hsteps with
    | cons hout hnil =>
      cases hnil
      exact ⟨_, congrArg (fun out => [out]) (hstep row _ hout), hproject _ row hrow⟩
  · rw [hdelivery]
    show window.getD plan.delivery.window = _
    rw [h.window, hwindow]

theorem clearOrder (h : E.Counted env placement plan outputs n) :
    E.Counted env placement plan.clearOrder outputs n where
  emits bs hbs := h.emits bs (E.emits_withDelivery.mp hbs)
  handler := by
    rw [Plan.clearOrder, Plan.delivery_withDelivery]
    exact h.handler
  window := by
    rw [Plan.clearOrder, Plan.delivery_withDelivery]
    exact h.window

theorem orderStep {o : OrderBy} (h : E.Counted env placement plan inputs n)
    (hcount : .countAll ∈ inputs) (hw : w.keepsFirst = true)
    (hstep : Logical.orderStep inputs o w plan = .ok plan') :
    E.Counted env placement plan' inputs n := by
  unfold Logical.orderStep at hstep
  split at hstep
  · cases hstep
    exact h
  · obtain ⟨q, hq, hadd⟩ := except_bind_eq_ok.mp hstep
    obtain ⟨outs, keys, houts, -, rfl⟩ := arrange_orderedTopN hq
    refine h.addProjection hadd rfl rfl (fun row out hout => ?_)
      fun cell row hrow => hrow.project hcount houts
    obtain ⟨rows, hsorts, rfl⟩ := hout
    rw [List.perm_singleton.mp hsorts.1, Window.cut_singleton hw]
    rfl

theorem limitStep (h : E.Counted env placement plan inputs n) (hw : w.keepsFirst = true)
    (hstep : Logical.limitStep env inputs w plan = .ok plan') :
    E.Counted env placement plan' inputs n := by
  unfold Logical.limitStep at hstep
  rw [if_pos h.handler] at hstep
  have hcut : ∀ row out, E.Step (.topN w (Symbol.inputColumns inputs.length)) [row] out →
      out = [E.project (Symbol.inputColumns inputs.length) row] := by
    intro row out hout
    rw [show out = _ from hout, Window.cut_singleton hw]
    rfl
  refine h.addProjection hstep rfl rfl hcut fun cell row hrow => ?_
  rw [← hrow.width, E.project_columns]
  exact hrow

theorem evalStep (h : E.Counted env placement plan inputs n) (hcount : .countAll ∈ inputs)
    (hstep : Logical.evalStep env inputs outputs plan p = .ok plan' p') :
    E.Counted env placement plan' outputs n := by
  obtain ⟨eval, _, harrange, hstep⟩ := Planning.bind_eq_ok.mp hstep
  obtain ⟨outs, houts, rfl⟩ := arrange_eval (Planning.ofExcept_eq_ok.mp harrange).1
  have hadded : ∀ {order : Option ColumnOrder} {added : Plan},
      plan.addProjection (.eval outs) none order = .ok added →
        E.Counted env placement added outputs n := fun hadd =>
    h.addProjection hadd rfl rfl (fun row out hout => hout)
      fun cell row hrow => hrow.project hcount houts
  cases horder : plan.delivery.order with
  | none =>
    simp only [horder] at hstep
    exact hadded (Planning.ofExcept_eq_ok.mp hstep).1
  | some c =>
    cases hremap : c.remap? inputs outputs with
    | some c' =>
      simp only [horder, hremap] at hstep
      exact hadded (Planning.ofExcept_eq_ok.mp hstep).1
    | none =>
      simp only [horder, hremap, if_pos h.handler] at hstep
      obtain ⟨added, hadd, hclear⟩ := except_bind_eq_ok.mp (Planning.ofExcept_eq_ok.mp hstep).1
      cases hclear
      exact (hadded hadd).clearOrder

end Counted

/-! ### The whole tree -/

section Tree

variable {table : Table} {q : Select}

theorem countAll_mem_aggregates (h : q.countsOn table = true) :
    .countAll ∈ (Split.ofSelect q).aggregates := by
  have houtput : .countAll ∈ q.outputs := by
    rw [Select.outputs_of_countsOn h]
    exact List.mem_singleton.mpr rfl
  obtain ⟨a, ha, hcounts⟩ := Split.exists_mem_aggregates (Select.output_mem_symbols houtput)
    (show .countAll ∈ Symbol.countAll.outermost by
      rw [Symbol.countAll, Symbol.outermost_call_of_aggregate (by decide +kernel)]
      exact List.mem_singleton.mpr rfl)
  rwa [Symbol.eq_countAll hcounts] at ha

/-- The base of the tree aggregates all rows that are read. -/
theorem base_of_countsOn (h : q.countsOn table = true) :
    Logical.base (.table table q) =
      .aggregate (.collect (.table table q) (Logical.toCollectOf q) q.filter)
        (Split.ofSelect q).aggregates :=
  Logical.base_of_aggregates (Select.parts_of_countsOn h).1
    (List.ne_nil_of_mem (countAll_mem_aggregates h))

theorem outputs_base_of_countsOn (h : q.countsOn table = true) :
    (Logical.base (.table table q)).outputs = (Split.ofSelect q).aggregates := by
  rw [base_of_countsOn h]
  rfl

variable {routing : Routing} {p₁ : Progress} (hE : E.CountsRows) (hcounts : q.countsOn table = true)
  (hrouting : env.allocateRouting table q.filter p = .ok routing p₁)

include hE hcounts hrouting

theorem counted_base {request : Request}
    (h : (Logical.base (.table table q)).build env request p = .ok plan p') :
    E.Counted env placement plan (Split.ofSelect q).aggregates
      (E.matchingRecords placement q.filter routing.nodes).length := by
  rw [base_of_countsOn hcounts] at h
  obtain ⟨source, p₂, hsource, hstep⟩ := Planning.bind_eq_ok.mp h
  obtain ⟨phase, hphase, hcollect, hfilter, -, ⟨p₃, hallocated⟩, rfl⟩ := collectStep_eq_ok hsource
  rw [hrouting] at hallocated
  cases hallocated
  rw [← hfilter]
  exact counted_aggregateStep hE hphase (countAll_mem_aggregates hcounts)
    (by rw [hcollect]; exact hstep)

theorem counted_ordered {request : Request} (hw : request.window.keepsFirst = true)
    (h : (Logical.ordered q (Logical.base (.table table q))).build env request p = .ok plan p') :
    E.Counted env placement plan (Split.ofSelect q).aggregates
      (E.matchingRecords placement q.filter routing.nodes).length := by
  rcases Logical.build_ordered_eq_ok h with ⟨-, h⟩ | ⟨o, source, -, hsource, horder⟩
  · exact counted_base hE hcounts hrouting h
  · rw [outputs_base_of_countsOn hcounts] at horder
    exact (counted_base hE hcounts hrouting hsource).orderStep (countAll_mem_aggregates hcounts) hw
      horder

variable (hwindow : env.window q.limit q.offset = .ok w) (hw : w.keepsFirst = true)

include hwindow hw

theorem counted_limited
    (h : (Logical.limited q (Logical.ordered q (Logical.base (.table table q)))).build env {} p =
      .ok plan p') :
    E.Counted env placement plan (Split.ofSelect q).aggregates
      (E.matchingRecords placement q.filter routing.nodes).length := by
  rcases Logical.build_limited_eq_ok h with ⟨-, -, h⟩ | ⟨w', source, hwindow', hsource, hlimit⟩
  · exact counted_ordered hE hcounts hrouting rfl h
  · rw [hwindow] at hwindow'
    cases hwindow'
    rw [Logical.outputs_ordered, outputs_base_of_countsOn hcounts] at hlimit
    exact (counted_ordered hE hcounts hrouting (Window.keepsFirst_reach hw) hsource).limitStep hw
      hlimit

/-- **The general plan of a count gives a single row on the handler**, which has the number of the
matching records. -/
theorem counted_general (h : Planning.general env (.table table q) p = .ok plan p') :
    E.Counted env placement plan q.outputs
      (E.matchingRecords placement q.filter routing.nodes).length := by
  have hbuild : (Logical.laidOut q (Logical.limited q (Logical.ordered q
      (Logical.having q (Logical.base (.table table q)))))).build env {} p = .ok plan p' := h
  have hhaving : Logical.having q (Logical.base (.table table q)) =
      Logical.base (.table table q) := by
    unfold Logical.having
    rw [(Select.parts_of_countsOn hcounts).2.1]
    rfl
  rw [hhaving] at hbuild
  have houtputs : (Logical.limited q (Logical.ordered q
      (Logical.base (.table table q)))).outputs = (Split.ofSelect q).aggregates := by
    rw [Logical.outputs_limited, Logical.outputs_ordered, outputs_base_of_countsOn hcounts]
  rcases Logical.build_laidOut_eq_ok hbuild with ⟨heq, hbuild⟩ | ⟨source, p₂, hsource, hstep⟩
  · have hsame : q.outputs = (Split.ofSelect q).aggregates := by
      rw [houtputs, Select.outputs_of_countsOn hcounts] at heq
      rw [Select.outputs_of_countsOn hcounts]
      generalize (Split.ofSelect q).aggregates = aggregates at heq
      cases (Symbol.list_beq_iff _ _).mp heq with
      | cons hcount hnil =>
        cases hnil
        rw [Symbol.eq_countAll hcount]
    rw [hsame]
    exact counted_limited hE hcounts hrouting hwindow hw hbuild
  · rw [houtputs] at hstep
    exact (counted_limited hE hcounts hrouting hwindow hw hsource).evalStep
      (countAll_mem_aggregates hcounts) hstep

end Tree

end Engine

namespace Planning

variable {env : Environment} {table : Table} {q : Select} {p p₁ p₂ : Progress}
  {plan generic : Plan}

/-- **A count plan and the general plan of the same query agree.**  They read by the same routing
and with the same filter; and wherever the records are, the general plan delivers exactly one row,
the sum over the nodes of the count plan of the numbers of their matching records. -/
theorem general_counts (E : Engine) (hE : E.CountsRows)
    (hcount : count? env table q p = .ok (some plan) p₁)
    (hgeneral : general env (.table table q) p = .ok generic p₂) :
    ∃ phase, plan = .ofCount phase ∧ generic.reads = plan.reads ∧ ∀ placement : Placement,
      (∃ rows, E.Delivers placement generic rows) ∧
      ∀ rows, E.Delivers placement generic rows →
        rows = [[.int (Int64.ofNat
          (phase.nodes.map (E.matchesOn placement phase.filter)).sum)]] := by
  obtain ⟨phase, w, p₃, rfl, hfilter, hrouting, hcounts, hwindow, hw⟩ := count?_eq_ok hcount
  refine ⟨phase, rfl, ?_, fun placement => ⟨E.exists_delivers placement generic, ?_⟩⟩
  · obtain ⟨routing, p₄, hrouting', hreads⟩ := Logical.reads_general hgeneral
    rw [hrouting] at hrouting'
    cases hrouting'
    rw [hreads, ← hfilter]
    rfl
  · rintro _ ⟨bs, arrived, hbs, harrived, rfl⟩
    have hcounted : E.Counted env placement generic q.outputs _ :=
      Engine.counted_general hE hcounts hrouting hwindow hw hgeneral
    rw [Select.outputs_of_countsOn hcounts, Engine.length_matchingRecords, ← hfilter] at hcounted
    obtain ⟨row, rfl, hrow⟩ := hcounted.emits bs hbs
    rw [List.perm_singleton.mp harrived,
      Engine.finish_of_length_le_one (Engine.length_le_one_of_onHandler hcounted.handler),
      hcounted.window, Window.cut_unbounded, hrow.eq_singleton]
    rfl

/-- The number of all rows, with a sort and a cut that leave it as it is. -/
def sortedCount : Select where
  outputs := [.countAll]
  orderBy := some (.descending .countAll)
  limit := some (.ofInt 5)

/-- Three records on two nodes are counted, with and without reading them. -/
theorem general_counts_sortedCount :
    let placement : Placement := fun node =>
      if node = "n1" then [[.ofInt 5, .ofInt 2]] else [[.ofInt 5]]
    let table := Table.ofDocuments "doc" "t"
    Engine.counting.CountsRows ∧ ∃ plan p₁ generic p₂,
      count? (twoShards cityIndex) table sortedCount (.start 0) = .ok (some plan) p₁ ∧
      general (twoShards cityIndex) (.table table sortedCount) (.start 0) = .ok generic p₂ ∧
      (plan.readNodes.map (Engine.counting.matchesOn placement plan.reads.2)).sum = 3 ∧
      ∃ phase, plan = .ofCount phase ∧ generic.reads = plan.reads ∧
        (∃ rows, Engine.counting.Delivers placement generic rows) ∧
        ∀ rows, Engine.counting.Delivers placement generic rows → rows = [[.int 3]] := by
  intro placement table
  have hE : Engine.counting.CountsRows := by
    intro n
    show Literal.int (Int64.ofNat (n * 1)) = _
    rw [Nat.mul_one]
  obtain ⟨_, p₁, hcount, plan, rfl, hsum⟩ : ∃ plan? p₁,
      count? (twoShards cityIndex) table sortedCount (.start 0) = .ok plan? p₁ ∧ ∃ plan ∈ plan?,
        (plan.readNodes.map (Engine.counting.matchesOn placement plan.reads.2)).sum = 3 :=
    exists_of_succeedsWith (by decide +kernel)
  obtain ⟨generic, p₂, hgeneral, -⟩ : ∃ generic p₂,
      general (twoShards cityIndex) (.table table sortedCount) (.start 0) = .ok generic p₂ ∧ True :=
    exists_of_succeedsWith (by decide +kernel)
  obtain ⟨phase, rfl, hreads, hrows⟩ := general_counts Engine.counting hE hcount hgeneral
  refine ⟨hE, _, p₁, generic, p₂, hcount, hgeneral, hsum, phase, rfl, hreads, (hrows placement).1,
    fun rows hdelivers => ?_⟩
  rw [(hrows placement).2 rows hdelivers]
  show [[Literal.int (Int64.ofNat (List.sum _))]] = _
  rw [show (phase.nodes.map (Engine.counting.matchesOn placement phase.filter)).sum = 3 from hsum]
  rfl

end Planning

end ShardedQuery

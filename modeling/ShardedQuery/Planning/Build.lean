import ShardedQuery.Plan.InputColumns
import ShardedQuery.Planning.Context
import ShardedQuery.Planning.Logical

/-!
# From logical trees to plans

A tree is built from the leaf up: each node adds projections to the plan of its source.  There are
two reasons for a merge phase on the handler.  Aggregates over several nodes are computed in two
steps, partial states first; and rows that are about to lose the columns they are sorted by have to
be sorted across nodes before.

* `Environment.mergeOnHandler` — a merge phase on the handler over a plan.
* `Logical.build` — the plan of a tree.
* `Planning.general` — the plan of a relation by way of its logical tree.
-/

namespace ShardedQuery

/-- What a node asks of its source: the window of the rows that will be used at most, and the order
in which it would like them. -/
structure Request where
  window : Window := {}
  order : Option OrderBy := none

/-- A plan that gathers the rows of a plan on the handler and makes one projection there. -/
def Environment.mergeOnHandler (env : Environment) (source : Plan) (toFinal : Projection)
    (width : Nat) (maxRows : Option Nat) : Planning Plan := do
  let id ← Planning.newPhase
  let delivery := source.delivery
  let phase : MergePhase :=
    { jobId := env.jobId
      id
      sources := delivery.nodes.length
      runsOn := [env.handler]
      inputColumns := delivery.columns
      projections := [toFinal]
      distribution := .sameNode }
  return .ofMerge source phase .unbounded width maxRows none

namespace Logical

/-! ### One node -/

/-- Reads the symbols of a table, each node in the requested order. -/
def collectStep (env : Environment) (relation : Relation) (toCollect : List Symbol)
    (filter : WhereClause) (request : Request) : Planning Plan :=
  match relation with
  | .derived .. =>
    throw (.unsupported
      ("cannot collect from relation " ++ relation.name ++ ", only tables are supported"))
  | .table table _ => do
    let routing ← env.allocateRouting table filter
    let id ← Planning.newPhase
    let phase : CollectPhase :=
      { jobId := env.jobId
        id
        routing
        granularity := table.granularity
        toCollect
        projections := []
        filter
        distribution := .broadcast
        orderBy := request.order
        user := env.session.user }
    return .ofCollect phase request.window toCollect.length request.window.limit
      (request.order.bind fun o => ColumnOrder.ofOrderBy? o toCollect)

/-- Computes aggregates, in two steps unless all rows are on the handler. -/
def aggregateStep (env : Environment) (inputs aggregates : List Symbol) (plan : Plan) :
    Planning Plan :=
  if env.onHandler plan.delivery.nodes then
    Planning.ofExcept do
      let full ← Projection.aggregationOf inputs aggregates .rowsToFinal .cluster
      plan.addProjection full none none
  else do
    let (plan, toFinal) ← Planning.ofExcept do
      let toPartial ← Projection.aggregationOf inputs aggregates .rowsToPartial .cluster
      let plan ← plan.addProjection toPartial none none
      let toFinal ← Projection.aggregationOf aggregates aggregates .partialToFinal .cluster
      return (plan, toFinal)
    env.mergeOnHandler plan toFinal aggregates.length (some 1)

/-- Computes groups, in two steps unless all rows are on the handler; the first step is done on
every shard. -/
def groupStep (env : Environment) (inputs keys aggregates : List Symbol) (plan : Plan) :
    Planning Plan :=
  if env.onHandler plan.delivery.nodes then
    Planning.ofExcept do
      let full ← Projection.groupOf inputs keys aggregates .rowsToFinal .cluster
      plan.addProjection full none none
  else do
    let (plan, toFinal) ← Planning.ofExcept do
      let toPartial ← Projection.groupOf inputs keys aggregates .rowsToPartial .shard
      let plan ← plan.addProjection toPartial none none
      let toFinal ← Projection.groupOf (keys ++ aggregates) keys aggregates .partialToFinal .cluster
      return (plan, toFinal)
    env.mergeOnHandler plan toFinal (keys ++ aggregates).length none

def filterStep (inputs : List Symbol) (having : Symbol) (plan : Plan) :
    Except PlanningError Plan := do
  plan.addProjection (← Projection.filterOf inputs having) none none

/-- Sorts the rows, unless they come sorted. -/
def orderStep (inputs : List Symbol) (orderBy : OrderBy) (window : Window) (plan : Plan) :
    Except PlanningError Plan :=
  match plan.delivery.order with
  | some _ => .ok plan
  | none => do
    let sorted ← Projection.arrange inputs (some orderBy) window inputs
    plan.addProjection sorted none (ColumnOrder.ofOrderBy? orderBy inputs)

/-- Cuts the rows.  On the handler the cut is final; elsewhere each node keeps what the cut may
need, and the cut itself is left to the consumer. -/
def limitStep (env : Environment) (inputs : List Symbol) (window : Window) (plan : Plan) :
    Except PlanningError Plan :=
  let columns := Symbol.inputColumns inputs.length
  if env.onHandler plan.delivery.nodes then
    plan.addProjection (.topN window columns) (some .unbounded) none
  else
    plan.addProjection (.topN ⟨window.reach, 0⟩ columns) (some window) none

/-- Lays rows out as the outputs.  Rows in an order keep it if its columns are among the outputs.
If they are not, rows on the handler are in their final order already, and rows on several nodes are
merged, sorted and cut on the handler first. -/
def evalStep (env : Environment) (inputs outputs : List Symbol) (plan : Plan) : Planning Plan := do
  let eval ← Planning.ofExcept (Projection.arrange inputs none .unbounded outputs)
  let delivery := plan.delivery
  match delivery.order with
  | none => Planning.ofExcept (plan.addProjection eval none none)
  | some sortedBy =>
    match sortedBy.remap? inputs outputs with
    | some remapped => Planning.ofExcept (plan.addProjection eval none (some remapped))
    | none =>
      if env.onHandler delivery.nodes then
        Planning.ofExcept do return (← plan.addProjection eval none none).clearOrder
      else do
        let sorted : Projection :=
          .orderedTopN delivery.window delivery.columns
            { sortedBy with keys := sortedBy.inputColumns }
        let merged ← env.mergeOnHandler plan sorted delivery.width none
        Planning.ofExcept (merged.addProjection eval none none)

/-! ### The tree -/

/-- The plan of a tree for what its consumer asks. -/
def build (env : Environment) : Logical → Request → Planning Plan
  | collect relation toCollect clause, request =>
    collectStep env relation toCollect clause request
  | aggregate source aggregates, _ => do
    aggregateStep env source.outputs aggregates (← source.build env {})
  | group source keys aggregates, _ => do
    groupStep env source.outputs keys aggregates (← source.build env {})
  | filter source having, request => do
    let plan ← source.build env request
    Planning.ofExcept (filterStep source.outputs having plan)
  | order source orderBy, request => do
    let plan ← source.build env { request with order := some orderBy }
    Planning.ofExcept (orderStep source.outputs orderBy request.window plan)
  | limit source n m, request => do
    let window ← Planning.ofExcept (env.window n m)
    let plan ← source.build env { request with window := ⟨window.reach, 0⟩ }
    Planning.ofExcept (limitStep env source.outputs window plan)
  | eval source outputs, request => do
    evalStep env source.outputs outputs (← source.build env request)

end Logical

def Planning.general (env : Environment) (relation : Relation) : Planning Plan :=
  let tree := Logical.ofRelation relation
  (tree.fuse?.getD tree).build env {}

end ShardedQuery

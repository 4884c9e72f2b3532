import ShardedQuery.Planning.Build

/-!
# Grouping where the rows are read

When every group lies on one shard, the shards compute final groups and nothing has to be aggregated
again.  That is the case when a table is grouped by the column it is clustered by, or by its primary
key.

* `Table.groupsAreLocal` — whether every group of a grouping lies on one shard.
* `Select.checkGroupKeys` — rejects keys that cannot be grouped by.
* `Planning.localGroups?` — the plan that groups where the rows are read.
-/

namespace ShardedQuery

def Symbol.isColumn (s : Symbol) (column : String) : Bool :=
  match s with
  | .reference c => c.name == column
  | _ => false

/-- Whether every group lies on one shard.  A single key has to be the column that the table is
clustered by, with a partitioned table narrowed down to one partition; several keys have to be the
primary key, in order. -/
def Table.groupsAreLocal (table : Table) (filter : WhereClause) (keys : List Symbol) : Bool :=
  match keys with
  | [] => false
  | [key] =>
    table.clusteredBy.any key.isColumn && !(table.partitioned && filter.partitions.length != 1)
  | _ =>
    keys.length == table.primaryKey.length &&
      (keys.zip table.primaryKey).all fun (key, column) => key.isColumn column

/-- The column that cannot be grouped by, because its values cannot be compared. -/
def Symbol.groupKeyError? : Symbol → Option PlanningError
  | .reference c =>
    if c.dataType = .object || c.dataType = .array then
      some (.invalidGroupKey c.name ("invalid data type '" ++ c.dataType.name ++ "'"))
    else none
  | _ => none

/-- Rejects keys that cannot be grouped by; the first of them decides. -/
def Select.checkGroupKeys (keys : List Symbol) : Except PlanningError Unit :=
  match keys.findSome? Symbol.groupKeyError? with
  | some e => .error e
  | none => .ok ()

namespace Planning

/-- The plan that groups where the rows are read.  Each node filters, sorts and cuts its groups.  If
the groups of several nodes are sorted by something that is not an output, they keep all their
columns for a merge on the handler, which sorts and cuts them again. -/
def groupOnCollectors (env : Environment) (table : Table) (q : Select) : Planning Plan := do
  let split := Split.ofSelect q
  let groups := q.groupKeys ++ split.aggregates
  let (projections, window) ← ofExcept do
    Select.checkGroupKeys q.groupKeys
    let group ← Projection.groupOf split.toCollect q.groupKeys split.aggregates .rowsToFinal .shard
    let filter ←
      match q.having with
      | some having => do pure [← Projection.filterOf groups having]
      | none => pure []
    let window ← env.window q.limit q.offset
    return (group :: filter, window)
  let routing ← env.allocateRouting table q.filter
  let order := q.orderBy.bind fun o => ColumnOrder.ofOrderBy? o q.outputs
  let mergeOrder := if order.isNone && !env.onHandler routing.nodes then q.orderBy else none
  let outputs := if mergeOrder.isSome then groups else q.outputs
  let arranged ← ofExcept (Projection.arrange groups q.orderBy ⟨window.reach, 0⟩ outputs)
  let id ← newPhase
  let phase : CollectPhase :=
    { jobId := env.jobId
      id
      routing
      granularity := table.granularity
      toCollect := split.toCollect
      projections := projections ++ [arranged]
      filter := q.filter
      distribution := .broadcast
      orderBy := none
      user := env.session.user }
  match mergeOrder with
  | none => return .ofCollect phase window q.outputs.length window.reach order
  | some o =>
    let collect := Plan.ofCollect phase window groups.length window.reach
      (ColumnOrder.ofOrderBy? o groups)
    let toFinal ← ofExcept (Projection.arrange groups (some o) window q.outputs)
    env.mergeOnHandler collect toFinal q.outputs.length none

/-- The plan that groups where the rows are read, if every group lies on one shard. -/
def localGroups? (env : Environment) (table : Table) (q : Select) : Planning (Option Plan) :=
  match q.groupBy with
  | none => return none
  | some keys =>
    if table.granularity ≠ .doc || !table.groupsAreLocal q.filter keys then return none
    else if q.hasVersions then throw .versionInvalid
    else return some (← groupOnCollectors env table q)

end Planning

end ShardedQuery

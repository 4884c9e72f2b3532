import ShardedQuery.Planning.LocalGroups

/-!
# The planner

A relation is planned in the most special way that fits it: as a count, as a grouping where the rows
are read, or, for want of these, by way of its logical tree.

* `Planning.count?` — a query for the number of all matching documents is answered from the counts
  of the shards.
* `Planning.plan` — the plan of a relation.
-/

namespace ShardedQuery

/-- Whether the outputs are a plain count of all rows. -/
def Select.isPlainCount (q : Select) : Bool :=
  match q.outputs with
  | [.call f []] => f == "count"
  | _ => false

/-- The count plan of a query over a table, if it is a plain count whose one row is not cut away. -/
def Planning.count? (env : Environment) (table : Table) (q : Select) : Planning (Option Plan) :=
  if table.granularity ≠ .doc || q.groupBy.isSome || q.having.isSome || !q.isPlainCount then
    return none
  else do
    let window ← Planning.ofExcept (env.window q.limit q.offset)
    if 0 < window.offset || window.limit = some 0 then
      return none
    if q.filter.hasVersions then
      throw .versionInvalid
    let routing ← env.allocateRouting table q.filter
    let id ← Planning.newPhase
    return some (.ofCount ⟨env.jobId, id, routing, q.filter, .sameNode⟩)

namespace Planning

/-- A special plan of a relation, if the settings allow one and the query fits. -/
def special? (env : Environment) : Relation → Planning (Option Plan)
  | .derived .. => return none
  | .table table q => do
    if env.settings.countPushdown then
      if let some plan ← count? env table q then
        return some plan
    if env.settings.reduceOnCollector then
      if let some plan ← localGroups? env table q then
        return some plan
    return none

def plan (env : Environment) (relation : Relation) : Planning Plan := do
  match ← special? env relation with
  | some plan => return plan
  | none => general env relation

end Planning

end ShardedQuery

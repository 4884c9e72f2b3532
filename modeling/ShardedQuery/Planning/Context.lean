import ShardedQuery.Plan.Basic
import ShardedQuery.Query.Select
import ShardedQuery.Routing.Resolve

/-!
# The context of planning

* `Settings` — what can be set on a node.
* `Environment` — what stays fixed while the queries of one request are planned.
* `Progress` — what changes: the next phase id, the routings found so far, the random stream.
* `Planning` — a computation that may fail; `Progress` outlives a failure.
* `Environment.allocateRouting` — the routing of a table, found once and then remembered.
* `Environment.window` — the values of LIMIT and OFFSET.
-/

namespace ShardedQuery

/-- What can be set on a node; each setting has a default. -/
structure Settings where
  /-- Attributes by which copies of shards are spread over the cluster.  Routings do not take
  account of them, so with any of them tables in shards cannot be read. -/
  awarenessAttributes : List String := []
  /-- A shard without a readable copy is left out and does not fail the query. -/
  ignoreMissingShards : Bool := false
  /-- A plain count of all rows becomes a count phase. -/
  countPushdown : Bool := true
  /-- A grouping whose groups each lie on one shard is done where the rows are read. -/
  reduceOnCollector : Bool := true
deriving DecidableEq, Repr

namespace Settings

/-- Only the general way of planning. -/
def generic : Settings := { countPushdown := false, reduceOnCollector := false }

def ignoringMissingShards : Settings := { ignoreMissingShards := true }

end Settings

structure Session where
  user : String := "crate"
  defaultSchema : String := "doc"
deriving DecidableEq, Repr

/-- What stays fixed while the queries of one request are planned. -/
structure Environment where
  jobId : String
  cluster : Cluster
  settings : Settings := {}
  seed : Int32
  session : Session := {}
  /-- The values of the parameters. -/
  params : List Literal := []

/-- What the routing of a table depends on. -/
structure RoutingKey where
  table : TableName
  values : Option (List String)
  partitions : List String
deriving DecidableEq, Repr

/-- What changes while queries are planned. -/
structure Progress where
  nextPhase : UInt32
  /-- The routings found so far, the latest first. -/
  routings : List (RoutingKey × Routing)
  random : RandomStream

def Progress.start (seed : Int32) : Progress where
  nextPhase := 0
  routings := []
  random := .ofSeed seed.toUInt32.toUInt64

/-- A planning computation.  What it has changed stays changed if it fails. -/
abbrev Planning := EStateM PlanningError Progress

namespace Planning

/-- A result that takes no part in what changes. -/
def ofExcept {α : Type} : Except PlanningError α → Planning α
  | .ok a => pure a
  | .error e => throw e

def newPhase : Planning UInt32 :=
  modifyGet fun p => (p.nextPhase, { p with nextPhase := p.nextPhase + 1 })

end Planning

namespace Environment

/-- The node that handles the query: the local one. -/
def handler (env : Environment) : String := env.cluster.members.localId

/-- Whether rows that come from these nodes are on the handler already. -/
def onHandler (env : Environment) (nodes : List String) : Bool :=
  executesOnHandler env.handler nodes

/-! ### Routings -/

def routingKey (table : Table) (filter : WhereClause) : RoutingKey :=
  ⟨table.name, filter.routingValues.map (·.toList), filter.partitions⟩

/-- The indices that hold the rows of a table that a filter keeps. -/
def indicesOf (table : Table) (filter : WhereClause) : List String :=
  if filter.partitions.isEmpty then table.indices else filter.partitions

def routingValuesOf (filter : WhereClause) (indices : List String) : RoutingValues :=
  match filter.routingValues with
  | some values => indices.foldl (fun byIndex index => byIndex.insert index values) ∅
  | none => ∅

/-- The routing of a table that has not been looked for before, and the random stream after it. -/
def findRouting (env : Environment) (table : Table) (filter : WhereClause) (random : RandomStream) :
    Except PlanningError (Routing × RandomStream) :=
  match table.granularity with
  | .cluster => Routing.ofAnyNode table.name.qualified env.cluster.members random
  | .node => .ok (.onNodes table.name.qualified env.cluster.members.ids, random)
  | .shard | .doc => do
    let indices := indicesOf table filter
    let routing ← Routing.ofIndices env.cluster env.settings.awarenessAttributes env.seed indices
      (routingValuesOf filter indices) env.settings.ignoreMissingShards
    return (routing, random)

/-- The routing of a table with a filter.  A filter that keeps no row needs none; a routing that was
found before is used again. -/
def allocateRouting (env : Environment) (table : Table) (filter : WhereClause) :
    Planning Routing := do
  if filter.noMatch then
    return .empty
  let progress ← get
  let key := routingKey table filter
  match progress.routings.lookup key with
  | some routing => return routing
  | none =>
    let (routing, random) ← Planning.ofExcept (env.findRouting table filter progress.random)
    set { progress with routings := (key, routing) :: progress.routings, random }
    return routing

/-! ### LIMIT and OFFSET -/

/-- The value of a symbol in LIMIT or OFFSET; null stands for none. -/
def count? (env : Environment) (s : Symbol) : Except PlanningError (Option Nat) := do
  let value ←
    match s with
    | .literal v => .ok v
    | .parameter i =>
      match env.params[i]? with
      | some v => .ok v
      | none => .error (.missingParameter (i + 1))
    | other => .error (.invalidLimit (other.display ++ " is not a constant"))
  match value with
  | .null => return none
  | .int n =>
    if 0 ≤ n.toInt then return some n.toInt.toNat
    else .error (.invalidLimit ((Literal.int n).display ++ " is negative"))
  | other => .error (.invalidLimit (other.display ++ " is not an integer"))

def window (env : Environment) (limit offset : Option Symbol) : Except PlanningError Window := do
  let limit ←
    match limit with
    | some s => env.count? s
    | none => .ok none
  let offset ←
    match offset with
    | some s => env.count? s
    | none => .ok none
  return ⟨limit, offset.getD 0⟩

end Environment

end ShardedQuery

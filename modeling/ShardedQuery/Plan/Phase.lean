import Std.Data.TreeSet
import ShardedQuery.Plan.Projection
import ShardedQuery.Query.Where
import ShardedQuery.Routing.Basic

/-!
# Phases

A phase is a part of a plan that runs on certain nodes.

* `CollectPhase` reads rows where its routing says.
* `MergePhase` gathers the rows of the nodes of another phase.
* `CountPhase` counts documents without reading them.
-/

namespace ShardedQuery

/-- The strings of a list in order, each once. -/
def sortedDistinct (xs : List String) : List String := (Std.TreeSet.ofList xs).toList

/-- How the rows of a phase reach the next one. -/
inductive Distribution where
  /-- Every node of the next phase gets all rows. -/
  | broadcast
  /-- Rows stay on the node that they come from. -/
  | sameNode
deriving DecidableEq, Repr

def Distribution.name : Distribution → String
  | broadcast => "broadcast"
  | sameNode => "same_node"

/-- Reads rows where its routing says. -/
structure CollectPhase where
  jobId : String
  id : UInt32
  routing : Routing
  granularity : Granularity
  toCollect : List Symbol
  projections : List Projection
  filter : WhereClause
  distribution : Distribution
  /-- The order in which each node is asked to read its rows. -/
  orderBy : Option OrderBy
  user : String

namespace CollectPhase

def name : String := "collect"

def nodes (p : CollectPhase) : List String := p.routing.nodes

def toJson (p : CollectPhase) : Json :=
  .object [("job_id", .string p.jobId), ("phase_id", .nat p.id.toNat), ("name", .string name),
    ("routing", p.routing.toJson), ("max_row_granularity", .string p.granularity.name),
    ("to_collect", Symbol.listToJson p.toCollect),
    ("projections", .array (p.projections.map (·.toJson))), ("where_clause", p.filter.toJson),
    ("distribution", .string p.distribution.name), ("order_by", .optional OrderBy.toJson p.orderBy),
    ("user", .string p.user)]

end CollectPhase

/-- Gathers the rows of the nodes of another phase. -/
structure MergePhase where
  jobId : String
  id : UInt32
  /-- The number of nodes that rows come from. -/
  sources : Nat
  runsOn : List String
  inputColumns : List Symbol
  projections : List Projection
  distribution : Distribution

namespace MergePhase

def name : String := "mergeOnHandler"

def nodes (p : MergePhase) : List String := sortedDistinct p.runsOn

def toJson (p : MergePhase) : Json :=
  .object [("job_id", .string p.jobId), ("phase_id", .nat p.id.toNat), ("name", .string name),
    ("num_upstreams", .nat p.sources), ("node_ids", .strings p.runsOn),
    ("input_columns", Symbol.listToJson p.inputColumns),
    ("projections", .array (p.projections.map (·.toJson))),
    ("distribution", .string p.distribution.name)]

end MergePhase

/-- Counts the matching documents of each shard. -/
structure CountPhase where
  jobId : String
  id : UInt32
  routing : Routing
  filter : WhereClause
  distribution : Distribution

namespace CountPhase

def name : String := "count"

def nodes (p : CountPhase) : List String := p.routing.nodes

def toJson (p : CountPhase) : Json :=
  .object [("job_id", .string p.jobId), ("phase_id", .nat p.id.toNat),
    ("routing", p.routing.toJson), ("where_clause", p.filter.toJson),
    ("distribution", .string p.distribution.name)]

end CountPhase

/-- Whether rows that come from these nodes are on the handler already: they come from nowhere else,
if they come from anywhere. -/
def executesOnHandler (handler : String) : List String → Bool
  | [] => true
  | [node] => node == handler
  | _ => false

end ShardedQuery

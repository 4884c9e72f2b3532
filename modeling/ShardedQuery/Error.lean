/-!
# Failures

* `PlanningError` — why a query got no plan; its `kind` tells a caller what to do about it, its
  `code` is stable for reports, its `message` is for people.
* `MergeError` — why the rows of several nodes could not be merged.
-/

namespace ShardedQuery

/-- What a caller can do about a planning failure. -/
inductive ErrorKind where
  /-- A needed shard has no usable copy at the moment; the query may be sent again. -/
  | routingUnavailable
  /-- A table, index or shard is unknown. -/
  | notFound
  /-- The query itself is at fault. -/
  | validation
  /-- The query asks for something that the planner cannot do. -/
  | unsupported
  /-- The planner contradicted itself. -/
  | internal
  /-- The settings could not be read. -/
  | config
deriving DecidableEq, Repr

def ErrorKind.name : ErrorKind → String
  | routingUnavailable => "routing_unavailable"
  | notFound => "not_found"
  | validation => "validation"
  | unsupported => "unsupported"
  | internal => "internal"
  | config => "config"

/-- Why a query got no plan. -/
inductive PlanningError where
  | shardsUnavailable (index : String) (shard : UInt32)
  | indexNotFound (index : String)
  | shardNotFound (index : String) (shard : UInt32)
  | versionInvalid
  | invalidGroupKey (column reason : String)
  | invalidLimit (reason : String)
  | missingParameter (number : Nat)
  | unsupported (feature : String)
  | internal (detail : String)
  | invalidConfig (detail : String)
deriving DecidableEq, Repr

namespace PlanningError

def kind : PlanningError → ErrorKind
  | shardsUnavailable .. => .routingUnavailable
  | indexNotFound _ | shardNotFound .. => .notFound
  | versionInvalid | invalidGroupKey .. | invalidLimit _ | missingParameter _ => .validation
  | unsupported _ => .unsupported
  | internal _ => .internal
  | invalidConfig _ => .config

def code : PlanningError → String
  | shardsUnavailable .. => "SHARDS_UNAVAILABLE"
  | indexNotFound _ => "INDEX_NOT_FOUND"
  | shardNotFound .. => "SHARD_NOT_FOUND"
  | versionInvalid => "VERSION_INVALID"
  | invalidGroupKey .. => "INVALID_GROUP_KEY"
  | invalidLimit _ => "INVALID_LIMIT"
  | missingParameter _ => "MISSING_PARAMETER"
  | unsupported _ => "UNSUPPORTED"
  | internal _ => "INTERNAL"
  | invalidConfig _ => "INVALID_CONFIG"

/-- Only a query whose shards are unavailable may be sent again as it is. -/
def isRetryable (e : PlanningError) : Bool := e.kind == .routingUnavailable

def message : PlanningError → String
  | shardsUnavailable index shard =>
    s!"shard {shard} of index [{index}] has no active or initializing copy"
  | indexNotFound index => s!"index [{index}] not found"
  | shardNotFound index shard => s!"shard {shard} of index [{index}] not found"
  | versionInvalid => "\"_version\" is not supported in WHERE or HAVING clauses of grouped queries"
  | invalidGroupKey column reason => "cannot GROUP BY '" ++ column ++ "': " ++ reason
  | invalidLimit reason => s!"invalid LIMIT/OFFSET value: {reason}"
  | missingParameter number => s!"no value bound for parameter ${number}"
  | unsupported feature => s!"unsupported: {feature}"
  | internal detail => s!"internal planner error: {detail}"
  | invalidConfig detail => s!"invalid planner configuration: {detail}"

end PlanningError

/-- Why the rows of several nodes could not be merged. -/
inductive MergeError where
  | sourceFailed (node message : String)
  | incomplete (expected received : Nat)
  | cancelled
deriving DecidableEq, Repr

def MergeError.message : MergeError → String
  | sourceFailed node message => s!"upstream on node [{node}] failed: {message}"
  | incomplete expected received =>
    s!"merge expected {expected} upstream results but only {received} reported"
  | cancelled => "merge was cancelled"

end ShardedQuery

import Std.Data.TreeSet
import ShardedQuery.Cluster.State
import ShardedQuery.Cluster.Table
import ShardedQuery.Error
import ShardedQuery.Query.Select
import ShardedQuery.Random.ChaCha
import ShardedQuery.Routing.Basic

/-!
# Finding a routing

* `Routing.ofAnyNode` — a table that any eligible node answers for: the local node if it can, and a
  random one of the others if not.
* `Routing.ofIndices` — a table in shards: the targeted shards, each read from one of its copies.

The random stream is drawn from only where a node is picked at random, and a failure draws nothing.
-/

namespace ShardedQuery

/-- The routing values to target, by index; an index that is absent is read as a whole. -/
abbrev RoutingValues := Std.TreeMap String (Std.TreeSet String)

/-- The results of `f` at `start` and the `count - 1` numbers after it, or the first failure. -/
def collectFrom {ε α : Type} (f : Nat → Except ε α) : (start count : Nat) → Except ε (List α)
  | _, 0 => .ok []
  | start, count + 1 => do
    let a ← f start
    let rest ← collectFrom f (start + 1) count
    return a :: rest

namespace Routing

/-- The shards that hold the documents of a routing value: one for each partition offset. -/
def shardsOfValue (name : String) (table : ShardTable) (index : Index) (value : String) :
    Except PlanningError (List ShardGroup) :=
  collectFrom
    (fun offset =>
      let shard := index.shardOf value (UInt32.ofNat offset)
      match table.group? name shard with
      | some group => .ok group
      | none => .error (.shardNotFound name shard))
    0 index.partitionSize.toNat

/-- The shards of one index that have to be read: those of its routing values, or all of them. -/
def shardsOfIndex (cluster : Cluster) (values : RoutingValues) (name : String) :
    Except PlanningError (List ShardGroup) :=
  match cluster.tables[name]?, cluster.indices[name]? with
  | some table, some index =>
    match values[name]? with
    | some routing => do
      let groups ← routing.toList.mapM (shardsOfValue name table index)
      return groups.flatten
    | none => .ok (table.groups name)
  | _, _ => .error (.indexNotFound name)

/-- The shards that have to be read, each once, in the order they are first targeted. -/
def targets (cluster : Cluster) (indices : List String) (values : RoutingValues) :
    Except PlanningError (List ShardGroup) := do
  let groups ← indices.mapM (shardsOfIndex cluster values)
  return distinct groups.flatten

/-- The routing that reads a shard, too, from its best copy.  A shard that has no readable copy is
left out or makes the routing fail. -/
def readShard (seed : Int32) (ignoreMissing : Bool) (r : Routing) (group : ShardGroup) :
    Except PlanningError Routing :=
  match (group.readable seed).head?.bind (·.node) with
  | some node => .ok (r.read node group.index group.shard)
  | none =>
    if ignoreMissing then .ok r else .error (.shardsUnavailable group.index group.shard)

def ofIndices (cluster : Cluster) (awareness : List String) (seed : Int32) (indices : List String)
    (values : RoutingValues) (ignoreMissing : Bool) : Except PlanningError Routing :=
  if awareness.isEmpty then do
    let groups ← targets cluster indices values
    let routing ← groups.foldlM (readShard seed ignoreMissing) empty
    return routing.sortShards
  else
    .error (.unsupported
      ("shard allocation awareness routing (" ++ ", ".intercalate awareness ++ ")"))

/-- The routing that reads a table on one eligible node, and the random stream after it. -/
def ofAnyNode (table : String) (members : Members) (random : RandomStream) :
    Except PlanningError (Routing × RandomStream) :=
  if members.localRoles?.any (·.eligible) then .ok (onNode table members.localId, random)
  else
    let eligible := members.eligible
    let (position, rest) := random.below eligible.length
    match eligible[position]? with
    | some node => .ok (onNode table node, rest)
    | none => .error (.internal "cluster has no master or data node")

end Routing

end ShardedQuery

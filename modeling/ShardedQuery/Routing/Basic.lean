import Std.Data.TreeMap
import ShardedQuery.Json

/-!
# Routings

A routing says which nodes take part in reading a table, and which shards of which indices each of
them reads.  A node that reads a table without shards has an empty list of shards for it.
-/

namespace ShardedQuery

/-- The shards to read, by node and by index. -/
structure Routing where
  locations : Std.TreeMap String (Std.TreeMap String (List UInt32)) := ∅

namespace Routing

/-- Nothing is read anywhere. -/
def empty : Routing := {}

/-- What a node reads of a table without shards. -/
def wholeTable (table : String) : Std.TreeMap String (List UInt32) :=
  (∅ : Std.TreeMap String (List UInt32)).insert table []

/-- A table without shards is read on one node. -/
def onNode (table node : String) : Routing :=
  ⟨(∅ : Std.TreeMap String _).insert node (wholeTable table)⟩

/-- A table without shards is read on several nodes. -/
def onNodes (table : String) (nodes : List String) : Routing :=
  ⟨nodes.foldl (fun locations node => locations.insert node (wholeTable table)) ∅⟩

/-- The routing that reads one more shard of an index on a node. -/
def read (r : Routing) (node index : String) (shard : UInt32) : Routing :=
  let indices := (r.locations[node]?).getD ∅
  let shards := (indices[index]?).getD []
  ⟨r.locations.insert node (indices.insert index (shards ++ [shard]))⟩

/-- The routing with the shards of each index in order. -/
def sortShards (r : Routing) : Routing :=
  ⟨r.locations.map fun _ indices =>
    indices.map fun _ shards => shards.mergeSort fun a b => a ≤ b⟩

def nodes (r : Routing) : List String := r.locations.keys

def isEmpty (r : Routing) : Bool := r.locations.isEmpty

def shardCount (r : Routing) : Nat :=
  (r.locations.values.flatMap (·.values)).foldl (fun count shards => count + shards.length) 0

def shards (r : Routing) (node index : String) : List UInt32 :=
  ((r.locations[node]?).bind (·[index]?)).getD []

def toJson (r : Routing) : Json :=
  .object [("locations", .object (r.locations.toList.map fun (node, indices) =>
    (node, .object (indices.toList.map fun (index, shards) =>
      (index, .array (shards.map fun s => .nat s.toNat))))))]

end Routing

end ShardedQuery

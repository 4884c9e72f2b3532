import Std.Data.TreeMap
import ShardedQuery.Cluster.Index

/-!
# The state of a cluster

* `Members` — the nodes of the cluster with their roles, and which of them is the local one.
* `ShardTable` — for each shard of an index the copies of it, in the order they were added.
* `ShardGroup.readable` — the copies of a shard that may be read, the best one first.
* `Cluster` — the members, and for each index its shard table and how it spreads documents.

All parts are kept in the order of their names or numbers.
-/

namespace ShardedQuery

/-! ### Nodes -/

structure Roles where
  master : Bool
  data : Bool
deriving DecidableEq, Repr

/-- Whether a node with these roles can answer for the cluster. -/
def Roles.eligible (r : Roles) : Bool := r.master || r.data

/-- The nodes of a cluster, as the local node sees them. -/
structure Members where
  localId : String
  nodes : Std.TreeMap String Roles := ∅

namespace Members

/-- The members with a node added, or with its roles replaced. -/
def add (m : Members) (id : String) (roles : Roles) : Members :=
  { m with nodes := m.nodes.insert id roles }

def localRoles? (m : Members) : Option Roles := m.nodes[m.localId]?

def ids (m : Members) : List String := m.nodes.keys

/-- The ids of the nodes that can answer for the cluster, in order. -/
def eligible (m : Members) : List String :=
  (m.nodes.toList.filter fun node => node.2.eligible).map (·.1)

end Members

/-! ### Shards -/

/-- How far a copy of a shard has come. -/
inductive ShardState where
  | unassigned
  | initializing
  | started
  | relocating
deriving DecidableEq, Repr

def ShardState.name : ShardState → String
  | unassigned => "UNASSIGNED"
  | initializing => "INITIALIZING"
  | started => "STARTED"
  | relocating => "RELOCATING"

/-- A copy of a shard; an unassigned one is on no node. -/
structure ShardCopy where
  node : Option String
  primary : Bool
  state : ShardState
deriving DecidableEq, Repr

namespace ShardCopy

/-- Whether the copy answers reads at full speed. -/
def isActive (c : ShardCopy) : Bool := c.state == .started || c.state == .relocating

/-- Whether the copy is still being filled. -/
def isInitializing (c : ShardCopy) : Bool := c.state == .initializing

def isAssigned (c : ShardCopy) : Bool := c.node.isSome

end ShardCopy

/-- A shard of an index with its copies. -/
structure ShardGroup where
  index : String
  shard : UInt32
  copies : List ShardCopy
deriving DecidableEq, Repr

namespace ShardGroup

/-- The active copies on a node. -/
def activeCopies (g : ShardGroup) : List ShardCopy :=
  g.copies.filter fun c => c.isActive && c.isAssigned

/-- The copies on a node that are still being filled. -/
def initializingCopies (g : ShardGroup) : List ShardCopy :=
  g.copies.filter fun c => c.isInitializing && c.isAssigned

/-- The copies that may be read.  The active ones come first, turned by the seed, so that all reads
with one seed start with one copy and different seeds spread over the copies. -/
def readable (g : ShardGroup) (seed : Int32) : List ShardCopy :=
  let turn := (seed.toInt % (g.activeCopies.length : Int)).toNat
  g.activeCopies.rotateLeft turn ++ g.initializingCopies

end ShardGroup

/-- For each shard of an index its copies, in the order they were added. -/
structure ShardTable where
  copies : Std.TreeMap UInt32 (List ShardCopy) := ∅

namespace ShardTable

def add (t : ShardTable) (shard : UInt32) (copy : ShardCopy) : ShardTable :=
  ⟨t.copies.insert shard ((t.copies[shard]?.getD []) ++ [copy])⟩

def group? (t : ShardTable) (index : String) (shard : UInt32) : Option ShardGroup :=
  (t.copies[shard]?).map fun copies => ⟨index, shard, copies⟩

def groups (t : ShardTable) (index : String) : List ShardGroup :=
  t.copies.toList.map fun entry => ⟨index, entry.1, entry.2⟩

end ShardTable

/-! ### The cluster -/

/-- The members of a cluster and its indices. -/
structure Cluster where
  members : Members
  tables : Std.TreeMap String ShardTable := ∅
  indices : Std.TreeMap String Index := ∅

/-- The cluster with a shard table for the index of the given name, and with an index. -/
def Cluster.withIndex (c : Cluster) (index : Index) (name : String) (table : ShardTable) :
    Cluster :=
  { c with tables := c.tables.insert name table, indices := c.indices.insert index.name index }

end ShardedQuery

/-!
# Tables

* `Granularity` — how finely the rows of a table are spread, and where a projection may run.
* `Table` — what planning knows of a table: its name, how its rows are spread and clustered, and the
  indices they are stored in.
-/

namespace ShardedQuery

/-- A scope in the cluster, from the coarsest to the finest. -/
inductive Granularity where
  | cluster
  | node
  | shard
  | doc
deriving DecidableEq, Repr

namespace Granularity

/-- The place of a scope, counted from the coarsest. -/
def level : Granularity → Nat
  | cluster => 0
  | node => 1
  | shard => 2
  | doc => 3

def name : Granularity → String
  | cluster => "CLUSTER"
  | node => "NODE"
  | shard => "SHARD"
  | doc => "DOC"

def sort (scopes : List Granularity) : List Granularity :=
  scopes.mergeSort fun a b => a.level ≤ b.level

end Granularity

structure TableName where
  schema : String
  table : String
deriving DecidableEq, Repr

def TableName.qualified (n : TableName) : String := n.schema ++ "." ++ n.table

/-- What planning knows of a table. -/
structure Table where
  name : TableName
  granularity : Granularity
  /-- The column whose value decides on the shard of a row. -/
  clusteredBy : Option String
  primaryKey : List String
  /-- The indices that hold the rows, one for each partition of a partitioned table. -/
  indices : List String
  partitioned : Bool
deriving DecidableEq, Repr

namespace Table

/-- A table of documents, stored in one index of the table's name. -/
def ofDocuments (schema table : String) : Table where
  name := ⟨schema, table⟩
  granularity := .doc
  clusteredBy := none
  primaryKey := []
  indices := [table]
  partitioned := false

/-- A table that any one master or data node can answer for. -/
def ofCluster (schema table : String) : Table where
  name := ⟨schema, table⟩
  granularity := .cluster
  clusteredBy := none
  primaryKey := []
  indices := []
  partitioned := false

/-- A table of which every node has a part. -/
def ofNodes (schema table : String) : Table := { ofCluster schema table with granularity := .node }

def withClusteredBy (t : Table) (column : String) : Table := { t with clusteredBy := some column }

/-- The table with a primary key.  A key of one column also clusters a table that nothing else
clusters. -/
def withPrimaryKey (t : Table) (columns : List String) : Table :=
  { t with
    primaryKey := columns
    clusteredBy :=
      match t.clusteredBy, columns with
      | none, [column] => some column
      | clusteredBy, _ => clusteredBy }

/-- The table split into partitions, each with an index of its name. -/
def withPartitions (t : Table) (partitions : List String) : Table :=
  { t with indices := partitions, partitioned := true }

def isSharded (t : Table) : Bool := Granularity.shard.level ≤ t.granularity.level

end Table

end ShardedQuery

import Std.Data.TreeSet
import ShardedQuery.Symbol.Display

/-!
# WHERE

Next to its filter an analysed WHERE clause may name the values that the rows it keeps are routed
by, and the partitions these rows lie in; both narrow down what has to be read.
-/

namespace ShardedQuery

/-- The column that holds the version of a row. -/
def versionColumn : String := "_version"

structure WhereClause where
  /-- The filter; without one every row is kept. -/
  query : Option Symbol := none
  /-- The values that the kept rows are routed by, if they are known. -/
  routingValues : Option (Std.TreeSet String) := none
  /-- The partitions that the kept rows lie in; none named means any. -/
  partitions : List String := []
  /-- The filter is known to keep no row at all. -/
  noMatch : Bool := false

namespace WhereClause

/-- The clause with these routing values; order and repetitions do not matter. -/
def withRoutingValues (clause : WhereClause) (values : List String) : WhereClause :=
  { clause with routingValues := some (Std.TreeSet.ofList values) }

def hasQuery (clause : WhereClause) : Bool := clause.query.isSome

/-- Whether the filter depends on the version of a row. -/
def hasVersions (clause : WhereClause) : Bool :=
  clause.query.any fun q => q.referencesColumn versionColumn

def toJson (clause : WhereClause) : Json :=
  .object [("query", .optional Symbol.toJson clause.query),
    ("routing_values", .optional (fun values => .strings values.toList) clause.routingValues),
    ("partitions", .strings clause.partitions), ("no_match", .bool clause.noMatch)]

end WhereClause

end ShardedQuery

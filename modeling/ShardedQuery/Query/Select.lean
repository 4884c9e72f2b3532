import ShardedQuery.Cluster.Table
import ShardedQuery.Query.OrderBy
import ShardedQuery.Query.Where

/-!
# Queries

* `Select` — the clauses of a query over one relation.
* `Relation` — what a query reads from, together with the query.  Only tables can be read; a derived
  relation is known by its name.
* `Split.ofSelect` — what a query has to fetch from its table and which aggregates it computes on
  top.

What is fetched or computed is fetched or computed once, so there are lists without repetitions:

* `distinct xs` — the elements of a list, each once, in order of first appearance.  Elements are
  told apart by `==`; of equal ones the first is kept.
* `position? xs x` — the place of the first element that equals `x`.
-/

namespace ShardedQuery

/-! ### Lists without repetitions -/

section Distinct

variable {α : Type} [BEq α]

/-- The list with an element added at its end, unless an equal one is in it. -/
def insertNew (xs : List α) (x : α) : List α := if xs.contains x then xs else xs ++ [x]

def distinct (xs : List α) : List α := xs.foldl insertNew []

def position? (xs : List α) (x : α) : Option Nat := xs.findIdx? fun y => y == x

end Distinct

/-! ### Queries and relations -/

/-- The clauses of a query over one relation. -/
structure Select where
  outputs : List Symbol
  filter : WhereClause := {}
  /-- The grouping; a grouping by no keys is not the same as none. -/
  groupBy : Option (List Symbol) := none
  having : Option Symbol := none
  orderBy : Option OrderBy := none
  limit : Option Symbol := none
  offset : Option Symbol := none

namespace Select

def groupKeys (q : Select) : List Symbol := q.groupBy.getD []

def havingVersions (q : Select) : Bool := q.having.any fun h => h.referencesColumn versionColumn

/-- Whether WHERE or HAVING depends on the version of a row. -/
def hasVersions (q : Select) : Bool := q.filter.hasVersions || q.havingVersions

end Select

/-- A relation and the query over it. -/
inductive Relation where
  | table (table : Table) (query : Select)
  | derived (name : String) (query : Select)

namespace Relation

def query : Relation → Select
  | table _ q => q
  | derived _ q => q

/-- The name of the relation, qualified for a table. -/
def name : Relation → String
  | table t _ => t.name.qualified
  | derived n _ => n

def isTable : Relation → Bool
  | table .. => true
  | derived .. => false

end Relation

/-! ### Aggregates and their inputs -/

namespace Symbol

mutual

/-- The outermost aggregate calls in a symbol, added to those found so far. -/
def collectAggregates (found : List Symbol) : Symbol → List Symbol
  | call f args =>
    if isAggregateName f then insertNew found (call f args) else collectAggregatesIn found args
  | literal _ | reference _ | input _ | parameter _ => found

def collectAggregatesIn (found : List Symbol) : List Symbol → List Symbol
  | [] => found
  | a :: as => collectAggregatesIn (collectAggregates found a) as

end

/-- Whether the value is known without a row. -/
def isConstant : Symbol → Bool
  | literal _ | parameter _ => true
  | _ => false

def arguments : Symbol → List Symbol
  | call _ args => args
  | _ => []

end Symbol

/-- What a query fetches from its table, and the aggregates it computes on top.  Both lists are free
of repetitions and in order of first appearance. -/
structure Split where
  aggregates : List Symbol
  toCollect : List Symbol

namespace Split

/-- The outermost aggregates of a query: those of its outputs, then of HAVING, then of ORDER BY. -/
def aggregatesOf (q : Select) : List Symbol :=
  let found := Symbol.collectAggregatesIn [] q.outputs
  let found := Symbol.collectAggregatesIn found q.having.toList
  Symbol.collectAggregatesIn found (q.orderBy.elim [] (·.symbols))

/-- Without aggregates and grouping a query fetches its outputs; otherwise its group keys and the
arguments of its aggregates, except for constants. -/
def ofSelect (q : Select) : Split :=
  let aggregates := aggregatesOf q
  let toCollect :=
    if aggregates.isEmpty && q.groupBy.isNone then distinct q.outputs
    else
      distinct (q.groupKeys ++
        aggregates.flatMap fun a => a.arguments.filter fun arg => !arg.isConstant)
  ⟨aggregates, toCollect⟩

end Split

end ShardedQuery

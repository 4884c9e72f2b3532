import ShardedQuery.Query.Select

/-!
# Logical trees

A logical tree says what a query does, before it is known where.  It is a chain: every node but the
leaf has one source.

* `Logical.outputs` — the symbols of the rows of a node.
* `Logical.ofRelation` — the tree of a query.
-/

namespace ShardedQuery

/-- What a query does, from the leaf that reads rows up to the node that answers. -/
inductive Logical where
  /-- Reads symbols from a relation. -/
  | collect (relation : Relation) (toCollect : List Symbol) (filter : WhereClause)
  /-- One row of aggregates. -/
  | aggregate (source : Logical) (aggregates : List Symbol)
  /-- One row of keys and aggregates for each group. -/
  | group (source : Logical) (keys aggregates : List Symbol)
  /-- The rows for which HAVING holds. -/
  | filter (source : Logical) (having : Symbol)
  | order (source : Logical) (orderBy : OrderBy)
  /-- A window of the rows, its size not yet evaluated. -/
  | limit (source : Logical) (limit offset : Option Symbol)
  /-- Every row, laid out anew. -/
  | eval (source : Logical) (outputs : List Symbol)

namespace Logical

def outputs : Logical → List Symbol
  | collect _ toCollect _ => toCollect
  | aggregate _ aggregates => aggregates
  | group _ keys aggregates => keys ++ aggregates
  | filter source _ | order source _ | limit source _ _ => source.outputs
  | eval _ outputs => outputs

def name : Logical → String
  | collect .. => "Collect"
  | aggregate .. => "HashAggregate"
  | group .. => "GroupHashAggregate"
  | filter .. => "Filter"
  | order .. => "Order"
  | limit .. => "Limit"
  | eval .. => "Eval"

/-- The nodes of the tree, from the root to the leaf. -/
def nodes : Logical → List Logical
  | t@(collect ..) => [t]
  | t@(aggregate s _) | t@(group s _ _) | t@(filter s _) | t@(order s _) | t@(limit s _ _)
  | t@(eval s _) => t :: s.nodes

def chain (t : Logical) : List String := t.nodes.map (·.name)

/-- The tree with neighbouring nodes fused, if that changes it.  No two kinds of nodes are fused. -/
def fuse? (_ : Logical) : Option Logical := none

/-- The symbols that a query reads from its relation.  A query that only reads rows also fetches the
symbols it sorts by. -/
def toCollectOf (q : Select) : List Symbol :=
  let split := Split.ofSelect q
  match q.orderBy with
  | some o =>
    if split.aggregates.isEmpty && q.groupBy.isNone then distinct (split.toCollect ++ o.symbols)
    else split.toCollect
  | none => split.toCollect

/-- The tree of a query.  It lays rows out anew only if they are not laid out as the outputs. -/
def ofRelation (relation : Relation) : Logical :=
  let q := relation.query
  let aggregates := (Split.ofSelect q).aggregates
  let tree := collect relation (toCollectOf q) q.filter
  let tree :=
    match q.groupBy with
    | some keys => group tree keys aggregates
    | none => if aggregates.isEmpty then tree else aggregate tree aggregates
  let tree := q.having.elim tree (filter tree)
  let tree := q.orderBy.elim tree (order tree)
  let tree := if q.limit.isSome || q.offset.isSome then limit tree q.limit q.offset else tree
  if tree.outputs == q.outputs then tree else eval tree q.outputs

/-- The description of what is particular to a node. -/
def nodeFields : Logical → List (String × Json)
  | collect relation toCollect clause =>
    [("relation", .string relation.name), ("to_collect", Symbol.listToJson toCollect),
      ("where", clause.toJson)]
  | aggregate _ aggregates => [("aggregates", Symbol.listToJson aggregates)]
  | group _ keys aggregates =>
    [("aggregates", Symbol.listToJson aggregates), ("group_keys", Symbol.listToJson keys)]
  | filter _ having => [("having", .object [("query", having.toJson)])]
  | order _ o => [("order_by", o.toJson)]
  | limit _ n m =>
    [("limit", .optional Symbol.toJson n), ("offset", .optional Symbol.toJson m)]
  | eval .. => []

def nodeToJson (t : Logical) : Json :=
  .object ([("name", .string t.name), ("outputs", Symbol.listToJson t.outputs)] ++ t.nodeFields)

def toJson (t : Logical) : Json := .array (t.nodes.map nodeToJson)

end Logical

end ShardedQuery

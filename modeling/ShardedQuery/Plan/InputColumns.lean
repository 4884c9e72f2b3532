import ShardedQuery.Error
import ShardedQuery.Plan.Projection

/-!
# Symbols over the columns of a row

The symbols of a query become symbols of a projection by reading what is already computed from the
columns of the incoming rows.

* `Symbol.readFrom inputs s` — `s` over rows with the columns `inputs`.
* `Projection.aggregationOf`, `groupOf`, `filterOf`, `arrange` — the projections of a plan, over
  rows with known columns.
-/

namespace ShardedQuery

namespace Symbol

/-- A symbol that has to be a column of the incoming rows and is not. -/
def notAvailable (s : Symbol) : PlanningError :=
  .internal ("symbol " ++ s.display ++ " is not available in the input of the projection")

mutual

/-- The symbol over rows with the columns `inputs`: one that is a column is read from it, the first
one if there are several; a call of other symbols is computed from its arguments; constants stay. -/
def readFrom (inputs : List Symbol) : Symbol → Except PlanningError Symbol
  | call f args =>
    match position? inputs (call f args) with
    | some i => .ok (input i)
    | none => do return mkCall f (← readAllFrom inputs args)
  | literal v =>
    match position? inputs (literal v) with
    | some i => .ok (input i)
    | none => .ok (literal v)
  | parameter n =>
    match position? inputs (parameter n) with
    | some i => .ok (input i)
    | none => .ok (parameter n)
  | reference c =>
    match position? inputs (reference c) with
    | some i => .ok (input i)
    | none => .error (notAvailable (reference c))
  | input n =>
    match position? inputs (input n) with
    | some i => .ok (input i)
    | none => .error (notAvailable (input n))

/-- Several symbols over rows with the columns `inputs`; the first that fails decides. -/
def readAllFrom (inputs : List Symbol) : List Symbol → Except PlanningError (List Symbol)
  | [] => .ok []
  | a :: as => do
    let a ← readFrom inputs a
    let as ← readAllFrom inputs as
    return a :: as

end

end Symbol

/-- The aggregate call over rows with the columns `inputs`.  Where partial states come in, its own
column is the input, else its arguments are. -/
def Aggregation.ofCall (inputs : List Symbol) (mode : AggregateMode) :
    Symbol → Except PlanningError Aggregation
  | .call f args =>
    match mode with
    | .partialToFinal => do return ⟨f, [← (Symbol.call f args).readFrom inputs]⟩
    | .rowsToPartial | .rowsToFinal => do return ⟨f, ← Symbol.readAllFrom inputs args⟩
  | s => .error (.internal (s.display ++ " is not an aggregate call"))

namespace Projection

def aggregationOf (inputs aggregates : List Symbol) (mode : AggregateMode) (scope : Granularity) :
    Except PlanningError Projection := do
  return aggregation (← aggregates.mapM (Aggregation.ofCall inputs mode)) mode scope

def groupOf (inputs keys aggregates : List Symbol) (mode : AggregateMode) (scope : Granularity) :
    Except PlanningError Projection := do
  let keys ← Symbol.readAllFrom inputs keys
  let values ← aggregates.mapM (Aggregation.ofCall inputs mode)
  return group keys values mode scope

/-- The rows for which HAVING holds; it is evaluated as early as possible. -/
def filterOf (inputs : List Symbol) (having : Symbol) : Except PlanningError Projection := do
  return filter (← having.readFrom inputs) .shard

/-- The cheapest projection from rows of `inputs` to rows of `outputs` that keeps an order and a
window: it sorts if there is an order, else it cuts if the window does, else it only lays out. -/
def arrange (inputs : List Symbol) (order : Option OrderBy) (window : Window)
    (outputs : List Symbol) : Except PlanningError Projection := do
  let outputs ← Symbol.readAllFrom inputs outputs
  match order with
  | some o =>
    let keys ← Symbol.readAllFrom inputs o.symbols
    return orderedTopN window outputs (o.withKeys keys)
  | none => return if window = .unbounded then eval outputs else topN window outputs

end Projection

end ShardedQuery

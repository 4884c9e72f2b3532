import ShardedQuery.Error
import ShardedQuery.Plan.Phase

/-!
# Plans

* `Delivery` — what the consumer of a plan's rows has to know about them.
* `Plan` — a collect phase; a merge phase over another plan; or a count phase.
* `Plan.addProjection` — one more step at the end of a plan.
-/

namespace ShardedQuery

/-- What the consumer of rows has to know about them. -/
structure Delivery where
  /-- The nodes that the rows come from, in order. -/
  nodes : List String
  /-- The order that the rows of each node are in. -/
  order : Option ColumnOrder
  /-- The cut that has not been made yet; it has to be made once, where all rows meet. -/
  window : Window
  /-- The number of columns. -/
  width : Nat
  /-- At most so many rows come from each node. -/
  maxRowsPerNode : Option Nat

namespace Delivery

/-- The columns of the rows, as the next phase sees them. -/
def columns (d : Delivery) : List Symbol := Symbol.inputColumns d.width

/-- The delivery after one more projection.  A given window replaces the cut that is still to be
made; a given order is the one that the rows now have. -/
def project (d : Delivery) (p : Projection) (window : Option Window) (order : Option ColumnOrder) :
    Delivery :=
  { d with
    width := p.width?.getD d.width
    window := window.getD d.window
    order := order.or d.order }

def toJson (d : Delivery) : Json :=
  .object [("node_ids", .strings d.nodes), ("order_by", .optional ColumnOrder.toJson d.order),
    ("limit", .optional .nat d.window.limit), ("offset", .nat d.window.offset),
    ("num_outputs", .nat d.width), ("max_rows_per_node", .optional .nat d.maxRowsPerNode)]

end Delivery

/-- A plan for a query. -/
inductive Plan where
  | collect (phase : CollectPhase) (delivery : Delivery)
  | merge (source : Plan) (phase : MergePhase) (delivery : Delivery)
  | count (phase : CountPhase) (delivery : Delivery)

/-- What is known of a phase without its kind. -/
structure PhaseSummary where
  id : UInt32
  name : String
  nodes : List String
deriving DecidableEq, Repr

namespace Plan

def ofCollect (phase : CollectPhase) (window : Window) (width : Nat) (maxRows : Option Nat)
    (order : Option ColumnOrder) : Plan :=
  collect phase ⟨phase.nodes, order, window, width, maxRows⟩

def ofMerge (source : Plan) (phase : MergePhase) (window : Window) (width : Nat)
    (maxRows : Option Nat) (order : Option ColumnOrder) : Plan :=
  merge source phase ⟨phase.nodes, order, window, width, maxRows⟩

/-- The plan of a count phase: one number from each node. -/
def ofCount (phase : CountPhase) : Plan :=
  count phase ⟨phase.nodes, none, .unbounded, 1, some 1⟩

def delivery : Plan → Delivery
  | collect _ d | merge _ _ d | count _ d => d

def jobId : Plan → String
  | collect p _ => p.jobId
  | merge _ p _ => p.jobId
  | count p _ => p.jobId

/-- The plan with one more projection in its last phase.  Nothing can be added to a count. -/
def addProjection (plan : Plan) (p : Projection) (window : Option Window)
    (order : Option ColumnOrder) : Except PlanningError Plan :=
  match plan with
  | collect phase d =>
    .ok (collect { phase with projections := phase.projections ++ [p] } (d.project p window order))
  | merge source phase d =>
    .ok (merge source { phase with projections := phase.projections ++ [p] }
      (d.project p window order))
  | count .. => .error (.internal ("cannot add a " ++ p.name ++ " projection to a count plan"))

def withDelivery (plan : Plan) (d : Delivery) : Plan :=
  match plan with
  | collect phase _ => collect phase d
  | merge source phase _ => merge source phase d
  | count phase _ => count phase d

/-- The plan without the order that its rows were known to be in. -/
def clearOrder (plan : Plan) : Plan := plan.withDelivery { plan.delivery with order := none }

/-- How the last phase of the plan hands on its rows. -/
def distribution : Plan → Distribution
  | collect p _ => p.distribution
  | merge _ p _ => p.distribution
  | count p _ => p.distribution

def withDistribution (plan : Plan) (how : Distribution) : Plan :=
  match plan with
  | collect phase d => collect { phase with distribution := how } d
  | merge source phase d => merge source { phase with distribution := how } d
  | count phase d => count { phase with distribution := how } d

/-- The projections of the phase that the plan's rows come from. -/
def projections : Plan → List Projection
  | collect p _ => p.projections
  | merge _ p _ => p.projections
  | count .. => []

/-- All phases, those that rows come from first. -/
def phases : Plan → List PhaseSummary
  | collect p _ => [⟨p.id, CollectPhase.name, p.nodes⟩]
  | merge source p _ => source.phases ++ [⟨p.id, MergePhase.name, p.nodes⟩]
  | count p _ => [⟨p.id, CountPhase.name, p.nodes⟩]

def phaseIds (plan : Plan) : List UInt32 := plan.phases.map (·.id)

def toJson : Plan → Json
  | collect p d =>
    .object [("plan", .string "collect"), ("collect_phase", p.toJson), ("result", d.toJson)]
  | merge source p d =>
    .object [("plan", .string "merge"), ("sub_plan", source.toJson), ("merge_phase", p.toJson),
      ("result", d.toJson)]
  | count p d =>
    .object [("plan", .string "count"), ("count_phase", p.toJson), ("result", d.toJson)]

end Plan

end ShardedQuery

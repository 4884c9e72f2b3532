import ShardedQuery.Execution.TopN
import ShardedQuery.Proofs.Rows.Sorting
import ShardedQuery.Proofs.Semantics.Values

/-!
# What plans mean

The rows that a plan delivers, as a relation: an engine may sort rows that compare equal in any way,
emit groups in any order and let the batches of several nodes arrive in any order.

* `Engine.Cell`, `Engine.Tuple` — what the rows between two steps hold: values and partial states.
* `Engine.Step` — one projection on one stream of rows.
* `Engine.Runs` — the projections of a phase.  Those for shards run on each stream, and from the
  first coarser one on there is one stream for the node.
* `Engine.Emits` — the batches of rows that a plan emits, one for each node that its last phase runs
  on.  Records are placed on the nodes by a `Placement`.
* `Engine.Delivers` — the rows that the handler passes on in the end.
* `Engine.exists_delivers` — every plan delivers something on every placement.
-/

namespace ShardedQuery

/-- The order over rows of sort values: all columns in turn. -/
def SortSpec.onValues {κ : Type} (o : SortSpec κ) : ColumnOrder :=
  { o with keys := List.range o.keys.length }

/-- An order of a query by the values of its symbols. -/
def OrderBy.spec (o : OrderBy) : SortSpec Symbol := o.withKeys o.symbols

/-- Whether a projection runs on each shard. -/
def Projection.perShard (p : Projection) : Bool :=
  Granularity.shard.level ≤ p.granularity.level

/-- The nodes whose records a plan reads. -/
def Plan.readNodes : Plan → List String
  | .collect phase _ => phase.nodes
  | .merge source _ _ => source.readNodes
  | .count phase _ => phase.nodes

/-- The records on each node, by the shards that the node reads. -/
abbrev Placement := String → List (List Record)

namespace Placement

/-- The records of some nodes. -/
def records (placement : Placement) (nodes : List String) : List Record :=
  (nodes.flatMap placement).flatten

/-- The shards of each node that takes part.  If no node is to read anything, the handler takes part
and reads nothing. -/
def inputs (placement : Placement) (nodes : List String) : List (List (List Record)) :=
  if nodes.isEmpty then [[]] else nodes.map placement

end Placement

/-- What a row between two steps holds in a column: a value, or a partial state of an aggregate. -/
inductive Engine.Cell (E : Engine) where
  | value (v : Literal)
  | state (f : String) (s : E.State f)

/-- A row between two steps. -/
abbrev Engine.Tuple (E : Engine) := List E.Cell

namespace Engine

variable (E : Engine)

/-- The value in a column; a partial state is none. -/
def Cell.literal {E : Engine} : E.Cell → Literal
  | value v => v
  | state _ _ => .null

/-- The partial state in a column; anything else counts as no rows. -/
def Cell.stateOf {E : Engine} (f : String) : E.Cell → E.State f
  | value _ => 0
  | state g s => if h : g = f then h ▸ s else 0

/-- A row as a place: a position reads a column. -/
def inRow (row : E.Tuple) : Scope :=
  .plain (fun _ => .null) fun i => (row[i]?).elim .null Cell.literal

/-! ### Projections -/

/-- The cell that a symbol has for a row; a position passes the cell on. -/
def cellOf (row : E.Tuple) : Symbol → E.Cell
  | .input i => (row[i]?).getD (.value .null)
  | s => .value (E.value (E.inRow row) s)

/-- A row laid out anew. -/
def project (outputs : List Symbol) (row : E.Tuple) : E.Tuple := outputs.map (E.cellOf row)

/-- Whether a row comes before another, or is equal to it, in an order by the values of symbols. -/
def le (o : SortSpec Symbol) (x y : Scope) : Bool :=
  (o.onValues.compareRows (E.values x o.keys) (E.values y o.keys)).isLE

/-- The state that the rows of a stream give to an aggregate call. -/
def foldRows (a : Aggregation) (rows : List E.Tuple) : E.State a.function :=
  (rows.map fun row => E.absorb a.function (E.values (E.inRow row) a.inputs)).sum

/-- The state of the states in the one column that an aggregate call reads. -/
def mergeStates (a : Aggregation) (rows : List E.Tuple) : E.State a.function :=
  (rows.map fun row =>
    match a.inputs with
    | [.input i] => (row[i]?).elim 0 (Cell.stateOf a.function)
    | _ => 0).sum

/-- The cell of an aggregate call over a stream. -/
def aggregate (mode : AggregateMode) (rows : List E.Tuple) (a : Aggregation) : E.Cell :=
  match mode with
  | .rowsToPartial => .state a.function (E.foldRows a rows)
  | .rowsToFinal => .value (E.finish a.function (E.foldRows a rows))
  | .partialToFinal => .value (E.finish a.function (E.mergeStates a rows))

/-- The row of a group with given values of the keys. -/
def groupRow (keys : List Symbol) (values : List Aggregation) (mode : AggregateMode)
    (rows : List E.Tuple) (k : List Literal) : E.Tuple :=
  k.map .value ++
    values.map (E.aggregate mode (rows.filter fun row => E.values (E.inRow row) keys = k))

/-- One projection on one stream of rows. -/
def Step : Projection → List E.Tuple → List E.Tuple → Prop
  | .aggregation aggregations mode _, xs, ys => ys = [aggregations.map (E.aggregate mode xs)]
  | .group keys values mode _, xs, ys =>
    ys.Perm (((xs.map fun row => E.values (E.inRow row) keys).dedup).map
      (E.groupRow keys values mode xs))
  | .filter query _, xs, ys => ys = xs.filter fun row => E.holds (E.inRow row) query
  | .topN window outputs, xs, ys => ys = (window.cut xs).map (E.project outputs)
  | .orderedTopN window outputs order, xs, ys =>
    ∃ zs, Sorts (fun a b => E.le order (E.inRow a) (E.inRow b)) xs zs ∧
      ys = (window.cut zs).map (E.project outputs)
  | .eval outputs, xs, ys => ys = xs.map (E.project outputs)

/-- The projections of a phase on the streams of a node. -/
def Runs : List Projection → List (List E.Tuple) → List E.Tuple → Prop
  | [], streams, ys => ys = streams.flatten
  | p :: ps, streams, ys =>
    if p.perShard then ∃ streams', List.Forall₂ (E.Step p) streams streams' ∧ Runs ps streams' ys
    else ∃ zs, E.Step p streams.flatten zs ∧ Runs ps [zs] ys

/-! ### Plans -/

/-- Whether a filter keeps a record. -/
def matching (clause : WhereClause) (r : Record) : Bool := clause.query.all (E.holds r.scope)

/-- The values of some symbols at a place, as a row. -/
def tuple (outputs : List Symbol) (x : Scope) : E.Tuple := (E.values x outputs).map .value

/-- What a collect phase makes of the shards of one node.  If the phase asks for an order, the node
sorts its records before all projections. -/
def Reads (phase : CollectPhase) (shards : List (List Record)) (ys : List E.Tuple) : Prop :=
  let kept := shards.map (·.filter (E.matching phase.filter))
  match phase.orderBy with
  | none => E.Runs phase.projections (kept.map (·.map fun r => E.tuple phase.toCollect r.scope)) ys
  | some o =>
    ∃ rs, Sorts (fun a b => E.le o.spec a.scope b.scope) kept.flatten rs ∧
      E.Runs phase.projections [rs.map fun r => E.tuple phase.toCollect r.scope] ys

/-- The batches that a plan emits.  A merge works on the batches of its source as they arrive; a
count phase emits the number of records of each node. -/
def Emits (placement : Placement) : Plan → List (List E.Tuple) → Prop
  | .collect phase _, bs => List.Forall₂ (E.Reads phase) (placement.inputs phase.nodes) bs
  | .merge source phase _, bs =>
    ∃ (bs₀ arrived : List (List E.Tuple)) (ys : List E.Tuple), Emits placement source bs₀ ∧
      arrived.Perm bs₀ ∧ E.Runs phase.projections [arrived.flatten] ys ∧ bs = [ys]
  | .count phase _, bs =>
    bs = (placement.inputs phase.nodes).map fun shards =>
      [[.value (.int (Int64.ofNat (shards.flatten.countP (E.matching phase.filter))))]]

/-- The rows that the handler passes on: the batches as they arrive, put in order and cut as the
delivery of the plan says. -/
def Delivers (placement : Placement) (plan : Plan) (rows : List Row) : Prop :=
  ∃ bs arrived : List (List E.Tuple), E.Emits placement plan bs ∧ arrived.Perm bs ∧
    rows = plan.delivery.finish (arrived.flatten.map (·.map Cell.literal))

/-! ### Every plan delivers something -/

theorem exists_step (p : Projection) (xs : List E.Tuple) : ∃ ys, E.Step p xs ys := by
  cases p with
  | aggregation aggregations mode g => exact ⟨_, rfl⟩
  | group keys values mode g => exact ⟨_, List.Perm.refl _⟩
  | filter query g => exact ⟨_, rfl⟩
  | topN window outputs => exact ⟨_, rfl⟩
  | orderedTopN window outputs order => exact ⟨_, _, sorts_mergeSort _ xs, rfl⟩
  | eval outputs => exact ⟨_, rfl⟩

theorem exists_forall₂ {α β : Type} {R : α → β → Prop} (h : ∀ a, ∃ b, R a b) (xs : List α) :
    ∃ ys, List.Forall₂ R xs ys := by
  induction xs with
  | nil => exact ⟨[], .nil⟩
  | cons x xs ih =>
    obtain ⟨y, hy⟩ := h x
    obtain ⟨ys, hys⟩ := ih
    exact ⟨y :: ys, .cons hy hys⟩

theorem exists_runs (ps : List Projection) (streams : List (List E.Tuple)) :
    ∃ ys, E.Runs ps streams ys := by
  induction ps generalizing streams with
  | nil => exact ⟨_, rfl⟩
  | cons p ps ih =>
    by_cases hp : p.perShard = true
    · obtain ⟨streams', hstep⟩ := exists_forall₂ (E.exists_step p) streams
      obtain ⟨ys, hys⟩ := ih streams'
      refine ⟨ys, ?_⟩
      rw [Runs, if_pos hp]
      exact ⟨streams', hstep, hys⟩
    · obtain ⟨zs, hzs⟩ := E.exists_step p streams.flatten
      obtain ⟨ys, hys⟩ := ih [zs]
      refine ⟨ys, ?_⟩
      rw [Runs, if_neg hp]
      exact ⟨zs, hzs, hys⟩

theorem exists_reads (phase : CollectPhase) (shards : List (List Record)) :
    ∃ ys, E.Reads phase shards ys := by
  unfold Reads
  cases phase.orderBy with
  | none => exact E.exists_runs _ _
  | some o =>
    obtain ⟨ys, hys⟩ := E.exists_runs phase.projections _
    exact ⟨ys, _, sorts_mergeSort _ _, hys⟩

theorem exists_emits (placement : Placement) (plan : Plan) : ∃ bs, E.Emits placement plan bs := by
  induction plan with
  | collect phase d => exact exists_forall₂ (E.exists_reads phase) (placement.inputs phase.nodes)
  | merge source phase d ih =>
    obtain ⟨bs, hbs⟩ := ih
    obtain ⟨ys, hys⟩ := E.exists_runs phase.projections [bs.flatten]
    exact ⟨[ys], bs, bs, ys, hbs, List.Perm.refl bs, hys, rfl⟩
  | count phase d => exact ⟨_, rfl⟩

/-- **Every plan delivers something**, wherever the records are placed. -/
theorem exists_delivers (placement : Placement) (plan : Plan) :
    ∃ rows, E.Delivers placement plan rows := by
  obtain ⟨bs, hbs⟩ := E.exists_emits placement plan
  exact ⟨_, bs, bs, hbs, List.Perm.refl bs, rfl⟩

end Engine

end ShardedQuery

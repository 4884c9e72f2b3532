import ShardedQuery.Cluster.Table
import ShardedQuery.Plan.Order

/-!
# Projections

A projection is one step on a stream of rows.  A plan only describes it; its symbols read the
columns of the incoming rows.

* `Projection.width?` — how many columns it emits.
* `Projection.granularity` — the finest scope it may run at.
-/

namespace ShardedQuery

/-- Which part of an aggregation a step does. -/
inductive AggregateMode where
  /-- From rows to partial states. -/
  | rowsToPartial
  /-- From rows to final values. -/
  | rowsToFinal
  /-- From partial states to final values. -/
  | partialToFinal
deriving DecidableEq, Repr

def AggregateMode.name : AggregateMode → String
  | rowsToPartial => "ITER_PARTIAL"
  | rowsToFinal => "ITER_FINAL"
  | partialToFinal => "PARTIAL_FINAL"

/-- An aggregate to compute.  Where partial states come in, the one input is the column of its
state. -/
structure Aggregation where
  function : String
  inputs : List Symbol

/-- One step on a stream of rows. -/
inductive Projection where
  /-- One row of aggregates for the whole stream. -/
  | aggregation (aggregations : List Aggregation) (mode : AggregateMode) (granularity : Granularity)
  /-- One row of keys and aggregates for each group. -/
  | group (keys : List Symbol) (values : List Aggregation) (mode : AggregateMode)
      (granularity : Granularity)
  /-- The rows for which the query holds. -/
  | filter (query : Symbol) (granularity : Granularity)
  /-- A window of the rows as they come. -/
  | topN (window : Window) (outputs : List Symbol)
  /-- A window of the sorted rows. -/
  | orderedTopN (window : Window) (outputs : List Symbol) (order : SortSpec Symbol)
  /-- Every row, laid out anew. -/
  | eval (outputs : List Symbol)

namespace Projection

/-- The number of columns it emits; without one rows pass through as they are. -/
def width? : Projection → Option Nat
  | aggregation aggregations .. => some aggregations.length
  | group keys values .. => some (keys.length + values.length)
  | filter .. => none
  | topN _ outputs | orderedTopN _ outputs _ | eval outputs => some outputs.length

def granularity : Projection → Granularity
  | aggregation _ _ g | group _ _ _ g | filter _ g => g
  | topN .. | orderedTopN .. | eval _ => .cluster

def mode? : Projection → Option AggregateMode
  | aggregation _ m _ | group _ _ m _ => some m
  | _ => none

def window? : Projection → Option Window
  | topN w _ | orderedTopN w _ _ => some w
  | _ => none

def name : Projection → String
  | aggregation .. => "aggregation"
  | group .. => "group"
  | filter .. => "filter"
  | topN .. => "topN"
  | orderedTopN .. => "orderedTopN"
  | eval .. => "eval"

def windowFields (w : Window) : List (String × Json) :=
  [("limit", .optional .nat w.limit), ("offset", .nat w.offset)]

def aggregationToJson (a : Aggregation) : Json :=
  .object [("function", .string a.function), ("inputs", Symbol.listToJson a.inputs)]

def toJson : Projection → Json
  | aggregation aggregations m g =>
    .object [("type", .string "aggregation"),
      ("aggregations", .array (aggregations.map aggregationToJson)), ("mode", .string m.name),
      ("granularity", .string g.name)]
  | group keys values m g =>
    .object [("type", .string "group"), ("keys", Symbol.listToJson keys),
      ("values", .array (values.map aggregationToJson)), ("mode", .string m.name),
      ("granularity", .string g.name)]
  | filter query g =>
    .object [("type", .string "filter"), ("query", query.toJson), ("granularity", .string g.name)]
  | topN w outputs =>
    .object ([("type", .string "top_n")] ++ windowFields w ++
      [("outputs", Symbol.listToJson outputs)])
  | orderedTopN w outputs order =>
    .object ([("type", .string "ordered_top_n")] ++ windowFields w ++
      [("outputs", Symbol.listToJson outputs), ("order_by", Symbol.listToJson order.keys),
        ("reverse_flags", .bools order.reverse), ("nulls_first", .bools order.nullsFirst)])
  | eval outputs => .object [("type", .string "eval"), ("outputs", Symbol.listToJson outputs)]

end Projection

end ShardedQuery

import ShardedQuery.Plan.Basic

/-!
# Finishing a result

* `Literal.compare` — the order of values: numbers by value whether integers or floats, other kinds
  apart.
* `ColumnOrder.compareRows` — the order of rows.
* `Delivery.finish` — the rows of a plan put in order and cut on the handler.
-/

namespace ShardedQuery

/-- A row; column `i` is what the symbol `INPUT(i)` reads. -/
abbrev Row := List Literal

namespace Literal

/-- The place of a kind of value among the kinds; integers and floats are one kind. -/
def kindRank : Literal → Nat
  | bool _ => 0
  | int _ | float _ => 1
  | string _ => 2
  | null => 3

/-- The order of values.  Two integers or two floats compare by value; an integer and a float
compare as floats, with minus zero below zero; values of different kinds compare by kind. -/
def compare : Literal → Literal → Ordering
  | int a, int b => Ord.compare a.toInt b.toInt
  | float a, float b => a.compareValue b
  | int a, float b => (Binary64.ofInt a.toInt).compareTotal b
  | float a, int b => a.compareTotal (Binary64.ofInt b.toInt)
  | string a, string b => Ord.compare a b
  | bool a, bool b => Ord.compare a b
  | a, b => Ord.compare a.kindRank b.kindRank

/-- The value unless it is null or missing. -/
def nonNull? : Option Literal → Option Literal
  | some null | none => none
  | some v => some v

end Literal

namespace ColumnOrder

/-- The order of two values in a sorted column.  Nulls and missing values are equal, and come first
or last whatever the direction. -/
def compareColumn (reverse nullsFirst : Bool) (a b : Option Literal) : Ordering :=
  match Literal.nonNull? a, Literal.nonNull? b with
  | none, none => .eq
  | none, some _ => if nullsFirst then .lt else .gt
  | some _, none => if nullsFirst then .gt else .lt
  | some x, some y => if reverse then (x.compare y).swap else x.compare y

/-- The order of two rows by sorted columns with their flags.  A missing direction is ascending, and
nulls without a place come first where the direction is descending. -/
def compareBy : List Nat → List Bool → List Bool → Row → Row → Ordering
  | [], _, _, _, _ => .eq
  | i :: keys, reverse, nullsFirst, a, b =>
    let descending := reverse.head?.getD false
    let first := nullsFirst.head?.getD descending
    (compareColumn descending first a[i]? b[i]?).then
      (compareBy keys reverse.tail nullsFirst.tail a b)

def compareRows (o : ColumnOrder) (a b : Row) : Ordering :=
  compareBy o.keys o.reverse o.nullsFirst a b

/-- The rows in order; equal rows keep their order. -/
def sortRows (o : ColumnOrder) (rows : List Row) : List Row :=
  rows.mergeSort fun a b => (o.compareRows a b).isLE

end ColumnOrder

/-- The rows of a plan as the handler passes them on: put in order if they come from several nodes
and are sorted on each, then cut as far as they have not been. -/
def Delivery.finish (d : Delivery) (rows : List Row) : List Row :=
  let sorted :=
    match d.order with
    | some o => if 1 < d.nodes.length then o.sortRows rows else rows
    | none => rows
  d.window.cut sorted

end ShardedQuery

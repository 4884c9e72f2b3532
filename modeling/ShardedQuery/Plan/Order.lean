import ShardedQuery.Query.Select

/-!
# Windows and orders of rows

A window is the part of a sequence of rows that LIMIT and OFFSET leave.  Counts of rows are below
`2 ^ 64`, and a sum that would not be stays at the largest count.

Inside a plan an order is three lists: what to sort by, the directions, and the places of nulls.  An
order that comes from a query has one flag of either kind for each key.

* `Window.cut` — the window of a list.
* `SortSpec Symbol` sorts by expressions over the incoming rows.
* `ColumnOrder` sorts by columns of the rows, given by position.
* `ColumnOrder.ofOrderBy?` — an order of a query over rows of known symbols.
* `ColumnOrder.remap?` — the same order after the rows are laid out anew.
-/

namespace ShardedQuery

/-! ### Windows -/

/-- The largest count of rows. -/
def maxCount : Nat := 0xFFFFFFFFFFFFFFFF

/-- A number of rows to skip, and how many to keep of the rest. -/
structure Window where
  /-- How many rows to keep; all of them without a limit. -/
  limit : Option Nat := none
  offset : Nat := 0
deriving DecidableEq, Repr

namespace Window

def unbounded : Window := {}

/-- How many of the first rows the window depends on: those it skips and those it keeps. -/
def reach (w : Window) : Option Nat := w.limit.map fun n => min (n + w.offset) maxCount

def cut {α : Type} (w : Window) (xs : List α) : List α :=
  match w.limit with
  | some n => (xs.drop w.offset).take n
  | none => xs.drop w.offset

def toJson (w : Window) : Json :=
  .object [("limit", .optional .nat w.limit), ("offset", .nat w.offset)]

end Window

/-! ### Orders -/

structure SortSpec (κ : Type) where
  keys : List κ
  reverse : List Bool
  nullsFirst : List Bool
deriving DecidableEq

/-- An order of rows by their columns. -/
abbrev ColumnOrder := SortSpec Nat

/-- The order of a query with its keys replaced. -/
def OrderBy.withKeys {κ : Type} (o : OrderBy) (keys : List κ) : SortSpec κ :=
  ⟨keys, o.reverseFlags, o.nullsFirstFlags⟩

namespace ColumnOrder

/-- The order over rows of these symbols; there is none if a sort symbol is not one of them. -/
def ofOrderBy? (o : OrderBy) (outputs : List Symbol) : Option ColumnOrder :=
  (o.symbols.mapM (position? outputs)).map o.withKeys

/-- The same order when rows of the symbols `source` become rows of the symbols `target`; there is
none if the symbol of a sorted column is lost. -/
def remap? (o : ColumnOrder) (source target : List Symbol) : Option ColumnOrder :=
  (o.keys.mapM fun i => (source[i]?).bind (position? target)).map fun keys => { o with keys }

def inputColumns (o : ColumnOrder) : List Symbol := o.keys.map Symbol.input

def toJson (o : ColumnOrder) : Json :=
  .object [("indices", .array (o.keys.map .nat)), ("reverse_flags", .bools o.reverse),
    ("nulls_first", .bools o.nullsFirst)]

end ColumnOrder

end ShardedQuery

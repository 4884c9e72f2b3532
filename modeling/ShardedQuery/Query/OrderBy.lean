import ShardedQuery.Symbol.Display

/-!
# ORDER BY

* `SortKey` — a symbol to sort by, with its direction and the place of nulls.
* `OrderBy` — sort keys, the first of them the most significant.
* `OrderBy.ofFlags` — an order from three lists, which have to be equally long.
-/

namespace ShardedQuery

structure SortKey where
  symbol : Symbol
  /-- Descending. -/
  reverse : Bool
  /-- Nulls come before all values, whatever the direction. -/
  nullsFirst : Bool

/-- Sort keys, the first of them the most significant. -/
structure OrderBy where
  keys : List SortKey

/-- A list of flags that does not go with the symbols of an order. -/
inductive OrderBy.Mismatch where
  | reverseFlags
  | nullsFirstFlags
deriving DecidableEq, Repr

def OrderBy.Mismatch.message : OrderBy.Mismatch → String
  | reverseFlags => "one reverse flag per order symbol"
  | nullsFirstFlags => "one nulls-first flag per order symbol"

namespace OrderBy

/-- The order from its symbols and their flags, if there is one flag of either kind per symbol. -/
def ofFlags (symbols : List Symbol) (reverse nullsFirst : List Bool) : Except Mismatch OrderBy :=
  if symbols.length ≠ reverse.length then .error .reverseFlags
  else if symbols.length ≠ nullsFirst.length then .error .nullsFirstFlags
  else
    .ok ⟨List.zipWith (fun symbol flags => ⟨symbol, flags.1, flags.2⟩) symbols
      (reverse.zip nullsFirst)⟩

/-- Ascending, nulls last. -/
def ascending (symbol : Symbol) : OrderBy := ⟨[⟨symbol, false, false⟩]⟩

/-- Descending, nulls first. -/
def descending (symbol : Symbol) : OrderBy := ⟨[⟨symbol, true, true⟩]⟩

/-- The first order, with the second deciding between rows that the first leaves equal. -/
def andThen (first second : OrderBy) : OrderBy := ⟨first.keys ++ second.keys⟩

def symbols (o : OrderBy) : List Symbol := o.keys.map (·.symbol)

def reverseFlags (o : OrderBy) : List Bool := o.keys.map (·.reverse)

def nullsFirstFlags (o : OrderBy) : List Bool := o.keys.map (·.nullsFirst)

def length (o : OrderBy) : Nat := o.keys.length

/-- An order without sort keys leaves all rows equal. -/
def isEmpty (o : OrderBy) : Bool := o.keys.isEmpty

def toJson (o : OrderBy) : Json :=
  .object [("symbols", Symbol.listToJson o.symbols), ("reverse_flags", .bools o.reverseFlags),
    ("nulls_first", .bools o.nullsFirstFlags)]

end OrderBy

end ShardedQuery

import ShardedQuery.Symbol.Literal

/-!
# Symbols

A symbol is an expression of a query: a constant, a column of the queried table, a call, a
parameter, or, inside a projection, a column of the rows that the previous step hands on.

* `Symbol.mkCall` — a call with its function name in the normal, lower-case form.
* `Symbol.beq` — equality, which compares constants by their numeric value.
* `Symbol.isAggregate` — a call of one of the aggregate functions.
* `Symbol.any` — whether a symbol or one nested in it has a property.
-/

namespace ShardedQuery

/-- A column of a table, as name resolution found it. -/
structure Column where
  table : String
  name : String
  dataType : DataType
deriving DecidableEq, Repr

/-- An expression of a query. -/
inductive Symbol where
  | literal (value : Literal)
  | reference (column : Column)
  | call (function : String) (args : List Symbol)
  /-- A column of the incoming rows, by position. -/
  | input (position : Nat)
  /-- A value bound when the query runs; the first has index zero. -/
  | parameter (index : Nat)

namespace Symbol

instance : Inhabited Symbol := ⟨literal .null⟩

/-- A call with its function name in lower case. -/
def mkCall (function : String) (args : List Symbol) : Symbol := call function.toLower args

def ofInt (n : Int64) : Symbol := literal (.int n)

/-- The columns of a row of the given width. -/
def inputColumns (width : Nat) : List Symbol := (List.range width).map input

/-! ### Equality -/

mutual

/-- Symbols are equal when they are built alike from equal parts. -/
def beq : Symbol → Symbol → Bool
  | literal a, literal b => a == b
  | reference a, reference b => a == b
  | call f as, call g bs => f == g && beqAll as bs
  | input a, input b => a == b
  | parameter a, parameter b => a == b
  | _, _ => false

def beqAll : List Symbol → List Symbol → Bool
  | [], [] => true
  | a :: as, b :: bs => beq a b && beqAll as bs
  | _, _ => false

end

instance : BEq Symbol := ⟨beq⟩

/-! ### Nested symbols -/

mutual

/-- Whether a symbol, or one nested in it, has a property. -/
def any (p : Symbol → Bool) : Symbol → Bool
  | call f args => p (call f args) || anyIn p args
  | literal v => p (literal v)
  | reference c => p (reference c)
  | input i => p (input i)
  | parameter i => p (parameter i)

def anyIn (p : Symbol → Bool) : List Symbol → Bool
  | [] => false
  | a :: as => any p a || anyIn p as

end

/-- Whether a column of this name occurs in the symbol, of whatever table. -/
def referencesColumn (s : Symbol) (column : String) : Bool :=
  s.any fun
    | reference c => c.name == column
    | _ => false

/-! ### Aggregates -/

/-- The functions that fold many rows into one value. -/
def aggregateNames : List String :=
  ["count", "sum", "avg", "min", "max", "arbitrary", "collect_set"]

/-- Whether a function folds many rows into one value; case does not matter. -/
def isAggregateName (function : String) : Bool := aggregateNames.contains function.toLower

def isAggregate : Symbol → Bool
  | call f _ => isAggregateName f
  | _ => false

end Symbol

end ShardedQuery

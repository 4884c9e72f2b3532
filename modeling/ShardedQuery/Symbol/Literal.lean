import ShardedQuery.Number.Decimal
import ShardedQuery.Json

/-!
# Literals and column types

* `Literal` — a constant in a query or a value in a row.
* `DataType` — the type of a column, as far as planning depends on it.
-/

namespace ShardedQuery

inductive DataType where
  | boolean
  | integer
  | long
  | double
  | string
  | object
  | array
deriving DecidableEq, Repr

def DataType.name : DataType → String
  | boolean => "boolean"
  | integer => "integer"
  | long => "long"
  | double => "double"
  | string => "string"
  | object => "object"
  | array => "array"

/-- A constant in a query or a value in a row. -/
inductive Literal where
  | null
  | bool (value : Bool)
  | int (value : Int64)
  | float (value : Binary64)
  | string (value : String)
deriving DecidableEq

namespace Literal

instance : Inhabited Literal := ⟨null⟩

/-- Literals are equal when they are of one kind and their values are; the two zeros of floats are
equal, an integer and a float never are. -/
def beq : Literal → Literal → Bool
  | null, null => true
  | bool a, bool b => a == b
  | int a, int b => a == b
  | float a, float b => a == b
  | string a, string b => a == b
  | _, _ => false

instance : BEq Literal := ⟨beq⟩

/-- The literal as it is written in a query. -/
def display : Literal → String
  | null => "NULL"
  | bool b => if b then "true" else "false"
  | int n => toString n.toInt
  | float x => x.toDecimalString
  | string s => "'" ++ s ++ "'"

def debug : Literal → String
  | null => "Null"
  | bool b => s!"Bool({(bool b).display})"
  | int n => s!"Int({(int n).display})"
  | float x => s!"Float({(float x).display})"
  | string s => s!"String({(string s).display})"

/-- The description of a literal: its kind with its value, except that null has no value and that
infinity, which JSON cannot write, is described as null. -/
def toJson : Literal → Json
  | null => .string "Null"
  | bool b => .object [("Bool", .bool b)]
  | int n => .object [("Int", .int n.toInt)]
  | float x => .object [("Float", if x.isInfinite then .null else .real x)]
  | string s => .object [("String", .string s)]

end Literal

end ShardedQuery

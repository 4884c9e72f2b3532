import ShardedQuery.Number.Binary64

/-!
# Described values

`Json` is the form in which symbols, clauses, routings and plans describe themselves.  It is the
usual six kinds of value, with integers kept exact and apart from reals.
-/

namespace ShardedQuery

/-- A JSON value; the fields of an object are in the order they are written. -/
inductive Json where
  | null
  | bool (value : Bool)
  | int (value : Int)
  | real (value : Binary64)
  | string (value : String)
  | array (items : List Json)
  | object (fields : List (String × Json))

namespace Json

instance : Inhabited Json := ⟨null⟩

def nat (n : Nat) : Json := int n

def strings (items : List String) : Json := array (items.map string)

def bools (items : List Bool) : Json := array (items.map bool)

/-- A value that may be absent, absence being null. -/
def optional {α : Type} (describe : α → Json) : Option α → Json
  | none => null
  | some a => describe a

end Json

end ShardedQuery

import ShardedQuery.Symbol.Basic

/-!
# Symbols in text and in descriptions

* `Symbol.display` — the symbol as it appears in messages.
* `Symbol.debug` — the same with its kind in front.
* `Symbol.toJson` — the symbol in the description of a plan.
-/

namespace ShardedQuery

namespace Symbol

mutual

/-- The symbol as it appears in messages: columns with their table, calls with their arguments,
parameters counted from one. -/
def display : Symbol → String
  | literal v => v.display
  | reference c => c.table ++ "." ++ c.name
  | call f args => f ++ "(" ++ displayArgs args ++ ")"
  | input i => s!"INPUT({i})"
  | parameter i => s!"${i + 1}"

def displayArgs : List Symbol → String
  | [] => ""
  | [a] => display a
  | a :: b :: rest => display a ++ ", " ++ displayArgs (b :: rest)

end

/-- The symbol as it appears in messages, in the name of its kind; a column of the incoming rows
already names itself. -/
def debug (s : Symbol) : String :=
  match s with
  | literal _ => "Literal(" ++ s.display ++ ")"
  | reference _ => "Reference(" ++ s.display ++ ")"
  | call .. => "Function(" ++ s.display ++ ")"
  | input _ => s.display
  | parameter _ => "Parameter(" ++ s.display ++ ")"

mutual

def toJson : Symbol → Json
  | literal v => .object [("Literal", v.toJson)]
  | reference c =>
    .object [("Reference", .object
      [("table", .string c.table), ("column", .string c.name),
        ("data_type", .string c.dataType.name)])]
  | call f args =>
    .object [("Function", .object [("name", .string f), ("args", .array (toJsonAll args))])]
  | input i => .object [("InputColumn", .nat i)]
  | parameter i => .object [("Parameter", .nat i)]

def toJsonAll : List Symbol → List Json
  | [] => []
  | a :: as => toJson a :: toJsonAll as

end

def listToJson (symbols : List Symbol) : Json := .array (toJsonAll symbols)

end Symbol

end ShardedQuery

import Mathlib.Algebra.BigOperators.Group.List.Basic
import Mathlib.Data.List.Dedup
import ShardedQuery.Proofs.Symbol.Aggregates

/-!
# What symbols mean

Plans are run by an engine that is not part of this library.  An `Engine` is everything that the
meaning of a plan leaves to it: the values of constants, parameters and calls, and the aggregate
functions with their partial states.

* `Engine.value E x s` — the value of a symbol at a place `x`, which is a record of a table, a row
  of a stream or a group of records.
* `Engine.groupScope` — a group of records as such a place: an aggregate call has its final value
  there.
* `Engine.groups` — the groups of a list of records by some keys.
* `Engine.value_congr` — equal symbols have equal values, at every place.
* `Engine.value_groupScope` — a symbol without aggregates has in a group its value in the first
  record.
-/

namespace ShardedQuery

/-- What the meaning of a plan leaves to the engine.  The partial states of an aggregate function
form a commutative monoid: a state of no rows, and the state of the rows of two states. -/
structure Engine where
  /-- The value of a constant, one for equal constants. -/
  constant : Literal → Literal
  constant_congr : ∀ a b : Literal, (a == b) = true → constant a = constant b
  /-- The value that is bound to a parameter. -/
  parameter : Nat → Literal
  /-- The value of a call, from the values of its arguments. -/
  apply : String → List Literal → Literal
  /-- The partial states of an aggregate function. -/
  State : String → Type
  states : ∀ f, AddCommMonoid (State f)
  /-- The state of one row with these values of the arguments. -/
  absorb : ∀ f, List Literal → State f
  /-- The value of an aggregate, from the state of all rows. -/
  finish : ∀ f, State f → Literal

attribute [instance] Engine.states

/-- A place where symbols have values.  Aggregate calls may have a value as a whole there. -/
structure Scope where
  column : Column → Literal
  position : Nat → Literal
  whole : String → List Symbol → Option Literal
  whole_congr : ∀ f as bs, (Symbol.call f as == Symbol.call f bs) = true → whole f as = whole f bs
  whole_aggregate : ∀ f as, Symbol.isAggregateName f = false → whole f as = none

/-- A place where no call has a value as a whole. -/
def Scope.plain (column : Column → Literal) (position : Nat → Literal) : Scope where
  column
  position
  whole _ _ := none
  whole_congr _ _ _ _ := rfl
  whole_aggregate _ _ _ := rfl

namespace Engine

variable (E : Engine)

mutual

/-- The value of a symbol.  A call is computed from its arguments, unless its value as a whole is
known. -/
def value (x : Scope) : Symbol → Literal
  | .literal v => E.constant v
  | .reference c => x.column c
  | .call f args => (x.whole f args).getD (E.apply f (values x args))
  | .input i => x.position i
  | .parameter i => E.parameter i

/-- The values of several symbols. -/
def values (x : Scope) : List Symbol → List Literal
  | [] => []
  | a :: as => value x a :: values x as

end

/-- Whether a condition holds. -/
def holds (x : Scope) (s : Symbol) : Bool := E.value x s = .bool true

theorem values_eq (x : Scope) (as : List Symbol) : E.values x as = as.map (E.value x) := by
  induction as with
  | nil => rfl
  | cons a as ih => rw [values, ih, List.map_cons]

theorem value_call (x : Scope) (f : String) (args : List Symbol) :
    E.value x (.call f args) = (x.whole f args).getD (E.apply f (args.map (E.value x))) := by
  rw [value, values_eq]

/-- **Equal symbols have equal values.** -/
theorem value_congr (x : Scope) {s t : Symbol} (h : (s == t) = true) :
    E.value x s = E.value x t := by
  induction s generalizing t with
  | literal v =>
    cases t with
    | literal w => exact E.constant_congr v w h
    | _ => cases h
  | reference c =>
    cases t with
    | reference d => rw [eq_of_beq (show (c == d) = true from h)]
    | _ => cases h
  | input i =>
    cases t with
    | input j => rw [eq_of_beq (show (i == j) = true from h)]
    | _ => cases h
  | parameter i =>
    cases t with
    | parameter j => rw [eq_of_beq (show (i == j) = true from h)]
    | _ => cases h
  | call f args ih =>
    obtain ⟨bs, rfl, hbs⟩ := (Symbol.call_beq_iff f args t).mp h
    have hargs : args.map (E.value x) = bs.map (E.value x) := by
      clear h
      induction hbs with
      | nil => rfl
      | cons hab _ ihbs =>
        rw [List.map_cons, List.map_cons, ih _ (by simp) hab,
          ihbs fun a ha => ih a (by simp [ha])]
    rw [value_call, value_call, x.whole_congr f args bs h, hargs]

/-! ### Records and groups of records -/

end Engine

/-- A record of a table: a value for every column, and for what a query may call a position. -/
structure Record where
  column : Column → Literal
  position : Nat → Literal

/-- A record as a place. -/
def Record.scope (r : Record) : Scope := .plain r.column r.position

namespace Engine

variable (E : Engine)

/-- The values of several symbols in a record, such as the keys of its group. -/
def keyOf (keys : List Symbol) (r : Record) : List Literal := E.values r.scope keys

/-- The partial state of an aggregate call over some records. -/
def stateOver (f : String) (args : List Symbol) (rs : List Record) : E.State f :=
  (rs.map fun r => E.absorb f (E.keyOf args r)).sum

theorem keyOf_congr {as bs : List Symbol} (h : (as == bs) = true) (r : Record) :
    E.keyOf as r = E.keyOf bs r := by
  have hv := (Symbol.list_beq_iff as bs).mp h
  simp only [keyOf, values_eq]
  clear h
  induction hv with
  | nil => rfl
  | cons hab _ ih => rw [List.map_cons, List.map_cons, E.value_congr _ hab, ih]

theorem stateOver_congr (f : String) {as bs : List Symbol} (h : (as == bs) = true)
    (rs : List Record) : E.stateOver f as rs = E.stateOver f bs rs := by
  simp only [stateOver, E.keyOf_congr h]

/-- A group of records as a place: aggregate calls have the values that the records give them, all
else has its value in the first record. -/
def groupScope (rs : List Record) : Scope where
  column c := rs.head?.elim .null (·.column c)
  position i := rs.head?.elim .null (·.position i)
  whole f args :=
    if Symbol.isAggregateName f then some (E.finish f (E.stateOver f args rs)) else none
  whole_congr f as bs h := by
    rw [Symbol.call_beq, Bool.and_eq_true] at h
    rw [E.stateOver_congr f h.2]
  whole_aggregate f as h := by rw [if_neg (by simp [h])]

/-- The records of one group. -/
def groupAt (keys : List Symbol) (rs : List Record) (k : List Literal) : List Record :=
  rs.filter fun r => E.keyOf keys r = k

/-- The records with equal values of the keys together, for each of the values that occur. -/
def groups (keys : List Symbol) (rs : List Record) : List (List Record) :=
  ((rs.map (E.keyOf keys)).dedup).map (E.groupAt keys rs)

theorem value_groupScope_aggregate {f : String} (hf : Symbol.isAggregateName f = true)
    (args : List Symbol) (rs : List Record) :
    E.value (E.groupScope rs) (.call f args) = E.finish f (E.stateOver f args rs) := by
  rw [value_call]
  show (if Symbol.isAggregateName f then some (E.finish f (E.stateOver f args rs))
    else none).getD _ = _
  rw [if_pos hf]
  rfl

/-- **A symbol without aggregates has in a group its value in the first record.** -/
theorem value_groupScope (r : Record) (rs : List Record) {s : Symbol} (hs : s.IsRowLevel) :
    E.value (E.groupScope (r :: rs)) s = E.value r.scope s := by
  induction s with
  | call f args ih =>
    rw [Symbol.isRowLevel_call] at hs
    have hargs : args.map (E.value (E.groupScope (r :: rs))) = args.map (E.value r.scope) :=
      List.map_congr_left fun a ha => ih a ha (hs.2 a ha)
    rw [value_call, value_call, (E.groupScope (r :: rs)).whole_aggregate f args hs.1,
      r.scope.whole_aggregate f args hs.1, hargs]
  | _ => rfl

/-- An engine that can count rows.  It knows no function and no float. -/
def counting : Engine where
  constant
    | .float _ => .null
    | v => v
  constant_congr a b h := by
    cases a <;> cases b <;> try cases h
    case null.null | float.float => rfl
    case bool.bool a b => rw [eq_of_beq (show (a == b) = true from h)]
    case int.int a b => rw [eq_of_beq (show (a == b) = true from h)]
    case string.string a b => rw [eq_of_beq (show (a == b) = true from h)]
  parameter _ := .null
  apply _ _ := .null
  State _ := Nat
  states _ := inferInstance
  absorb _ _ := 1
  finish _ n := .int (Int64.ofNat n)

end Engine

/-- A record with the same integer in every column. -/
def Record.ofInt (n : Int64) : Record := ⟨fun _ => .int n, fun _ => .null⟩

end ShardedQuery

import ShardedQuery.Proofs.Planning.Widths
import ShardedQuery.Proofs.Symbol.Derivable

/-!
# Values of symbols over rows

A symbol is rewritten so that it reads the columns of a row that holds the values of other symbols.
What the values are, and how calls are computed from them, is left open here.  The columns need not
be computed like other calls: a row may hold an aggregate over many records.

* `Symbol.IsValuation` — symbols have values, equal symbols equal ones.
* `Symbol.ComputesCalls` — calls that are no columns have values computed from their arguments.
* `Symbol.valueOver` — the value of a symbol over a row.
* `Symbol.valueOver_readFrom` — over the row of the columns, a symbol that was read from the columns
  has the value of the original one.
* `Symbol.readFrom_isFaithful` — **reading from columns succeeds exactly on derivable symbols, and
  keeps their values**.
-/

namespace ShardedQuery

namespace Symbol

variable {V : Type}

/-- Every symbol has a value, and equal symbols have equal ones. -/
def IsValuation (value : Symbol → V) : Prop :=
  ∀ s t : Symbol, (s == t) = true → value s = value t

/-- The value of a call that is no column is computed from the values of its arguments. -/
def ComputesCalls (apply : String → List V → V) (columns : List Symbol) (value : Symbol → V) :
    Prop :=
  ∀ f args, (∀ b ∈ columns, (b == call f args) = false) →
    value (call f args) = apply f (args.map value)

/-! ### Values over a row -/

section Rows

variable (apply : String → List V → V) (value : Symbol → V) (row : List V)

mutual

/-- The value of a symbol over a row.  Columns of the row are read from it and calls are computed;
all else has the value that it has without the row. -/
def valueOver : Symbol → V
  | input i => row[i]?.getD (value (input i))
  | call f args => apply f (valuesOver args)
  | literal v => value (literal v)
  | reference c => value (reference c)
  | parameter i => value (parameter i)

/-- The values of several symbols over a row. -/
def valuesOver : List Symbol → List V
  | [] => []
  | a :: as => valueOver a :: valuesOver as

end

theorem valuesOver_eq (as : List Symbol) :
    valuesOver apply value row as = as.map (valueOver apply value row) := by
  induction as with
  | nil => rfl
  | cons a as ih => rw [valuesOver, ih, List.map_cons]

theorem valueOver_call (f : String) (args : List Symbol) :
    valueOver apply value row (call f args) =
      apply f (args.map (valueOver apply value row)) := by
  rw [valueOver, valuesOver_eq]

theorem valueOver_of_isConstant {s : Symbol} (h : s.isConstant = true) :
    valueOver apply value row s = value s := by
  cases s with
  | literal v => rw [valueOver]
  | parameter i => rw [valueOver]
  | reference c => cases h
  | input i => cases h
  | call f args => cases h

/-- All calls are computed over a row. -/
theorem computesCalls_valueOver (columns : List Symbol) :
    ComputesCalls apply columns (valueOver apply value row) :=
  fun f args _ => valueOver_call apply value row f args

end Rows

/-- Where all calls are computed, equal symbols have equal values if equal constants have. -/
theorem isValuation_of_computesCalls {apply : String → List V → V} {value : Symbol → V}
    (hcalls : ComputesCalls apply [] value)
    (hliteral : ∀ a b : Literal, (a == b) = true → value (literal a) = value (literal b)) :
    IsValuation value := by
  intro s t h
  induction s generalizing t with
  | literal v =>
    cases t with
    | literal w => exact hliteral v w h
    | _ => cases h
  | reference c =>
    cases t with
    | reference d => rw [eq_of_beq (show (c == d) = true from h)]
    | _ => cases h
  | input i =>
    cases t with
    | input j => rw [eq_of_beq (show (i == j) = true from h)]
    | _ => cases h
  | parameter i =>
    cases t with
    | parameter j => rw [eq_of_beq (show (i == j) = true from h)]
    | _ => cases h
  | call f args ih =>
    obtain ⟨bs, rfl, hbs⟩ := (call_beq_iff f args t).mp h
    have hargs : bs.map value = args.map value := by
      apply eq_map_of_forall₂
      rw [List.forall₂_map_right_iff]
      exact ((List.forall₂_and_left _ _).mpr ⟨fun a ha => ha, hbs⟩).imp
        fun a b hab => (ih a hab.1 b hab.2).symm
    have hnone : ∀ g as, ∀ b ∈ ([] : List Symbol), (b == call g as) = false := by simp
    rw [hcalls f args (hnone f args), hcalls f bs (hnone f bs), hargs]

/-! ### Reading -/

variable {apply : String → List V → V} {value : Symbol → V} {columns : List Symbol} {s t : Symbol}

/-- The row of the columns has the value of a symbol where the symbol is found. -/
theorem IsValuation.getElem?_row (hvalue : IsValuation value) {i : Nat}
    (h : position? columns s = some i) : (columns.map value)[i]? = some (value s) := by
  obtain ⟨b, hb, hbs⟩ := position?_eq_some h
  rw [List.getElem?_map, hb, Option.map_some, hvalue b s hbs]

/-- The place of a symbol among the columns is read as its value. -/
theorem valueOver_position (hvalue : IsValuation value) {i : Nat}
    (h : position? columns s = some i) :
    valueOver apply value (columns.map value) (input i) = value s := by
  rw [valueOver, hvalue.getElem?_row h, Option.getD_some]

/-- **A symbol that was read from columns has over their row the value of the original one.** -/
theorem valueOver_readFrom (hvalue : IsValuation value) (hcalls : ComputesCalls apply columns value)
    (hs : s.IsLowercase) (h : s.readFrom columns = .ok t) :
    valueOver apply value (columns.map value) t = value s := by
  induction s generalizing t with
  | call f args ih =>
    rcases readFrom_eq_ok h with ⟨i, hi, rfl⟩ | ⟨hnone, ⟨hconstant, -⟩ | hcall⟩
    · exact valueOver_position hvalue hi
    · cases hconstant
    · obtain ⟨_, _, args', heq, hargs, rfl⟩ := hcall
      cases heq
      rw [isLowercase_call] at hs
      have hread := forall₂_of_except_mapM hargs
      have hvalues : args'.map (valueOver apply value (columns.map value)) = args.map value := by
        apply eq_map_of_forall₂
        rw [List.forall₂_map_right_iff]
        exact ((List.forall₂_and_left _ _).mpr ⟨fun a ha => ha, hread⟩).imp
          fun a b hab => ih a hab.1 (hs.2 a hab.1) hab.2
      rw [mkCall, hs.1, valueOver_call, hvalues]
      exact (hcalls f args (position?_eq_none_iff.mp hnone)).symm
  | _ =>
    rcases readFrom_eq_ok h with ⟨i, hi, rfl⟩ | ⟨-, ⟨hconstant, rfl⟩ | ⟨_, _, _, heq, -⟩⟩
    · exact valueOver_position hvalue hi
    · exact valueOver_of_isConstant apply value _ hconstant
    · cases heq

/-- A symbol that is a column is read from a column that equals it. -/
theorem exists_input_of_mem {b : Symbol} (hb : b ∈ columns) (hbs : (b == s) = true)
    (h : s.readFrom columns = .ok t) :
    ∃ i c, t = input i ∧ columns[i]? = some c ∧ (c == s) = true := by
  obtain ⟨i, hi⟩ := position?_isSome hb hbs
  rw [readFrom_of_position? hi] at h
  cases h
  obtain ⟨c, hc, hcs⟩ := position?_eq_some hi
  exact ⟨i, c, rfl, hc, hcs⟩

/-- **Reading from columns is faithful.**  It succeeds exactly on the symbols that are derivable from
the columns.  A symbol that it gives

* reads only columns that are there, and no column of a table;
* is a column that equals the symbol if there is one, whatever else the symbol could be computed from;
* has over the row of the columns the value of the original symbol, for whatever values symbols have
  and however calls that are no columns are computed. -/
theorem readFrom_isFaithful (columns : List Symbol) (s : Symbol) :
    ((∃ t, s.readFrom columns = .ok t) ↔ s.DerivableFrom columns) ∧
    ∀ t, s.readFrom columns = .ok t →
      t.FitsIn columns.length ∧
      (∀ b ∈ columns, (b == s) = true →
        ∃ i c, t = input i ∧ columns[i]? = some c ∧ (c == s) = true) ∧
      (s.IsLowercase → ∀ (V : Type) (apply : String → List V → V) (value : Symbol → V),
        IsValuation value → ComputesCalls apply columns value →
          valueOver apply value (columns.map value) t = value s) := by
  refine ⟨exists_readFrom_iff, fun t ht => ⟨fitsIn_readFrom ht, ?_, ?_⟩⟩
  · intro b hb hbs
    exact exists_input_of_mem hb hbs ht
  · intro hs V apply value hvalue hcalls
    exact valueOver_readFrom hvalue hcalls hs ht

/-- A call of a column that could itself be computed from the other column.  The value of a symbol
is the number of its nodes. -/
theorem readFrom_isFaithful_roundedSum :
    let a : Symbol := reference ⟨"doc.t", "a", .long⟩
    let sum : Symbol := call "sum" [a]
    let s : Symbol := call "round" [sum, ofInt 2]
    let t : Symbol := call "round" [input 1, ofInt 2]
    let apply : String → List Nat → Nat := fun _ values => values.foldl Nat.add 1
    let nodes : Symbol → Nat := valueOver apply (fun _ => 1) []
    s.readFrom [a, sum] = .ok t ∧ s.DerivableFrom [a, sum] ∧ t.FitsIn 2 ∧
      sum.readFrom [a, sum] = .ok (input 1) ∧
      valueOver apply nodes ([a, sum].map nodes) t = nodes s ∧ nodes s = 4 := by
  intro a sum s t apply nodes
  have hround : "round".toLower = "round" := by decide +kernel
  have ht : s.readFrom [a, sum] = .ok t := by
    show Except.ok (mkCall "round" [input 1, ofInt 2]) = _
    rw [mkCall, hround]
  have hcalls : ∀ columns, ComputesCalls apply columns nodes :=
    fun columns => computesCalls_valueOver apply _ [] columns
  have hnodes : IsValuation nodes := isValuation_of_computesCalls (hcalls []) fun _ _ _ => rfl
  obtain ⟨hderivable, hread⟩ := readFrom_isFaithful [a, sum] s
  obtain ⟨hfits, -, hvalue⟩ := hread t ht
  exact ⟨ht, hderivable.mp ⟨t, ht⟩, hfits, rfl,
    hvalue (by decide +kernel) Nat apply nodes hnodes (hcalls _), by decide⟩

end Symbol

end ShardedQuery

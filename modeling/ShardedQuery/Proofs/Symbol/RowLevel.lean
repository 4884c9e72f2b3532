import ShardedQuery.Proofs.Planning.Widths

/-!
# Symbols without aggregates

An aggregate has a value for many rows, so a projection that works row by row must not call one.
Symbols that call aggregates are read from rows that have these as columns, and then none is left.

* `Symbol.isRowLevel_readFrom` — **a symbol that is read from the columns of rows calls no
  aggregate**, if every aggregate that it called is a column.
* `Symbol.FetchedAs` — how an argument of an aggregate is read from the columns of rows.
* `Projection.IsPlain` — a projection works row by row.
* `Projection.isPlain_filterOf` and its siblings — so do all projections of a plan but those that
  aggregate.
-/

namespace ShardedQuery

namespace Symbol

/-! ### Aggregates that are columns -/

/-- A function stays an aggregate when it is named in lower case. -/
theorem isAggregateName_toLower (f : String) : isAggregateName f.toLower = isAggregateName f := by
  have hchar : ∀ c : Char, c.toLower.toLower = c.toLower := by
    intro c
    have hlower : ¬ (c.toLower.val ≥ 'A'.val ∧ c.toLower.val ≤ 'Z'.val) := by
      by_cases hc : c.val ≥ 'A'.val ∧ c.val ≤ 'Z'.val
      · rw [show c.toLower = _ from dif_pos hc]
        grind
      · rw [show c.toLower = c from dif_neg hc]
        exact hc
    exact dif_neg hlower
  have hlower : f.toLower.toLower = f.toLower := by
    show String.map Char.toLower (String.map Char.toLower f) = String.map Char.toLower f
    rw [← String.toList_inj, String.toList_map, String.toList_map, List.map_map]
    exact List.map_congr_left fun c _ => hchar c
  rw [isAggregateName, isAggregateName, hlower]

theorem isRowLevel_of_isConstant {s : Symbol} (h : s.isConstant = true) : s.IsRowLevel := by
  cases s with
  | literal | parameter => rfl
  | reference | call | input => cases h

variable {inputs : List Symbol} {s t : Symbol}

/-- **A symbol whose aggregates are columns is read as one without aggregates.** -/
theorem isRowLevel_readFrom (hs : s.AggregatesAmong inputs) (h : s.readFrom inputs = .ok t) :
    t.IsRowLevel := by
  induction s generalizing t with
  | call f args ih =>
    rcases readFrom_eq_ok h with ⟨i, -, rfl⟩ | ⟨hnone, ⟨hconstant, -⟩ | hcall⟩
    · rfl
    · cases hconstant
    · obtain ⟨_, _, args', heq, hargs, rfl⟩ := hcall
      cases heq
      have hf := hs.not_aggregate hnone
      refine (isRowLevel_call _ _).mpr ⟨(isAggregateName_toLower f).trans hf, fun b hb => ?_⟩
      obtain ⟨a, ha, hab⟩ := exists_of_mem_right (forall₂_of_except_mapM hargs) hb
      exact ih a ha (hs.argument hf ha) hab
  | _ =>
    rcases readFrom_eq_ok h with ⟨i, -, rfl⟩ | ⟨-, ⟨hconstant, rfl⟩ | ⟨_, _, _, heq, -⟩⟩
    · rfl
    · exact isRowLevel_of_isConstant hconstant
    · cases heq

theorem isRowLevel_readAllFrom {symbols read : List Symbol}
    (hs : ∀ s ∈ symbols, s.AggregatesAmong inputs) (h : readAllFrom inputs symbols = .ok read) :
    ∀ t ∈ read, t.IsRowLevel := by
  intro t ht
  rw [readAllFrom_eq] at h
  obtain ⟨s, hmem, hst⟩ := exists_of_mem_right (forall₂_of_except_mapM h) ht
  exact isRowLevel_readFrom (hs s hmem) hst

/-! ### Arguments of aggregates -/

/-- How an argument reaches an aggregate over rows with these columns: it is read from a column that
equals it, or it is a constant and stays. -/
inductive FetchedAs (columns : List Symbol) (s : Symbol) : Symbol → Prop where
  | column {i : Nat} {c : Symbol} (found : columns[i]? = some c) (equal : (c == s) = true) :
      FetchedAs columns s (input i)
  | constant (isConstant : s.isConstant = true) : FetchedAs columns s s

variable {columns : List Symbol}

theorem fetchedAs_readFrom (hs : s.isConstant = true ∨ ∃ b ∈ columns, (b == s) = true)
    (h : s.readFrom columns = .ok t) : s.FetchedAs columns t := by
  rcases readFrom_eq_ok h with ⟨i, hi, rfl⟩ | ⟨hnone, ⟨hconstant, rfl⟩ | ⟨_, _, _, rfl, -⟩⟩
  · obtain ⟨c, hc, hcs⟩ := position?_eq_some hi
    exact .column hc hcs
  · exact .constant hconstant
  · rcases hs with hconstant | ⟨b, hb, hbs⟩
    · cases hconstant
    · obtain ⟨i, hi⟩ := position?_isSome hb hbs
      rw [hnone] at hi
      cases hi

theorem FetchedAs.isRowLevel (h : s.FetchedAs columns t) : t.IsRowLevel := by
  cases h with
  | column => rfl
  | constant hconstant => exact isRowLevel_of_isConstant hconstant

/-- What an argument is read as tells the argument. -/
theorem FetchedAs.unique {s' : Symbol} (h : s.FetchedAs columns t) (h' : s'.FetchedAs columns t) :
    (s == s') = true := by
  cases h with
  | column found equal =>
    cases h' with
    | column found' equal' =>
      rw [found] at found'
      cases found'
      exact beq_trans (beq_symm equal) equal'
    | constant hconstant => cases hconstant
  | constant hconstant =>
    cases h' with
    | column => cases hconstant
    | constant => exact beq_refl s

end Symbol

/-! ### Projections that work row by row -/

namespace Projection

/-- No symbol of the projection calls an aggregate. -/
def IsRowLevel (p : Projection) : Prop := ∀ s ∈ p.symbols, s.IsRowLevel

/-- The projection works row by row: it does not aggregate, and its symbols call no aggregate. -/
structure IsPlain (p : Projection) : Prop where
  mode : p.mode? = none
  rowLevel : p.IsRowLevel

theorem isRowLevel_inputColumns {width : Nat} {s : Symbol} (h : s ∈ Symbol.inputColumns width) :
    s.IsRowLevel := by
  obtain ⟨i, -, rfl⟩ := List.mem_map.mp h
  rfl

theorem isPlain_topN (window : Window) (width : Nat) :
    (topN window (Symbol.inputColumns width)).IsPlain :=
  ⟨rfl, fun _ hs => isRowLevel_inputColumns hs⟩

/-- Sorting by columns reads nothing else. -/
theorem isPlain_orderedTopN (window : Window) (width : Nat) (o : ColumnOrder) :
    (orderedTopN window (Symbol.inputColumns width) { o with keys := o.inputColumns }).IsPlain := by
  refine ⟨rfl, fun s hs => ?_⟩
  rcases List.mem_append.mp hs with hs | hs
  · exact isRowLevel_inputColumns hs
  · obtain ⟨i, -, rfl⟩ := List.mem_map.mp hs
    rfl

variable {inputs outputs : List Symbol} {p : Projection}

theorem isPlain_filterOf {having : Symbol} (hs : having.AggregatesAmong inputs)
    (h : filterOf inputs having = .ok p) : p.IsPlain := by
  obtain ⟨query, hquery, h⟩ := except_bind_eq_ok.mp h
  cases h
  refine ⟨rfl, fun s hmem => ?_⟩
  rw [List.mem_singleton.mp hmem]
  exact Symbol.isRowLevel_readFrom hs hquery

theorem isPlain_arrange {order : Option OrderBy} {window : Window}
    (houtputs : ∀ s ∈ outputs, s.AggregatesAmong inputs)
    (horder : ∀ o, order = some o → ∀ s ∈ o.symbols, s.AggregatesAmong inputs)
    (h : arrange inputs order window outputs = .ok p) : p.IsPlain := by
  obtain ⟨outs, houts, h⟩ := except_bind_eq_ok.mp h
  have hlaidOut := Symbol.isRowLevel_readAllFrom houtputs houts
  cases order with
  | none =>
    cases h
    split <;> exact ⟨rfl, hlaidOut⟩
  | some o =>
    obtain ⟨keys, hkeys, h⟩ := except_bind_eq_ok.mp h
    cases h
    refine ⟨rfl, fun s hs => ?_⟩
    rcases List.mem_append.mp hs with hs | hs
    · exact hlaidOut s hs
    · exact Symbol.isRowLevel_readAllFrom (horder o rfl) hkeys s hs

end Projection

end ShardedQuery

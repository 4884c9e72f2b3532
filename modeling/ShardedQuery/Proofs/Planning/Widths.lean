import ShardedQuery.Proofs.Planning.Stages
import ShardedQuery.Proofs.Semantics.Tiers

/-!
# The width of rows

A projection reads the columns of the rows that reach it by position, so it depends on how many there
are.

* `Symbol.FitsIn` — a symbol refers to columns that rows of a width have, and to no column of a table.
* `ColumnOrder.FitsIn` — an order does so, and has one flag of either kind for each key.
* `Projection.Takes` — a projection goes from rows of one width to rows of another.
* `Projection.Chain` — so do several projections in a row.
* `Symbol.fitsIn_readFrom`, `Projection.takes_arrange` and its siblings — **what is read from the
  columns of rows fits in their width**.
-/

namespace ShardedQuery

/-! ### Symbols -/

namespace Symbol

/-- Whether a symbol itself is out of place over rows of a width: a column of a table, or a column
that is not there. -/
def isForeign (width : Nat) : Symbol → Bool
  | reference _ => true
  | input i => width ≤ i
  | literal _ | parameter _ | call .. => false

/-- Neither the symbol nor one nested in it is out of place over rows of a width. -/
def FitsIn (width : Nat) (s : Symbol) : Prop := s.any (isForeign width) = false

variable {width : Nat}

theorem fitsIn_input {i : Nat} : (input i).FitsIn width ↔ i < width := by
  simp [FitsIn, any, isForeign]

theorem fitsIn_call {f : String} {args : List Symbol} :
    (call f args).FitsIn width ↔ ∀ a ∈ args, a.FitsIn width := by
  simp [FitsIn, any, isForeign, anyIn_eq]

theorem fitsIn_inputColumns {s : Symbol} (h : s ∈ inputColumns width) : s.FitsIn width := by
  obtain ⟨i, hi, rfl⟩ := List.mem_map.mp h
  exact fitsIn_input.mpr (List.mem_range.mp hi)

theorem length_inputColumns (width : Nat) : (inputColumns width).length = width := by
  rw [inputColumns, List.length_map, List.length_range]

theorem position?_lt {inputs : List Symbol} {s : Symbol} {i : Nat}
    (h : position? inputs s = some i) : i < inputs.length := by
  obtain ⟨_, hi, -⟩ := position?_eq_some h
  exact (List.getElem?_eq_some_iff.mp hi).1

variable {inputs : List Symbol}

/-- **A symbol that is read from the columns of rows fits in their width.** -/
theorem fitsIn_readFrom {s t : Symbol} (h : s.readFrom inputs = .ok t) : t.FitsIn inputs.length := by
  induction s generalizing t with
  | call f args ih =>
    rcases readFrom_eq_ok h with ⟨i, hi, rfl⟩ | ⟨-, ⟨hs, -⟩ | ⟨_, _, args', hs, hargs, rfl⟩⟩
    · exact fitsIn_input.mpr (position?_lt hi)
    · cases hs
    · cases hs
      refine fitsIn_call.mpr fun b hb => ?_
      obtain ⟨a, ha, hab⟩ := exists_of_mem_right (forall₂_of_except_mapM hargs) hb
      exact ih a ha hab
  | _ =>
    rcases readFrom_eq_ok h with ⟨i, hi, rfl⟩ | ⟨-, ⟨hs, rfl⟩ | ⟨_, _, _, hs, -⟩⟩
    · exact fitsIn_input.mpr (position?_lt hi)
    · first | rfl | cases hs
    · cases hs

theorem fitsIn_readAllFrom {symbols read : List Symbol} (h : readAllFrom inputs symbols = .ok read) :
    ∀ s ∈ read, s.FitsIn inputs.length := by
  intro s hs
  rw [readAllFrom_eq] at h
  obtain ⟨t, -, ht⟩ := exists_of_mem_right (forall₂_of_except_mapM h) hs
  exact fitsIn_readFrom ht

end Symbol

/-- The inputs of an aggregate over rows fit in their width. -/
theorem Aggregation.fitsIn_ofCall {inputs : List Symbol} {mode : AggregateMode} {s : Symbol}
    {a : Aggregation} (h : Aggregation.ofCall inputs mode s = .ok a) :
    ∀ t ∈ a.inputs, t.FitsIn inputs.length := by
  cases s with
  | call f args =>
    cases mode with
    | partialToFinal =>
      obtain ⟨t, ht, h⟩ := except_bind_eq_ok.mp h
      cases h
      intro t' ht'
      rw [List.mem_singleton.mp ht']
      exact Symbol.fitsIn_readFrom ht
    | rowsToPartial | rowsToFinal =>
      obtain ⟨as, has, h⟩ := except_bind_eq_ok.mp h
      cases h
      exact Symbol.fitsIn_readAllFrom has
  | literal | reference | input | parameter => cases h

/-! ### Orders -/

namespace ColumnOrder

/-- The order is by columns that rows of a width have, with one flag of either kind for each. -/
structure FitsIn (width : Nat) (o : ColumnOrder) : Prop where
  keys : ∀ i ∈ o.keys, i < width
  reverse : o.reverse.length = o.keys.length
  nullsFirst : o.nullsFirst.length = o.keys.length

variable {width : Nat} {o : ColumnOrder}

/-- An order of a query fits rows that it is found in. -/
theorem fitsIn_ofOrderBy? {ob : OrderBy} {outputs : List Symbol}
    (h : ofOrderBy? ob outputs = some o) : o.FitsIn outputs.length := by
  obtain ⟨keys, hkeys, rfl⟩ := Option.map_eq_some_iff.mp h
  have hread := forall₂_of_option_mapM hkeys
  have hlength : ob.keys.length = keys.length := by
    rw [← hread.length_eq, OrderBy.symbols, List.length_map]
  refine ⟨fun i hi => ?_, ?_, ?_⟩
  · obtain ⟨s, -, hs⟩ := exists_of_mem_right hread hi
    exact Symbol.position?_lt hs
  · rw [OrderBy.withKeys, OrderBy.reverseFlags, List.length_map, hlength]
  · rw [OrderBy.withKeys, OrderBy.nullsFirstFlags, List.length_map, hlength]

/-- Rows that are laid out anew have all columns of an order that is found in them. -/
theorem lt_of_mem_remap? {source target : List Symbol} {p : ColumnOrder}
    (h : o.remap? source target = some p) : ∀ i ∈ p.keys, i < target.length := by
  obtain ⟨keys, hkeys, rfl⟩ := Option.map_eq_some_iff.mp h
  intro i hi
  obtain ⟨j, -, hj⟩ := exists_of_mem_right (forall₂_of_option_mapM hkeys) hi
  obtain ⟨s, -, hs⟩ := Option.bind_eq_some_iff.mp hj
  exact Symbol.position?_lt hs

/-- An order that is found in rows that are laid out anew fits these. -/
theorem FitsIn.remap? (ho : o.FitsIn width) {source target : List Symbol} {p : ColumnOrder}
    (h : o.remap? source target = some p) : p.FitsIn target.length := by
  have hlt := lt_of_mem_remap? h
  obtain ⟨keys, hkeys, rfl⟩ := Option.map_eq_some_iff.mp h
  have hread := forall₂_of_option_mapM hkeys
  exact ⟨hlt, ho.reverse.trans hread.length_eq, ho.nullsFirst.trans hread.length_eq⟩

theorem FitsIn.inputColumns (ho : o.FitsIn width) : ∀ s ∈ o.inputColumns, s.FitsIn width := by
  intro s hs
  obtain ⟨i, hi, rfl⟩ := List.mem_map.mp hs
  exact Symbol.fitsIn_input.mpr (ho.keys i hi)

end ColumnOrder

/-! ### Projections -/

namespace Projection

/-- The symbols of a projection. -/
def symbols : Projection → List Symbol
  | aggregation aggregations _ _ => aggregations.flatMap (·.inputs)
  | group keys values _ _ => keys ++ values.flatMap (·.inputs)
  | filter query _ => [query]
  | topN _ outputs | eval outputs => outputs
  | orderedTopN _ outputs order => outputs ++ order.keys

/-- The projection works on rows of the width `m`, and gives rows of the width `n`. -/
structure Takes (p : Projection) (m n : Nat) : Prop where
  fits : ∀ s ∈ p.symbols, s.FitsIn m
  width : p.width?.getD m = n

/-- The projections, one after the other, go from rows of the width `m` to rows of the width `n`. -/
inductive Chain (m : Nat) : List Projection → Nat → Prop where
  | nil : Chain m [] m
  | snoc {ps : List Projection} {p : Projection} {n k : Nat} (chain : Chain m ps n)
      (takes : p.Takes n k) : Chain m (ps ++ [p]) k

theorem Chain.append {m n : Nat} {ps qs : List Projection} (h : Chain m ps n)
    (hqs : ∀ q ∈ qs, q.Takes n n) : Chain m (ps ++ qs) n := by
  induction qs generalizing ps with
  | nil =>
    rw [List.append_nil]
    exact h
  | cons q qs ih =>
    rw [List.forall_mem_cons] at hqs
    rw [List.append_cons]
    exact ih (h.snoc hqs.1) hqs.2

variable {inputs keys aggregates outputs : List Symbol} {mode : AggregateMode}
  {scope : Granularity} {p : Projection}

theorem takes_aggregationOf (h : aggregationOf inputs aggregates mode scope = .ok p) :
    p.Takes inputs.length aggregates.length := by
  obtain ⟨ags, hags, rfl⟩ := Engine.aggregationOf_eq_ok h
  have hread := forall₂_of_except_mapM hags
  refine ⟨fun s hs => ?_, hread.length_eq.symm⟩
  obtain ⟨a, ha, hs⟩ := List.mem_flatMap.mp hs
  obtain ⟨c, -, hc⟩ := exists_of_mem_right hread ha
  exact Aggregation.fitsIn_ofCall hc s hs

theorem takes_groupOf (h : groupOf inputs keys aggregates mode scope = .ok p) :
    p.Takes inputs.length (keys ++ aggregates).length := by
  obtain ⟨keys', ags, hkeys, hags, rfl⟩ := Engine.groupOf_eq_ok h
  have hread := forall₂_of_except_mapM hags
  refine ⟨fun s hs => ?_, ?_⟩
  · rcases List.mem_append.mp hs with hs | hs
    · exact Symbol.fitsIn_readAllFrom hkeys s hs
    · obtain ⟨a, ha, hs⟩ := List.mem_flatMap.mp hs
      obtain ⟨c, -, hc⟩ := exists_of_mem_right hread ha
      exact Aggregation.fitsIn_ofCall hc s hs
  · show keys'.length + ags.length = _
    rw [List.length_append, Engine.length_of_readAllFrom hkeys, hread.length_eq]

theorem takes_filterOf {having : Symbol} (h : filterOf inputs having = .ok p) :
    p.Takes inputs.length inputs.length := by
  obtain ⟨query, hquery, h⟩ := except_bind_eq_ok.mp h
  cases h
  refine ⟨fun s hs => ?_, rfl⟩
  rw [List.mem_singleton.mp hs]
  exact Symbol.fitsIn_readFrom hquery

theorem takes_arrange {order : Option OrderBy} {window : Window}
    (h : arrange inputs order window outputs = .ok p) :
    p.Takes inputs.length outputs.length := by
  obtain ⟨outs, houts, h⟩ := except_bind_eq_ok.mp h
  have hlength := Engine.length_of_readAllFrom houts
  have hfits := Symbol.fitsIn_readAllFrom houts
  cases order with
  | none =>
    cases h
    split <;> exact ⟨hfits, hlength⟩
  | some o =>
    obtain ⟨keys, hkeys, h⟩ := except_bind_eq_ok.mp h
    cases h
    refine ⟨fun s hs => ?_, hlength⟩
    rcases List.mem_append.mp hs with hs | hs
    · exact hfits s hs
    · exact Symbol.fitsIn_readAllFrom hkeys s hs

/-- A cut passes all columns on. -/
theorem takes_topN (window : Window) (width : Nat) :
    (topN window (Symbol.inputColumns width)).Takes width width :=
  ⟨fun _ hs => Symbol.fitsIn_inputColumns hs, Symbol.length_inputColumns width⟩

/-- Sorting by columns passes all columns on. -/
theorem takes_orderedTopN (window : Window) {width : Nat} {o : ColumnOrder} (ho : o.FitsIn width) :
    (orderedTopN window (Symbol.inputColumns width) { o with keys := o.inputColumns }).Takes
      width width := by
  refine ⟨fun s hs => ?_, Symbol.length_inputColumns width⟩
  rcases List.mem_append.mp hs with hs | hs
  · exact Symbol.fitsIn_inputColumns hs
  · exact ho.inputColumns s hs

end Projection

end ShardedQuery

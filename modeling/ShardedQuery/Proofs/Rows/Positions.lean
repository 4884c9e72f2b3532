import ShardedQuery.Proofs.Rows.Comparing
import ShardedQuery.Proofs.Semantics.Orders
import ShardedQuery.Proofs.Symbol.Valuations

/-!
# Orders by position

A query sorts by the values of symbols, a plan by columns of rows that are found by position.  The
same symbol may stand in several columns, of the rows that an order comes from as well as of the rows
that it goes to.  Wherever it is found, rows compare as the values of the symbols do.

* `SortKey.compare`, `OrderBy.compare` — the comparison that a query asks for, from the values of
  its symbols alone.
* `ColumnOrder.ofOrderBy?_eq_none_iff`, `ColumnOrder.remap?_eq_none_iff` — when an order is lost.
* `ColumnOrder.compareRows_ofOrderBy?` — rows compare by positions as the query asks.
* `ColumnOrder.compareRows_remap?` — rows that are laid out anew compare as before.
* `ColumnOrder.compareRows_of_positions` — **orders survive a new layout of the rows**.
-/

namespace ShardedQuery

/-! ### The order of a query -/

/-- The order of two values by a sort key.  Nulls are equal, and come before or after all other
values whatever the direction. -/
def SortKey.compare (k : SortKey) : Literal → Literal → Ordering
  | .null, .null => .eq
  | .null, _ => if k.nullsFirst then .lt else .gt
  | _, .null => if k.nullsFirst then .gt else .lt
  | a, b => if k.reverse then b.compare a else a.compare b

/-- The order of two rows that give symbols the values `v` and `w`: the first sort key decides that
does not leave them equal. -/
def OrderBy.compare (o : OrderBy) (v w : Symbol → Literal) : Ordering :=
  o.keys.foldr (fun k rest => (k.compare (v k.symbol) (w k.symbol)).then rest) .eq

namespace ColumnOrder

/-- Two values compare in a sorted column as by the sort key. -/
theorem compareColumn_some (k : SortKey) (a b : Literal) :
    compareColumn k.reverse k.nullsFirst (some a) (some b) = k.compare a b := by
  have hvalues : (if k.reverse then (a.compare b).swap else a.compare b) =
      if k.reverse then b.compare a else a.compare b := by
    rw [Literal.compare_swap a b]
  cases a <;> cases b <;> first | rfl | exact hvalues

/-! ### Orders that are lost -/

/-- An order is lost if and only if a sort symbol is no column. -/
theorem ofOrderBy?_eq_none_iff {o : OrderBy} {outputs : List Symbol} :
    ofOrderBy? o outputs = none ↔ ∃ s ∈ o.symbols, ∀ b ∈ outputs, (b == s) = false := by
  simp only [ofOrderBy?, Option.map_eq_none_iff, option_mapM_eq_none_iff, position?_eq_none_iff]

/-- An order is lost in a new layout if and only if a sorted column is not there, or its symbol is no
column of the new layout. -/
theorem remap?_eq_none_iff {p : ColumnOrder} {source target : List Symbol} :
    p.remap? source target = none ↔ ∃ i ∈ p.keys, source.length ≤ i ∨
      ∃ s, source[i]? = some s ∧ ∀ b ∈ target, (b == s) = false := by
  have hcolumn : ∀ i, (source[i]?).bind (position? target) = none ↔ source.length ≤ i ∨
      ∃ s, source[i]? = some s ∧ ∀ b ∈ target, (b == s) = false := by
    intro i
    rw [← List.getElem?_eq_none_iff]
    cases source[i]? with
    | none => simp
    | some s => simp [position?_eq_none_iff]
  simp only [remap?, Option.map_eq_none_iff, option_mapM_eq_none_iff, hcolumn]

/-! ### Rows of values -/

variable {v w : Symbol → Literal}

/-- **Rows compare by the positions of the sort symbols as the query asks.** -/
theorem compareRows_ofOrderBy? (hv : Symbol.IsValuation v) (hw : Symbol.IsValuation w)
    {o : OrderBy} {source : List Symbol} {p : ColumnOrder} (h : ofOrderBy? o source = some p) :
    p.compareRows (source.map v) (source.map w) = o.compare v w := by
  obtain ⟨places, hplaces, rfl⟩ := Option.map_eq_some_iff.mp h
  replace hplaces := forall₂_of_option_mapM hplaces
  rw [OrderBy.symbols, List.forall₂_map_left_iff] at hplaces
  show compareBy places (o.keys.map (·.reverse)) (o.keys.map (·.nullsFirst)) _ _ =
    o.keys.foldr _ .eq
  clear h
  -- key by key, each with its place and its two flags
  generalize o.keys = keys at hplaces ⊢
  induction hplaces with
  | nil => rfl
  | @cons k i keys places hi _ ih =>
    have hkey : compareColumn k.reverse k.nullsFirst (source.map v)[i]? (source.map w)[i]? =
        k.compare (v k.symbol) (w k.symbol) := by
      rw [hv.getElem?_row hi, hw.getElem?_row hi, compareColumn_some]
    rw [List.foldr_cons, ← hkey, ← ih]
    rfl

/-- **Rows compare in a new layout as in the old one.** -/
theorem compareRows_remap? (hv : Symbol.IsValuation v) (hw : Symbol.IsValuation w)
    {p q : ColumnOrder} {source target : List Symbol} (h : p.remap? source target = some q) :
    q.compareRows (target.map v) (target.map w) = p.compareRows (source.map v) (source.map w) := by
  obtain ⟨places, hplaces, rfl⟩ := Option.map_eq_some_iff.mp h
  refine (compareBy_congr p.reverse p.nullsFirst ?_).symm
  refine (forall₂_of_option_mapM hplaces).imp fun i j hij => ?_
  obtain ⟨s, hs, hj⟩ := Option.bind_eq_some_iff.mp hij
  -- the old column holds the value of its symbol, and so does the new one
  have hcolumn : ∀ u : Symbol → Literal, Symbol.IsValuation u →
      (source.map u)[i]? = (target.map u)[j]? := by
    intro u hu
    rw [hu.getElem?_row hj, List.getElem?_map, hs, Option.map_some]
  rw [hcolumn v hv, hcolumn w hw]
  exact ⟨rfl, rfl⟩

/-- **Orders by position survive a new layout of the rows.**  Two rows are given by the values `v`
and `w` of the symbols.

* The order of a query is found in rows unless one of its symbols is no column.  It then sorts by
  columns that are there, and the rows compare by it as their values do by the query.
* An order by columns is found in a new layout unless a sorted column was not there or its symbol is
  no column of the new layout.  It then sorts by columns that are there, and the rows compare in the
  new layout as they did in the old one. -/
theorem compareRows_of_positions (o : OrderBy) (source target : List Symbol)
    (hv : Symbol.IsValuation v) (hw : Symbol.IsValuation w) :
    (ofOrderBy? o source = none ↔ ∃ s ∈ o.symbols, ∀ b ∈ source, (b == s) = false) ∧
    (∀ p, ofOrderBy? o source = some p →
      (∀ i ∈ p.keys, i < source.length) ∧
      p.compareRows (source.map v) (source.map w) = o.compare v w) ∧
    ∀ p : ColumnOrder,
      (p.remap? source target = none ↔ ∃ i ∈ p.keys, source.length ≤ i ∨
        ∃ s, source[i]? = some s ∧ ∀ b ∈ target, (b == s) = false) ∧
      ∀ q, p.remap? source target = some q →
        (∀ i ∈ q.keys, i < target.length) ∧
        q.compareRows (target.map v) (target.map w) =
          p.compareRows (source.map v) (source.map w) := by
  refine ⟨ofOrderBy?_eq_none_iff, fun p hp => ?_, fun p => ⟨?_, fun q hq => ?_⟩⟩
  · exact ⟨(fitsIn_ofOrderBy? hp).keys, compareRows_ofOrderBy? hv hw hp⟩
  · exact remap?_eq_none_iff
  · exact ⟨lt_of_mem_remap? hq, compareRows_remap? hv hw hq⟩

/-- Rows with a column twice, of which the new layout has the other one twice.  Both rows have null
in the first sorted column, so the second one decides. -/
theorem compareRows_of_positions_repeated :
    let a : Symbol := .reference ⟨"doc.t", "a", .long⟩
    let b : Symbol := .reference ⟨"doc.t", "b", .long⟩
    let o : OrderBy := ⟨[⟨b, true, true⟩, ⟨a, true, false⟩]⟩
    let p : ColumnOrder := ⟨[1, 0], [true, true], [true, false]⟩
    let q : ColumnOrder := ⟨[0, 2], [true, true], [true, false]⟩
    let row (n : Int64) : Symbol → Literal :=
      Symbol.valueOver (fun _ values => values.headD .null)
        (fun s => if s == a then .int n else .null) []
    ofOrderBy? o [a, b, a] = some p ∧ p.remap? [a, b, a] [b, b, a] = some q ∧
      p.compareRows ([a, b, a].map (row 1)) ([a, b, a].map (row 2)) = .gt ∧
      q.compareRows ([b, b, a].map (row 1)) ([b, b, a].map (row 2)) = .gt := by
  intro a b o p q row
  have hrow : ∀ n, Symbol.IsValuation (row n) := fun n =>
    Symbol.isValuation_of_computesCalls (Symbol.computesCalls_valueOver _ _ [] []) fun _ _ _ => rfl
  have hp : ofOrderBy? o [a, b, a] = some p := by decide
  have hq : p.remap? [a, b, a] [b, b, a] = some q := by decide
  obtain ⟨-, hfound, hremapped⟩ :=
    compareRows_of_positions o [a, b, a] [b, b, a] (hrow 1) (hrow 2)
  have hquery : o.compare (row 1) (row 2) = .gt := by decide
  have hcompare := (hfound p hp).2.trans hquery
  exact ⟨hp, hq, hcompare, ((hremapped p).2 q hq).2.trans hcompare⟩

end ColumnOrder

end ShardedQuery

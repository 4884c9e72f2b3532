import ShardedQuery.Proofs.Semantics.Reading

/-!
# Orders of rows

An order of a query is by the values of symbols.  Inside a plan it is an order by the columns of
rows, or by symbols over such rows; all of them compare rows as the query does.

* `OrderBy.FoundIn o outputs p` — `p` is the order `o` over rows of the symbols `outputs`.
* `ColumnOrder.remap?_of_ofOrderBy?` — an order of a query survives a new layout if and only if it is
  found in it.
* `Engine.compareRows_of_foundIn` — rows compare by columns as their places do by symbols.
* `Engine.le_readAllFrom`, `Engine.le_inputColumns` — so they do by symbols that read columns.
* `Engine.leOf` — the comparison of an order, if there is one.
-/

namespace ShardedQuery

/-- The order by columns that an order of a query is over rows of some symbols. -/
def OrderBy.FoundIn (o : OrderBy) (outputs : List Symbol) (p : ColumnOrder) : Prop :=
  ∃ ks, p = o.withKeys ks ∧
    List.Forall₂ (fun s i => ∃ y, outputs[i]? = some y ∧ (y == s) = true) o.symbols ks

namespace ColumnOrder

theorem foundIn_of_ofOrderBy? {o : OrderBy} {outputs : List Symbol} {p : ColumnOrder}
    (h : ofOrderBy? o outputs = some p) : o.FoundIn outputs p := by
  obtain ⟨ks, hks, rfl⟩ := Option.map_eq_some_iff.mp h
  exact ⟨ks, rfl, (forall₂_of_option_mapM hks).imp fun s i => position?_eq_some⟩

/-- An order by symbols that are columns is found. -/
theorem exists_ofOrderBy? {o : OrderBy} {outputs : List Symbol}
    (h : ∀ s ∈ o.symbols, ∃ y ∈ outputs, (y == s) = true) : ∃ p, ofOrderBy? o outputs = some p := by
  have hks : ∀ ss : List Symbol, (∀ s ∈ ss, ∃ y ∈ outputs, (y == s) = true) →
      ∃ ks, ss.mapM (position? outputs) = some ks := by
    intro ss hss
    induction ss with
    | nil => exact ⟨[], rfl⟩
    | cons s ss ih =>
      obtain ⟨y, hy, hys⟩ := hss s (by simp)
      obtain ⟨i, hi⟩ := position?_isSome hy hys
      obtain ⟨ks, hks⟩ := ih fun s hs => hss s (by simp [hs])
      exact ⟨i :: ks, by rw [List.mapM_cons, hi, hks]; rfl⟩
  obtain ⟨ks, hks⟩ := hks o.symbols h
  exact ⟨o.withKeys ks, by rw [ofOrderBy?, hks]; rfl⟩

/-- An order that is found in rows is still found after they are laid out anew. -/
theorem foundIn_of_remap? {o : OrderBy} {source target : List Symbol} {p q : ColumnOrder}
    (h : o.FoundIn source p) (hq : p.remap? source target = some q) : o.FoundIn target q := by
  obtain ⟨ks, rfl, hks⟩ := h
  obtain ⟨ls, hls, rfl⟩ := Option.map_eq_some_iff.mp hq
  refine ⟨ls, rfl, ?_⟩
  have hmap := forall₂_of_option_mapM hls
  change List.Forall₂ _ ks ls at hmap
  clear hls hq
  generalize o.symbols = ss at hks ⊢
  induction hks generalizing ls with
  | nil => cases hmap; exact .nil
  | cons hsi _ ih =>
    cases hmap with
    | cons hij hmap =>
      obtain ⟨y, hy, hys⟩ := hsi
      obtain ⟨y', hy', hpos⟩ := Option.bind_eq_some_iff.mp hij
      rw [hy] at hy'
      cases hy'
      obtain ⟨z, hz, hzy⟩ := position?_eq_some hpos
      exact .cons ⟨z, hz, Symbol.beq_trans hzy hys⟩ (ih _ hmap)

/-- An order that is found in rows is sought in rows that are laid out anew as the query says. -/
theorem remap?_of_ofOrderBy? {o : OrderBy} {source : List Symbol} {p : ColumnOrder}
    (h : ofOrderBy? o source = some p) (target : List Symbol) :
    p.remap? source target = ofOrderBy? o target := by
  obtain ⟨ks, hks, rfl⟩ := Option.map_eq_some_iff.mp h
  have hplaces : ks.mapM (fun i => (source[i]?).bind (position? target)) =
      o.symbols.mapM (position? target) := by
    replace hks := forall₂_of_option_mapM hks
    clear h
    generalize o.symbols = ss at hks ⊢
    induction hks with
    | nil => rfl
    | cons hsi _ ih =>
      obtain ⟨y, hy, hys⟩ := position?_eq_some hsi
      rw [List.mapM_cons, List.mapM_cons, ih, hy, Option.bind_some, Symbol.position?_congr hys]
  rw [remap?, ofOrderBy?, ← hplaces]
  rfl

/-- The columns of an order that is found in rows are what its symbols are read from. -/
theorem readAllFrom_of_ofOrderBy? {o : OrderBy} {inputs : List Symbol} {p : ColumnOrder}
    (h : ofOrderBy? o inputs = some p) :
    Symbol.readAllFrom inputs o.symbols = .ok p.inputColumns := by
  obtain ⟨ks, hks, rfl⟩ := Option.map_eq_some_iff.mp h
  show _ = Except.ok (ks.map Symbol.input)
  replace hks := forall₂_of_option_mapM hks
  clear h
  generalize o.symbols = ss at hks ⊢
  induction hks with
  | nil => rfl
  | cons hsi _ ih =>
    rw [Symbol.readAllFrom, Symbol.readFrom_of_position? hsi, ih]
    rfl

/-- Rows compare alike whose sorted columns have equal values, or none. -/
theorem compareBy_congr {a b a' b' : Row} {is js : List Nat} (reverse nullsFirst : List Bool)
    (h : List.Forall₂ (fun i j => Literal.nonNull? a[i]? = Literal.nonNull? a'[j]? ∧
      Literal.nonNull? b[i]? = Literal.nonNull? b'[j]?) is js) :
    compareBy is reverse nullsFirst a b = compareBy js reverse nullsFirst a' b' := by
  induction h generalizing reverse nullsFirst with
  | nil => rfl
  | cons hij _ ih => rw [compareBy, compareBy, compareColumn, compareColumn, hij.1, hij.2, ih]

end ColumnOrder

namespace Engine

variable (E : Engine)

/-- The comparison of an order; without an order all places are equal. -/
def leOf (o : Option OrderBy) (x y : Scope) : Bool := o.all fun o => E.le o.spec x y

/-- **Rows compare by columns as their places do by symbols.** -/
theorem compareRows_of_foundIn {o : OrderBy} {outputs : List Symbol} {p : ColumnOrder}
    (h : o.FoundIn outputs p) (x y : Scope) :
    (p.compareRows (E.values x outputs) (E.values y outputs)).isLE = E.le o.spec x y := by
  obtain ⟨ks, rfl, hks⟩ := h
  have hfound : ∀ (z : Scope) (s : Symbol) (i : Nat),
      (∃ t, outputs[i]? = some t ∧ (t == s) = true) →
      (E.values z outputs)[i]? = some (E.value z s) := by
    rintro z s i ⟨t, ht, hts⟩
    rw [values_eq, List.getElem?_map, ht, Option.map_some, E.value_congr z hts]
  have hkey : ∀ (z : Scope) (i : Nat) (hi : i < o.symbols.length),
      (E.values z o.symbols)[i]? = some (E.value z o.symbols[i]) := by
    intro z i hi
    rw [values_eq, List.getElem?_map, List.getElem?_eq_getElem hi, Option.map_some]
  have hcolumns : List.Forall₂ (fun i j =>
      Literal.nonNull? (E.values x outputs)[i]? = Literal.nonNull? (E.values x o.symbols)[j]? ∧
      Literal.nonNull? (E.values y outputs)[i]? = Literal.nonNull? (E.values y o.symbols)[j]?)
      ks (List.range o.symbols.length) := by
    rw [List.forall₂_iff_get] at hks ⊢
    refine ⟨by rw [List.length_range, hks.1], fun i hi hj => ?_⟩
    rw [List.length_range] at hj
    have hi' := hks.2 i hj hi
    simp only [List.get_eq_getElem, List.getElem_range] at hi' ⊢
    rw [hfound x _ _ hi', hfound y _ _ hi', hkey x i hj, hkey y i hj]
    exact ⟨rfl, rfl⟩
  exact congrArg Ordering.isLE
    (ColumnOrder.compareBy_congr o.reverseFlags o.nullsFirstFlags hcolumns)

/-- Rows of values compare by columns as they do by symbols that read the columns. -/
theorem compareRows_inRow (p : ColumnOrder) (x y : E.Tuple) :
    (p.compareRows (x.map Cell.literal) (y.map Cell.literal)).isLE =
      E.le { p with keys := p.inputColumns } (E.inRow x) (E.inRow y) := by
  have hcolumn : ∀ (z : E.Tuple) (k : Nat) (hk : k < p.keys.length),
      Literal.nonNull? (z.map Cell.literal)[p.keys[k]]? =
        Literal.nonNull? (E.values (E.inRow z) p.inputColumns)[k]? := by
    intro z k hk
    rw [values_eq, ColumnOrder.inputColumns, List.map_map, List.getElem?_map, List.getElem?_map,
      List.getElem?_eq_getElem hk, Option.map_some]
    show _ = Literal.nonNull? (some ((z[p.keys[k]]?).elim .null Cell.literal))
    cases z[p.keys[k]]? <;> rfl
  have hcolumns : List.Forall₂ (fun i j =>
      Literal.nonNull? (x.map Cell.literal)[i]? =
        Literal.nonNull? (E.values (E.inRow x) p.inputColumns)[j]? ∧
      Literal.nonNull? (y.map Cell.literal)[i]? =
        Literal.nonNull? (E.values (E.inRow y) p.inputColumns)[j]?)
      p.keys (List.range p.inputColumns.length) := by
    rw [List.forall₂_iff_get]
    refine ⟨by rw [ColumnOrder.inputColumns, List.length_range, List.length_map], fun k hk _ => ?_⟩
    simp only [List.get_eq_getElem, List.getElem_range]
    exact ⟨hcolumn x k hk, hcolumn y k hk⟩
  exact congrArg Ordering.isLE (ColumnOrder.compareBy_congr p.reverse p.nullsFirst hcolumns)

/-- Orders with the same flags compare alike where their keys have the same values. -/
theorem le_congr {o : OrderBy} {keys keys' : List Symbol} {x y x' y' : Scope}
    (hx : E.values x keys = E.values x' keys') (hy : E.values y keys = E.values y' keys') :
    E.le (o.withKeys keys) x y = E.le (o.withKeys keys') x' y' := by
  have hlen : keys.length = keys'.length := by
    have := congrArg List.length hx
    rwa [values_eq, values_eq, List.length_map, List.length_map] at this
  unfold le SortSpec.onValues
  rw [show (o.withKeys keys).keys = keys from rfl, show (o.withKeys keys').keys = keys' from rfl,
    hx, hy, hlen]
  rfl

/-- **Rows compare by symbols read from the columns as their places do by the symbols.** -/
theorem le_readAllFrom {o : OrderBy} {inputs keys : List Symbol}
    (h : ∀ s ∈ o.symbols, s.ReadableFrom inputs)
    (hkeys : Symbol.readAllFrom inputs o.symbols = .ok keys) (x y : Scope) :
    E.le (o.withKeys keys) (E.inRow (E.tuple inputs x)) (E.inRow (E.tuple inputs y)) =
      E.le o.spec x y :=
  E.le_congr (E.values_readAllFrom h hkeys x) (E.values_readAllFrom h hkeys y)

/-- Rows compare by the sorted columns as symbols as their places do by the symbols. -/
theorem le_inputColumns {o : OrderBy} {inputs : List Symbol} {p : ColumnOrder}
    (h : o.FoundIn inputs p) (x y : Scope) :
    E.le { p with keys := p.inputColumns } (E.inRow (E.tuple inputs x))
      (E.inRow (E.tuple inputs y)) = E.le o.spec x y := by
  obtain ⟨ks, rfl, hks⟩ := h
  have hvalues : ∀ z : Scope, E.values (E.inRow (E.tuple inputs z)) (ks.map Symbol.input) =
      E.values z o.symbols := by
    intro z
    rw [values_eq, values_eq]
    refine E.map_value_of_forall₂ ((List.forall₂_map_right_iff).mpr (hks.imp fun s i hsi => ?_))
    obtain ⟨t, ht, hts⟩ := hsi
    rw [E.value_input ht z, E.value_congr z hts]
  exact E.le_congr (hvalues x) (hvalues y)

end Engine

end ShardedQuery
